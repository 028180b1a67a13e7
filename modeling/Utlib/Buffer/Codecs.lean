import Utlib.Buffer.Basic
import Utlib.Compressible.Redecode

/-! What `compress` and then `uncompress` leave of a buffer. -/

namespace Utlib.Buffer

open Program Sequence Compressible

def New.Plentiful {T : Type} (new : New T) : Prop := ∀ n, (new.block n).isSome

def Restores (linked : Linked) (codec : Compressor) (offset : Nat) (data : List UInt8) : Prop :=
  ∀ (new new' : New UInt8) (b : Buffer UInt8), new.Plentiful → new'.Plentiful → b.Valid →
    b.contents = data →
    ∃ c d, compress linked codec new offset b = .ok () c ∧
      uncompress linked codec new' offset c = .ok () d ∧
      c.contents.take (min offset b.size) = data.take (min offset b.size) ∧
      d.size = b.size ∧ d.contents = data

/-- The bytes from `offset` on replaced by what `f` makes of them. -/
def spliced (f : List UInt8 → List UInt8) (offset : Nat) (data : List UInt8) : List UInt8 :=
  data.take offset ++ f (data.drop offset)

/-- `algo` appends what `f` makes of its input, and nothing for no input. -/
structure Appends (algo : Algorithm) (f : List UInt8 → List UInt8) : Prop where
  nil : f [] = []
  ok : ∀ buffer result, algo buffer result = .ok (result ++ f buffer)

section Recode

variable {algo algo' : Algorithm} {f g : List UInt8 → List UInt8} {offset : Nat} {b : Buffer UInt8}

theorem recoded_eq (h : b.Valid) (hf : Appends algo f) :
    recoded algo offset b = .ok (spliced f offset b.contents) := by
  have hlen := h.size_eq
  rw [recoded, spliced]
  split
  · next hlt =>
    rw [hf.ok, slice, hlen, min_eq_left (by omega), List.take_of_length_le (l := List.drop _ _)
      (List.length_drop ▸ le_rfl)]
  · next hge =>
    rw [hlen, min_eq_right (by omega), List.take_length, List.drop_eq_nil_of_le (by omega), hf.nil,
      List.take_of_length_le (by omega), List.append_nil]

theorem recode_ok (offset : Nat) (h : b.Valid) (hf : Appends algo f) {new : New UInt8}
    (hnew : new.Plentiful) :
    ∃ t, recode algo new offset b = .ok () t ∧ t.Valid ∧
      t.contents = spliced f offset b.contents := by
  have hwp : wp (recode algo new offset)
      (fun _ t => t.Valid ∧ t.contents = spliced f offset b.contents)
      (fun _ _ => new.block (spliced f offset b.contents).length = none) b := by
    rw [recode, wp_bind, wp_look, recoded_eq h hf]
    constructor
    · intro result heq
      cases heq
      exact wp_initVector h new _
    · intro e heq
      cases heq
  obtain ⟨_, t, hok, ht⟩ := hwp.exists_ok fun e t hnone => by
    have hsome := hnew (spliced f offset b.contents).length
    rw [hnone] at hsome
    exact absurd hsome (by simp)
  exact ⟨t, hok, ht⟩

theorem take_spliced (f : List UInt8 → List UInt8) (offset : Nat) (data : List UInt8) :
    (spliced f offset data).take (min offset data.length) = data.take (min offset data.length) := by
  rw [spliced, List.take_append_of_le_length (by simp), List.take_take]
  congr 1
  omega

theorem spliced_spliced (hf : f [] = []) (offset : Nat) (data : List UInt8) :
    spliced g offset (spliced f offset data) = spliced (g ∘ f) offset data := by
  by_cases h : offset ≤ data.length
  · have hlen : (data.take offset).length = offset := List.length_take_of_le h
    have htake : (spliced f offset data).take offset = data.take offset := by
      rw [spliced, List.take_append_of_le_length hlen.ge, List.take_take, min_self]
    have hdrop : (spliced f offset data).drop offset = f (data.drop offset) := by
      rw [spliced, List.drop_append_of_le_length hlen.ge, List.drop_take_self, List.nil_append]
    rw [spliced, htake, hdrop]
    rfl
  · have hdrop : data.drop offset = [] := List.drop_eq_nil_of_le (by omega)
    have hself : spliced f offset data = data := by
      rw [spliced, hdrop, hf, List.append_nil, List.take_of_length_le (by omega)]
    rw [hself, spliced, spliced, hdrop, Function.comp_apply, hf]

theorem spliced_eq_self_iff (f : List UInt8 → List UInt8) (offset : Nat) (data : List UInt8) :
    spliced f offset data = data ↔ f (data.drop offset) = data.drop offset := by
  rw [spliced]
  constructor
  · intro h
    exact List.append_cancel_left (h.trans (List.take_append_drop offset data).symm)
  · intro h
    rw [h, List.take_append_drop]

end Recode

section Restoring

variable {algo algo' : Algorithm} {f g : List UInt8 → List UInt8} {linked : Linked}
  {codec : Compressor}

def New.zeroed : New UInt8 where
  block n := some ⟨0, List.replicate n 0⟩
  length_cells n b h := by
    cases h
    exact List.length_replicate

theorem New.plentiful_zeroed : New.zeroed.Plentiful := fun _ => rfl

def holding (data : List UInt8) : Buffer UInt8 where
  ptr := if data = [] then none else some ⟨0, data⟩
  size := data.length

theorem contents_holding (data : List UInt8) : (holding data).contents = data := by
  cases data <;> rfl

theorem valid_holding (data : List UInt8) : (holding data).Valid where
  size_eq := by rw [contents_holding]; rfl
  null_iff := by cases data <;> simp [holding]

theorem restores_iff (hf : Appends algo f) (hg : Appends algo' g)
    (hc : ∀ new offset, compress linked codec new offset = recode algo new offset)
    (hu : ∀ new offset, uncompress linked codec new offset = recode algo' new offset)
    (offset : Nat) (data : List UInt8) :
    Restores linked codec offset data ↔ g (f (data.drop offset)) = data.drop offset := by
  have hrun : ∀ {new new' : New UInt8} {b : Buffer UInt8}, new.Plentiful → new'.Plentiful →
      b.Valid → b.contents = data → ∃ c d, recode algo new offset b = .ok () c ∧
        recode algo' new' offset c = .ok () d ∧ c.contents = spliced f offset data ∧ d.Valid ∧
        d.contents = spliced (g ∘ f) offset data := by
    intro new new' b hnew hnew' hvalid hdata
    obtain ⟨c, hc, hcvalid, hcontents⟩ := recode_ok offset hvalid hf hnew
    obtain ⟨d, hd, hdvalid, hdcontents⟩ := recode_ok offset hcvalid hg hnew'
    rw [hdata] at hcontents
    rw [hcontents, spliced_spliced hf.nil] at hdcontents
    exact ⟨c, d, hc, hd, hcontents, hdvalid, hdcontents⟩
  rw [← Function.comp_apply (f := g) (g := f), ← spliced_eq_self_iff]
  constructor
  · intro h
    obtain ⟨c, d, hc', hd', -, -, hback⟩ := h .zeroed .zeroed (holding data) New.plentiful_zeroed
      New.plentiful_zeroed (valid_holding data) (contents_holding data)
    obtain ⟨c', d', hc'', hd'', -, -, hdata⟩ := hrun New.plentiful_zeroed New.plentiful_zeroed
      (valid_holding data) (contents_holding data)
    rw [hc, hc''] at hc'
    cases hc'
    rw [hu, hd''] at hd'
    cases hd'
    rw [← hdata, hback]
  · intro h new new' b hnew hnew' hvalid hdata
    obtain ⟨c, d, hc', hd', hcontents, hdvalid, hdcontents⟩ := hrun hnew hnew' hvalid hdata
    rw [h] at hdcontents
    refine ⟨c, d, by rw [hc, hc'], by rw [hu, hd'], ?_, ?_, hdcontents⟩
    · rw [hcontents, hvalid.size_eq, hdata, take_spliced]
    · rw [hdvalid.size_eq, hvalid.size_eq, hdcontents, hdata]

theorem appends_rle2 : Appends (fun buffer result => .ok (rle2 buffer result)) (rle 2 · []) where
  nil := by rw [rle, rleLoop, encode, appendRunlengths, if_neg (by decide)]; rfl
  ok buffer result := congrArg Except.ok (rle_append 2 buffer result)

theorem appends_unrle (n : Nat) :
    Appends (fun buffer result => .ok (unrle n buffer result)) (unrle n · []) where
  nil := rfl
  ok buffer result := congrArg Except.ok (unrle_append n buffer result)

theorem restores_rle2 (linked : Linked) (offset : Nat) (data : List UInt8) :
    Restores linked .rle2 offset data := by
  rw [restores_iff appends_rle2 (appends_unrle 2) (fun _ _ => rfl) (fun _ _ => rfl)]
  exact unrle_rle_nil (by decide) _

theorem restores_rle3_iff (linked : Linked) (offset : Nat) (data : List UInt8) :
    Restores linked .rle3 offset data ↔
      unrle 3 (unrle 3 (data.drop offset) []) [] = data.drop offset :=
  restores_iff (appends_unrle 3) (appends_unrle 3) (fun _ _ => rfl) (fun _ _ => rfl) offset data

theorem run_length_codecs_restore (linked : Linked) (offset : Nat) (data : List UInt8) :
    Restores linked .rle2 offset data ∧
      (Kept 3 (data.drop offset) → Restores linked .rle3 offset data) ∧
      (Restores linked .rle3 offset data →
        Kept 3 (data.drop offset) ∨ Unsettled 3 (data.drop offset)) := by
  refine ⟨restores_rle2 linked offset data, ?_, ?_⟩
  · intro h
    exact (restores_rle3_iff linked offset data).2 h.unrle_twice
  · intro h
    exact kept_or_unsettled_of_unrle_twice ((restores_rle3_iff linked offset data).1 h)

theorem rle3_loses_run : ¬∀ linked, Restores linked .rle3 0 [5, 5, 5, 2] := by
  intro h
  have hlinked : Algorithm := fun _ result => .ok result
  have hdata := (restores_rle3_iff ⟨hlinked, hlinked, hlinked, hlinked⟩ 0 [5, 5, 5, 2]).1 (h _)
  exact absurd hdata (by decide)

end Restoring

end Utlib.Buffer
