import Utlib.Dumpable.Passes

/-! Which format strings bring `dump` to its regular end. -/

namespace Utlib.Dumpable

section Cursors

/-- How far a directive moves the cursor of the data. -/
def Directive.bytes : Directive → Nat
  | byte => 1
  | word => 2
  | long => 4
  | _ => 0

/-- How far a directive moves the cursor of the characters, while there are any left. -/
def Directive.chars : Directive → Nat
  | text => 1
  | character => 1
  | _ => 0

def Item.bytes : Item → Nat
  | ordinary _ _ => 0
  | directive _ d => d.bytes

def Item.chars : Item → Nat
  | ordinary _ _ => 0
  | directive _ d => d.chars

/-- `t` is so many bytes and characters further than `s`. -/
def Moved (len bytes chars : Nat) (s t : State) : Prop :=
  t.bcnt = s.bcnt + bytes ∧ t.ccnt = min (s.ccnt + chars) len

theorem Moved.refl {len : Nat} {s : State} (h : s.ccnt ≤ len) : Moved len 0 0 s s :=
  ⟨rfl, (min_eq_left h).symm⟩

theorem Moved.trans {len b c b' c' : Nat} {s t u : State} (h : Moved len b c s t)
    (h' : Moved len b' c' t u) : Moved len (b + b') (c + c') s u := by
  obtain ⟨hb, hc⟩ := h
  obtain ⟨hb', hc'⟩ := h'
  exact ⟨by omega, by omega⟩

theorem Moved.le {len b c : Nat} {s t : State} (h : Moved len b c s t) : t.ccnt ≤ len := by
  rw [h.2]
  exact min_le_right _ _

variable {data : List UInt8} {opt : DumpOpt} {nrStart offsetStart : Int}

theorem moved_dumpData {size : Nat} {s t : State} (hs : s.ccnt ≤ data.length)
    (h : dumpData .unbounded opt (dataProvider data) size s = .ok t) :
    Moved data.length size 0 s t := by
  cases h
  exact ⟨rfl, (min_eq_left hs).symm⟩

theorem moved_dumpChar {shown : Int → Char} {s t : State} (hs : s.ccnt ≤ data.length)
    (h : dumpChar .unbounded (dataProvider data) shown s = .ok t) :
    Moved data.length 0 1 s t := by
  rw [dumpChar, dataProvider_one] at h
  rcases hs.lt_or_eq with hlt | heq
  · rw [List.getElem?_eq_getElem hlt, Option.map_some] at h
    cases h
    exact ⟨rfl, (min_eq_left hlt).symm⟩
  · rw [List.getElem?_eq_none heq.ge, Option.map_none] at h
    cases h
    refine ⟨rfl, ?_⟩
    rw [min_eq_right (by omega)]
    exact heq

theorem moved_directive {d : Directive} {s t : State} (hs : s.ccnt ≤ data.length)
    (h : directive .unbounded opt (dataProvider data) nrStart offsetStart d.letter s = .ok t) :
    Moved data.length d.bytes d.chars s t := by
  cases d with
  | lineNumber =>
    cases h
    exact .refl hs
  | offset =>
    cases h
    exact .refl hs
  | text => exact moved_dumpChar hs h
  | character => exact moved_dumpChar hs h
  | byte => exact moved_dumpData hs h
  | word => exact moved_dumpData hs h
  | long => exact moved_dumpData hs h

theorem moved_ordinary {c : Char} (h : c ≠ '%') {s t : State} (hctrl : s.ctrl = false)
    (hs : s.ccnt ≤ data.length)
    (ht : step .unbounded opt (dataProvider data) nrStart offsetStart s c = .ok t) :
    Moved data.length 0 0 s t ∧ t.ctrl = false := by
  rw [step, if_pos (by simp [hctrl]), if_neg h] at ht
  split at ht
  · cases ht
    exact ⟨.refl hs, hctrl⟩
  · cases ht
    exact ⟨.refl hs, hctrl⟩

theorem moved_percent {s t : State} (hctrl : s.ctrl = false) (hs : s.ccnt ≤ data.length)
    (h : step .unbounded opt (dataProvider data) nrStart offsetStart s '%' = .ok t) :
    Moved data.length 0 0 s t ∧ t.ctrl = true := by
  rw [step, if_pos (by simp [hctrl]), if_pos rfl] at h
  cases h
  exact ⟨.refl hs, rfl⟩

theorem moved_width {width : List (Fin 10)} {s t : State} (hctrl : s.ctrl = true)
    (hs : s.ccnt ≤ data.length)
    (h : scan .unbounded opt (dataProvider data) nrStart offsetStart
      (width.map fun k : Fin 10 => Nat.digitChar k) s = .ok t) :
    Moved data.length 0 0 s t ∧ t.ctrl = true := by
  induction width generalizing s with
  | nil =>
    cases h
    exact ⟨.refl hs, hctrl⟩
  | cons k width ih =>
    obtain ⟨u, hu, ht⟩ := scan_cons_eq_ok.1 h
    rw [step, if_neg (by simp [hctrl]), if_pos (digit_digitChar k)] at hu
    cases hu
    have hrest := ih (by exact hctrl) (by exact hs) ht
    exact hrest

theorem moved_letter {d : Directive} {s t : State} (hctrl : s.ctrl = true)
    (hs : s.ccnt ≤ data.length)
    (h : step .unbounded opt (dataProvider data) nrStart offsetStart s d.letter = .ok t) :
    Moved data.length d.bytes d.chars s t ∧ t.ctrl = false := by
  rw [step, if_neg (by simp [hctrl]), if_neg d.not_digit] at h
  obtain ⟨u, hu, ht⟩ := bind_eq_ok.1 h
  have hmoved := moved_directive hs hu
  cases ht
  exact ⟨hmoved, rfl⟩

/-- `%` and the digits of a width -/
theorem moved_open {width : List (Fin 10)} {s t : State} (hctrl : s.ctrl = false)
    (hs : s.ccnt ≤ data.length)
    (h : scan .unbounded opt (dataProvider data) nrStart offsetStart
      ('%' :: width.map fun k : Fin 10 => Nat.digitChar k) s = .ok t) :
    Moved data.length 0 0 s t ∧ t.ctrl = true := by
  obtain ⟨u, hu, ht⟩ := scan_cons_eq_ok.1 h
  obtain ⟨hmoved, huctrl⟩ := moved_percent hctrl hs hu
  obtain ⟨hmoved', htctrl⟩ := moved_width huctrl hmoved.le ht
  exact ⟨hmoved.trans hmoved', htctrl⟩

theorem moved_item {i : Item} {s t : State} (hctrl : s.ctrl = false) (hs : s.ccnt ≤ data.length)
    (h : scan .unbounded opt (dataProvider data) nrStart offsetStart i.spell s = .ok t) :
    Moved data.length i.bytes i.chars s t ∧ t.ctrl = false := by
  cases i with
  | ordinary c hc =>
    obtain ⟨u, hu, ht⟩ := scan_cons_eq_ok.1 h
    cases ht
    exact moved_ordinary hc.1 hctrl hs hu
  | directive width d =>
    obtain ⟨u, hu, ht⟩ := scan_append_eq_ok.1 h
    obtain ⟨hmoved, huctrl⟩ := moved_open hctrl hs hu
    obtain ⟨v, hv, ht⟩ := scan_cons_eq_ok.1 ht
    cases ht
    obtain ⟨hmoved', htctrl⟩ := moved_letter huctrl hmoved.le hv
    have hboth := hmoved.trans hmoved'
    rw [Nat.zero_add, Nat.zero_add] at hboth
    exact ⟨hboth, htctrl⟩

theorem moved_items {items : List Item} {s t : State} (hctrl : s.ctrl = false)
    (hs : s.ccnt ≤ data.length)
    (h : scan .unbounded opt (dataProvider data) nrStart offsetStart
      (items.flatMap Item.spell) s = .ok t) :
    Moved data.length (items.map Item.bytes).sum (items.map Item.chars).sum s t ∧
      t.ctrl = false := by
  induction items generalizing s with
  | nil =>
    cases h
    exact ⟨.refl hs, hctrl⟩
  | cons i items ih =>
    rw [List.flatMap_cons] at h
    obtain ⟨u, hu, ht⟩ := scan_append_eq_ok.1 h
    obtain ⟨hmoved, huctrl⟩ := moved_item hctrl hs hu
    obtain ⟨hmoved', htctrl⟩ := ih huctrl hmoved.le ht
    rw [List.map_cons, List.sum_cons, List.map_cons, List.sum_cons]
    exact ⟨hmoved.trans hmoved', htctrl⟩

end Cursors

section Reading

/-- A format string that begins in the middle of a directive -/
def Resumes (fmt : List Char) : Prop :=
  ∃ (width : List (Fin 10)) (d : Directive) (rest : List Char),
    fmt = width.map (fun k : Fin 10 => Nat.digitChar k) ++ d.letter :: rest

/-- The last directive of the format string has no letter. -/
def EndsOpen (fmt : List Char) (items : List Item) : Prop :=
  ∃ width : List (Fin 10), fmt = items.flatMap Item.spell ++
    '%' :: width.map (fun k : Fin 10 => Nat.digitChar k)

theorem exists_letter {c : Char} (h : IsLetter c) : ∃ d : Directive, d.letter = c := by
  simp only [IsLetter, List.mem_cons, List.not_mem_nil, or_false] at h
  rcases h with rfl | rfl | rfl | rfl | rfl | rfl | rfl
  · exact ⟨.lineNumber, rfl⟩
  · exact ⟨.offset, rfl⟩
  · exact ⟨.text, rfl⟩
  · exact ⟨.character, rfl⟩
  · exact ⟨.byte, rfl⟩
  · exact ⟨.word, rfl⟩
  · exact ⟨.long, rfl⟩

theorem exists_digitChar {c : Char} (h : '0' ≤ c ∧ c ≤ '9') :
    ∃ k : Fin 10, Nat.digitChar k = c := by
  have hlow : 48 ≤ c.toNat := h.1
  have hhigh : c.toNat ≤ 57 := h.2
  have hdigits : ∀ k : Fin 10, Nat.digitChar k = Char.ofNat (k + 48) := by decide
  refine ⟨⟨c.toNat - 48, by omega⟩, ?_⟩
  rw [hdigits, Nat.sub_add_cancel hlow, Char.ofNat_toNat]

theorem reads_open {cs : List Char} {b : Bool} (h : reads true cs = some b) :
    (∃ width : List (Fin 10), cs = width.map (fun k : Fin 10 => Nat.digitChar k) ∧ b = true) ∨
    ∃ (width : List (Fin 10)) (d : Directive) (rest : List Char),
      cs = width.map (fun k : Fin 10 => Nat.digitChar k) ++ d.letter :: rest ∧
        reads false rest = some b := by
  induction cs with
  | nil => exact .inl ⟨[], rfl, (Option.some.inj h).symm⟩
  | cons c cs ih =>
    rw [reads] at h
    split at h
    · next hdigit =>
      obtain ⟨k, rfl⟩ := exists_digitChar hdigit
      obtain ⟨width, rfl, hb⟩ | ⟨width, d, rest, rfl, hrest⟩ := ih h
      · exact .inl ⟨k :: width, rfl, hb⟩
      · exact .inr ⟨k :: width, d, rest, rfl, hrest⟩
    · split at h
      · next hletter =>
        obtain ⟨d, rfl⟩ := exists_letter hletter
        exact .inr ⟨[], d, cs, rfl, h⟩
      · cases h

/-- What can be read consists of ordinary characters and directives, of which the last one may be
open. -/
theorem exists_items {cs : List Char} {b : Bool} (hnul : '\x00' ∉ cs)
    (h : reads false cs = some b) :
    ∃ items : List Item, (b = false ∧ cs = items.flatMap Item.spell) ∨
      (b = true ∧ EndsOpen cs items) := by
  obtain ⟨n, hn⟩ : ∃ n, n = cs.length := ⟨_, rfl⟩
  induction n using Nat.strongRecOn generalizing cs with
  | ind n ih =>
    have hcons {i : Item} {rest : List Char} (hcs : cs = i.spell ++ rest)
        (hshort : rest.length < cs.length) (hrest : reads false rest = some b) :
        ∃ items : List Item, (b = false ∧ cs = items.flatMap Item.spell) ∨
          (b = true ∧ EndsOpen cs items) := by
      have hnul' : '\x00' ∉ rest := fun hmem => hnul (hcs ▸ List.mem_append_right _ hmem)
      obtain ⟨items, hitems⟩ := ih rest.length (hn ▸ hshort) hnul' hrest rfl
      refine ⟨i :: items, ?_⟩
      rw [EndsOpen, List.flatMap_cons]
      rcases hitems with ⟨hb, hspell⟩ | ⟨hb, width, hspell⟩
      · exact .inl ⟨hb, by rw [hcs, hspell]⟩
      · exact .inr ⟨hb, width, by rw [hcs, hspell, List.append_assoc]⟩
    cases cs with
    | nil => exact ⟨[], .inl ⟨(Option.some.inj h).symm, rfl⟩⟩
    | cons c cs =>
      rw [reads] at h
      by_cases hpercent : c = '%'
      · rw [decide_eq_true hpercent] at h
        subst hpercent
        obtain ⟨width, hwidth, hb⟩ | ⟨width, d, rest, hspell, hrest⟩ := reads_open h
        · exact ⟨[], .inr ⟨hb, width, by rw [hwidth]; rfl⟩⟩
        · have hitem : '%' :: cs = (Item.directive width d).spell ++ rest := by
            rw [hspell, Item.spell, List.cons_append, List.cons_append, List.append_assoc]
            rfl
          refine hcons hitem ?_ hrest
          rw [hspell, List.length_cons, List.length_append, List.length_cons]
          omega
      · rw [decide_eq_false hpercent] at h
        have hne : c ≠ '\x00' := fun hc => hnul (hc ▸ List.mem_cons_self)
        exact hcons (i := .ordinary c ⟨hpercent, hne⟩) rfl (by simp) h

theorem reads_digits (width : List (Fin 10)) (cs : List Char) :
    reads false (width.map (fun k : Fin 10 => Nat.digitChar k) ++ cs) = reads false cs := by
  induction width with
  | nil => rfl
  | cons k width ih =>
    have hdigit : ∀ k : Fin 10, Nat.digitChar k ≠ '%' := by decide
    rw [List.map_cons, List.cons_append, reads, decide_eq_false (hdigit k), ih]

theorem EndsOpen.reads {fmt : List Char} {items : List Item} (h : EndsOpen fmt items) :
    Dumpable.reads false fmt = some true := by
  obtain ⟨width, rfl⟩ := h
  rw [reads_items, Dumpable.reads, decide_eq_true rfl, ← List.append_nil (width.map _), reads_width]
  rfl

/-- A second pass gets as far as the first one if the format string goes on with the directive it
has left open. -/
theorem EndsOpen.reads_true {fmt : List Char} {items : List Item} (h : EndsOpen fmt items)
    (hresumes : Resumes fmt) : Dumpable.reads true fmt = some true := by
  obtain ⟨width, d, rest, hfmt⟩ := hresumes
  have hreads := h.reads
  have hletter : d.letter ≠ '%' := by cases d <;> decide
  rw [hfmt, reads_digits, Dumpable.reads, decide_eq_false hletter] at hreads
  rw [hfmt, reads_width, reads_letter, hreads]

theorem EndsOpen.reads_none {fmt : List Char} {items : List Item} (h : EndsOpen fmt items)
    (hresumes : ¬Resumes fmt) : Dumpable.reads true fmt = none := by
  cases hreads : Dumpable.reads true fmt with
  | none => rfl
  | some b =>
    obtain ⟨width, hfmt, -⟩ | ⟨width, d, rest, hfmt, -⟩ := reads_open hreads
    · have hfalse := reads_digits width []
      rw [List.append_nil, ← hfmt, h.reads] at hfalse
      cases hfalse
    · exact absurd ⟨width, d, rest, hfmt⟩ hresumes

end Reading

section Endings

variable (opt : DumpOpt) (data : List UInt8) (nrStart offsetStart : Int)

/-- A single pass over the items moves no cursor, or moves one of them to the end of the data. -/
def Once (len : Nat) (items : List Item) : Prop :=
  ((items.map Item.bytes).sum = 0 ∧ (items.map Item.chars).sum = 0) ∨
    len ≤ (items.map Item.bytes).sum ∨ len ≤ (items.map Item.chars).sum

/-- Digits and a letter follow each `%`. Only the last directive may lack its letter, if there is
no second pass or the format string begins with one. -/
def Readable (len : Nat) (fmt : List Char) : Prop :=
  len = 0 ∨ Spelled fmt ∨ ∃ items, EndsOpen fmt items ∧ (Once len items ∨ Resumes fmt)

variable {opt data nrStart offsetStart}

theorem isSome_dataProvider {k : Nat} : (dataProvider data k 1).isSome ↔ k < data.length := by
  refine ⟨lt_length_of_isSome, fun hlt => ?_⟩
  rw [dataProvider_one, List.getElem?_eq_getElem hlt]
  rfl

theorem loop_of_end {s : State} (h : ¬(s.bcnt < data.length ∧ s.ccnt < data.length))
    (fmt : List Char) (passes : Nat) :
    loop .unbounded opt (dataProvider data) nrStart offsetStart fmt passes s = .stopped s := by
  rw [← isSome_dataProvider, ← isSome_dataProvider] at h
  cases passes with
  | zero => rw [loop, if_neg h]
  | succ passes => rw [loop, if_neg h]

/-- A pass over a format string that cannot be read is a fatal error. -/
theorem loop_failed {fmt : List Char} {passes : Nat} {s : State} (hb : s.bcnt < data.length)
    (hc : s.ccnt < data.length) (h : reads s.ctrl (fmt.takeWhile (· ≠ '\x00')) = none) :
    loop .unbounded opt (dataProvider data) nrStart offsetStart fmt (passes + 1) s =
      .failed .fatalError := by
  have hpass : pass .unbounded opt (dataProvider data) nrStart offsetStart fmt s =
      .error .fatalError := by
    rw [pass, scan_eq_error _ _ _ _ h]
    rfl
  rw [loop, if_pos ⟨isSome_dataProvider.2 hb, isSome_dataProvider.2 hc⟩, hpass]

/-- A pass over what can be read ends the loop, or is followed by the next one. -/
theorem loop_succ {fmt : List Char} {passes : Nat} {s t : State} (hb : s.bcnt < data.length)
    (hc : s.ccnt < data.length)
    (h : scan .unbounded opt (dataProvider data) nrStart offsetStart
      (fmt.takeWhile (· ≠ '\x00')) s = .ok t) :
    loop .unbounded opt (dataProvider data) nrStart offsetStart fmt (passes + 1) s =
      if t.bcnt + t.ccnt ≠ s.bcnt + s.ccnt then
        loop .unbounded opt (dataProvider data) nrStart offsetStart fmt passes t
      else .stopped t := by
  have hpass : pass .unbounded opt (dataProvider data) nrStart offsetStart fmt s =
      .ok (t, t.bcnt + t.ccnt ≠ s.bcnt + s.ccnt) := by
    rw [pass, h]
    rfl
  rw [loop, if_pos ⟨isSome_dataProvider.2 hb, isSome_dataProvider.2 hc⟩, hpass]
  simp only [decide_eq_true_eq]

theorem dump_of_endsOpen {fmt : List Char} {items : List Item} (hpos : 0 < data.length)
    (h : EndsOpen (fmt.takeWhile (· ≠ '\x00')) items) :
    (∃ s, dump .unbounded opt (dataProvider data) nrStart offsetStart fmt
      (2 * data.length + 1) = .stopped s) ↔
      Once data.length items ∨ Resumes (fmt.takeWhile (· ≠ '\x00')) := by
  obtain ⟨t, ht, hctrl⟩ :=
    exists_scan opt (dataProvider data) nrStart offsetStart (s := {}) h.reads
  have hmoved : Moved data.length (items.map Item.bytes).sum (items.map Item.chars).sum {} t := by
    obtain ⟨width, hfmt⟩ := h
    rw [hfmt] at ht
    obtain ⟨u, hu, ht⟩ := scan_append_eq_ok.1 ht
    obtain ⟨hitems, huctrl⟩ := moved_items rfl (Nat.zero_le _) hu
    exact hitems.trans (moved_open huctrl hitems.le ht).1
  obtain ⟨hb, hc⟩ := hmoved
  rw [Nat.zero_add] at hb hc
  have hpasses : ∀ passes, dump .unbounded opt (dataProvider data) nrStart offsetStart fmt
      (passes + 1) = if t.bcnt + t.ccnt ≠ 0 then
        loop .unbounded opt (dataProvider data) nrStart offsetStart fmt passes t
      else .stopped t := fun _ => loop_succ (s := {}) hpos hpos ht
  rw [hpasses]
  constructor
  · rintro ⟨s, hstopped⟩
    by_contra hneither
    rw [not_or, Once, not_or, not_or] at hneither
    obtain ⟨⟨hmoves, hb', hc'⟩, hresumes⟩ := hneither
    have hnone : reads t.ctrl (fmt.takeWhile (· ≠ '\x00')) = none :=
      hctrl ▸ h.reads_none hresumes
    obtain ⟨n, hn⟩ := Nat.exists_eq_add_one.2 (show 0 < 2 * data.length by omega)
    rw [if_pos (by omega), hn, loop_failed (by omega) (by omega) hnone] at hstopped
    cases hstopped
  · intro h'
    split
    · next hne =>
      rcases h' with honce | hresumes
      · refine ⟨t, loop_of_end ?_ _ _⟩
        rw [Once] at honce
        omega
      · refine exists_stopped (loop_ne_running data fmt ?_)
          (loop_ne_failed _ _ _ _ (h.reads_true hresumes) hctrl)
        omega
    · exact ⟨t, rfl⟩

variable (opt data nrStart offsetStart)

/-- The loop comes to its regular end exactly for the format strings that can be read, up to their
first null character. -/
theorem dump_ends_iff (fmt : List Char) :
    (∃ s, dump .unbounded opt (dataProvider data) nrStart offsetStart fmt
      (2 * data.length + 1) = .stopped s) ↔
      Readable data.length (fmt.takeWhile (· ≠ '\x00')) := by
  have hnul : '\x00' ∉ fmt.takeWhile (· ≠ '\x00') := by
    intro hmem
    have := List.mem_takeWhile_imp hmem
    simp at this
  constructor
  · intro hstopped
    rcases Nat.eq_zero_or_pos data.length with hlen | hpos
    · exact .inl hlen
    · cases hreads : reads false (fmt.takeWhile (· ≠ '\x00')) with
      | none =>
        obtain ⟨s, hs⟩ := hstopped
        rw [dump, loop_failed hpos hpos hreads] at hs
        cases hs
      | some b =>
        obtain ⟨items, ⟨-, hitems⟩ | ⟨-, hopen⟩⟩ := exists_items hnul hreads
        · exact .inr (.inl ⟨items, hitems⟩)
        · exact .inr (.inr ⟨items, hopen, (dump_of_endsOpen hpos hopen).1 hstopped⟩)
  · rintro (hlen | hspelled | ⟨items, hopen, hends⟩)
    · exact ⟨{}, loop_of_end (by omega) _ _⟩
    · exact exists_stopped (dump_stops data opt fmt nrStart offsetStart).1
        (loop_ne_failed _ _ _ _ hspelled.reads rfl)
    · rcases Nat.eq_zero_or_pos data.length with hlen | hpos
      · exact ⟨{}, loop_of_end (by omega) _ _⟩
      · exact (dump_of_endsOpen hpos hopen).2 hends

/-- Format strings of ordinary characters and of directives that end in a character `dump` has a
case for -/
inductive Built : List Char → Prop
  | nil : Built []
  | ordinary {c : Char} {cs : List Char} (h : c ≠ '%' ∧ c ≠ '\x00') (hcs : Built cs) :
      Built (c :: cs)
  | directive (width : List (Fin 10)) {c : Char} {cs : List Char}
      (h : c ∈ ['n', 'p', 'a', 'c', 'b', '1', 'w', '2', 'l', '4']) (hcs : Built cs) :
      Built ('%' :: width.map (fun k : Fin 10 => Nat.digitChar k) ++ c :: cs)

/-- `1` is taken for a width, and the space behind it for a directive. -/
theorem digit_is_width :
    ¬∀ (opt : DumpOpt) (data : List UInt8) (nrStart offsetStart : Int) (fmt : List Char),
      Built fmt → ∃ s, dump .unbounded opt (dataProvider data) nrStart offsetStart fmt
        (2 * data.length + 1) = .stopped s := by
  intro h
  have hbuilt : Built ['%', '1', ' '] :=
    .directive [] (c := '1') (by decide) (.ordinary (by decide) .nil)
  obtain ⟨s, hs⟩ := h { base := 16 } [0] 0 0 _ hbuilt
  cases hs

end Endings

end Utlib.Dumpable
