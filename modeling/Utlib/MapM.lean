import Mathlib.Data.List.Basic

/-! Lists whose members are mapped by a function that may fail: what the results are. -/

universe u v w

namespace Utlib.MapM

theorem mapM_eq_pure_map {m : Type u → Type v} [Monad m] [LawfulMonad m] {α : Type w} {β : Type u}
    {f : α → m β} {g : α → β} {l : List α} (h : ∀ a ∈ l, f a = pure (g a)) :
    l.mapM f = pure (l.map g) := by
  induction l with
  | nil => rfl
  | cons a l ih =>
    rw [List.mapM_cons, h a List.mem_cons_self, pure_bind,
      ih fun b hb => h b (List.mem_cons_of_mem _ hb), pure_bind, List.map_cons]

variable {α : Type u} {β : Type v} {γ : Type w} {f : α → Option β} {a : α} {l : List α}
  {out : List β}

theorem mapM_cons_eq_some_iff :
    (a :: l).mapM f = some out ↔ ∃ b bs, f a = some b ∧ l.mapM f = some bs ∧ out = b :: bs := by
  rw [List.mapM_cons]
  constructor
  · intro h
    obtain ⟨b, hb, h⟩ := Option.bind_eq_some_iff.1 h
    obtain ⟨bs, hbs, h⟩ := Option.bind_eq_some_iff.1 h
    cases h
    exact ⟨b, bs, hb, hbs, rfl⟩
  · rintro ⟨b, bs, hb, hbs, rfl⟩
    rw [hb, hbs]
    rfl

theorem exists_mapM_eq (h : ∀ a ∈ l, ∃ b, f a = some b) : ∃ out, l.mapM f = some out := by
  induction l with
  | nil => exact ⟨[], rfl⟩
  | cons a l ih =>
    obtain ⟨b, hb⟩ := h a List.mem_cons_self
    obtain ⟨bs, hbs⟩ := ih fun a ha => h a (List.mem_cons_of_mem _ ha)
    exact ⟨b :: bs, mapM_cons_eq_some_iff.2 ⟨b, bs, hb, hbs, rfl⟩⟩

theorem getElem?_mapM (h : l.mapM f = some out) (k : Nat) : out[k]? = l[k]?.bind f := by
  induction l generalizing out k with
  | nil =>
    cases h
    rfl
  | cons a l ih =>
    obtain ⟨b, bs, hb, hbs, rfl⟩ := mapM_cons_eq_some_iff.1 h
    cases k with
    | zero => exact hb.symm
    | succ k => exact ih hbs k

theorem mem_mapM (h : l.mapM f = some out) {b : β} (hb : b ∈ out) : ∃ a ∈ l, f a = some b := by
  obtain ⟨k, hk⟩ := List.mem_iff_getElem?.1 hb
  rw [getElem?_mapM h] at hk
  obtain ⟨a, ha, hf⟩ := Option.bind_eq_some_iff.1 hk
  exact ⟨a, List.mem_of_getElem? ha, hf⟩

theorem mapM_map_eq (g : β → γ) :
    l.mapM (fun a => (f a).map g) = (l.mapM f).map (List.map g) := by
  induction l with
  | nil => rfl
  | cons a l ih =>
    rw [List.mapM_cons, List.mapM_cons, ih]
    cases f a with
    | none => rfl
    | some b =>
      cases l.mapM f with
      | none => rfl
      | some bs => rfl

theorem filterMap_flatten_of_mapM {f : α → Option (List β)} (g : β → Option γ) (k : α → List γ)
    (h : ∀ a bs, f a = some bs → bs.filterMap g = k a) {out : List (List β)}
    (hout : l.mapM f = some out) : out.flatten.filterMap g = l.flatMap k := by
  induction l generalizing out with
  | nil =>
    cases hout
    rfl
  | cons a l ih =>
    obtain ⟨bs, rest, hf, hl, rfl⟩ := mapM_cons_eq_some_iff.1 hout
    rw [List.flatten_cons, List.filterMap_append, h a bs hf, ih hl, List.flatMap_cons]

end Utlib.MapM
