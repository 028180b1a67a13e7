import Mathlib.Logic.Function.Basic
import Mathlib.Data.List.Basic
import Utlib.Program

/-! Finite trees of directories and files, and what a file system does with them. A location lists
the names that lead to it, the innermost one first. -/

universe u v

namespace Utlib

inductive Node (F : Type v)
  | dir
  | file (f : F)

namespace Node

variable {F : Type v}

def isDir : Node F → Bool
  | dir => true
  | file _ => false

def map {G : Type v} (g : F → G) : Node F → Node G
  | dir => dir
  | file f => file (g f)

instance decidableIsDir : (o : Option (Node F)) → Decidable (o = some .dir)
  | none => isFalse (by simp)
  | some .dir => isTrue rfl
  | some (.file _) => isFalse (by simp)

end Node

structure FileTree (Name : Type u) (F : Type v) where
  node : List Name → Option (Node F)
  places : List (List Name)
  mem_places : ∀ p, p ∈ places ↔ (node p).isSome
  root : node [] = some .dir
  parent : ∀ a p, (node (a :: p)).isSome → node p = some .dir

namespace FileTree

variable {Name : Type u} {F : Type v} (t : FileTree Name F)

def empty [DecidableEq Name] : FileTree Name F where
  node p := if p = [] then some .dir else none
  places := [[]]
  mem_places := by
    intro p
    by_cases hp : p = [] <;> simp [hp]
  root := if_pos rfl
  parent := by
    intro a p h
    rw [if_neg (List.cons_ne_nil a p)] at h
    cases h

theorem isSome_of_append (rel p : List Name) (h : (t.node (rel ++ p)).isSome) :
    (t.node p).isSome := by
  induction rel with
  | nil => exact h
  | cons a rel ih =>
    apply ih
    rw [t.parent a (rel ++ p) h]
    rfl

theorem dir_of_append (a : Name) (rel p : List Name) (h : (t.node (a :: rel ++ p)).isSome) :
    t.node p = some .dir := by
  induction rel generalizing a with
  | nil => exact t.parent a p h
  | cons b rel ih =>
    apply ih b
    rw [t.parent a (b :: rel ++ p) h]
    rfl

theorem dir_of_suffix {p q : List Name} (hdir : t.node p = some .dir) (hq : q <:+ p) :
    t.node q = some .dir := by
  obtain ⟨rel, rfl⟩ := hq
  cases rel with
  | nil => exact hdir
  | cons a rel =>
    apply t.dir_of_append a rel q
    rw [hdir]
    rfl

theorem none_of_append (rel : List Name) {p : List Name} (h : t.node p = none) :
    t.node (rel ++ p) = none := by
  rw [← Option.not_isSome_iff_eq_none]
  intro hsome
  have hp := t.isSome_of_append rel p hsome
  rw [h] at hp
  cases hp

section Updates

variable [DecidableEq Name]

def makeDir (a : Name) (p : List Name) (hp : t.node p = some .dir) : FileTree Name F where
  node := Function.update t.node (a :: p) (some .dir)
  places := (a :: p) :: t.places
  mem_places := by
    intro q
    by_cases hq : q = a :: p
    · simp [hq]
    · rw [List.mem_cons, Function.update_of_ne hq, ← t.mem_places q]
      simp [hq]
  root := by
    rw [Function.update_of_ne (List.cons_ne_nil a p).symm, t.root]
  parent := by
    intro b q hb
    by_cases hq : q = a :: p
    · rw [hq, Function.update_self]
    · rw [Function.update_of_ne hq]
      by_cases hbq : b :: q = a :: p
      · rw [List.cons.injEq] at hbq
        rw [hbq.2, hp]
      · rw [Function.update_of_ne hbq] at hb
        exact t.parent b q hb

def putFile (a : Name) (p : List Name) (f : F) (hp : t.node p = some .dir)
    (hfree : t.node (a :: p) ≠ some .dir) : FileTree Name F where
  node := Function.update t.node (a :: p) (some (.file f))
  places := (a :: p) :: t.places
  mem_places := by
    intro q
    by_cases hq : q = a :: p
    · simp [hq]
    · rw [List.mem_cons, Function.update_of_ne hq, ← t.mem_places q]
      simp [hq]
  root := by
    rw [Function.update_of_ne (List.cons_ne_nil a p).symm, t.root]
  parent := by
    intro b q hb
    by_cases hbq : b :: q = a :: p
    · rw [List.cons.injEq] at hbq
      rw [hbq.2, Function.update_of_ne (List.cons_ne_self a p).symm, hp]
    · rw [Function.update_of_ne hbq] at hb
      have hq := t.parent b q hb
      rw [Function.update_of_ne, hq]
      intro heq
      rw [heq] at hq
      exact hfree hq

def erase (a : Name) (p : List Name) (hleaf : ∀ b, t.node (b :: a :: p) = none) :
    FileTree Name F where
  node := Function.update t.node (a :: p) none
  places := t.places.filter (· ≠ a :: p)
  mem_places := by
    intro q
    by_cases hq : q = a :: p
    · simp [hq]
    · rw [Function.update_of_ne hq, ← t.mem_places q]
      simp [hq]
  root := by
    rw [Function.update_of_ne (List.cons_ne_nil a p).symm, t.root]
  parent := by
    intro b q hb
    by_cases hbq : b :: q = a :: p
    · rw [hbq, Function.update_self] at hb
      cases hb
    · rw [Function.update_of_ne hbq] at hb
      have hq := t.parent b q hb
      rw [Function.update_of_ne, hq]
      intro heq
      rw [heq, hleaf b] at hb
      cases hb

/-- `none` when a file is in the way. -/
def makeDirs : List Name → Option (FileTree Name F)
  | [] => some t
  | a :: p =>
    match t.node (a :: p) with
    | some .dir => some t
    | some (.file _) => none
    | none => do
      let u ← makeDirs p
      if hp : u.node p = some .dir then some (u.makeDir a p hp) else none

instance decidableIsLeaf (p : List Name) : Decidable (∀ a, t.node (a :: p) = none) :=
  decidable_of_iff (∀ q ∈ t.places, q.tail = p → q = []) <| by
    constructor
    · intro h a
      rw [← Option.not_isSome_iff_eq_none, ← t.mem_places]
      intro hmem
      cases h (a :: p) hmem rfl
    · intro h q hmem htail
      cases q with
      | nil => rfl
      | cons a q =>
        rw [List.tail_cons] at htail
        rw [t.mem_places, htail, h a] at hmem
        cases hmem

/-- `none` when there is nothing to remove, or more than one thing. -/
def removeLeaf : List Name → Option (FileTree Name F)
  | [] => none
  | a :: p =>
    if (t.node (a :: p)).isSome then
      if hleaf : ∀ b, t.node (b :: a :: p) = none then some (t.erase a p hleaf) else none
    else none

variable {t}

theorem node_makeDirs {p : List Name} {u : FileTree Name F} (h : t.makeDirs p = some u)
    (q : List Name) : u.node q = if q <:+ p then some .dir else t.node q := by
  induction p generalizing u with
  | nil =>
    cases h
    by_cases hq : q <:+ []
    · rw [if_pos hq, List.suffix_nil.1 hq, t.root]
    · rw [if_neg hq]
  | cons a p ih =>
    rw [makeDirs] at h
    split at h
    · rename_i hdir
      cases h
      by_cases hq : q <:+ a :: p
      · rw [if_pos hq, t.dir_of_suffix hdir hq]
      · rw [if_neg hq]
    · cases h
    · cases hp : t.makeDirs p with
      | none => simp [hp] at h
      | some v =>
        have hv := ih hp
        simp only [hp, Option.bind_eq_bind, Option.bind_some] at h
        split at h
        · cases h
          simp only [makeDir, Function.update_apply, List.suffix_cons_iff, hv]
          by_cases hq : q = a :: p <;> simp [hq]
        · cases h

theorem makeDirs_of_dir {p : List Name} (h : t.node p = some .dir) : t.makeDirs p = some t := by
  cases p with
  | nil => rfl
  | cons a p => rw [makeDirs, h]

theorem makeDirs_eq_none_iff {p : List Name} :
    t.makeDirs p = none ↔ ∃ q f, q <:+ p ∧ t.node q = some (.file f) := by
  induction p with
  | nil =>
    constructor
    · intro h
      cases h
    · rintro ⟨q, f, hq, hfile⟩
      rw [List.suffix_nil.1 hq, t.root] at hfile
      cases hfile
  | cons a p ih =>
    rw [makeDirs]
    split
    · rename_i hdir
      simp only [reduceCtorEq, false_iff]
      rintro ⟨q, f, hq, hfile⟩
      rw [t.dir_of_suffix hdir hq] at hfile
      cases hfile
    · rename_i f hfile
      simp only [true_iff]
      exact ⟨a :: p, f, List.suffix_refl _, hfile⟩
    · rename_i hnone
      constructor
      · intro h
        cases hp : t.makeDirs p with
        | none =>
          obtain ⟨q, f, hq, hfile⟩ := ih.1 hp
          exact ⟨q, f, hq.trans (List.suffix_cons a p), hfile⟩
        | some u =>
          have hup : u.node p = some .dir := by
            rw [node_makeDirs hp, if_pos (List.suffix_refl p)]
          simp [hp, hup] at h
      · rintro ⟨q, f, hq, hfile⟩
        have hp : t.makeDirs p = none := by
          apply ih.2
          refine ⟨q, f, ?_, hfile⟩
          apply (List.suffix_cons_iff.1 hq).resolve_left
          intro heq
          rw [heq, hnone] at hfile
          cases hfile
        rw [hp]
        rfl

theorem node_makeDirs_cases {p : List Name} {u : FileTree Name F} (h : t.makeDirs p = some u)
    (q : List Name) :
    u.node q = t.node q ∨ q <:+ p ∧ t.node q = none ∧ u.node q = some .dir := by
  rw [node_makeDirs h q]
  by_cases hq : q <:+ p
  · rcases hnode : t.node q with _ | _ | f
    · exact .inr ⟨hq, rfl, if_pos hq⟩
    · exact .inl (if_pos hq)
    · have hnone := makeDirs_eq_none_iff.2 ⟨q, f, hq, hnode⟩
      rw [h] at hnone
      cases hnone
  · exact .inl (if_neg hq)

theorem node_removeLeaf {p q : List Name} {u : FileTree Name F} (h : t.removeLeaf p = some u) :
    u.node q = if q = p then none else t.node q := by
  cases p with
  | nil => cases h
  | cons a p =>
    rw [removeLeaf] at h
    split at h
    · split at h
      · cases h
        exact Function.update_apply t.node (a :: p) none q
      · cases h
    · cases h

theorem exists_removeLeaf {p : List Name} (hne : p ≠ []) (hp : (t.node p).isSome)
    (hleaf : ∀ b, t.node (b :: p) = none) : ∃ u, t.removeLeaf p = some u := by
  cases p with
  | nil => exact absurd rfl hne
  | cons a p =>
    rw [removeLeaf, if_pos hp, dif_pos hleaf]
    exact ⟨_, rfl⟩

end Updates

end FileTree

end Utlib
