import Utlib.Cyclic
import Utlib.StableSort

/-! `utl::Array` and `utl::SortedArray` (storage/RingBuffer.h).  A failed assertion and an access
outside of the storage are `none`. -/

namespace Utlib

open Cyclic

/-- `Array` -/
structure FixedArray (T : Type) where
  elements : List T
  w : Nat

namespace FixedArray

variable {T : Type}

def cap (b : FixedArray T) : Nat := b.elements.length

def count (b : FixedArray T) : Nat := b.w

def isFull (b : FixedArray T) : Bool := b.count = b.cap

end FixedArray

structure SortedArray (T : Type) extends FixedArray T where
  keys : List Int

namespace SortedArray

variable {T : Type}

def clear (b : SortedArray T) : SortedArray T := { b with w := 0 }

/-- `while (pos && keys[pos - 1] > key) pos--` -/
def seek (keys : List Int) (key : Int) : Nat → Option Nat
  | 0 => some 0
  | pos + 1 => do
    let k ← load keys pos
    if key < k then seek keys key pos else some (pos + 1)

/-- `for (i = w; i > pos; i--)`, the loop that creates a free spot -/
def makeRoom (pos : Nat) : Nat → SortedArray T → Option (SortedArray T)
  | 0, b => some b
  | i + 1, b =>
    if pos < i + 1 then do
      let x ← load b.elements i
      let elements ← store b.elements (i + 1 : Nat) x
      let k ← load b.keys i
      let keys ← store b.keys (i + 1 : Nat) k
      makeRoom pos i { b with elements := elements, keys := keys }
    else some b

def insert (b : SortedArray T) (key : Int) (element : T) : Option (SortedArray T) :=
  if b.isFull then none
  else do
    let pos ← seek b.keys key b.w
    let b ← makeRoom pos b.w b
    let elements ← store b.elements pos element
    let keys ← store b.keys pos key
    some { b with elements := elements, keys := keys, w := b.w + 1 }

def insertAll : List (Int × T) → SortedArray T → Option (SortedArray T)
  | [], b => some b
  | p :: ps, b => do insertAll ps (← b.insert p.1 p.2)

/-- The array whose slots hold the given pairs. -/
def ofSlots (slots : List (Int × T)) (w : Nat) : SortedArray T :=
  ⟨⟨slots.map Prod.snd, w⟩, slots.map Prod.fst⟩

section Slots

variable {α : Type} {f : Int × T → α} {front back rest : List (Int × T)} {p q z : Int × T} {w : Nat}

theorem load_map (f : Int × T → α) (front back : List (Int × T)) (p : Int × T) :
    load ((front ++ p :: back).map f) front.length = some (f p) := by
  rw [List.map_append, List.map_cons, ← List.length_map f]
  exact load_append_cons _ _ _

theorem store_map (f : Int × T → α) (front back : List (Int × T)) (p q : Int × T) :
    store ((front ++ p :: back).map f) front.length (f q) = some ((front ++ q :: back).map f) := by
  rw [List.map_append, List.map_append, List.map_cons, List.map_cons, ← List.length_map f]
  exact store_append_cons _ _ _ _

theorem seek_eq {key : Int} (hfront : ∀ p ∈ front, p.1 ≤ key) (hback : ∀ p ∈ back, key < p.1) :
    seek ((front ++ back ++ rest).map Prod.fst) key (front ++ back).length = some front.length := by
  induction back using List.reverseRecOn generalizing rest with
  | nil =>
    rw [List.append_nil]
    cases front using List.reverseRecOn with
    | nil => rfl
    | append_singleton front p =>
      have hle : ¬key < p.1 := not_lt.2 (hfront p (by simp))
      rw [List.length_append, List.length_singleton, seek, List.append_assoc, List.singleton_append,
        load_map, Option.bind_eq_bind, Option.bind_some, if_neg hle]
  | append_singleton back p ih =>
    have hlt : key < p.1 := hback p (by simp)
    have hrest : seek ((front ++ back ++ p :: rest).map Prod.fst) key (front ++ back).length =
        some front.length := ih fun q hq => hback q (List.mem_append_left _ hq)
    rw [← List.append_assoc, List.length_append, List.length_singleton, seek, List.append_assoc,
      List.singleton_append, load_map, Option.bind_eq_bind, Option.bind_some, if_pos hlt, hrest]

/-- The slot that the loop leaves free keeps some old pair. -/
theorem makeRoom_eq (front back rest : List (Int × T)) (z : Int × T) (w : Nat) :
    ∃ z', makeRoom front.length (front ++ back).length (ofSlots (front ++ back ++ z :: rest) w) =
      some (ofSlots (front ++ z' :: (back ++ rest)) w) := by
  induction back using List.reverseRecOn generalizing z rest with
  | nil =>
    refine ⟨z, ?_⟩
    rw [List.append_nil, List.nil_append]
    cases front.length with
    | zero => rfl
    | succ n => rw [makeRoom, if_neg (lt_irrefl _)]
  | append_singleton back p ih =>
    obtain ⟨z', hrest⟩ := ih (p :: rest) p
    have hslots : front ++ (back ++ [p]) ++ z :: rest = front ++ back ++ p :: z :: rest := by simp
    have hlen : (front ++ (back ++ [p])).length = (front ++ back).length + 1 := by simp; omega
    have hload : ∀ {α : Type} (f : Int × T → α),
        load ((front ++ (back ++ [p]) ++ z :: rest).map f) (front ++ back).length =
          some (f p) := by
      intro α f
      rw [hslots, load_map]
    have hstore : ∀ {α : Type} (f : Int × T → α),
        store ((front ++ (back ++ [p]) ++ z :: rest).map f) ((front ++ back).length + 1 : Nat)
          (f p) = some ((front ++ back ++ p :: p :: rest).map f) := by
      intro α f
      rw [← hlen, store_map, ← List.append_assoc front, List.append_assoc (front ++ back),
        List.singleton_append]
    refine ⟨z', ?_⟩
    rw [hlen, makeRoom, if_pos (by rw [List.length_append]; omega)]
    simp only [ofSlots, hload, hstore, Option.bind_eq_bind, Option.bind_some]
    rw [List.append_assoc back, List.singleton_append]
    exact hrest

end Slots

section Insert

variable {ps rest done : List (Int × T)} {z : Int × T}

theorem insert_eq {front back : List (Int × T)} {key : Int} (hfront : ∀ p ∈ front, p.1 ≤ key)
    (hback : ∀ p ∈ back, key < p.1) (z : Int × T) (rest : List (Int × T)) (x : T) :
    (ofSlots (front ++ back ++ z :: rest) (front ++ back).length).insert key x =
      some (ofSlots (front ++ (key, x) :: back ++ rest) (front ++ (key, x) :: back).length) := by
  have hfull :
      (ofSlots (front ++ back ++ z :: rest) (front ++ back).length).isFull = false := by
    simp [FixedArray.isFull, FixedArray.count, FixedArray.cap, ofSlots]
  have hseek : seek (ofSlots (front ++ back ++ z :: rest) (front ++ back).length).keys key
      (front ++ back).length = some front.length := seek_eq hfront hback
  obtain ⟨z', hroom⟩ := makeRoom_eq front back rest z (front ++ back).length
  have helements := store_map Prod.snd front (back ++ rest) z' (key, x)
  have hkeys := store_map Prod.fst front (back ++ rest) z' (key, x)
  rw [insert, hfull, if_neg Bool.false_ne_true]
  simp only [ofSlots] at *
  simp only [hseek, hroom, helements, hkeys, Option.bind_eq_bind, Option.bind_some]
  simp [Nat.add_assoc]

theorem insertAll_eq {qs : List (Int × T)} (h : StableSorted Prod.fst done qs)
    (hroom : ps.length ≤ rest.length) :
    ∃ qs' rest', insertAll ps (ofSlots (qs ++ rest) qs.length) =
        some (ofSlots (qs' ++ rest') qs'.length) ∧ StableSorted Prod.fst (done ++ ps) qs' := by
  induction ps generalizing done qs rest with
  | nil => exact ⟨qs, rest, rfl, by rwa [List.append_nil]⟩
  | cons p ps ih =>
    obtain ⟨front, back, rfl, hfront, hback⟩ := StableSorted.exists_split h.sorted p.1
    cases rest with
    | nil => exact absurd hroom (Nat.not_succ_le_zero _)
    | cons z rest =>
      obtain ⟨qs', rest', hrest, hsorted⟩ :=
        ih (h.insert (a := p) hfront hback) (Nat.le_of_succ_le_succ hroom)
      refine ⟨qs', rest', ?_, ?_⟩
      · rw [insertAll, insert_eq hfront hback, Option.bind_eq_bind, Option.bind_some]
        exact hrest
      · rwa [List.append_assoc, List.singleton_append] at hsorted

theorem clear_eq {b : SortedArray T} (hkeys : b.keys.length = b.elements.length) :
    b.clear = ofSlots (b.keys.zip b.elements) 0 := by
  rw [ofSlots, List.map_fst_zip hkeys.le, List.map_snd_zip hkeys.ge]
  rfl

theorem inserts_sort_stably {b : SortedArray T} (hkeys : b.keys.length = b.elements.length)
    {ps : List (Int × T)} (hps : ps.length ≤ b.cap) :
    ∃ s qs, insertAll ps b.clear = some s ∧ s.count = ps.length ∧
      s.keys.take s.count = qs.map Prod.fst ∧ s.elements.take s.count = qs.map Prod.snd ∧
      StableSorted Prod.fst ps qs := by
  have hroom : ps.length ≤ (b.keys.zip b.elements).length := by
    rwa [List.length_zip, hkeys, Nat.min_self]
  obtain ⟨qs, rest, hrun, hsorted⟩ := insertAll_eq StableSorted.nil hroom
  refine ⟨ofSlots (qs ++ rest) qs.length, qs, ?_, hsorted.perm.length_eq, ?_, ?_, hsorted⟩
  · rw [clear_eq hkeys]
    exact hrun
  · rw [ofSlots, FixedArray.count, ← List.map_take, List.take_left]
  · rw [ofSlots, FixedArray.count, ← List.map_take, List.take_left]

theorem inserts_sort_three_stably :
    ∃ s qs, insertAll [(2, "a"), (1, "b"), (2, "c")]
        (clear ⟨⟨["", "", "", ""], 4⟩, [9, 9, 9, 9]⟩) = some s ∧ s.count = 3 ∧
      s.keys.take s.count = qs.map Prod.fst ∧ s.elements.take s.count = qs.map Prod.snd ∧
      StableSorted Prod.fst [(2, "a"), (1, "b"), (2, "c")] qs :=
  inserts_sort_stably (b := ⟨⟨["", "", "", ""], 4⟩, [9, 9, 9, 9]⟩) rfl (by decide)

end Insert

end SortedArray

end Utlib
