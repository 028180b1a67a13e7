import Utlib.Buffer.Export
import Utlib.Dumpable.Basic
import Utlib.Hashable

/-! Checksums and dumps of `utl::Buffer`. -/

namespace Utlib.Buffer

open Utlib.Hashable (HashAlgorithm)

variable {T : Type} [Layout T] (b : Buffer T)

def bytesize : Nat := b.size * Layout.width T

/-- The memory at `ptr`, as far as so many bytes go. -/
def memory (len : Nat) : List UInt8 := (Layout.bytes b.contents).take len

def hash (algorithm : HashAlgorithm) : UInt64 := Hashable.hash (b.memory b.size) algorithm

def dataProvider : Dumpable.DataProvider := Dumpable.dataProvider (b.memory b.size)

/-- Checksums and dumps are about all bytes of the contents. -/
structure CoversBytes : Prop where
  hash_eq : ∀ algorithm, b.hash algorithm = Hashable.hash (b.memory b.bytesize) algorithm
  delivers : ∀ offset, b.dataProvider offset 1 =
    (b.memory b.bytesize)[offset]?.map fun x => (x.toNat : Int)

variable {b}

theorem length_memory (h : b.Valid) {len : Nat} (hlen : len ≤ b.bytesize) :
    (b.memory len).length = len := by
  rw [memory, List.length_take, length_bytes_contents h]
  exact Nat.min_eq_left hlen

theorem size_le_bytesize : b.size ≤ b.bytesize := Nat.le_mul_of_pos_right _ Layout.width_pos

theorem size_eq_bytesize_iff : b.size = b.bytesize ↔ Layout.width T = 1 ∨ b.size = 0 :=
  eq_comm.trans mul_right_eq_self₀

/-- The byte behind the last one that is delivered -/
theorem CoversBytes.size_eq (hcovers : b.CoversBytes) (h : b.Valid) : b.size = b.bytesize := by
  by_contra hne
  have hlt : b.size < b.bytesize := Nat.lt_of_le_of_ne size_le_bytesize hne
  have hdelivers := hcovers.delivers b.size
  rw [dataProvider, Dumpable.dataProvider_one,
    List.getElem?_eq_none (length_memory h size_le_bytesize).le,
    List.getElem?_eq_getElem (by rwa [length_memory h le_rfl])] at hdelivers
  cases hdelivers

theorem coversBytes_iff (h : b.Valid) : b.CoversBytes ↔ Layout.width T = 1 ∨ b.size = 0 := by
  rw [← size_eq_bytesize_iff]
  constructor
  · intro hcovers
    exact hcovers.size_eq h
  · intro heq
    refine ⟨fun algorithm => ?_, fun offset => ?_⟩
    · rw [hash, heq]
    · rw [dataProvider, Dumpable.dataProvider_one, heq]

theorem coversBytes_byte :
    (holding [1, 2]).CoversBytes ↔ Layout.width UInt8 = 1 ∨ (holding [1, 2]).size = 0 :=
  coversBytes_iff (valid_holding [1, 2])

theorem not_coversBytes_word : ¬∀ b : Buffer UInt32, b.Valid → b.CoversBytes := by
  intro hall
  have hvalid : word.Valid := ⟨rfl, by simp [word]⟩
  exact absurd ((hall word hvalid).size_eq hvalid) (by decide)

end Utlib.Buffer
