import Mathlib.Data.BitVec
import Mathlib.Logic.Function.Basic

namespace PixEvents.Codec

/-- Memory seen through `uint64_t*`: one word per qword address. -/
abbrev Memory := Nat → BitVec 64

/-- Little-endian packing: the first byte lands in bits 0-7; bytes past the eighth fall off. -/
def packLE : List (BitVec 8) → BitVec 64
  | [] => 0
  | b :: bs => b.setWidth 64 ||| packLE bs <<< 8

/-- The eight bytes of a qword, lowest first. -/
def unpackLE (w : BitVec 64) : List (BitVec 8) :=
  (List.range 8).map fun j => w.extractLsb' (8 * j) 8

@[simp] theorem packLE_nil : packLE [] = 0#64 := rfl

@[simp] theorem length_unpackLE (w : BitVec 64) : (unpackLE w).length = 8 := by
  simp [unpackLE]

theorem packLE_append_singleton (l : List (BitVec 8)) (b : BitVec 8) :
    packLE (l ++ [b]) = packLE l ||| b.setWidth 64 <<< (8 * l.length) := by
  induction l with
  | nil => simp [packLE, BitVec.shiftLeft_zero]
  | cons a l ih =>
    rw [List.cons_append, packLE, ih, BitVec.shiftLeft_or_distrib, packLE, ← BitVec.shiftLeft_add,
      BitVec.or_assoc, List.length_cons, Nat.mul_succ]

theorem getLsbD_packLE (l : List (BitVec 8)) (i : Nat) :
    (packLE l).getLsbD i = (decide (i < 64) && (l.getD (i / 8) 0).getLsbD (i % 8)) := by
  induction l generalizing i with
  | nil => simp [packLE]
  | cons b l ih =>
    simp only [packLE, BitVec.getLsbD_or, BitVec.getLsbD_setWidth, BitVec.getLsbD_shiftLeft, ih]
    by_cases h : i < 8
    · simp [h, Nat.div_eq_of_lt h, Nat.mod_eq_of_lt h]
    · have hd : i / 8 = (i - 8) / 8 + 1 := by omega
      have hm : i % 8 = (i - 8) % 8 := by omega
      by_cases h' : i < 64 <;>
        simp (disch := omega) [h, h', hd, hm, BitVec.getLsbD_ge b i, decide_eq_true]

/-- Byte `j` of a packed qword is the `j`-th byte packed, or zero past the list. -/
theorem extractLsb_packLE (l : List (BitVec 8)) (j : Nat) (hj : j < 8) :
    (packLE l).extractLsb' (8 * j) 8 = l.getD j 0 := by
  ext r
  have hd : (8 * j + r) / 8 = j := by omega
  have hm : (8 * j + r) % 8 = r := by omega
  simp [getLsbD_packLE, hd, hm, show 8 * j + r < 64 by omega]

theorem unpackLE_packLE (l : List (BitVec 8)) (h : l.length ≤ 8) :
    unpackLE (packLE l) = l ++ List.replicate (8 - l.length) 0 := by
  apply List.ext_getElem (by simp; omega)
  intro j h1 _
  simp only [unpackLE, List.getElem_map, List.getElem_range]
  rw [extractLsb_packLE l j (by simpa using h1), List.getElem_append]
  split_ifs with hj
  · simp [hj]
  · simp [List.getElem?_eq_none (Nat.le_of_not_lt hj)]

theorem unpackLE_packLE_eight (l : List (BitVec 8)) (h : l.length = 8) :
    unpackLE (packLE l) = l := by
  rw [unpackLE_packLE l h.le, h, Nat.sub_self, List.replicate_zero, List.append_nil]

/-- Trailing NUL bytes do not change a packed qword. -/
theorem packLE_append_zero (l : List (BitVec 8)) : packLE (l ++ [0]) = packLE l := by
  rw [packLE_append_singleton]
  simp [BitVec.zero_shiftLeft]

end PixEvents.Codec
