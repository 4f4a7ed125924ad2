import PixEvents.Codec.StringCopy

namespace PixEvents.Codec

/-- Bytes `8k .. 8k+7` of `s[0..n]`, followed by zero padding. -/
def stringChunk (s : Nat → BitVec 8) (n k : Nat) : List (BitVec 8) :=
  (((List.range n).map s ++ List.replicate 8 0).drop (8 * k)).take 8

/-- The string copy as the spec states its contract, for a source whose first NUL is at `n`:
the string and its terminator, qword by qword, cut short at `limit`. -/
def specCopy (destination limit : Nat) (s : Nat → BitVec 8) (n : Nat) (mem : Memory) :
    Nat × Memory :=
  let count := min (limit - destination) ((n + 1 + 7) / 8)
  (destination + count, fun k =>
    if destination ≤ k ∧ k < destination + count then packLE (stringChunk s n (k - destination))
    else mem k)

theorem packLE_append_replicate_zero (l : List (BitVec 8)) (k : Nat) :
    packLE (l ++ List.replicate k 0) = packLE l := by
  induction k with
  | zero => simp
  | succ k ih => rw [List.replicate_succ', ← List.append_assoc, packLE_append_zero, ih]

theorem packLE_stringChunk_zero (s : Nat → BitVec 8) (n : Nat) (hn : n < 8) :
    packLE (stringChunk s n 0) = packLE ((List.range n).map s) := by
  rw [stringChunk, Nat.mul_zero, List.drop_zero, List.take_append_eq_append_take,
    List.take_of_length_le (by simp; omega), List.take_replicate, packLE_append_replicate_zero]

/-- On a string whose terminator lies in its first qword, the code meets the contract. -/
theorem pixCopyEventStringArgumentSlow_eq_specCopy (s : Nat → BitVec 8) (n : Nat)
    (hn : FirstNul s n) (h8 : n < 8) (d L : Nat) (mem : Memory) :
    pixCopyEventStringArgumentSlow d L s mem = specCopy d L s n mem := by
  have hc : (n + 1 + 7) / 8 = 1 := by omega
  by_cases h : d < L
  · rw [pixCopyEventStringArgumentSlow_of_terminator d L s mem _ (qwordScan_of_firstNul s n hn h8) h,
      specCopy, hc, show min (L - d) 1 = 1 by omega]
    simp only [Prod.mk.injEq, true_and]
    funext k
    rw [Function.update_apply]
    split_ifs with h1 h2 h2
    · subst h1; rw [Nat.sub_self, packLE_stringChunk_zero s n h8]
    · omega
    · omega
    · rfl
  · rw [pixCopyEventStringArgumentSlow_of_ge d L s mem (by omega), specCopy,
      show min (L - d) ((n + 1 + 7) / 8) = 0 by omega]
    simp only [Nat.add_zero, Prod.mk.injEq, true_and]
    funext k; rw [if_neg (by omega)]

theorem pixCopyEventStringArgumentSlow_eq_specCopy_msg :
    let s : Nat → BitVec 8 := fun j => if j = 0 then 0x6D else if j = 1 then 0x73
      else if j = 2 then 0x67 else 0
    FirstNul s 3 ∧ 3 < 8 ∧
      pixCopyEventStringArgumentSlow 5 64 s (fun _ => 0) = specCopy 5 64 s 3 (fun _ => 0) :=
  ⟨⟨by decide, by decide⟩, by decide,
    pixCopyEventStringArgumentSlow_eq_specCopy _ 3 ⟨by decide, by decide⟩ (by decide) 5 64 _⟩

/-- On every string of eight bytes or more, with room past the contract's cursor, the code's
cursor runs on to `limit`, past the contract's. -/
theorem pixCopyEventStringArgumentSlow_overshoots_specCopy (s : Nat → BitVec 8) (n : Nat)
    (hn : FirstNul s n) (h8 : 8 ≤ n) (d L : Nat) (mem : Memory) (hL : d + (n + 1 + 7) / 8 < L) :
    (pixCopyEventStringArgumentSlow d L s mem).1 = L ∧
      (specCopy d L s n mem).1 < (pixCopyEventStringArgumentSlow d L s mem).1 := by
  rw [pixCopyEventStringArgumentSlow_of_exhausted d L s mem _
    (qwordScan_of_nonzero s fun j hj => hn.2 j (by omega)), specCopy]
  dsimp only
  omega

theorem pixCopyEventStringArgumentSlow_overshoots_specCopy_abcdefgh :
    FirstNul abcdefgh 8 ∧ 8 ≤ 8 ∧ 3 + (8 + 1 + 7) / 8 < 10 ∧
      (pixCopyEventStringArgumentSlow 3 10 abcdefgh fun _ => 0).1 = 10 ∧
      (specCopy 3 10 abcdefgh 8 fun _ => 0).1 <
        (pixCopyEventStringArgumentSlow 3 10 abcdefgh fun _ => 0).1 :=
  ⟨firstNul_abcdefgh, le_rfl, by decide,
    pixCopyEventStringArgumentSlow_overshoots_specCopy _ 8 firstNul_abcdefgh le_rfl 3 10 _ (by decide)⟩

/-- `"ABCDEFGH"`: the code stores its first qword at every address up to `limit`, where the
contract stops after the terminator's qword. -/
theorem pixCopyEventStringArgumentSlow_abcdefgh :
    (pixCopyEventStringArgumentSlow 0 64 abcdefgh fun _ => 0).1 = 64 ∧
      (specCopy 0 64 abcdefgh 8 fun _ => 0).1 = 2 ∧
      (pixCopyEventStringArgumentSlow 0 64 abcdefgh fun _ => 0).2 1 =
        packLE ((List.range 8).map abcdefgh) ∧
      (specCopy 0 64 abcdefgh 8 fun _ => 0).2 1 = 0 := by
  rw [pixCopyEventStringArgumentSlow_of_exhausted 0 64 abcdefgh _ _
    (qwordScan_of_nonzero abcdefgh abcdefgh_nonzero)]
  exact ⟨rfl, rfl, rfl, rfl⟩

end PixEvents.Codec
