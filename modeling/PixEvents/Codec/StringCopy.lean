import PixEvents.Codec.Qword
import Mathlib.Data.Nat.Find

namespace PixEvents.Codec

/-- How one pass of `for(uint64_t i = 0; i < 8; ++i)` ends: at a NUL byte, where the qword is
stored and the copy returns, or after eight bytes, where the qword is stored and the outer
loop moves on. -/
inductive ByteLoopExit
  | terminator (c : BitVec 64)
  | exhausted (c : BitVec 64)
  deriving DecidableEq, Repr

/-- The qword `c` that either exit stores at `**destination`. -/
def ByteLoopExit.word : ByteLoopExit → BitVec 64
  | .terminator c => c
  | .exhausted c => c

/-- The byte loop from index `i`, with `left` passes to go. -/
def byteLoop (argument : Nat → BitVec 8) (i : Nat) (c : BitVec 64) : Nat → ByteLoopExit
  | 0 => .exhausted c
  | left + 1 =>
    let next := argument i
    if next = 0 then .terminator c
    else byteLoop argument (i + 1) (c ||| next.setWidth 64 <<< (i <<< 3)) left

/-- One pass of the outer loop's body: `c = argument[0]`, then the byte loop. The source
never advances `argument`, so every pass reads the same bytes. -/
def qwordScan (argument : Nat → BitVec 8) : ByteLoopExit :=
  byteLoop argument 0 ((argument 0).setWidth 64) 8

/-- `for(; *destination < limit; ++*destination)`; `fuel` bounds the number of passes. -/
def copyLoop (argument : Nat → BitVec 8) (limit : Nat) : Nat → Nat → Memory → Nat × Memory
  | 0, destination, mem => (destination, mem)
  | fuel + 1, destination, mem =>
    if destination < limit then
      match qwordScan argument with
      | .terminator c => (destination + 1, Function.update mem destination c)
      | .exhausted c =>
        copyLoop argument limit fuel (destination + 1) (Function.update mem destination c)
    else (destination, mem)

/-- `PIXCopyEventStringArgumentSlow`, returning the advanced `*destination` with the memory.
The loop makes at most `limit - *destination` passes, so that fuel never runs out first. -/
def pixCopyEventStringArgumentSlow (destination limit : Nat) (argument : Nat → BitVec 8)
    (mem : Memory) : Nat × Memory :=
  copyLoop argument limit (limit - destination) destination mem

/-- The C loop's own unfolding: one pass, then the rest of the loop. -/
theorem pixCopyEventStringArgumentSlow_eq (d L : Nat) (argument : Nat → BitVec 8) (mem : Memory) :
    pixCopyEventStringArgumentSlow d L argument mem =
      if d < L then
        match qwordScan argument with
        | .terminator c => (d + 1, Function.update mem d c)
        | .exhausted c => pixCopyEventStringArgumentSlow (d + 1) L argument (Function.update mem d c)
      else (d, mem) := by
  unfold pixCopyEventStringArgumentSlow
  split_ifs with h
  · obtain ⟨k, hk⟩ : ∃ k, L - d = k + 1 := ⟨L - d - 1, by omega⟩
    rw [hk, copyLoop, if_pos h, show L - (d + 1) = k by omega]
  · rw [show L - d = 0 by omega, copyLoop]

/-- Fuel past `limit - destination` changes nothing: the bound is the loop's own. -/
theorem copyLoop_fuel (argument : Nat → BitVec 8) (limit fuel d : Nat) (mem : Memory)
    (h : limit - d ≤ fuel) :
    copyLoop argument limit fuel d mem = pixCopyEventStringArgumentSlow d limit argument mem := by
  induction fuel generalizing d mem with
  | zero => rw [copyLoop, pixCopyEventStringArgumentSlow_eq, if_neg (by omega)]
  | succ f ih =>
    rw [copyLoop, pixCopyEventStringArgumentSlow_eq]
    split_ifs
    · cases qwordScan argument with
      | terminator c => rfl
      | exhausted c => exact ih _ _ (by omega)
    · rfl

theorem pixCopyEventStringArgumentSlow_of_ge (d L : Nat) (argument : Nat → BitVec 8)
    (mem : Memory) (h : L ≤ d) : pixCopyEventStringArgumentSlow d L argument mem = (d, mem) := by
  rw [pixCopyEventStringArgumentSlow_eq, if_neg (by omega)]

/-- A scan that meets the terminator stores one qword and returns. -/
theorem pixCopyEventStringArgumentSlow_of_terminator (d L : Nat) (argument : Nat → BitVec 8)
    (mem : Memory) (c : BitVec 64) (hs : qwordScan argument = .terminator c) (h : d < L) :
    pixCopyEventStringArgumentSlow d L argument mem = (d + 1, Function.update mem d c) := by
  rw [pixCopyEventStringArgumentSlow_eq, if_pos h, hs]

/-- A scan without terminator stores its qword at every address up to `limit`. -/
theorem pixCopyEventStringArgumentSlow_of_exhausted (d L : Nat) (argument : Nat → BitVec 8)
    (mem : Memory) (c : BitVec 64) (hs : qwordScan argument = .exhausted c) :
    pixCopyEventStringArgumentSlow d L argument mem =
      (max d L, fun k => if d ≤ k ∧ k < L then c else mem k) := by
  generalize h : L - d = r
  induction r generalizing d mem with
  | zero =>
    rw [pixCopyEventStringArgumentSlow_of_ge d L argument mem (by omega), max_eq_left (by omega)]
    simp only [Prod.mk.injEq, true_and]
    funext k; rw [if_neg (by omega)]
  | succ r ih =>
    rw [pixCopyEventStringArgumentSlow_eq, if_pos (by omega), hs]
    dsimp only
    rw [ih (d + 1) _ (by omega)]
    simp only [Function.update_apply, Prod.mk.injEq]
    refine ⟨by omega, funext fun k => ?_⟩
    split_ifs <;> first | rfl | omega

/-- Where the copy leaves `*destination`. -/
def copyEnd (d L : Nat) (argument : Nat → BitVec 8) : Nat :=
  if d < L then
    match qwordScan argument with
    | .terminator _ => d + 1
    | .exhausted _ => L
  else d

theorem copyEnd_bounds (d L : Nat) (argument : Nat → BitVec 8) :
    d ≤ copyEnd d L argument ∧ copyEnd d L argument ≤ max d L := by
  unfold copyEnd
  split_ifs
  · split <;> omega
  · omega

theorem lt_copyEnd (d L : Nat) (argument : Nat → BitVec 8) (h : d < L) :
    d < copyEnd d L argument := by
  unfold copyEnd
  rw [if_pos h]
  split <;> omega

/-- Lowering the limit clips the cursor and nothing else. -/
theorem copyEnd_of_le (d L L' : Nat) (argument : Nat → BitVec 8) (h : L ≤ L') :
    copyEnd d L argument = min (copyEnd d L' argument) (max d L) := by
  unfold copyEnd
  split_ifs <;> (try split) <;> omega

/-- The whole copy in closed form: the scanned qword fills `[d, copyEnd)`, nothing else moves. -/
theorem pixCopyEventStringArgumentSlow_closed (d L : Nat) (argument : Nat → BitVec 8)
    (mem : Memory) :
    pixCopyEventStringArgumentSlow d L argument mem =
      (copyEnd d L argument, fun k =>
        if d ≤ k ∧ k < copyEnd d L argument then (qwordScan argument).word else mem k) := by
  unfold copyEnd
  by_cases h : d < L
  · rw [if_pos h]
    cases hs : qwordScan argument with
    | terminator c =>
      rw [pixCopyEventStringArgumentSlow_of_terminator d L argument mem c hs h]
      simp only [ByteLoopExit.word, Prod.mk.injEq, true_and]
      funext k
      rw [Function.update_apply]
      split_ifs <;> first | rfl | omega
    | exhausted c =>
      rw [pixCopyEventStringArgumentSlow_of_exhausted d L argument mem c hs, max_eq_right h.le]
      rfl
  · rw [if_neg h, pixCopyEventStringArgumentSlow_of_ge d L argument mem (by omega)]
    simp only [Prod.mk.injEq, true_and]
    funext k; rw [if_neg (by omega)]

/-- The copy writes exactly `[d, d')`: no word outside moves, and what lands inside does not
depend on what memory held before. -/
theorem pixCopyEventStringArgumentSlow_frame (d L : Nat) (argument : Nat → BitVec 8)
    (mem mem' : Memory) :
    let r := pixCopyEventStringArgumentSlow d L argument mem
    d ≤ r.1 ∧ r.1 ≤ max d L ∧ (∀ k, k < d ∨ r.1 ≤ k → r.2 k = mem k) ∧
      (pixCopyEventStringArgumentSlow d L argument mem').1 = r.1 ∧
      ∀ k, d ≤ k → k < r.1 → (pixCopyEventStringArgumentSlow d L argument mem').2 k = r.2 k := by
  simp only [pixCopyEventStringArgumentSlow_closed]
  refine ⟨(copyEnd_bounds d L argument).1, (copyEnd_bounds d L argument).2,
    fun k hk => if_neg (by omega), trivial, fun k h1 h2 => ?_⟩
  rw [if_pos ⟨h1, h2⟩, if_pos ⟨h1, h2⟩]

/-- `n` is the index of the first NUL byte of `s`. -/
def FirstNul (s : Nat → BitVec 8) (n : Nat) : Prop := s n = 0 ∧ ∀ j < n, s j ≠ 0

/-- The message `"ABCDEFGH"`: eight non-NUL bytes, then NUL. -/
def abcdefgh (j : Nat) : BitVec 8 := if j < 8 then BitVec.ofNat 8 (65 + j) else 0

theorem abcdefgh_nonzero : ∀ j < 8, abcdefgh j ≠ 0 := by decide

theorem firstNul_abcdefgh : FirstNul abcdefgh 8 := ⟨rfl, abcdefgh_nonzero⟩

/-- The byte loop's accumulator after bytes `0 .. i`: the bytes below `i`, packed. -/
theorem packLE_range_succ (a : Nat → BitVec 8) (i : Nat) :
    packLE ((List.range (i + 1)).map a) =
      packLE ((List.range i).map a) ||| (a i).setWidth 64 <<< (i <<< 3) := by
  rw [List.range_succ, List.map_append, List.map_singleton, packLE_append_singleton,
    List.length_map, List.length_range, Nat.shiftLeft_eq, Nat.mul_comm]

theorem byteLoop_terminator (argument : Nat → BitVec 8) (base : BitVec 64) (n : Nat)
    (hn : FirstNul argument n) (left i : Nat) (hi : i ≤ n) (hl : n < i + left) :
    byteLoop argument i (base ||| packLE ((List.range i).map argument)) left =
      .terminator (base ||| packLE ((List.range n).map argument)) := by
  induction left generalizing i with
  | zero => omega
  | succ left ih =>
    simp only [byteLoop]
    by_cases h : i = n
    · subst h; simp [hn.1]
    · rw [if_neg (hn.2 i (by omega)), BitVec.or_assoc, ← packLE_range_succ]
      exact ih (i + 1) (by omega) (by omega)

theorem byteLoop_exhausted (argument : Nat → BitVec 8) (base : BitVec 64) (left i : Nat)
    (h : ∀ j, i ≤ j → j < i + left → argument j ≠ 0) :
    byteLoop argument i (base ||| packLE ((List.range i).map argument)) left =
      .exhausted (base ||| packLE ((List.range (i + left)).map argument)) := by
  induction left generalizing i with
  | zero => simp [byteLoop]
  | succ left ih =>
    simp only [byteLoop]
    rw [if_neg (h i le_rfl (by omega)), BitVec.or_assoc, ← packLE_range_succ,
      ih (i + 1) (fun j h1 h2 => h j (by omega) (by omega)),
      show i + 1 + left = i + (left + 1) by omega]

/-- The initial `c = argument[0]` adds nothing once byte 0 is packed, or when it is NUL. -/
private theorem head_or_packLE_range (a : Nat → BitVec 8) (n : Nat) (hn : 0 < n ∨ a 0 = 0) :
    (a 0).setWidth 64 ||| packLE ((List.range n).map a) = packLE ((List.range n).map a) := by
  rcases hn with hn | hn
  · obtain ⟨m, rfl⟩ : ∃ m, n = m + 1 := ⟨n - 1, by omega⟩
    rw [List.range_succ_eq_map, List.map_cons, packLE, ← BitVec.or_assoc, BitVec.or_self]
  · simp [hn]

/-- A terminator among the first eight bytes: the scan packs the bytes before it. -/
theorem qwordScan_of_firstNul (argument : Nat → BitVec 8) (n : Nat) (hn : FirstNul argument n)
    (h8 : n < 8) : qwordScan argument = .terminator (packLE ((List.range n).map argument)) := by
  have h := byteLoop_terminator argument ((argument 0).setWidth 64) n hn 8 0 (Nat.zero_le n)
    (by omega)
  have hz : 0 < n ∨ argument 0 = 0 := by
    rcases Nat.eq_zero_or_pos n with rfl | hpos
    · exact .inr hn.1
    · exact .inl hpos
  rwa [List.range_zero, List.map_nil, packLE_nil, BitVec.or_zero,
    head_or_packLE_range argument n hz] at h

/-- Eight bytes without NUL: the scan packs exactly those eight and never meets a terminator. -/
theorem qwordScan_of_nonzero (argument : Nat → BitVec 8) (h : ∀ j < 8, argument j ≠ 0) :
    qwordScan argument = .exhausted (packLE ((List.range 8).map argument)) := by
  have h' := byteLoop_exhausted argument ((argument 0).setWidth 64) 8 0 (fun j _ hj => h j hj)
  rwa [List.range_zero, List.map_nil, packLE_nil, BitVec.or_zero, Nat.zero_add,
    head_or_packLE_range argument 8 (.inl (by omega))] at h'

/-- The scan reads no byte past the terminator. -/
theorem qwordScan_congr (s s' : Nat → BitVec 8) (n : Nat) (hn : FirstNul s n)
    (hs : ∀ j ≤ n, s j = s' j) : qwordScan s = qwordScan s' := by
  have hmap (m : Nat) (hm : m ≤ n + 1) : (List.range m).map s = (List.range m).map s' :=
    List.map_congr_left fun j hj => hs j (by simp at hj; omega)
  by_cases h8 : n < 8
  · have hn' : FirstNul s' n := ⟨hs n le_rfl ▸ hn.1, fun j hj => hs j hj.le ▸ hn.2 j hj⟩
    rw [qwordScan_of_firstNul s n hn h8, qwordScan_of_firstNul s' n hn' h8, hmap n (by omega)]
  · rw [qwordScan_of_nonzero s fun j hj => hn.2 j (by omega),
      qwordScan_of_nonzero s' fun j hj => hs j (by omega) ▸ hn.2 j (by omega), hmap 8 (by omega)]

/-- Two sources that agree up to and including the first NUL of one of them give the same
cursor and the same memory: the copy never reads past the terminator. -/
theorem pixCopyEventStringArgumentSlow_source_congr (s s' : Nat → BitVec 8) (n : Nat)
    (hn : FirstNul s n) (hs : ∀ j ≤ n, s j = s' j) (d L : Nat) (mem : Memory) :
    pixCopyEventStringArgumentSlow d L s mem = pixCopyEventStringArgumentSlow d L s' mem := by
  simp only [pixCopyEventStringArgumentSlow_closed, copyEnd, qwordScan_congr s s' n hn hs]

/-- `"hi"` and a copy that differs only past its terminator copy alike. -/
theorem pixCopyEventStringArgumentSlow_source_congr_hi :
    let s : Nat → BitVec 8 := fun j => if j = 0 then 0x68 else if j = 1 then 0x69 else 0
    let s' : Nat → BitVec 8 := fun j => if j = 3 then 0x58 else s j
    FirstNul s 2 ∧ (∀ j ≤ 2, s j = s' j) ∧
      pixCopyEventStringArgumentSlow 0 4 s (fun _ => 0) =
        pixCopyEventStringArgumentSlow 0 4 s' (fun _ => 0) :=
  ⟨⟨by decide, by decide⟩, by decide,
    pixCopyEventStringArgumentSlow_source_congr _ _ 2 ⟨by decide, by decide⟩ (by decide) 0 4 _⟩

/-- A copy cut at a lower limit is a prefix of the copy at a higher one: the same words, with
the cursor clipped at the lower limit. -/
theorem pixCopyEventStringArgumentSlow_limit_prefix (s : Nat → BitVec 8) (d L L' : Nat)
    (mem : Memory) (h : L ≤ L') :
    (pixCopyEventStringArgumentSlow d L s mem).1 =
        min (pixCopyEventStringArgumentSlow d L' s mem).1 (max d L) ∧
      ∀ k < (pixCopyEventStringArgumentSlow d L s mem).1,
        (pixCopyEventStringArgumentSlow d L s mem).2 k =
          (pixCopyEventStringArgumentSlow d L' s mem).2 k := by
  have he := copyEnd_of_le d L L' s h
  simp only [pixCopyEventStringArgumentSlow_closed]
  refine ⟨he, fun k hk => ?_⟩
  split_ifs <;> first | rfl | omega

theorem pixCopyEventStringArgumentSlow_limit_prefix_abcdefgh :
    3 ≤ 64 ∧
      (pixCopyEventStringArgumentSlow 0 3 abcdefgh fun _ => 0).1 =
        min (pixCopyEventStringArgumentSlow 0 64 abcdefgh fun _ => 0).1 (max 0 3) ∧
      ∀ k < (pixCopyEventStringArgumentSlow 0 3 abcdefgh fun _ => 0).1,
        (pixCopyEventStringArgumentSlow 0 3 abcdefgh fun _ => 0).2 k =
          (pixCopyEventStringArgumentSlow 0 64 abcdefgh fun _ => 0).2 k :=
  ⟨by decide, pixCopyEventStringArgumentSlow_limit_prefix abcdefgh 0 3 64 _ (by decide)⟩

/-- The byte loop reads `argument[j]`: `j` is below eight and no byte before it is NUL. -/
def Reached (s : Nat → BitVec 8) (j : Nat) : Prop := j < 8 ∧ ∀ i < j, s i ≠ 0

theorem firstNul_or_nonzero (s : Nat → BitVec 8) :
    (∃ n < 8, FirstNul s n) ∨ ∀ j < 8, s j ≠ 0 := by
  by_cases h : ∃ j, j < 8 ∧ s j = 0
  · obtain ⟨h8, h0⟩ := Nat.find_spec h
    exact .inl ⟨_, h8, h0, fun j hj h0' => Nat.find_min h hj ⟨by omega, h0'⟩⟩
  · exact .inr fun j hj h0 => h ⟨j, hj, h0⟩

/-- Every byte the scan reads lands in its place in the stored qword, a NUL as zero. -/
theorem extractLsb_qwordScan (s : Nat → BitVec 8) (j : Nat) (hj : Reached s j) :
    (qwordScan s).word.extractLsb' (8 * j) 8 = s j := by
  rcases firstNul_or_nonzero s with ⟨n, h8, hn⟩ | hz
  · have hjn : j ≤ n := Nat.le_of_not_lt fun hc => hj.2 n hc hn.1
    rw [qwordScan_of_firstNul s n hn h8, ByteLoopExit.word, extractLsb_packLE _ j hj.1]
    rcases Nat.lt_or_eq_of_le hjn with hlt | rfl
    · simp [hlt]
    · simp [hn.1, List.getElem?_eq_none]
  · rw [qwordScan_of_nonzero s hz, ByteLoopExit.word, extractLsb_packLE _ j hj.1]
    simp [hj.1]

theorem qwordScan_congr_reached (s s' : Nat → BitVec 8) (h : ∀ j, Reached s j → s j = s' j) :
    qwordScan s' = qwordScan s := by
  rcases firstNul_or_nonzero s with ⟨n, h8, hn⟩ | hz
  · exact (qwordScan_congr s s' n hn fun j hj =>
      h j ⟨by omega, fun i hi => hn.2 i (by omega)⟩).symm
  · have hs' (j : Nat) (hj : j < 8) : s' j = s j :=
      (h j ⟨hj, fun i hi => hz i (by omega)⟩).symm
    rw [qwordScan_of_nonzero s hz, qwordScan_of_nonzero s' fun j hj => hs' j hj ▸ hz j hj,
      List.map_congr_left fun j hj => hs' j (List.mem_range.mp hj)]

/-- The copy depends on exactly the bytes its byte loop reaches, `argument[0 .. min(n, 7)]`
for a first NUL at `n`: sources that agree on them copy alike, and changing any one of them
changes the first stored qword. -/
theorem pixCopyEventStringArgumentSlow_reads_exactly (s : Nat → BitVec 8) (d L : Nat)
    (mem : Memory) :
    (∀ s' : Nat → BitVec 8, (∀ j, Reached s j → s j = s' j) →
      pixCopyEventStringArgumentSlow d L s' mem = pixCopyEventStringArgumentSlow d L s mem) ∧
    (d < L → ∀ j b, Reached s j → b ≠ s j →
      (pixCopyEventStringArgumentSlow d L (Function.update s j b) mem).2 d ≠
        (pixCopyEventStringArgumentSlow d L s mem).2 d) := by
  refine ⟨fun s' h => ?_, fun hd j b hj hb hw => hb ?_⟩
  · simp only [pixCopyEventStringArgumentSlow_closed, copyEnd, qwordScan_congr_reached s s' h]
  · have hj' : Reached (Function.update s j b) j :=
      ⟨hj.1, fun i hi => by rw [Function.update_noteq (by omega)]; exact hj.2 i hi⟩
    have hin (s : Nat → BitVec 8) : d ≤ d ∧ d < copyEnd d L s := ⟨le_rfl, lt_copyEnd d L s hd⟩
    simp only [pixCopyEventStringArgumentSlow_closed, if_pos (hin _)] at hw
    have hbyte := congrArg (BitVec.extractLsb' (8 * j) 8) hw
    rwa [extractLsb_qwordScan _ j hj', extractLsb_qwordScan s j hj, Function.update_same] at hbyte

theorem pixCopyEventStringArgumentSlow_reads_exactly_hi :
    let s : Nat → BitVec 8 := fun j => if j = 0 then 0x68 else if j = 1 then 0x69 else 0
    (∀ j, Reached s j → s j = Function.update s 5 0x58 j) ∧
      pixCopyEventStringArgumentSlow 0 4 (Function.update s 5 0x58) (fun _ => 0) =
        pixCopyEventStringArgumentSlow 0 4 s (fun _ => 0) ∧
      0 < 4 ∧ Reached s 1 ∧ (0x41 : BitVec 8) ≠ s 1 ∧
      (pixCopyEventStringArgumentSlow 0 4 (Function.update s 1 0x41) (fun _ => 0)).2 0 ≠
        (pixCopyEventStringArgumentSlow 0 4 s (fun _ => 0)).2 0 := by
  intro s
  have h5 (j : Nat) (hj : Reached s j) : s j = Function.update s 5 0x58 j :=
    (Function.update_noteq (fun h => hj.2 2 (by omega) (by decide)) _ _).symm
  have h1 : Reached s 1 := ⟨by decide, by decide⟩
  exact ⟨h5, (pixCopyEventStringArgumentSlow_reads_exactly s 0 4 _).1 _ h5, by decide, h1,
    by decide, (pixCopyEventStringArgumentSlow_reads_exactly s 0 4 _).2 (by decide) 1 0x41 h1
      (by decide)⟩

end PixEvents.Codec
