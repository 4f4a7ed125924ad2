import PixEvents.Codec.Header
import PixEvents.Codec.StringCopy

namespace PixEvents.Codec

/-- `PIXSerializeEvent` into the caller's `uint64_t data[64]` at address `data`: the header,
the color, then the message. Returns the memory and `*size`. The string limit `data + 64` is
taken after `data += 2`. -/
def pixSerializeEvent (type : PixEventType) (color : BitVec 64) (message : Nat → BitVec 8)
    (data : Nat) (mem : Memory) : Memory × BitVec 32 :=
  let start := data
  let mem := Function.update (Function.update mem data (pixEncodeEventInfo 0 type)) (data + 1) color
  let copied := pixCopyEventStringArgumentSlow (data + 2) (data + 2 + 64) message mem
  (copied.2, BitVec.ofNat 32 (8 * (copied.1 - start)))

/-- The blob `(data, size)` as the context reads it: the qwords `data[0 .. size/8)`. -/
def eventBlob (data : Nat) (r : Memory × BitVec 32) : List (BitVec 64) :=
  (List.range (r.2.toNat / 8)).map fun k => r.1 (data + k)

/-- The memory before the string copy: header at `data`, color at `data + 1`. -/
def headerWords (type : PixEventType) (color : BitVec 64) (data : Nat) (mem : Memory) : Memory :=
  Function.update (Function.update mem data (pixEncodeEventInfo 0 type)) (data + 1) color

/-- How many qwords the string copy stores: one when the scan meets the terminator, else
every qword up to the limit. -/
def messageWords (message : Nat → BitVec 8) : Nat :=
  match qwordScan message with
  | .terminator _ => 1
  | .exhausted _ => 64

theorem messageWords_bounds (message : Nat → BitVec 8) :
    1 ≤ messageWords message ∧ messageWords message ≤ 64 := by
  unfold messageWords; split <;> omega

theorem messageWords_of_nonzero (message : Nat → BitVec 8) (h : ∀ j < 8, message j ≠ 0) :
    messageWords message = 64 := by
  rw [messageWords, qwordScan_of_nonzero message h]

theorem messageWords_of_firstNul (message : Nat → BitVec 8) (n : Nat) (hn : FirstNul message n)
    (h8 : n < 8) : messageWords message = 1 := by
  rw [messageWords, qwordScan_of_firstNul message n hn h8]

/-- The copy inside `PIXSerializeEvent` always starts below its limit. -/
theorem copyEnd_messageWords (data : Nat) (message : Nat → BitVec 8) :
    copyEnd (data + 2) (data + 2 + 64) message = data + 2 + messageWords message := by
  unfold copyEnd messageWords
  rw [if_pos (by omega)]
  cases qwordScan message <;> rfl

theorem pixSerializeEvent_closed (type : PixEventType) (color : BitVec 64)
    (message : Nat → BitVec 8) (data : Nat) (mem : Memory) :
    pixSerializeEvent type color message data mem =
      (fun k => if data + 2 ≤ k ∧ k < data + 2 + messageWords message then (qwordScan message).word
        else headerWords type color data mem k,
        BitVec.ofNat 32 (8 * (2 + messageWords message))) := by
  simp only [pixSerializeEvent, pixCopyEventStringArgumentSlow_closed, copyEnd_messageWords,
    headerWords, Nat.add_assoc, Nat.add_sub_cancel_left]

theorem pixSerializeEvent_size (type : PixEventType) (color : BitVec 64)
    (message : Nat → BitVec 8) (data : Nat) (mem : Memory) :
    (pixSerializeEvent type color message data mem).2.toNat = 8 * (2 + messageWords message) := by
  have h := messageWords_bounds message
  rw [pixSerializeEvent_closed, BitVec.toNat_ofNat, Nat.mod_eq_of_lt (by omega)]

/-- The serialized words of `data[0 .. size/8)`; everything else as it was. -/
theorem pixSerializeEvent_apply (type : PixEventType) (color : BitVec 64)
    (message : Nat → BitVec 8) (data : Nat) (mem : Memory) (k : Nat) :
    (pixSerializeEvent type color message data mem).1 k =
      if k = data then pixEncodeEventInfo 0 type
      else if k = data + 1 then color
      else if data + 2 ≤ k ∧ k < data + 2 + messageWords message then (qwordScan message).word
      else mem k := by
  rw [pixSerializeEvent_closed]
  simp only [headerWords, Function.update_apply]
  split_ifs <;> first | rfl | omega

/-- Every word of the blob is written by the call: two runs from any two memories hand the
context the same size and the same words. -/
theorem pixSerializeEvent_written (type : PixEventType) (color : BitVec 64)
    (message : Nat → BitVec 8) (data : Nat) (mem mem' : Memory) :
    let r := pixSerializeEvent type color message data mem
    (pixSerializeEvent type color message data mem').2 = r.2 ∧
      ∀ k < r.2.toNat / 8, (pixSerializeEvent type color message data mem').1 (data + k) =
        r.1 (data + k) := by
  refine ⟨by simp only [pixSerializeEvent_closed], fun k hk => ?_⟩
  rw [pixSerializeEvent_size] at hk
  rw [pixSerializeEvent_apply, pixSerializeEvent_apply]
  split_ifs <;> first | rfl | omega

/-- The call writes nothing outside `data[0 .. size/8)`. -/
theorem pixSerializeEvent_frame (type : PixEventType) (color : BitVec 64)
    (message : Nat → BitVec 8) (data : Nat) (mem : Memory) (k : Nat)
    (hk : k < data ∨ data + (pixSerializeEvent type color message data mem).2.toNat / 8 ≤ k) :
    (pixSerializeEvent type color message data mem).1 k = mem k := by
  rw [pixSerializeEvent_size] at hk
  rw [pixSerializeEvent_apply]
  split_ifs <;> first | rfl | omega

/-- The blob in closed form: header, color, and the scanned qword once per stored word. It
depends on neither the array's address nor what the memory held. -/
theorem eventBlob_eq (type : PixEventType) (color : BitVec 64) (message : Nat → BitVec 8)
    (data : Nat) (mem : Memory) :
    eventBlob data (pixSerializeEvent type color message data mem) =
      pixEncodeEventInfo 0 type :: color ::
        List.replicate (messageWords message) (qwordScan message).word := by
  rw [eventBlob, pixSerializeEvent_size,
    show 8 * (2 + messageWords message) / 8 = messageWords message + 1 + 1 by omega,
    List.range_succ_eq_map, List.range_succ_eq_map]
  simp only [List.map_cons, List.map_map, Function.comp_def, Nat.succ_eq_add_one, Nat.zero_add]
  rw [pixSerializeEvent_apply, pixSerializeEvent_apply, if_pos (by omega), if_neg (by omega),
    if_pos rfl, List.map_congr_left (g := fun _ => (qwordScan message).word), List.map_const',
    List.length_range]
  intro k hk
  rw [List.mem_range] at hk
  rw [pixSerializeEvent_apply, if_neg (by omega), if_neg (by omega), if_pos (by omega)]

/-- Whatever the message, the call stays inside `data[0 .. 66)` and reports at most 528
bytes: the limit `data + 64` is taken two words past the start of the array. -/
theorem pixSerializeEvent_bounds (type : PixEventType) (color : BitVec 64)
    (message : Nat → BitVec 8) (data : Nat) (mem : Memory) :
    (pixSerializeEvent type color message data mem).2.toNat ≤ 528 ∧
      ∀ k, k < data ∨ data + 66 ≤ k → (pixSerializeEvent type color message data mem).1 k = mem k := by
  have h := messageWords_bounds message
  refine ⟨by rw [pixSerializeEvent_size]; omega, fun k hk => ?_⟩
  rw [pixSerializeEvent_apply]
  split_ifs <;> first | rfl | omega

/-- `"ABCDEFGH"` serialized into an array at address 0: a 528-byte blob, with words 64 and 65,
past the caller's `data[64]`, overwritten. -/
theorem pixSerializeEvent_abcdefgh_overruns :
    (pixSerializeEvent .setMarkerOnContextVarArgs 0 abcdefgh 0 fun _ => 0).2.toNat = 528 ∧
      (pixSerializeEvent .setMarkerOnContextVarArgs 0 abcdefgh 0 fun _ => 0).1 64 ≠ 0 ∧
      (pixSerializeEvent .setMarkerOnContextVarArgs 0 abcdefgh 0 fun _ => 0).1 65 ≠ 0 := by
  have he := messageWords_of_nonzero abcdefgh abcdefgh_nonzero
  refine ⟨by rw [pixSerializeEvent_size, he], ?_, ?_⟩ <;>
    rw [pixSerializeEvent_apply, he, qwordScan_of_nonzero abcdefgh abcdefgh_nonzero] <;> decide

/-- The string copy writes exactly `[d, d')` with `d ≤ d' ≤ max d L`; so the blob
`PIXSerializeEvent` hands on is whole qwords `data[0 .. size/8)`, nothing outside it is
written, and every word in it is the same from any initial memory. -/
theorem writes_exactly_and_blob_initialized (d L : Nat) (argument : Nat → BitVec 8)
    (mem mem' : Memory) (type : PixEventType) (color : BitVec 64) (message : Nat → BitVec 8)
    (data : Nat) (stack stack' : Memory) :
    (let r := pixCopyEventStringArgumentSlow d L argument mem;
      d ≤ r.1 ∧ r.1 ≤ max d L ∧ (∀ k, k < d ∨ r.1 ≤ k → r.2 k = mem k) ∧
        (pixCopyEventStringArgumentSlow d L argument mem').1 = r.1 ∧
        ∀ k, d ≤ k → k < r.1 → (pixCopyEventStringArgumentSlow d L argument mem').2 k = r.2 k) ∧
    (let r := pixSerializeEvent type color message data stack;
      r.2.toNat % 8 = 0 ∧ (∀ k, k < data ∨ data + r.2.toNat / 8 ≤ k → r.1 k = stack k) ∧
        (pixSerializeEvent type color message data stack').2 = r.2 ∧
        ∀ k < r.2.toNat / 8,
          (pixSerializeEvent type color message data stack').1 (data + k) = r.1 (data + k)) :=
  ⟨pixCopyEventStringArgumentSlow_frame d L argument mem mem',
    by rw [pixSerializeEvent_size]; omega,
    pixSerializeEvent_frame type color message data stack,
    pixSerializeEvent_written type color message data stack stack'⟩

end PixEvents.Codec
