import PixEvents.Codec.Serialize

namespace PixEvents.Codec

/-- An event as the minimal forwarding format carries it. -/
structure DecodedEvent where
  type : BitVec 64
  timestamp : BitVec 64
  color : BitVec 64
  name : List (BitVec 8)
  deriving DecidableEq, Repr

/-- Modelled from the spec: the context's reading of the minimal forwarding format, whose
decoder is not in src/. Bits 10-19 of the header word are the type and bits 20-63 the
timestamp, word 1 is the color, and words 2.. are little-endian bytes up to the first NUL. -/
def decodeMinimal : List (BitVec 64) → Option DecodedEvent
  | header :: color :: rest =>
    some ⟨(header >>> pixEventsTypeBitShift) &&& pixEventsTypeWriteMask,
      header >>> pixEventsTimestampBitShift, color, (rest.flatMap unpackLE).takeWhile (· != 0)⟩
  | _ => none

theorem eventBlob_of_firstNul (type : PixEventType) (color : BitVec 64) (message : Nat → BitVec 8)
    (data : Nat) (mem : Memory) (n : Nat) (hn : FirstNul message n) (h8 : n < 8) :
    eventBlob data (pixSerializeEvent type color message data mem) =
      [pixEncodeEventInfo 0 type, color, packLE ((List.range n).map message)] := by
  rw [eventBlob_eq, messageWords, qwordScan_of_firstNul message n hn h8]
  rfl

theorem eventBlob_of_nonzero (type : PixEventType) (color : BitVec 64) (message : Nat → BitVec 8)
    (data : Nat) (mem : Memory) (h : ∀ j < 8, message j ≠ 0) :
    eventBlob data (pixSerializeEvent type color message data mem) =
      pixEncodeEventInfo 0 type :: color ::
        List.replicate 64 (packLE ((List.range 8).map message)) := by
  rw [eventBlob_eq, messageWords, qwordScan_of_nonzero message h]
  rfl

/-- The bytes of the blob's name field: each stored qword of the message, unpacked. -/
theorem eventBlob_name (type : PixEventType) (color : BitVec 64) (message : Nat → BitVec 8)
    (data : Nat) (mem : Memory) :
    ((eventBlob data (pixSerializeEvent type color message data mem)).drop 2).flatMap unpackLE =
      (List.replicate (messageWords message) (unpackLE (qwordScan message).word)).flatten := by
  rw [eventBlob_eq, List.drop_succ_cons, List.drop_succ_cons, List.drop_zero,
    List.flatMap_replicate]

/-- Size and terminator agree: the blob is 24 bytes and its name field holds a NUL exactly
when the message has one among its first eight bytes; otherwise the blob is 528 bytes and no
byte of its name field is NUL, so a reader looking for the terminator runs off the blob. -/
theorem pixSerializeEvent_terminated_iff (type : PixEventType) (color : BitVec 64)
    (message : Nat → BitVec 8) (data : Nat) (mem : Memory) :
    ((pixSerializeEvent type color message data mem).2.toNat = 24 ↔ ∃ j < 8, message j = 0) ∧
      (0 ∈ ((eventBlob data (pixSerializeEvent type color message data mem)).drop 2).flatMap
          unpackLE ↔ ∃ j < 8, message j = 0) ∧
      ((pixSerializeEvent type color message data mem).2.toNat = 24 ∨
        (pixSerializeEvent type color message data mem).2.toNat = 528) := by
  rw [pixSerializeEvent_size, eventBlob_name]
  rcases firstNul_or_nonzero message with ⟨n, h8, hn⟩ | hz
  · have hex : ∃ j < 8, message j = 0 := ⟨n, h8, hn.1⟩
    rw [messageWords_of_firstNul message n hn h8, qwordScan_of_firstNul message n hn h8,
      ByteLoopExit.word, unpackLE_packLE _ (by simp; omega)]
    exact ⟨iff_of_true rfl hex, iff_of_true (by simp; omega) hex, .inl rfl⟩
  · have hno : ¬∃ j < 8, message j = 0 := fun ⟨j, hj, h0⟩ => hz j hj h0
    rw [messageWords_of_nonzero message hz, qwordScan_of_nonzero message hz, ByteLoopExit.word,
      unpackLE_packLE_eight _ (by simp)]
    have hnil : 0 ∉ (List.replicate 64 ((List.range 8).map message)).flatten := by
      simp only [List.mem_flatten, List.mem_replicate]
      simpa using hz
    exact ⟨iff_of_false (by decide) hno, iff_of_false hnil hno, .inr rfl⟩

/-- A message whose terminator lies in its first qword comes back whole: the type field,
timestamp 0, the color and the name. -/
theorem decodeMinimal_of_firstNul (type : PixEventType) (color : BitVec 64)
    (message : Nat → BitVec 8) (data : Nat) (mem : Memory) (n : Nat) (hn : FirstNul message n)
    (h8 : n < 8) :
    decodeMinimal (eventBlob data (pixSerializeEvent type color message data mem)) =
      some ⟨type.toUInt64 &&& pixEventsTypeWriteMask, 0, color, (List.range n).map message⟩ := by
  have hne : ∀ b ∈ (List.range n).map message, (b != 0) = true := by
    simpa using fun j hj => hn.2 j hj
  rw [eventBlob_of_firstNul type color message data mem n hn h8, decodeMinimal,
    pixEncodeEventInfo_type, pixEncodeEventInfo_timestamp, List.flatMap_cons, List.flatMap_nil,
    List.append_nil, unpackLE_packLE _ (by simp; omega), List.takeWhile_append_of_pos hne,
    List.takeWhile_replicate]
  simp

/-- A message with no NUL in its first eight bytes comes back as those eight bytes, 64 times. -/
theorem decodeMinimal_of_nonzero (type : PixEventType) (color : BitVec 64)
    (message : Nat → BitVec 8) (data : Nat) (mem : Memory) (h : ∀ j < 8, message j ≠ 0) :
    decodeMinimal (eventBlob data (pixSerializeEvent type color message data mem)) =
      some ⟨type.toUInt64 &&& pixEventsTypeWriteMask, 0, color,
        (List.replicate 64 ((List.range 8).map message)).flatten⟩ := by
  rw [eventBlob_of_nonzero type color message data mem h, decodeMinimal, pixEncodeEventInfo_type,
    pixEncodeEventInfo_timestamp, List.flatMap_replicate, unpackLE_packLE_eight _ (by simp),
    List.takeWhile_eq_self_iff.mpr]
  · simp
  · intro x hx
    obtain ⟨l, hl, hx⟩ := List.mem_flatten.mp hx
    obtain ⟨j, hj, rfl⟩ := List.mem_map.mp (List.eq_of_mem_replicate hl ▸ hx)
    simpa using h j (List.mem_range.mp hj)

/-- What the context decodes, for every NUL-terminated message: the message itself when its
terminator lies in the first qword, else its first eight bytes 64 times over. -/
theorem decodeMinimal_pixSerializeEvent (type : PixEventType) (color : BitVec 64)
    (message : Nat → BitVec 8) (data : Nat) (mem : Memory) (n : Nat) (hn : FirstNul message n) :
    decodeMinimal (eventBlob data (pixSerializeEvent type color message data mem)) =
      some ⟨type.toUInt64 &&& pixEventsTypeWriteMask, 0, color,
        if n < 8 then (List.range n).map message
        else (List.replicate 64 ((List.range 8).map message)).flatten⟩ := by
  split_ifs with h8
  · exact decodeMinimal_of_firstNul type color message data mem n hn h8
  · exact decodeMinimal_of_nonzero type color message data mem fun j hj => hn.2 j (by omega)

theorem decodeMinimal_pixSerializeEvent_abcdefgh :
    FirstNul abcdefgh 8 ∧
      decodeMinimal (eventBlob 0 (pixSerializeEvent .beginEventOnContextVarArgs 7 abcdefgh 0
        fun _ => 0)) =
      some ⟨PixEventType.beginEventOnContextVarArgs.toUInt64 &&& pixEventsTypeWriteMask, 0, 7,
        (List.replicate 64 ((List.range 8).map abcdefgh)).flatten⟩ :=
  ⟨firstNul_abcdefgh, decodeMinimal_pixSerializeEvent _ _ _ 0 _ 8 firstNul_abcdefgh⟩

/-- `"ABCDEFGH"`: the size is 528 where the format needs 32, and the decoded name is 512 bytes
long where the message has 8. -/
theorem pixSerializeEvent_abcdefgh_round_trip :
    (pixSerializeEvent .beginEventOnContextVarArgs 0 abcdefgh 0 fun _ => 0).2.toNat = 528 ∧
      (decodeMinimal (eventBlob 0 (pixSerializeEvent .beginEventOnContextVarArgs 0 abcdefgh 0
        fun _ => 0))).map (fun ev => ev.name.length) = some 512 := by
  refine ⟨by rw [pixSerializeEvent_size, messageWords_of_nonzero abcdefgh abcdefgh_nonzero], ?_⟩
  rw [decodeMinimal_of_nonzero _ _ abcdefgh 0 _ abcdefgh_nonzero]
  simp

end PixEvents.Codec
