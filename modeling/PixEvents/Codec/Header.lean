import Mathlib.Data.BitVec

namespace PixEvents.Codec

/-- `WINPIX_EVENT_PIX3BLOB_VERSION`; forwarded to every context call as `D3D12_EVENT_METADATA`. -/
def winpixEventPix3blobVersion : Nat := 2

def d3d12EventMetadata : Nat := winpixEventPix3blobVersion

/-- Bits 10-19 (10 bits). -/
def pixEventsTypeWriteMask : BitVec 64 := 0x00000000000003FF

def pixEventsTypeBitShift : BitVec 64 := 10

/-- Bits 20-63 (44 bits). -/
def pixEventsTimestampWriteMask : BitVec 64 := 0x00000FFFFFFFFFFF

def pixEventsTimestampBitShift : BitVec 64 := 20

/-- A value of the C enum `PIXEventType`, held as its integer representation: the three
enumerators are named values, and an enum variable may hold any other. -/
@[ext] structure PixEventType where
  val : Int
  deriving DecidableEq, Repr

namespace PixEventType

def endEventOnContext : PixEventType := ⟨0x010⟩

def beginEventOnContextVarArgs : PixEventType := ⟨0x011⟩

def setMarkerOnContextVarArgs : PixEventType := ⟨0x017⟩

/-- The conversion `(uint64_t)eventType`, which C defines modulo `2^64`. -/
def toUInt64 (e : PixEventType) : BitVec 64 := BitVec.ofInt 64 e.val

end PixEventType

def pixEncodeEventInfo (timestamp : BitVec 64) (eventType : PixEventType) : BitVec 64 :=
  ((timestamp &&& pixEventsTimestampWriteMask) <<< pixEventsTimestampBitShift) |||
    ((eventType.toUInt64 &&& pixEventsTypeWriteMask) <<< pixEventsTypeBitShift)

/-- Both write masks are `2^k - 1`: the low `k` bits set. -/
theorem getLsbD_ofNat_two_pow_sub_one (k i : Nat) (hk : k ≤ 64) :
    (BitVec.ofNat 64 (2^k - 1)).getLsbD i = decide (i < k) := by
  rw [BitVec.getLsbD_ofNat, Nat.testBit_two_pow_sub_one, ← Bool.decide_and]
  exact decide_eq_decide.mpr (by omega)

/-- Masking with `2^k - 1` keeps the value modulo `2^k`. -/
theorem toNat_and_ofNat_two_pow_sub_one (x : BitVec 64) (k : Nat) (hk : k ≤ 64) :
    (x &&& BitVec.ofNat 64 (2^k - 1)).toNat = x.toNat % 2^k := by
  have hlt : 2^k - 1 < 2^64 := by have := Nat.pow_le_pow_right (by omega : 0 < 2) hk; omega
  rw [BitVec.toNat_and, BitVec.toNat_ofNat, Nat.mod_eq_of_lt hlt, Nat.and_pow_two_sub_one_eq_mod]

@[simp] theorem getLsbD_pixEventsTypeWriteMask (i : Nat) :
    pixEventsTypeWriteMask.getLsbD i = decide (i < 10) :=
  getLsbD_ofNat_two_pow_sub_one 10 i (by omega)

@[simp] theorem getLsbD_pixEventsTimestampWriteMask (i : Nat) :
    pixEventsTimestampWriteMask.getLsbD i = decide (i < 44) :=
  getLsbD_ofNat_two_pow_sub_one 44 i (by omega)

@[simp] theorem pixEventsTypeBitShift_toNat : pixEventsTypeBitShift.toNat = 10 := rfl

@[simp] theorem pixEventsTimestampBitShift_toNat : pixEventsTimestampBitShift.toNat = 20 := rfl

/-- The header word bit by bit: zero below bit 10, the type in bits 10-19, and the
timestamp, cut to 44 bits, from bit 20 up. -/
theorem getLsbD_pixEncodeEventInfo (t : BitVec 64) (e : PixEventType) (i : Nat) :
    (pixEncodeEventInfo t e).getLsbD i =
      if i < 10 then false else if i < 20 then e.toUInt64.getLsbD (i - 10)
      else t.getLsbD (i - 20) && decide (i - 20 < 44) := by
  simp only [pixEncodeEventInfo, BitVec.getLsbD_or, BitVec.shiftLeft_eq', BitVec.getLsbD_shiftLeft,
    BitVec.getLsbD_and, getLsbD_pixEventsTypeWriteMask, getLsbD_pixEventsTimestampWriteMask,
    pixEventsTypeBitShift_toNat, pixEventsTimestampBitShift_toNat]
  split_ifs <;> simp (disch := omega) [decide_eq_true, decide_eq_false]
  intros; omega

theorem pixEncodeEventInfo_timestamp (t : BitVec 64) (e : PixEventType) :
    pixEncodeEventInfo t e >>> pixEventsTimestampBitShift = t &&& pixEventsTimestampWriteMask := by
  ext i
  simp only [BitVec.ushiftRight_eq', BitVec.getLsbD_ushiftRight, BitVec.getLsbD_and,
    getLsbD_pixEncodeEventInfo, pixEventsTimestampBitShift_toNat, getLsbD_pixEventsTimestampWriteMask]
  split_ifs <;> simp (disch := omega) [decide_eq_true, decide_eq_false]

theorem pixEncodeEventInfo_type (t : BitVec 64) (e : PixEventType) :
    (pixEncodeEventInfo t e >>> pixEventsTypeBitShift) &&& pixEventsTypeWriteMask =
      e.toUInt64 &&& pixEventsTypeWriteMask := by
  ext i
  simp only [BitVec.ushiftRight_eq', BitVec.getLsbD_ushiftRight, BitVec.getLsbD_and,
    getLsbD_pixEncodeEventInfo, pixEventsTypeBitShift_toNat, getLsbD_pixEventsTypeWriteMask]
  split_ifs <;> simp (disch := omega) [decide_eq_true, decide_eq_false]

theorem pixEncodeEventInfo_low (t : BitVec 64) (e : PixEventType) :
    pixEncodeEventInfo t e &&& pixEventsTypeWriteMask = 0 := by
  ext i
  simp only [BitVec.getLsbD_and, getLsbD_pixEncodeEventInfo, getLsbD_pixEventsTypeWriteMask,
    BitVec.getLsbD_zero]
  split_ifs <;> simp (disch := omega) [decide_eq_false]

/-- Decoding the header recovers both fields, and the low ten bits stay clear. -/
theorem pixEncodeEventInfo_fields (t : BitVec 64) (e : PixEventType) :
    pixEncodeEventInfo t e >>> pixEventsTimestampBitShift = t &&& pixEventsTimestampWriteMask ∧
    (pixEncodeEventInfo t e >>> pixEventsTypeBitShift) &&& pixEventsTypeWriteMask =
      e.toUInt64 &&& pixEventsTypeWriteMask ∧
    pixEncodeEventInfo t e &&& 0x3FF = 0 :=
  ⟨pixEncodeEventInfo_timestamp t e, pixEncodeEventInfo_type t e, pixEncodeEventInfo_low t e⟩

/-- The named enumerators fit the type field unchanged. -/
theorem toUInt64_and_pixEventsTypeWriteMask_of_named (e : PixEventType)
    (he : e = .endEventOnContext ∨ e = .beginEventOnContextVarArgs ∨ e = .setMarkerOnContextVarArgs) :
    e.toUInt64 &&& pixEventsTypeWriteMask = e.toUInt64 := by
  rcases he with rfl | rfl | rfl <;> decide

theorem toNat_and_pixEventsTypeWriteMask (x : BitVec 64) :
    (x &&& pixEventsTypeWriteMask).toNat = x.toNat % 2^10 :=
  toNat_and_ofNat_two_pow_sub_one x 10 (by omega)

theorem toNat_and_pixEventsTimestampWriteMask (x : BitVec 64) :
    (x &&& pixEventsTimestampWriteMask).toNat = x.toNat % 2^44 :=
  toNat_and_ofNat_two_pow_sub_one x 44 (by omega)

/-- The type field keeps the enum's value modulo 1024, negative values included. -/
theorem toNat_toUInt64_and_pixEventsTypeWriteMask (e : PixEventType) :
    ((e.toUInt64 &&& pixEventsTypeWriteMask).toNat : Int) = e.val % 1024 := by
  rw [toNat_and_pixEventsTypeWriteMask, PixEventType.toUInt64, BitVec.toNat_ofInt]
  omega

theorem toUInt64_natCast (x : BitVec 64) : (⟨(x.toNat : Int)⟩ : PixEventType).toUInt64 = x := by
  simp [PixEventType.toUInt64]

/-- Two headers collide exactly when the timestamps agree modulo `2^44` and the event types
modulo 1024: the encoder keeps those two residues and nothing else. -/
theorem pixEncodeEventInfo_eq_iff (t t' : BitVec 64) (e e' : PixEventType) :
    pixEncodeEventInfo t e = pixEncodeEventInfo t' e' ↔
      t.toNat % 2^44 = t'.toNat % 2^44 ∧ e.val % 1024 = e'.val % 1024 := by
  have ht : t &&& pixEventsTimestampWriteMask = t' &&& pixEventsTimestampWriteMask ↔
      t.toNat % 2^44 = t'.toNat % 2^44 := by
    rw [BitVec.toNat_eq, toNat_and_pixEventsTimestampWriteMask,
      toNat_and_pixEventsTimestampWriteMask]
  have he : e.toUInt64 &&& pixEventsTypeWriteMask = e'.toUInt64 &&& pixEventsTypeWriteMask ↔
      e.val % 1024 = e'.val % 1024 := by
    rw [BitVec.toNat_eq, ← toNat_toUInt64_and_pixEventsTypeWriteMask e,
      ← toNat_toUInt64_and_pixEventsTypeWriteMask e', Int.ofNat_inj]
  rw [← ht, ← he]
  refine ⟨fun h => ⟨?_, ?_⟩, fun ⟨h1, h2⟩ => by simp only [pixEncodeEventInfo, h1, h2]⟩
  · rw [← pixEncodeEventInfo_timestamp t e, h, pixEncodeEventInfo_timestamp]
  · rw [← pixEncodeEventInfo_type t e, h, pixEncodeEventInfo_type]

theorem pixEncodeEventInfo_decode (h : BitVec 64) (hl : h &&& pixEventsTypeWriteMask = 0) :
    pixEncodeEventInfo (h >>> pixEventsTimestampBitShift)
      ⟨((h >>> pixEventsTypeBitShift) &&& pixEventsTypeWriteMask).toNat⟩ = h := by
  have hb (i : Nat) (hi : i < 10) : h.getLsbD i = false := by
    simpa [hi] using congrArg (BitVec.getLsbD · i) hl
  ext i
  rw [getLsbD_pixEncodeEventInfo, toUInt64_natCast]
  simp only [BitVec.ushiftRight_eq', BitVec.getLsbD_ushiftRight, BitVec.getLsbD_and,
    pixEventsTypeBitShift_toNat, pixEventsTimestampBitShift_toNat, getLsbD_pixEventsTypeWriteMask]
  split_ifs with h1 h2
  · exact (hb i h1).symm
  · simp (disch := omega) [decide_eq_true, show 10 + (i - 10) = i by omega]
  · simp (disch := omega) [decide_eq_true, show 20 + (i - 20) = i by omega]

/-- A word is a header exactly when its low ten bits are clear, and every such word is the
header of its own decoded fields. -/
theorem pixEncodeEventInfo_range (h : BitVec 64) :
    ((∃ t e, pixEncodeEventInfo t e = h) ↔ h &&& 0x3FF = 0) ∧
      (h &&& 0x3FF = 0 → pixEncodeEventInfo (h >>> pixEventsTimestampBitShift)
        ⟨((h >>> pixEventsTypeBitShift) &&& pixEventsTypeWriteMask).toNat⟩ = h) :=
  ⟨⟨fun ⟨t, e, he⟩ => he ▸ pixEncodeEventInfo_low t e,
    fun hl => ⟨_, _, pixEncodeEventInfo_decode h hl⟩⟩, pixEncodeEventInfo_decode h⟩

theorem pixEncodeEventInfo_range_begin :
    (0x504400 : BitVec 64) &&& 0x3FF = 0 ∧
      pixEncodeEventInfo ((0x504400 : BitVec 64) >>> pixEventsTimestampBitShift)
        ⟨(((0x504400 : BitVec 64) >>> pixEventsTypeBitShift) &&& pixEventsTypeWriteMask).toNat⟩ =
        0x504400 :=
  ⟨by decide, (pixEncodeEventInfo_range _).2 (by decide)⟩

end PixEvents.Codec
