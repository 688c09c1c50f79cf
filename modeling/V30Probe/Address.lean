import V30Probe.Text

/-! Addresses of the V30MZ: twenty physical lines, sixteen-bit offsets and an eight-bit port space. -/

namespace V30Probe

/-- The bits of an offset in a segment. -/
def offsetMask : UInt32 := 0xFFFF

/-- The bits of a physical address: twenty address lines. -/
def physicalMask : UInt32 := 0xFFFFF

/-- The bytes that twenty address lines reach. -/
def physicalBytes : Nat := 0x100000

/-- The bits that tell two ports apart. -/
def portMask : UInt32 := 0xFF

/-- The physical address of `offset` in `segment`; a segment starts every sixteen bytes. -/
def physical (segment : UInt16) (offset : UInt32) : UInt32 :=
  ((segment.toUInt32 <<< 4) + offset) &&& physicalMask

/-- How an offset is meant: as it stands, or from the start of a segment. -/
inductive Space where
  | flat
  | segment (base : UInt16)
  deriving DecidableEq, Repr

/-- The physical address of an offset. -/
def Space.resolve : Space → UInt32 → UInt32
  | .flat, offset => offset &&& physicalMask
  | .segment base, offset => physical base offset

/-- Where the offsets begin. -/
def Space.base : Space → Nat
  | .flat => 0
  | .segment base => 16 * base.toNat

/-- An address as the program counts it. -/
structure FarAddress where
  segment : UInt16
  offset : UInt16
  deriving DecidableEq, Repr

/-- Four upper-case digits of the segment, a colon, and four of the offset. -/
def FarAddress.text (a : FarAddress) : String :=
  Hex.fixed .upper 4 a.segment.toNat ++ ":" ++ Hex.fixed .upper 4 a.offset.toNat

theorem and_physicalMask_toNat (n : UInt32) : (n &&& physicalMask).toNat = n.toNat % physicalBytes := by
  rw [UInt32.toNat_and]
  exact Nat.and_two_pow_sub_one_eq_mod n.toNat 20

theorem and_portMask_toNat (n : UInt32) : (n &&& portMask).toNat = n.toNat % 256 := by
  rw [UInt32.toNat_and]
  exact Nat.and_two_pow_sub_one_eq_mod n.toNat 8

/-- Wrapping at thirty-two bits on the way is not seen in the twenty that are kept. -/
theorem physical_toNat (segment : UInt16) (offset : UInt32) :
    (physical segment offset).toNat = (16 * segment.toNat + offset.toNat) % physicalBytes := by
  have hs := segment.toNat_lt
  have hshift : (segment.toUInt32 <<< 4).toNat = 16 * segment.toNat := by
    rw [UInt32.toNat_shiftLeft, UInt16.toNat_toUInt32, Nat.shiftLeft_eq]
    simp only [UInt32.reduceToNat, Nat.reduceMod, Nat.reducePow]
    omega
  rw [physical, and_physicalMask_toNat, UInt32.toNat_add, hshift, physicalBytes]
  omega

theorem Space.resolve_toNat (space : Space) (offset : UInt32) :
    (space.resolve offset).toNat = (space.base + offset.toNat) % physicalBytes := by
  cases space with
  | flat => rw [resolve, and_physicalMask_toNat, base, Nat.zero_add]
  | segment base => exact physical_toNat base offset

end V30Probe
