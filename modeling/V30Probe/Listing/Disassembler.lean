import V30Probe.Listing.Line
import V30Probe.Bus

/-! Listing one instruction: fetch, decode, lay out. -/

namespace V30Probe.Listing

/-- A decoder, how many bytes it is given, and the column where a line shows them. -/
structure Disassembler (δ : Type) where
  decoder : δ
  instructionBytes : Nat
  column : Nat

/-- The physical addresses of `count` bytes that follow an offset in a segment. Places that need
more than thirty-two bits all count as the last one that does not. -/
def fetchAddresses (segment address : UInt16) (count : Nat) : List UInt32 :=
  (List.range count).map fun i => physical segment (address.toUInt32 + UInt32.ofNatClamp i)

namespace Disassembler

variable {δ β : Type} [Decoder δ] [Bus β]

/-- The line for the instruction at an offset. Its bytes are read inside a debug scope. -/
def line (d : Disassembler δ) (bus : β) (depth : Depth) (segment address marker : UInt16) :
    Line × Disassembler δ × β × Depth :=
  let (bytes, bus, depth) :=
    Bus.readScoped bus depth (fetchAddresses segment address d.instructionBytes)
  let (decoded, decoder) := Decoder.decode d.decoder address bytes
  (.layout d.column address marker decoded bytes, { d with decoder }, bus, depth)

def switchDialect (d : Disassembler δ) : Disassembler δ :=
  { d with decoder := Decoder.switchDialect d.decoder }

end Disassembler

def Disassembler.text {δ : Type} (d : Disassembler δ) : String :=
  Record.partly "Disassembler"
    [("max_instruction_bytes", toString d.instructionBytes), ("column", toString d.column)]

theorem length_fetchAddresses (segment address : UInt16) (count : Nat) :
    (fetchAddresses segment address count).length = count := by
  simp [fetchAddresses]

/-- Places that fit in thirty-two bits follow one another, and wrap at twenty bits only. -/
theorem fetchAddresses_eq {segment address : UInt16} {count : Nat} (h : count ≤ UInt32.size) :
    fetchAddresses segment address count = (List.range count).map fun i =>
      UInt32.ofNat ((16 * segment.toNat + address.toNat + i) % physicalBytes) := by
  apply List.map_congr_left
  intro i hi
  have hclamp : (UInt32.ofNatClamp i).toNat = i :=
    UInt32.toNat_ofNatClamp_of_lt (Nat.lt_of_lt_of_le (List.mem_range.mp hi) h)
  apply UInt32.toNat_inj.mp
  rw [physical_toNat, UInt32.toNat_add, UInt16.toNat_toUInt32, hclamp, UInt32.toNat_ofNat',
    physicalBytes]
  omega

end V30Probe.Listing
