import V30Probe.Register.Group

/-! The registers of the V30MZ. -/

namespace V30Probe.Register

inductive CpuRegister where
  | pc
  | aw
  | cw
  | dw
  | bw
  | sp
  | bp
  | ix
  | iy
  | flags
  | ds1
  | ps
  | ss
  | ds0
  deriving DecidableEq, Repr

namespace CpuRegister

/-- Every register, in the order of the numbers. -/
def all : List CpuRegister :=
  [.pc, .aw, .cw, .dw, .bw, .sp, .bp, .ix, .iy, .flags, .ds1, .ps, .ss, .ds0]

def id : CpuRegister → UInt32
  | .pc => 1
  | .aw => 2
  | .cw => 3
  | .dw => 4
  | .bw => 5
  | .sp => 6
  | .bp => 7
  | .ix => 8
  | .iy => 9
  | .flags => 10
  | .ds1 => 11
  | .ps => 12
  | .ss => 13
  | .ds0 => 14

def ofId? (n : UInt32) : Option CpuRegister :=
  all.find? fun r => r.id == n

theorem ofId?_id (r : CpuRegister) : ofId? r.id = some r := by
  cases r <;> decide

theorem ofId?_eq_some_iff {n : UInt32} {r : CpuRegister} : ofId? n = some r ↔ r.id = n :=
  find?_number_eq_some_iff ofId?_id

def row (r : CpuRegister) (displayWidth : Nat) (name description : String) : Row :=
  ⟨r.id, displayWidth, name, description, 2⟩

end CpuRegister

/-- A state that holds the registers of the processor. -/
class CpuRegisters (ρ : Type) where
  get : ρ → CpuRegister → UInt16
  set : ρ → CpuRegister → UInt16 → ρ

def cpuRows : List Row :=
  [CpuRegister.pc.row 3 "IP" "Instruction Pointer",
   CpuRegister.flags.row 2 "PSW" "Program Status Word",
   .separator "---REG---",
   CpuRegister.aw.row 3 "AX" "Accumulator",
   CpuRegister.bw.row 3 "BX" "Base",
   CpuRegister.cw.row 3 "CX" "Counter",
   CpuRegister.dw.row 3 "DX" "Data",
   CpuRegister.ix.row 3 "SI" "Source Index",
   CpuRegister.iy.row 3 "DI" "Dest Index",
   CpuRegister.bp.row 3 "BP" "Base Pointer",
   CpuRegister.sp.row 3 "SP" "Stack Pointer",
   .separator "---SEG---",
   CpuRegister.ps.row 3 "CS" "Program Segment",
   CpuRegister.ss.row 3 "SS" "Stack Segment",
   CpuRegister.ds0.row 3 "DS" "Data Segment",
   CpuRegister.ds1.row 3 "ES" "Extra Segment(Destination)",
   .separator "---------"]

/-- Registers have sixteen bits; a value that is written loses the others. -/
def cpuCell {ρ : Type} [CpuRegisters ρ] (r : CpuRegister) : Cell ρ where
  read s := (CpuRegisters.get s r).toUInt32
  write s value := CpuRegisters.set s r value.toUInt16

def cpuGroup {ρ : Type} [CpuRegisters ρ] : Group ρ where
  name := "V30MZ"
  rows := cpuRows
  cell? id := (CpuRegister.ofId? id).map cpuCell

end V30Probe.Register
