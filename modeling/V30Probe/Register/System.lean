import V30Probe.Register.Group

/-! The registers of the memory mapper and of the interrupt controller. -/

namespace V30Probe.Register

inductive MemoryRegister where
  | romBankBase
  | bank1Select
  | bank2Select
  | bank3Select
  | flashSelect
  deriving DecidableEq, Repr

namespace MemoryRegister

def all : List MemoryRegister :=
  [.romBankBase, .bank1Select, .bank2Select, .bank3Select, .flashSelect]

def id : MemoryRegister → UInt32
  | .romBankBase => 0
  | .bank1Select => 1
  | .bank2Select => 2
  | .bank3Select => 3
  | .flashSelect => 4

def ofId? (n : UInt32) : Option MemoryRegister :=
  all.find? fun r => r.id == n

theorem ofId?_id (r : MemoryRegister) : ofId? r.id = some r := by
  cases r <;> decide

theorem ofId?_eq_some_iff {n : UInt32} {r : MemoryRegister} : ofId? n = some r ↔ r.id = n :=
  find?_number_eq_some_iff ofId?_id

def row (r : MemoryRegister) (displayWidth : Nat) (name description : String) : Row :=
  ⟨r.id, displayWidth, name, description, 1⟩

end MemoryRegister

inductive InterruptRegister where
  | asserted
  | status
  | enable
  | vectorBase
  deriving DecidableEq, Repr

/-- The bit that marks the number of an interrupt register. -/
def interruptTag : UInt32 := 0x8000

/-- A mark that is taken off and put back. -/
theorem interruptTag_or_unmarked {n : UInt32} (h : n &&& interruptTag ≠ 0) :
    interruptTag ||| (n &&& ~~~interruptTag) = n := by
  have hbit : (n &&& interruptTag).toBitVec = n.toBitVec &&& BitVec.twoPow 32 15 := rfl
  have hmark : n &&& interruptTag = interruptTag := by
    rw [BitVec.and_twoPow] at hbit
    split at hbit
    · exact UInt32.toBitVec_inj.mp hbit
    · exact absurd (UInt32.toBitVec_inj.mp hbit) h
  calc interruptTag ||| (n &&& ~~~interruptTag)
      = (n &&& interruptTag) ||| (n &&& ~~~interruptTag) := by rw [hmark]
    _ = n := by
      apply UInt32.toBitVec_inj.mp
      ext i
      simp [← Bool.and_or_distrib_left]

namespace InterruptRegister

def all : List InterruptRegister :=
  [.asserted, .status, .enable, .vectorBase]

/-- The number without its mark. -/
def index : InterruptRegister → UInt32
  | .asserted => 0
  | .status => 1
  | .enable => 2
  | .vectorBase => 3

def id (r : InterruptRegister) : UInt32 :=
  interruptTag ||| r.index

def ofIndex? (n : UInt32) : Option InterruptRegister :=
  all.find? fun r => r.index == n

theorem ofIndex?_index (r : InterruptRegister) : ofIndex? r.index = some r := by
  cases r <;> decide

theorem ofIndex?_eq_some_iff {n : UInt32} {r : InterruptRegister} :
    ofIndex? n = some r ↔ r.index = n :=
  find?_number_eq_some_iff ofIndex?_index

def row (r : InterruptRegister) (displayWidth : Nat) (name description : String) : Row :=
  ⟨r.id, displayWidth, name, description, 1⟩

end InterruptRegister

inductive SystemRegister where
  | memory (register : MemoryRegister)
  | interrupt (register : InterruptRegister)
  deriving DecidableEq, Repr

namespace SystemRegister

def id : SystemRegister → UInt32
  | .memory r => r.id
  | .interrupt r => r.id

/-- A number with the mark belongs to the interrupt controller, any other to the memory mapper. -/
def ofId? (n : UInt32) : Option SystemRegister :=
  if n &&& interruptTag = 0 then (MemoryRegister.ofId? n).map .memory
  else (InterruptRegister.ofIndex? (n &&& ~~~interruptTag)).map .interrupt

theorem ofId?_id (r : SystemRegister) : ofId? r.id = some r := by
  rcases r with r | r <;> cases r <;> decide

theorem ofId?_eq_some_iff {n : UInt32} {r : SystemRegister} : ofId? n = some r ↔ r.id = n := by
  constructor
  · intro h
    rw [ofId?] at h
    split at h
    · obtain ⟨q, hq, rfl⟩ := Option.map_eq_some_iff.mp h
      exact MemoryRegister.ofId?_eq_some_iff.mp hq
    · obtain ⟨q, hq, rfl⟩ := Option.map_eq_some_iff.mp h
      rw [id, InterruptRegister.id, InterruptRegister.ofIndex?_eq_some_iff.mp hq]
      exact interruptTag_or_unmarked ‹_›
  · rintro rfl
    exact ofId?_id r

end SystemRegister

/-- The highest level of an interrupt. -/
def maxInterruptLevel : Nat := 7

abbrev InterruptLevel := Fin (maxInterruptLevel + 1)

/-- The level with a number, if there is one. -/
def InterruptLevel.ofInt? (n : Int) : Option InterruptLevel :=
  if h : 0 ≤ n ∧ n ≤ maxInterruptLevel then some ⟨n.toNat, by omega⟩ else none

/-- A state that holds the registers of the system and takes forced interrupts. -/
class SystemRegisters (σ : Type) where
  get : σ → SystemRegister → UInt32
  set : σ → SystemRegister → UInt32 → σ
  /-- Raises an interrupt, enabled or not. -/
  forceInterrupt : σ → InterruptLevel → σ

def systemRows : List Row :=
  [.separator "------BNK------",
   MemoryRegister.bank1Select.row 3 "Bnk1Select" "SRAM Bank Selector for 64KiB bank 0x1",
   MemoryRegister.bank2Select.row 3 "Bnk2Select" "ROM Bank Selector for 64KiB bank 0x2",
   MemoryRegister.bank3Select.row 3 "Bnk3Select" "ROM Bank Selector for 64KiB bank 0x3",
   MemoryRegister.romBankBase.row 3 "RomBSelect" "ROM Bank Base Selector for 64KiB banks 0x4-0xF",
   MemoryRegister.flashSelect.row 3 "FlashSlect" "SRAM/Flash Bank Toggle",
   .separator "------IRQ------",
   InterruptRegister.asserted.row 4 "IrqAssert" "Interrupt Asserted",
   InterruptRegister.status.row 4 "IrqStatus" "Interrupt Status",
   InterruptRegister.enable.row 4 "IrqEnable" "Interrupt Enable",
   InterruptRegister.vectorBase.row 3 "IrqVectors" "Interrupt Vector Base",
   .separator "---------------"]

def systemCell {σ : Type} [SystemRegisters σ] (r : SystemRegister) : Cell σ where
  read s := SystemRegisters.get s r
  write s value := SystemRegisters.set s r value

def systemGroup {σ : Type} [SystemRegisters σ] : Group σ where
  name := "Misc"
  rows := systemRows
  cell? id := (SystemRegister.ofId? id).map systemCell

end V30Probe.Register
