import V30Probe.Breakpoint

/-! The hook slots of an interpreter, and which of them the debugger needs installed. -/

namespace V30Probe

/-- A place in the interpreter where it calls the debugger if told to. -/
inductive Slot where
  | instruction
  | memoryRead
  | memoryWrite
  | portRead
  | portWrite
  | branchTrace
  deriving DecidableEq, Repr

namespace Slot

def all : List Slot :=
  [.instruction, .memoryRead, .memoryWrite, .portRead, .portWrite, .branchTrace]

def name : Slot → String
  | .instruction => "instruction"
  | .memoryRead => "memory_read"
  | .memoryWrite => "memory_write"
  | .portRead => "port_read"
  | .portWrite => "port_write"
  | .branchTrace => "branch_trace"

end Slot

/-- For each slot, whether it is installed. -/
structure Wiring where
  instruction : Bool
  memoryRead : Bool
  memoryWrite : Bool
  portRead : Bool
  portWrite : Bool
  branchTrace : Bool
  deriving DecidableEq, Repr

namespace Wiring

/-- Nothing is installed. -/
def detached : Wiring :=
  ⟨false, false, false, false, false, false⟩

def has (w : Wiring) : Slot → Bool
  | .instruction => w.instruction
  | .memoryRead => w.memoryRead
  | .memoryWrite => w.memoryWrite
  | .portRead => w.portRead
  | .portWrite => w.portWrite
  | .branchTrace => w.branchTrace

/-- The slots that are installed. -/
def installed (w : Wiring) : List Slot :=
  Slot.all.filter w.has

def installedCount (w : Wiring) : Nat :=
  w.installed.length

def isDetached (w : Wiring) : Bool :=
  w == detached

/-- What the breakpoints, the presence of a callback and branch tracing need.

A hit of any category is reported at the end of the instruction, so every breakpoint needs the
instruction slot. -/
def derive (t : BreakpointTable) (callback tracing : Bool) : Wiring where
  instruction := callback || !t.isEmpty
  memoryRead := t.hasAny .memoryRead || t.hasAny .auxRead
  memoryWrite := t.hasAny .memoryWrite || t.hasAny .auxWrite
  portRead := t.hasAny .portRead
  portWrite := t.hasAny .portWrite
  branchTrace := tracing

def text (w : Wiring) : String :=
  Record.closed "HookWiring" (Slot.all.map fun s => (s.name, Record.flag (w.has s)))

end Wiring
end V30Probe
