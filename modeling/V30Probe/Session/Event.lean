import V30Probe.Session

/-! What the program does, as the interpreter reports it to a session. -/

namespace V30Probe

inductive Event where
  | memoryRead (address : UInt32)
  | memoryWrite (address : UInt32) (value : UInt8)
  | portRead (port : UInt32)
  | portWrite (port : UInt32) (value : UInt8)
  /-- An instruction is complete. -/
  | instruction (pc : UInt32)
  | branch (transition : Branch.Transition)
  deriving DecidableEq, Repr

namespace Event

/-- The slot through which the interpreter reports an event. -/
def slot : Event → Slot
  | .memoryRead _ => .memoryRead
  | .memoryWrite .. => .memoryWrite
  | .portRead _ => .portRead
  | .portWrite .. => .portWrite
  | .instruction _ => .instruction
  | .branch _ => .branchTrace

/-- The byte that the program reads. Writes are the interpreter's own. -/
def access {β : Type} [Bus β] (bus : β) (depth : Depth) : Event → Option UInt8 × β
  | .memoryRead address =>
    let (byte, bus) := Bus.read bus depth address
    (some byte, bus)
  | .portRead port =>
    let (byte, bus) := Bus.readPort bus depth port
    (some byte, bus)
  | _ => (none, bus)

end Event

namespace Session

variable {κ δ : Type}

/-- Keeps in mind that an access tripped a breakpoint of one of the categories. -/
def watch (s : Session κ δ) (categories : List Category) (address : UInt32) : Session κ δ :=
  { s with pending := s.pending || categories.any fun c => s.breakpoints.hits c address }

/-- Notes a branch while tracing is on. -/
def note (s : Session κ δ) (t : Branch.Transition) : Session κ δ :=
  if s.branches.enabled then { s with branches := s.branches.record t } else s

/-- The end of an instruction: a hit turns continuous reporting on, and is forgotten once reported. -/
def boundary (s : Session κ δ) (pc : UInt32) : Session κ δ × List (Action κ) :=
  let hit := s.pending || s.breakpoints.hits .pc pc
  let continuous := s.continuous || hit
  let notes := if hit then [.log (.hit pc)] else []
  let calls := if continuous then s.callback.toList.map fun c => .call c pc hit else []
  ({ s with continuous, pending := false }, notes ++ calls)

/-- Takes note of an event. An access may be of two categories. -/
def event (s : Session κ δ) : Event → Session κ δ × List (Action κ)
  | .memoryRead address => (s.watch [.memoryRead, .auxRead] address, [])
  | .memoryWrite address _ => (s.watch [.memoryWrite, .auxWrite] address, [])
  | .portRead port => (s.watch [.portRead] port, [])
  | .portWrite port _ => (s.watch [.portWrite] port, [])
  | .instruction pc => s.boundary pc
  | .branch transition => (s.note transition, [])

end Session
end V30Probe
