import V30Probe.Log
import V30Probe.Sizes
import V30Probe.Depth
import V30Probe.Branch.Ring
import V30Probe.Listing.Disassembler

/-! The state of a debugger during one run of the machine, and the changes a front end makes to it. -/

namespace V30Probe

/-- Callbacks are known by names of a type `κ`; the decoder has states of a type `δ`. -/
structure Session (κ δ : Type) where
  breakpoints : BreakpointTable
  branches : Branch.Ring
  callback : Option κ
  /-- Every instruction is reported to the callback. -/
  continuous : Bool
  /-- An access of the current instruction tripped a breakpoint. -/
  pending : Bool
  depth : Depth
  disassembler : Listing.Disassembler δ
  /-- What was installed last. An interpreter may look here instead of taking installs. -/
  wiring : Wiring

/-- What a session has its surroundings do. -/
inductive Action (κ : Type) where
  /-- Installs these slots and no others. -/
  | install (wiring : Wiring)
  | call (callback : κ) (pc : UInt32) (hit : Bool)
  | log (event : LogEvent)
  deriving DecidableEq, Repr

/-- What a front end sets up. -/
inductive Change (κ : Type) where
  | add (category : Category) (breakpoint : Breakpoint)
  | clear (category : Category)
  | setCallback (callback : Option κ) (continuous : Bool)
  | setTracing (on : Bool)
  deriving DecidableEq, Repr

/-- A change of the callback is not announced. -/
def Change.announcement {κ : Type} : Change κ → List LogEvent
  | .add category breakpoint => [.adding category breakpoint]
  | .clear category => [.clearing category]
  | .setCallback .. => []
  | .setTracing on => [.tracing on]

namespace Session

variable {κ δ : Type}

/-- The slots that the present state needs. -/
def needed (s : Session κ δ) : Wiring :=
  .derive s.breakpoints s.callback.isSome s.branches.enabled

/-- Installs what is needed, and logs it if it is not what is installed already. -/
def rewire (s : Session κ δ) : Session κ δ × List (Action κ) :=
  let notes := if s.needed = s.wiring then [] else [.log (.rewired s.needed)]
  ({ s with wiring := s.needed }, notes ++ [.install s.needed])

def setUp (sizes : Sizes) (decoder : δ) : Session κ δ where
  breakpoints := .empty
  branches := .ofCapacity sizes.traceCapacity
  callback := none
  continuous := false
  pending := false
  depth := .zero
  disassembler := ⟨decoder, sizes.instructionBytes, sizes.column⟩
  wiring := .detached

/-- Makes a session, which begins with nothing installed. Sizes are checked first; if they are
refused the surroundings are left alone. -/
def create (sizes : Sizes) (decoder : δ) : Except SizeError (Session κ δ) × List (Action κ) :=
  match sizes.check with
  | .ok () =>
    let (s, actions) := rewire (setUp sizes decoder)
    (.ok s, actions)
  | .error e => (.error e, [])

/-- The session that is made, with what its surroundings are made to do for it. -/
def start (sizes : Sizes) (decoder : δ) : Except SizeError (Session κ δ × List (Action κ)) :=
  let (made, actions) := create sizes decoder
  made.map fun s => (s, actions)

/-- A session ends with nothing installed. -/
def finish (_ : Session κ δ) : List (Action κ) :=
  [.install .detached]

/-- The state after a change, not yet installed. -/
def revise (s : Session κ δ) : Change κ → Session κ δ
  | .add category breakpoint => { s with breakpoints := s.breakpoints.add category breakpoint }
  | .clear category => { s with breakpoints := s.breakpoints.clear category }
  | .setCallback callback continuous => { s with callback, continuous }
  | .setTracing on => { s with branches := s.branches.setEnabled on }

/-- Announces a change, makes it and installs what it needs. -/
def change (s : Session κ δ) (c : Change κ) : Session κ δ × List (Action κ) :=
  let (s, actions) := (s.revise c).rewire
  (s, c.announcement.map .log ++ actions)

def enterScope (s : Session κ δ) : Session κ δ := { s with depth := s.depth.enter }

def leaveScope (s : Session κ δ) : Session κ δ := { s with depth := s.depth.leave }

def text (s : Session κ δ) : String :=
  Record.partly "DebugSession"
    [("registry", s.breakpoints.text), ("branch_trace", s.branches.text),
     ("callback", Record.flag s.callback.isSome), ("continuous", Record.flag s.continuous),
     ("breakpoint_found", Record.flag s.pending), ("depth", toString s.depth.level),
     ("wiring", s.wiring.text)]

end Session
end V30Probe
