import V30Probe.Register.Cpu
import V30Probe.Register.System
import V30Probe.Session.Event

/-! A session together with the machine it is attached to, and everything that can happen to them. -/

namespace V30Probe

/-- A session, the bus, and the registers of processor and system. These are separate objects: what
is done to one of them by itself changes none of the others. -/
structure Host (κ δ β ρ σ : Type) where
  session : Session κ δ
  bus : β
  cpu : ρ
  system : σ

/-- What a front end looks at. It sees memory and registers, and may set a register or ask for an
interrupt; breakpoints, callback and tracing stay as they are. -/
inductive Inspection where
  | peek (address size : UInt32) (logical : Bool)
  | disassemble (address marker : UInt16)
  | switchDialect
  | forceInterrupt (level : Int)
  | branches
  | breakpoints (category : Category)
  | hasBreakpoint (category : Category)
  | hits (category : Category) (address : UInt32)
  | cpu (access : Register.Access)
  | system (access : Register.Access)
  deriving DecidableEq, Repr

inductive Operation (κ : Type) where
  | change (change : Change κ)
  | event (event : Event)
  | inspect (inspection : Inspection)
  | enterScope
  | leaveScope
  /-- The program writes to memory, past the session. -/
  | write (address : UInt32) (value : UInt8)
  /-- The program writes to a port, past the session. -/
  | writePort (port : UInt32) (value : UInt8)
  deriving DecidableEq, Repr

inductive Reply where
  | none
  | byte (value : UInt8)
  | word (value : UInt32)
  | line (line : Listing.Line)
  | rows (rows : List Branch.Row)
  | breakpoints (breakpoints : List Breakpoint)
  | flag (value : Bool)
  | register (answer : Register.Answer)
  deriving DecidableEq, Repr

/-- What an operation answers, and what it has the surroundings do, in order. -/
structure Outcome (κ : Type) where
  reply : Reply
  actions : List (Action κ)
  deriving DecidableEq, Repr

namespace Host

variable {κ δ β ρ σ : Type} [Listing.Decoder δ] [Bus β] [Register.CpuRegisters ρ]
  [Register.SystemRegisters σ]

/-- A logical address is an offset in the stack segment; instructions lie in the program segment. -/
def inspect (h : Host κ δ β ρ σ) : Inspection → Host κ δ β ρ σ × Outcome κ
  | .peek address size logical =>
    let ⟨session, bus, cpu, system⟩ := h
    let space := if logical then .segment (Register.CpuRegisters.get cpu .ss) else .flat
    let (value, bus, depth) := peek bus session.depth space address size
    (⟨{ session with depth }, bus, cpu, system⟩, ⟨.word value, []⟩)
  | .disassemble address marker =>
    let ⟨session, bus, cpu, system⟩ := h
    let segment := Register.CpuRegisters.get cpu .ps
    let (line, disassembler, bus, depth) :=
      session.disassembler.line bus session.depth segment address marker
    (⟨{ session with disassembler, depth }, bus, cpu, system⟩, ⟨.line line, []⟩)
  | .switchDialect =>
    ({ h with session.disassembler := h.session.disassembler.switchDialect }, ⟨.none, []⟩)
  | .forceInterrupt level =>
    match Register.InterruptLevel.ofInt? level with
    | some level =>
      ({ h with system := Register.SystemRegisters.forceInterrupt h.system level }, ⟨.none, []⟩)
    | none => (h, ⟨.none, [.log (.invalidLevel level)]⟩)
  | .branches => (h, ⟨.rows h.session.branches.rows, []⟩)
  | .breakpoints category => (h, ⟨.breakpoints (h.session.breakpoints.list category), []⟩)
  | .hasBreakpoint category => (h, ⟨.flag (h.session.breakpoints.hasAny category), []⟩)
  | .hits category address => (h, ⟨.flag (h.session.breakpoints.hits category address), []⟩)
  | .cpu access =>
    let (answer, cpu, events) := Register.cpuGroup.perform h.cpu access
    ({ h with cpu }, ⟨.register answer, events.map .log⟩)
  | .system access =>
    let (answer, system, events) := Register.systemGroup.perform h.system access
    ({ h with system }, ⟨.register answer, events.map .log⟩)

def perform (h : Host κ δ β ρ σ) : Operation κ → Host κ δ β ρ σ × Outcome κ
  | .change change =>
    let ⟨session, bus, cpu, system⟩ := h
    let (session, actions) := session.change change
    (⟨session, bus, cpu, system⟩, ⟨.none, actions⟩)
  | .event event =>
    let ⟨session, bus, cpu, system⟩ := h
    let (byte, bus) := event.access bus session.depth
    let (session, actions) := session.event event
    (⟨session, bus, cpu, system⟩, ⟨byte.elim .none .byte, actions⟩)
  | .inspect inspection => h.inspect inspection
  | .enterScope => ({ h with session := h.session.enterScope }, ⟨.none, []⟩)
  | .leaveScope => ({ h with session := h.session.leaveScope }, ⟨.none, []⟩)
  | .write address value =>
    ({ h with bus := Bus.write h.bus h.session.depth address value }, ⟨.none, []⟩)
  | .writePort port value =>
    ({ h with bus := Bus.writePort h.bus h.session.depth port value }, ⟨.none, []⟩)

/-- The host after some operations, and the outcome of each. -/
def run (h : Host κ δ β ρ σ) : List (Operation κ) → Host κ δ β ρ σ × List (Outcome κ)
  | [] => (h, [])
  | op :: ops =>
    let (h, outcome) := h.perform op
    let (h, outcomes) := h.run ops
    (h, outcome :: outcomes)

end Host
end V30Probe
