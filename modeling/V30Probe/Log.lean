import V30Probe.Wiring

/-! What the debugger writes to its log. -/

namespace V30Probe

inductive Severity where
  | trace
  | debug
  | warn
  deriving DecidableEq, Repr

def Severity.label : Severity → String
  | .trace => "TRACE"
  | .debug => "DEBUG"
  | .warn => "WARN"

inductive LogEvent where
  | adding (category : Category) (breakpoint : Breakpoint)
  | clearing (category : Category)
  | tracing (on : Bool)
  | rewired (wiring : Wiring)
  | hit (pc : UInt32)
  | invalidLevel (level : Int)
  | unknownRead (group : String) (id : UInt32)
  | unknownWrite (group : String) (id : UInt32)
  deriving DecidableEq, Repr

namespace LogEvent

def severity : LogEvent → Severity
  | .hit _ => .trace
  | .unknownRead .. | .unknownWrite .. => .warn
  | _ => .debug

def message : LogEvent → String
  | .adding category breakpoint =>
    "adding " ++ category.name ++ " breakpoint " ++ Hex.marked breakpoint.low.toNat ++ "..=" ++
      Hex.marked breakpoint.high.toNat ++ " (logical: " ++ Record.flag breakpoint.logical ++ ")"
  | .clearing category => "clearing " ++ category.name ++ " breakpoints"
  | .tracing on => "branch trace " ++ if on then "enabled" else "disabled"
  | .rewired wiring =>
    "hook wiring changed: " ++ toString wiring.installedCount ++ " slot(s) installed (" ++
      wiring.text ++ ")"
  | .hit pc => "breakpoint hit at pc " ++ Hex.marked pc.toNat
  | .invalidLevel level => "ignoring forced interrupt at invalid level " ++ toString level
  | .unknownRead group id => "read of unknown " ++ group ++ " register id " ++ Hex.marked id.toNat
  | .unknownWrite group id =>
    "write of unknown " ++ group ++ " register id " ++ Hex.marked id.toNat ++ " ignored"

def line (e : LogEvent) : String :=
  e.severity.label ++ " " ++ e.message

end LogEvent
end V30Probe
