import Mathlib.Data.List.Basic
import V30Probe.Proofs.Bus.Quiet

/-! What each kind of operation does to a session and to its surroundings, from its start on. -/

namespace V30Probe

variable {κ δ β ρ σ : Type}

namespace Action

def install? : Action κ → Option Wiring
  | .install wiring => some wiring
  | _ => none

def call? : Action κ → Option (κ × UInt32 × Bool)
  | .call callback pc hit => some (callback, pc, hit)
  | _ => none

def log? : Action κ → Option LogEvent
  | .log event => some event
  | _ => none

/-- The wirings that are installed, in order. -/
def installs (actions : List (Action κ)) : List Wiring :=
  actions.filterMap install?

/-- The calls of callbacks, in order. -/
def calls (actions : List (Action κ)) : List (κ × UInt32 × Bool) :=
  actions.filterMap call?

/-- The log, in order. -/
def logged (actions : List (Action κ)) : List LogEvent :=
  actions.filterMap log?

@[simp]
theorem installs_append (xs ys : List (Action κ)) :
    installs (xs ++ ys) = installs xs ++ installs ys :=
  List.filterMap_append

@[simp]
theorem calls_append (xs ys : List (Action κ)) : calls (xs ++ ys) = calls xs ++ calls ys :=
  List.filterMap_append

@[simp]
theorem logged_append (xs ys : List (Action κ)) : logged (xs ++ ys) = logged xs ++ logged ys :=
  List.filterMap_append

@[simp]
theorem installs_map_log (events : List LogEvent) :
    installs (events.map .log : List (Action κ)) = [] := by
  induction events with
  | nil => rfl
  | cons e events ih => exact ih

@[simp]
theorem calls_map_log (events : List LogEvent) :
    calls (events.map .log : List (Action κ)) = [] := by
  induction events with
  | nil => rfl
  | cons e events ih => exact ih

@[simp]
theorem logged_map_log (events : List LogEvent) :
    logged (events.map .log : List (Action κ)) = events := by
  induction events with
  | nil => rfl
  | cons e events ih => exact congrArg (e :: ·) ih

end Action

namespace Operation

def isChange : Operation κ → Bool
  | .change _ => true
  | _ => false

/-- Whether the operation is the end of an instruction. -/
def isBoundary : Operation κ → Bool
  | .event (.instruction _) => true
  | _ => false

theorem isBoundary_iff (op : Operation κ) :
    op.isBoundary ↔ ∃ pc, op = .event (.instruction pc) := by
  constructor
  · intro h
    cases op with
    | event e =>
      cases e with
      | instruction pc => exact ⟨pc, rfl⟩
      | _ => exact absurd h Bool.false_ne_true
    | _ => exact absurd h Bool.false_ne_true
  · rintro ⟨pc, rfl⟩
    rfl

/-- Whether the operation is neither a change nor an event. -/
def isQuiet : Operation κ → Bool
  | .change _ | .event _ => false
  | _ => true

end Operation

namespace Session

open V30Probe.Action

variable (s : Session κ δ)

theorem start_eq_ok_iff {sizes : Sizes} {decoder : δ} {s : Session κ δ}
    {actions : List (Action κ)} :
    start sizes decoder = .ok (s, actions) ↔
      sizes.check = .ok () ∧ (setUp sizes decoder).rewire = (s, actions) := by
  rw [start, create]
  cases sizes.check with
  | ok u => simp [Except.map, Prod.ext_iff]
  | error e => simp [Except.map]

theorem start_eq_error_iff {sizes : Sizes} {decoder : δ} {e : SizeError} :
    (start sizes decoder : Except SizeError (Session κ δ × List (Action κ))) = .error e ↔
      sizes.check = .error e := by
  rw [start, create]
  cases sizes.check with
  | ok u => simp [Except.map]
  | error e' => simp [Except.map]

/-- Nothing is done for sizes that are refused. -/
theorem create_eq_of_error {sizes : Sizes} {decoder : δ} {e : SizeError}
    (h : sizes.check = .error e) :
    (create sizes decoder : Except SizeError (Session κ δ) × List (Action κ)) = (.error e, []) := by
  rw [create, h]

theorem create_eq_of_start {sizes : Sizes} {decoder : δ} {s : Session κ δ}
    {actions : List (Action κ)} (h : start sizes decoder = .ok (s, actions)) :
    create sizes decoder = (.ok s, actions) := by
  obtain ⟨hcheck, hr⟩ := start_eq_ok_iff.mp h
  rw [create, hcheck, hr]

theorem exists_start_iff (sizes : Sizes) (decoder : δ) :
    (∃ (s : Session κ δ) (actions : List (Action κ)), start sizes decoder = .ok (s, actions)) ↔
      sizes.check = .ok () := by
  constructor
  · rintro ⟨s, actions, h⟩
    exact (start_eq_ok_iff.mp h).1
  · intro h
    exact ⟨_, _, start_eq_ok_iff.mpr ⟨h, rfl⟩⟩

theorem needed_setUp (sizes : Sizes) (decoder : δ) :
    (setUp sizes decoder : Session κ δ).needed = .detached := by
  simp [needed, setUp, Wiring.derive, BreakpointTable.hasAny, BreakpointTable.isEmpty,
    Branch.Ring.ofCapacity, Wiring.detached]

/-- A session starts detached, and that is what it installs first. -/
theorem start_actions {sizes : Sizes} {decoder : δ} {s : Session κ δ} {actions : List (Action κ)}
    (h : start sizes decoder = .ok (s, actions)) : actions = [.install .detached] := by
  have hr := (start_eq_ok_iff.mp h).2
  rw [rewire, needed_setUp] at hr
  exact (congrArg Prod.snd hr).symm

theorem wiring_of_start {sizes : Sizes} {decoder : δ} {s : Session κ δ} {actions : List (Action κ)}
    (h : start sizes decoder = .ok (s, actions)) : s.wiring = .detached := by
  obtain rfl : (setUp sizes decoder).rewire.1 = s := congrArg Prod.fst (start_eq_ok_iff.mp h).2
  exact needed_setUp sizes decoder

/-- Whatever is logged, the slots that are needed are installed once. -/
theorem installs_rewire : installs s.rewire.2 = [s.needed] := by
  rw [rewire, installs_append]
  split <;> rfl

/-- The slots that are needed are logged only if they are not those installed before. -/
theorem logged_rewire :
    logged s.rewire.2 = if s.needed = s.wiring then [] else [.rewired s.needed] := by
  rw [rewire, logged_append]
  split <;> rfl

theorem calls_rewire : calls s.rewire.2 = [] := by
  rw [rewire, calls_append]
  split <;> rfl

theorem installs_change (c : Change κ) : installs (s.change c).2 = [(s.change c).1.wiring] := by
  rw [change, installs_append, installs_map_log, installs_rewire]
  rfl

theorem wiring_revise (c : Change κ) : (s.revise c).wiring = s.wiring := by
  cases c <;> rfl

/-- A change is announced first; what is installed then is logged if it is not what was. -/
theorem logged_change (c : Change κ) :
    logged (s.change c).2 = c.announcement ++
      if (s.change c).1.wiring = s.wiring then [] else [.rewired (s.change c).1.wiring] := by
  rw [change, logged_append, logged_map_log, logged_rewire, wiring_revise]
  rfl

theorem calls_change (c : Change κ) : calls (s.change c).2 = [] := by
  rw [change, calls_append, calls_map_log, calls_rewire]
  rfl

theorem installs_boundary (pc : UInt32) : installs (s.boundary pc).2 = [] := by
  rw [boundary, installs_append]
  split <;> split <;> cases s.callback <;> rfl

theorem logged_boundary (pc : UInt32) :
    logged (s.boundary pc).2 = if s.pending || s.breakpoints.hits .pc pc then [.hit pc] else [] := by
  rw [boundary, logged_append]
  split <;> split <;> cases s.callback <;> rfl

/-- At the end of an instruction the callback is called once if every instruction is reported. -/
theorem calls_boundary (pc : UInt32) :
    calls (s.boundary pc).2 =
      if (s.boundary pc).1.continuous then
        s.callback.toList.map fun k => (k, pc, s.pending || s.breakpoints.hits .pc pc)
      else [] := by
  have hlog : calls (if s.pending || s.breakpoints.hits .pc pc then [Action.log (.hit pc)] else [] :
      List (Action κ)) = [] := by
    split <;> rfl
  rw [boundary, calls_append, hlog, List.nil_append]
  split
  · cases s.callback <;> rfl
  · rfl

/-- Only the end of an instruction has the surroundings do anything. -/
theorem event_snd {e : Event} (he : e.slot ≠ .instruction) : (s.event e).2 = [] := by
  cases e with
  | instruction pc => exact absurd rfl he
  | _ => rfl

/-- An event changes nothing of a session but its trace and its two latches. -/
theorem event_fst (e : Event) :
    ∃ branches continuous pending,
      (s.event e).1 = { s with branches, continuous, pending } := by
  cases e with
  | branch x =>
    rw [event, note]
    split <;> exact ⟨_, _, _, rfl⟩
  | _ => exact ⟨_, _, _, rfl⟩

theorem installs_event (e : Event) : installs (s.event e).2 = [] := by
  cases e with
  | instruction pc => exact s.installs_boundary pc
  | _ => rfl

theorem depth_change (c : Change κ) : (s.change c).1.depth = s.depth := by
  cases c <;> rfl

theorem depth_event (e : Event) : (s.event e).1.depth = s.depth := by
  obtain ⟨branches, continuous, pending, he⟩ := s.event_fst e
  rw [he]

end Session

namespace Host

variable {h : Host κ δ β ρ σ} {sizes : Sizes}

/-- The session has just started, with these sizes. -/
def Fresh (sizes : Sizes) (h : Host κ δ β ρ σ) : Prop :=
  ∃ decoder started, Session.start sizes decoder = .ok (h.session, started)

theorem Fresh.check (hf : h.Fresh sizes) : sizes.check = .ok () := by
  obtain ⟨decoder, started, hs⟩ := hf
  exact (Session.start_eq_ok_iff.mp hs).1

theorem Fresh.session_eq (hf : h.Fresh sizes) :
    ∃ decoder, h.session = (Session.setUp sizes decoder).rewire.1 := by
  obtain ⟨decoder, started, hs⟩ := hf
  exact ⟨decoder, (congrArg Prod.fst (Session.start_eq_ok_iff.mp hs).2).symm⟩

end Host

theorem Idle.fresh : Idle.host.Fresh {} :=
  ⟨.rest, [.install .detached], Idle.start_eq⟩

namespace Host

open V30Probe.Action

variable [Listing.Decoder δ] [Bus β] [Register.CpuRegisters ρ] [Register.SystemRegisters σ]
  (h : Host κ δ β ρ σ)

theorem perform_change (x : Change κ) :
    h.perform (.change x) =
      (⟨(h.session.change x).1, h.bus, h.cpu, h.system⟩, ⟨.none, (h.session.change x).2⟩) := rfl

theorem perform_event (e : Event) :
    h.perform (.event e) =
      (⟨(h.session.event e).1, (e.access h.bus h.session.depth).2, h.cpu, h.system⟩,
        ⟨(e.access h.bus h.session.depth).1.elim .none .byte, (h.session.event e).2⟩) := rfl

/-- A look at the machine changes nothing of a session but its depth and its disassembler. -/
theorem session_inspect (i : Inspection) :
    ∃ depth disassembler, (h.inspect i).1.session = { h.session with depth, disassembler } := by
  cases i with
  | forceInterrupt level =>
    rw [inspect]
    split <;> exact ⟨_, _, rfl⟩
  | _ => exact ⟨_, _, rfl⟩

theorem actions_inspect (i : Inspection) :
    ∃ events : List LogEvent, (h.inspect i).2.actions = events.map .log := by
  cases i with
  | forceInterrupt level =>
    rw [inspect]
    split
    · exact ⟨[], rfl⟩
    · exact ⟨[.invalidLevel level], rfl⟩
  | cpu access => exact ⟨_, rfl⟩
  | system access => exact ⟨_, rfl⟩
  | _ => exact ⟨[], rfl⟩

/-- An operation that is neither a change nor an event writes to the log at most. -/
theorem actions_of_quiet {op : Operation κ} (hq : op.isQuiet) :
    ∃ events : List LogEvent, (h.perform op).2.actions = events.map .log := by
  cases op with
  | change c => simp [Operation.isQuiet] at hq
  | event e => simp [Operation.isQuiet] at hq
  | inspect i => exact h.actions_inspect i
  | _ => exact ⟨[], rfl⟩

theorem installs_of_quiet {op : Operation κ} (hq : op.isQuiet) :
    installs (h.perform op).2.actions = [] := by
  obtain ⟨events, he⟩ := h.actions_of_quiet hq
  rw [he, installs_map_log]

theorem calls_of_quiet {op : Operation κ} (hq : op.isQuiet) :
    calls (h.perform op).2.actions = [] := by
  obtain ⟨events, he⟩ := h.actions_of_quiet hq
  rw [he, calls_map_log]

/-- A change installs what the session is then wired for, and nothing else installs anything. -/
theorem installs_perform (op : Operation κ) :
    installs (h.perform op).2.actions =
      if op.isChange then [(h.perform op).1.session.wiring] else [] := by
  cases op with
  | change c => exact h.session.installs_change c
  | event e => exact h.session.installs_event e
  | _ => exact h.installs_of_quiet rfl

/-- Callbacks are called at the end of an instruction only. -/
theorem calls_perform {op : Operation κ} (hb : op.isBoundary = false) :
    calls (h.perform op).2.actions = [] := by
  cases op with
  | change c => exact h.session.calls_change c
  | event e =>
    have he : e.slot ≠ .instruction := by
      cases e <;> simp_all [Operation.isBoundary, Event.slot]
    exact congrArg calls (h.session.event_snd he)
  | _ => exact h.calls_of_quiet rfl

@[simp]
theorem run_nil : h.run ([] : List (Operation κ)) = (h, []) := rfl

theorem run_cons (op : Operation κ) (ops : List (Operation κ)) :
    h.run (op :: ops) =
      (((h.perform op).1.run ops).1, (h.perform op).2 :: ((h.perform op).1.run ops).2) := rfl

theorem run_append (xs ys : List (Operation κ)) :
    h.run (xs ++ ys) = (((h.run xs).1.run ys).1, (h.run xs).2 ++ ((h.run xs).1.run ys).2) := by
  induction xs generalizing h with
  | nil => rfl
  | cons op xs ih => rw [List.cons_append, run_cons, run_cons, ih]; rfl

end Host
end V30Probe
