import V30Probe.Proofs.Session.Latches
import V30Probe.Proofs.Session.Installs
import V30Probe.Proofs.Register.Cells
import V30Probe.Proofs.Text.LogLine
import Mathlib.Data.List.Chain

/-! The log as a record of the wiring: whoever reads it knows at any time what is installed. -/

namespace V30Probe

variable {κ δ β ρ σ : Type}

namespace Action

/-- The wirings that the log tells of, in order. -/
def told (actions : List (Action κ)) : List Wiring :=
  (logged actions).filterMap LogEvent.wiring?

@[simp]
theorem told_append (xs ys : List (Action κ)) : told (xs ++ ys) = told xs ++ told ys := by
  simp [told]

theorem told_map_log {events : List LogEvent} (h : ∀ e ∈ events, e.wiring? = none) :
    told (events.map .log : List (Action κ)) = [] := by
  simpa [told] using h

end Action

open V30Probe.Action

/-- A trail of wirings leads to `w`, and no step of it stays where it is. -/
structure Replays (trail : List Wiring) (w : Wiring) : Prop where
  last : trail.getLast? = some w
  moves : trail.IsChain (· ≠ ·)

theorem replays_detached : Replays [.detached] .detached :=
  ⟨rfl, List.isChain_singleton _⟩

theorem Replays.tell {trail : List Wiring} {w : Wiring} (hr : Replays trail w) (now : Wiring) :
    Replays (trail ++ if now = w then [] else [now]) now := by
  by_cases hnow : now = w
  · rw [if_pos hnow, List.append_nil, hnow]
    exact hr
  · rw [if_neg hnow]
    refine ⟨List.getLast?_concat, ?_⟩
    apply List.isChain_append.mpr
    refine ⟨hr.moves, List.isChain_singleton _, ?_⟩
    intro last hlast next hnext
    rw [hr.last] at hlast
    obtain rfl := Option.some.inj hlast
    obtain rfl := Option.some.inj hnext
    exact Ne.symm hnow

theorem LogEvent.wiring?_of_warn {e : LogEvent} (h : e.severity = .warn) : e.wiring? = none := by
  cases e with
  | rewired w => cases h
  | _ => rfl

theorem Change.wiring?_of_announced (c : Change κ) : ∀ e ∈ c.announcement, e.wiring? = none := by
  intro e he
  cases c with
  | setCallback callback continuous => cases he
  | _ =>
    obtain rfl := List.mem_singleton.mp he
    rfl

theorem Session.told_change (s : Session κ δ) (c : Change κ) :
    told (s.change c).2 =
      if (s.change c).1.wiring = s.wiring then [] else [(s.change c).1.wiring] := by
  have hannounced : c.announcement.filterMap LogEvent.wiring? = [] :=
    List.filterMap_eq_nil_iff.mpr c.wiring?_of_announced
  rw [told, logged_change, List.filterMap_append, hannounced, List.nil_append]
  split <;> rfl

theorem Session.told_event (s : Session κ δ) (e : Event) : told (s.event e).2 = [] := by
  cases e with
  | instruction pc =>
    have hlogged := s.logged_boundary pc
    rw [told, event, hlogged]
    split <;> rfl
  | _ => rfl

namespace Host

variable [Listing.Decoder δ] [Bus β] [Register.CpuRegisters ρ] [Register.SystemRegisters σ]
  (h : Host κ δ β ρ σ)

theorem told_inspect (i : Inspection) : told (h.inspect i).2.actions = [] := by
  cases i with
  | forceInterrupt level =>
    rw [inspect]
    split <;> rfl
  | cpu access =>
    apply told_map_log
    intro e he
    exact LogEvent.wiring?_of_warn (Register.cpuGroup.severity_perform h.cpu access e he)
  | system access =>
    apply told_map_log
    intro e he
    exact LogEvent.wiring?_of_warn (Register.systemGroup.severity_perform h.system access e he)
  | _ => rfl

theorem told_of_not_change {op : Operation κ} (hop : op.isChange = false) :
    told (h.perform op).2.actions = [] := by
  cases op with
  | change c => cases hop
  | event e => exact h.session.told_event e
  | inspect i => exact h.told_inspect i
  | _ => rfl

/-- Any operation tells of the wiring it leaves behind, unless that is the one it found. -/
theorem told_perform (op : Operation κ) :
    told (h.perform op).2.actions =
      if (h.perform op).1.session.wiring = h.session.wiring then []
      else [(h.perform op).1.session.wiring] := by
  cases hop : op.isChange with
  | false =>
    rw [if_pos (h.wiring_perform hop)]
    exact h.told_of_not_change hop
  | true =>
    cases op with
    | change c => exact h.session.told_change c
    | _ => cases hop

theorem replays_run {trail : List Wiring} (hr : Replays trail h.session.wiring)
    (ops : List (Operation κ)) :
    Replays (trail ++ told (h.effects ops)) (h.run ops).1.session.wiring := by
  induction ops using List.reverseRecOn with
  | nil => simpa [effects, told, logged] using hr
  | append_singleton ops op ih =>
    rw [effects_concat, told_append, ← List.append_assoc, told_perform, run_concat_fst]
    exact ih.tell _

end Host

variable [Listing.Decoder δ] [Bus β] [Register.CpuRegisters ρ] [Register.SystemRegisters σ]
  {sizes : Sizes} {decoder : δ} {s : Session κ δ} {started : List (Action κ)}

/-- After any operations the wiring that the log told of last is that of the session, and no two
that it tells of in turn are the same. An operation logs its wiring once if that is a new one. An
add, a clear and the switching of tracing log themselves first, and a new callback logs no more than
the wiring; other lines than that of a wiring do not tell of it. -/
theorem log_replays_wiring (hs : Session.start sizes decoder = .ok (s, started)) (bus : β)
    (cpu : ρ) (system : σ) (ops : List (Operation κ)) :
    let host : Host κ δ β ρ σ := ⟨s, bus, cpu, system⟩
    let after := (host.run ops).1
    let wirings := told (started ++ host.effects ops)
    wirings.getLast?.getD .detached = after.session.wiring ∧
    (Wiring.detached :: wirings).IsChain (· ≠ ·) ∧
    (∀ op, told (after.perform op).2.actions =
      if (after.perform op).1.session.wiring = after.session.wiring then []
      else [(after.perform op).1.session.wiring]) ∧
    (let log := fun c => logged (after.perform (.change c)).2.actions
     let news := fun c =>
      if (after.perform (.change c)).1.session.wiring = after.session.wiring then []
      else [.rewired (after.perform (.change c)).1.session.wiring]
     (∀ c b, log (.add c b) = .adding c b :: news (.add c b)) ∧
     (∀ c, log (.clear c) = .clearing c :: news (.clear c)) ∧
     (∀ on, log (.setTracing on) = .tracing on :: news (.setTracing on)) ∧
     ∀ k on, log (.setCallback k on) = news (.setCallback k on)) ∧
    ∀ w, (∀ e : LogEvent, e.line = (LogEvent.rewired w).line ↔ e.wiring? = some w) ∧
      (LogEvent.rewired w).line = "DEBUG hook wiring changed: " ++
        (toString (w.instruction.toNat + w.memoryRead.toNat + w.memoryWrite.toNat +
          w.portRead.toNat + w.portWrite.toNat + w.branchTrace.toNat) ++
        (" slot(s) installed (" ++ (w.text ++ ")"))) := by
  intro host after wirings
  obtain rfl := Session.start_actions hs
  have hstart : Replays [.detached] host.session.wiring := by
    have hwiring : host.session.wiring = .detached := Session.wiring_of_start hs
    rw [hwiring]
    exact replays_detached
  have hr : Replays (.detached :: wirings) after.session.wiring := host.replays_run hstart ops
  refine ⟨?_, hr.moves, after.told_perform, ⟨?_, ?_, ?_, ?_⟩, ?_⟩
  · have hlast := hr.last
    rw [List.getLast?_cons] at hlast
    exact Option.some.inj hlast
  · exact fun c b => after.session.logged_change (.add c b)
  · exact fun c => after.session.logged_change (.clear c)
  · exact fun on => after.session.logged_change (.setTracing on)
  · exact fun k on => after.session.logged_change (.setCallback k on)
  · intro w
    refine ⟨fun e => LogEvent.line_eq_line_rewired_iff, ?_⟩
    rw [← w.installedCount_eq]
    exact LogEvent.line_rewired w

/-- A second breakpoint for the same slot is announced, but tells of no wiring. -/
theorem log_of_two_breakpoints :
    let watched : Wiring := ⟨true, true, false, false, false, false⟩
    let ops : List (Operation Nat) := [.change (.add .memoryRead ⟨16, 31, false⟩),
      .change (.add .auxRead ⟨40, 40, true⟩), .event (.memoryRead 20)]
    let host := Idle.host
    let after := (host.run ops).1
    let actions := [.install .detached] ++ host.effects ops
    Session.start {} .rest = .ok (Idle.session, [.install .detached]) ∧
      logged actions = [.adding .memoryRead ⟨16, 31, false⟩, .rewired watched,
        .adding .auxRead ⟨40, 40, true⟩] ∧
      told actions = [watched] ∧ after.session.wiring = watched ∧
      logged (after.perform (.change (.clear .memoryRead))).2.actions = [.clearing .memoryRead] ∧
      (LogEvent.adding .auxRead ⟨40, 40, true⟩).line ≠ (LogEvent.rewired watched).line := by
  intro watched ops host after actions
  obtain ⟨hlast, -, -, ⟨-, hclear, -, -⟩, hline⟩ :=
    log_replays_wiring Idle.start_eq Idle.rest Idle.rest Idle.rest ops
  refine ⟨Idle.start_eq, rfl, rfl, hlast.symm.trans rfl, (hclear _).trans rfl, ?_⟩
  intro h
  cases ((hline watched).1 _).mp h

end V30Probe
