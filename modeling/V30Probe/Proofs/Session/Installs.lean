import V30Probe.Proofs.Session.Callback
import Mathlib.Data.List.Infix

/-! Which wirings a session installs in its life, and what each of them says about the history. -/

namespace V30Probe

open History

variable {κ δ β ρ σ : Type} {ops : List (Operation κ)}

/-- The wiring has just the slots that the history asks for. -/
structure Reflects (w : Wiring) (ops : List (Operation κ)) : Prop where
  instruction : w.instruction ↔ (registered ops).isSome ∨ ∃ c, Populated c ops
  memoryRead : w.memoryRead ↔ Populated .memoryRead ops ∨ Populated .auxRead ops
  memoryWrite : w.memoryWrite ↔ Populated .memoryWrite ops ∨ Populated .auxWrite ops
  portRead : w.portRead ↔ Populated .portRead ops
  portWrite : w.portWrite ↔ Populated .portWrite ops
  branchTrace : w.branchTrace ↔ tracing ops

theorem Configured.hasAny_iff {s : Session κ δ} (h : Configured s ops) (c : Category) :
    s.breakpoints.hasAny c ↔ Populated c ops := by
  rw [BreakpointTable.hasAny, h.list c, Populated]
  simp

theorem Configured.not_isEmpty_iff {s : Session κ δ} (h : Configured s ops) :
    (!s.breakpoints.isEmpty) ↔ ∃ c, Populated c ops := by
  rw [BreakpointTable.not_isEmpty_iff]
  exact exists_congr h.hasAny_iff

theorem Configured.reflects {s : Session κ δ} (h : Configured s ops) : Reflects s.wiring ops := by
  rw [h.wiring]
  refine ⟨?_, ?_, ?_, h.hasAny_iff _, h.hasAny_iff _, ?_⟩
  · rw [Session.needed, Wiring.derive, Bool.or_eq_true, h.not_isEmpty_iff, h.callback]
  · rw [Session.needed, Wiring.derive, Bool.or_eq_true, h.hasAny_iff, h.hasAny_iff]
  · rw [Session.needed, Wiring.derive, Bool.or_eq_true, h.hasAny_iff, h.hasAny_iff]
  · rw [← h.tracing]
    rfl

/-- Whether the last operation is a change. -/
def EndsInChange (ops : List (Operation κ)) : Bool :=
  ops.getLast?.any Operation.isChange

variable [Listing.Decoder δ] [Bus β] [Register.CpuRegisters ρ] [Register.SystemRegisters σ]

namespace Host

/-- All that is done to the surroundings by operations in turn. -/
def effects (h : Host κ δ β ρ σ) (ops : List (Operation κ)) : List (Action κ) :=
  (h.run ops).2.flatMap Outcome.actions

theorem effects_cons (h : Host κ δ β ρ σ) (op : Operation κ) (ops : List (Operation κ)) :
    h.effects (op :: ops) = (h.perform op).2.actions ++ (h.perform op).1.effects ops := rfl

theorem effects_concat (h : Host κ δ β ρ σ) (ops : List (Operation κ)) (op : Operation κ) :
    h.effects (ops ++ [op]) = h.effects ops ++ ((h.run ops).1.perform op).2.actions := by
  rw [effects, run_append, List.flatMap_append]
  simp [effects, run_cons]

theorem run_concat_fst (h : Host κ δ β ρ σ) (ops : List (Operation κ)) (op : Operation κ) :
    (h.run (ops ++ [op])).1 = ((h.run ops).1.perform op).1 := by
  rw [run_append]
  rfl

/-- A wiring is installed after each change, and it is the one that the session then has. -/
theorem installs_effects (h : Host κ δ β ρ σ) (ops : List (Operation κ)) :
    Action.installs (h.effects ops) =
      (ops.inits.filter EndsInChange).map fun p => (h.run p).1.session.wiring := by
  induction ops using List.reverseRecOn with
  | nil => rfl
  | append_singleton ops op ih =>
    rw [effects_concat, Action.installs_append, ih, installs_perform, List.inits_append]
    by_cases hop : op.isChange <;> simp [EndsInChange, hop, run_concat_fst]

end Host

/-- A session of valid sizes starts. After any operations its wiring is the one that their history
asks for. Each change installs that wiring, nothing else installs one, and before and after the
operations the session is detached. -/
theorem installs_follow_history {sizes : Sizes} (hv : sizes.check = .ok ()) (decoder : δ) (bus : β)
    (cpu : ρ) (system : σ) :
    ∃ (s : Session κ δ) (started : List (Action κ)),
      Session.start sizes decoder = .ok (s, started) ∧
      let host : Host κ δ β ρ σ := ⟨s, bus, cpu, system⟩
      let after := fun ops => (host.run ops).1
      ∀ ops : List (Operation κ),
        Reflects (after ops).session.wiring ops ∧
        (∀ op, Action.installs ((after ops).perform op).2.actions =
          if op.isChange then [(after (ops ++ [op])).session.wiring] else []) ∧
        Action.installs (started ++ host.effects ops ++ (after ops).session.finish) =
          .detached :: ((ops.inits.filter EndsInChange).map fun p => (after p).session.wiring) ++
            [.detached] := by
  have hs : Session.start sizes decoder =
      .ok ((Session.setUp sizes decoder : Session κ δ).rewire.1, [.install .detached]) := by
    obtain ⟨s, started, hr⟩ : ∃ s started, (Session.setUp sizes decoder : Session κ δ).rewire =
        (s, started) := ⟨_, _, rfl⟩
    have h := Session.start_eq_ok_iff.mpr ⟨hv, hr⟩
    rw [h, Session.start_actions h, hr]
  refine ⟨_, _, hs, ?_⟩
  intro host after ops
  refine ⟨(tracks_run_start hs bus cpu system ops).reflects, fun op => ?_, ?_⟩
  · have hc : after (ops ++ [op]) = ((after ops).perform op).1 := host.run_concat_fst ops op
    rw [hc]
    exact (after ops).installs_perform op
  · rw [Action.installs_append, Action.installs_append, host.installs_effects]
    rfl

/-- With the largest sizes, a breakpoint that is added and cleared again is seen in the installs.
The read in between is not. -/
theorem installs_of_add_and_clear :
    Sizes.check ⟨65536, 65536, 1024⟩ = .ok () ∧
      ∃ (s : Session Nat Idle) (started : List (Action Nat)),
        Session.start ⟨65536, 65536, 1024⟩ .rest = .ok (s, started) ∧
        Action.installs (started ++ (Host.mk s Idle.rest Idle.rest Idle.rest).effects
            [.change (.add .auxRead ⟨16, 31, false⟩), .event (.memoryRead 20),
              .change (.clear .auxRead)] ++ s.finish) =
          [.detached, ⟨true, true, false, false, false, false⟩, .detached, .detached] := by
  have hv : Sizes.check ⟨65536, 65536, 1024⟩ = .ok () := rfl
  obtain ⟨s, started, hs, h⟩ :=
    installs_follow_history (κ := Nat) hv Idle.rest Idle.rest Idle.rest Idle.rest
  refine ⟨hv, s, started, hs, (h _).2.2.trans ?_⟩
  obtain rfl : (Session.setUp _ _).rewire.1 = s :=
    congrArg Prod.fst (Session.start_eq_ok_iff.mp hs).2
  rfl

end V30Probe
