import V30Probe.Proofs.Session.Installs
import V30Probe.Proofs.Session.Latches

/-! An interpreter that reports an event only through a slot that is installed, next to a host that
hears of every event. They differ where an instruction that nobody watched leaves a hit pending. -/

namespace V30Probe

open History

variable {κ δ β ρ σ : Type}

/-- A host together with what was installed last. -/
structure Interpreter (κ δ β ρ σ : Type) where
  host : Host κ δ β ρ σ
  installed : Wiring

namespace Interpreter

/-- The last wiring that is installed counts. -/
def obey (installed : Wiring) (actions : List (Action κ)) : Wiring :=
  (Action.installs actions).getLast?.getD installed

theorem obey_rewire (w : Wiring) (s : Session κ δ) : obey w s.rewire.2 = s.rewire.1.wiring := by
  rw [obey, s.installs_rewire]
  rfl

/-- Nothing is installed before the session starts. -/
def attach (host : Host κ δ β ρ σ) (started : List (Action κ)) : Interpreter κ δ β ρ σ :=
  ⟨host, obey .detached started⟩

/-- Lets an event happen without the session: a read goes to the bus alone. -/
def bypass [Bus β] (i : Interpreter κ δ β ρ σ) (e : Event) : Interpreter κ δ β ρ σ × Outcome κ :=
  let (byte, bus) := e.access i.host.bus i.host.session.depth
  ({ i with host.bus := bus }, ⟨byte.elim .none .byte, []⟩)

variable [Listing.Decoder δ] [Bus β] [Register.CpuRegisters ρ] [Register.SystemRegisters σ]

def report (i : Interpreter κ δ β ρ σ) (op : Operation κ) : Interpreter κ δ β ρ σ × Outcome κ :=
  let (host, outcome) := i.host.perform op
  (⟨host, obey i.installed outcome.actions⟩, outcome)

def perform (i : Interpreter κ δ β ρ σ) : Operation κ → Interpreter κ δ β ρ σ × Outcome κ
  | .event e => if i.installed.has e.slot then i.report (.event e) else i.bypass e
  | op => i.report op

/-- The interpreter after some operations, and the outcome of each. -/
def run (i : Interpreter κ δ β ρ σ) : List (Operation κ) → Interpreter κ δ β ρ σ × List (Outcome κ)
  | [] => (i, [])
  | op :: ops =>
    let (i, outcome) := i.perform op
    let (i, outcomes) := i.run ops
    (i, outcome :: outcomes)

/-- All that is done to the surroundings by operations in turn. -/
def effects (i : Interpreter κ δ β ρ σ) (ops : List (Operation κ)) : List (Action κ) :=
  (i.run ops).2.flatMap Outcome.actions

end Interpreter

namespace History

/-- There is a callback or a breakpoint, so that ends of instructions are watched. -/
def Watching (ops : List (Operation κ)) : Prop :=
  (registered ops).isSome ∨ ∃ c, Populated c ops

/-- An access tripped a breakpoint after the last end of an instruction that was watched. -/
def Overdue (ops : List (Operation κ)) : Prop :=
  Once (fun before op => op.isBoundary ∧ Watching before) Trips ops

variable {ops : List (Operation κ)} {op : Operation κ}

/-- What the last instruction left pending is overdue; the converse fails. -/
theorem overdue_of_struck (h : Struck ops) : Overdue ops := by
  obtain ⟨before, op, after, rfl, ht, hr⟩ := h
  exact ⟨before, op, after, rfl, ht, fun mid y rest he hb => hr mid y rest he hb.1⟩

theorem overdue_concat (ops : List (Operation κ)) (op : Operation κ) :
    Overdue (ops ++ [op]) ↔ Trips ops op ∨ (¬ (op.isBoundary ∧ Watching ops) ∧ Overdue ops) :=
  once_concat ops op

end History

namespace Interpreter

variable [Listing.Decoder δ] [Bus β] [Register.CpuRegisters ρ] [Register.SystemRegisters σ]
  {h : Host κ δ β ρ σ} {past ops : List (Operation κ)} {op : Operation κ} {p c : Bool}

/-- An interpreter in step with a host that hears of every event: only the latches may differ. -/
def beside (h : Host κ δ β ρ σ) (p c : Bool) : Interpreter κ δ β ρ σ :=
  ⟨h.withLatches p c, h.session.wiring⟩

/-- What was installed last stays what the session is wired for. -/
theorem obey_perform (h : Host κ δ β ρ σ) (op : Operation κ) :
    obey h.session.wiring (h.perform op).2.actions = (h.perform op).1.session.wiring := by
  have hi := h.installs_perform op
  cases hop : op.isChange with
  | true => simp [obey, hi, hop]
  | false => simp [obey, hi, hop, h.wiring_perform hop]

theorem report_beside {q d : Bool}
    (hl : (h.withLatches p c).perform op = ((h.perform op).1.withLatches q d, (h.perform op).2)) :
    (beside h p c).report op = (beside (h.perform op).1 q d, (h.perform op).2) := by
  have ho : obey (beside h p c).installed (h.perform op).2.actions =
      (h.perform op).1.session.wiring := obey_perform h op
  have hh : (beside h p c).host.perform op =
      ((h.perform op).1.withLatches q d, (h.perform op).2) := hl
  simp only [report, hh, ho]
  rfl

theorem perform_beside_of_quiet (hq : op.isQuiet) :
    (beside h p c).perform op = (beside (h.perform op).1 p c, (h.perform op).2) := by
  have hr := report_beside (h.perform_withLatches_of_quiet p c hq)
  cases op with
  | change x => simp [Operation.isQuiet] at hq
  | event e => simp [Operation.isQuiet] at hq
  | _ => exact hr

theorem perform_beside_change (x : Change κ) :
    (beside h p c).perform (.change x) =
      (beside (h.perform (.change x)).1 p
        (((Operation.callbackSet? (.change x)).map Prod.snd).getD c),
        (h.perform (.change x)).2) :=
  report_beside (h.perform_withLatches_change p c x)

/-- An event goes the same way with its slot installed or not, unless it ends an instruction. -/
theorem perform_beside_event (hw : h.session.wiring = h.session.needed) {e : Event}
    (he : e.slot ≠ .instruction) :
    (beside h p c).perform (.event e) =
      (beside (h.perform (.event e)).1
        (p || e.accesses.any fun x => h.session.breakpoints.hits x.1 x.2) c,
        (h.perform (.event e)).2) := by
  rw [perform]
  split
  · exact report_beside (h.perform_withLatches_event p c he)
  · rename_i hoff
    have hoff' : h.session.wiring.has e.slot = false := eq_false_of_ne_true hoff
    have hn : (e.accesses.any fun x => h.session.breakpoints.hits x.1 x.2) = false := by
      simpa using Session.no_hit_of_slot_off hw hoff'
    rw [hn, Bool.or_false, Host.perform_event, Session.event_of_slot_off hw hoff' he,
      Session.event_snd _ he]
    rfl

/-- Between ends of instructions the two stay in step, and do the same. -/
theorem perform_beside_of_not_boundary (ht : Tracks h.session past) (hp : p ↔ Overdue past)
    (hb : op.isBoundary = false) :
    ∃ q, (beside h p c).perform op =
        (beside (h.perform op).1 q ((op.callbackSet?.map Prod.snd).getD c), (h.perform op).2) ∧
      (q ↔ Overdue (past ++ [op])) := by
  have ho := overdue_concat past op
  rw [hb] at ho
  cases op with
  | change x => exact ⟨p, perform_beside_change x, hp.trans (by simp [ho, Trips])⟩
  | event e =>
    have he : e.slot ≠ .instruction := by
      cases e <;> simp_all [Operation.isBoundary, Event.slot]
    refine ⟨_, perform_beside_event ht.wiring he, ?_⟩
    simp only [ho, Bool.or_eq_true, hp, List.any_eq_true, ht.hits_iff, Trips]
    simp [or_comm]
  | _ => exact ⟨p, perform_beside_of_quiet rfl, hp.trans (by simp [ho, Trips])⟩

theorem perform_beside_of_instruction_on (pc : UInt32) (hon : h.session.wiring.instruction) :
    (beside h p c).perform (.event (.instruction pc)) =
      (beside (h.perform (.event (.instruction pc))).1 false
        (c || (h.session.withLatches p c).hitAt pc),
        ⟨.none, ((h.session.withLatches p c).boundary pc).2⟩) := by
  have hinstalls := Session.installs_boundary (h.session.withLatches p c) pc
  have hobey : obey h.session.wiring ((h.session.withLatches p c).boundary pc).2 =
      h.session.wiring := by
    rw [obey, hinstalls]
    rfl
  have hreport : (beside h p c).perform (.event (.instruction pc)) =
      (beside h p c).report (.event (.instruction pc)) := if_pos hon
  rw [hreport]
  exact congrArg (fun w => (Interpreter.mk _ w, _)) hobey

theorem perform_beside_of_instruction_off (pc : UInt32)
    (hoff : h.session.wiring.instruction = false) :
    (beside h p c).perform (.event (.instruction pc)) =
      (beside (h.perform (.event (.instruction pc))).1 p c, ⟨.none, []⟩) := by
  have hslot : ¬ (beside h p c).installed.has .instruction := by
    intro hon
    exact absurd (hoff.symm.trans hon) Bool.false_ne_true
  exact if_neg hslot

/-- At the end of an instruction the gated interpreter reports with its own latches. If it does not
report, there is no callback. -/
theorem perform_beside_boundary (ht : Tracks h.session past) (hp : p ↔ Overdue past)
    (pc : UInt32) :
    let own := (h.session.withLatches p c).hitAt pc
    let gated := (beside h p c).perform (.event (.instruction pc))
    ∃ q d, gated.1 = beside (h.perform (.event (.instruction pc))).1 q d ∧
      (q ↔ Overdue (past ++ [.event (.instruction pc)])) ∧ gated.2.reply = .none ∧
      Action.calls gated.2.actions = reports (registered past) pc c own ∧
      ((registered past).isSome → d = (c || own)) := by
  intro own gated
  have ho := overdue_concat past (.event (.instruction pc))
  have ht' : ¬ Trips past (.event (.instruction pc)) := by simp [Trips, Event.accesses]
  have hw : h.session.wiring.instruction ↔ Watching past := ht.reflects.instruction
  cases hon : h.session.wiring.instruction with
  | true =>
    have hwatch : Watching past := hw.mp hon
    have hg : gated = _ := perform_beside_of_instruction_on pc hon
    rw [hg]
    refine ⟨_, _, rfl, ?_, rfl, ?_, fun _ => rfl⟩
    · simp [ho, ht', Operation.isBoundary, hwatch]
    · rw [← ht.callback]
      exact Session.calls_boundary_eq_reports (h.session.withLatches p c) pc
  | false =>
    have hwatch : ¬ Watching past := by
      intro hx
      exact absurd (hon.symm.trans (hw.mpr hx)) Bool.false_ne_true
    have hnone : registered past = none := by
      apply Option.not_isSome_iff_eq_none.mp
      intro hk
      exact hwatch (Or.inl hk)
    have hg : gated = _ := perform_beside_of_instruction_off pc hon
    rw [hg, hnone]
    refine ⟨_, _, rfl, hp.trans ?_, rfl, ?_, fun hk => absurd hk Bool.false_ne_true⟩
    · simp [ho, ht', hwatch]
    · rw [reports]
      split <;> rfl

end Interpreter

end V30Probe
