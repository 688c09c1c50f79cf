import V30Probe.Proofs.Host.Undisturbed
import V30Probe.Proofs.Register.Tables
import V30Probe.Proofs.Session.Alike

/-! Looks at the machine do not show. However many are put into a history, every other operation
answers as before and leaves the same behind. What it reads and the depth are the same as long as
all open scopes can be counted, and not with one scope more. -/

namespace V30Probe

variable {κ δ β ρ σ : Type}

/-- The second history has further looks at the machine, wherever they are put in. -/
inductive Inspected : List (Operation κ) → List (Operation κ) → Prop
  | nil : Inspected [] []
  | same {xs ys : List (Operation κ)} (op : Operation κ) :
    Inspected xs ys → Inspected (op :: xs) (op :: ys)
  | look {xs ys : List (Operation κ)} (i : Inspection) :
    Inspected xs ys → Inspected xs (.inspect i :: ys)

theorem Operation.exists_of_isInspection (op : Operation κ) (h : op.isInspection) :
    ∃ i, op = .inspect i := by
  cases op with
  | inspect i => exact ⟨i, rfl⟩
  | _ => exact absurd h Bool.false_ne_true

theorem Inspected.refl (xs : List (Operation κ)) : Inspected xs xs := by
  induction xs with
  | nil => exact .nil
  | cons op xs ih => exact .same op ih

theorem Inspected.append {xs ys xs' ys' : List (Operation κ)} (h : Inspected xs ys)
    (h' : Inspected xs' ys') : Inspected (xs ++ xs') (ys ++ ys') := by
  induction h with
  | nil => exact h'
  | same op _ ih => exact .same op ih
  | look i _ ih => exact .look i ih

theorem Inspected.crowd {inside inside' : List (Operation κ)} (n : Nat)
    (h : Inspected inside inside') :
    Inspected (Operation.crowd n inside) (Operation.crowd n inside') :=
  ((Inspected.refl _).append h).append (.refl _)

/-- Every point of the first history has its like in the second. -/
theorem Inspected.exists_prefix {xs ys p : List (Operation κ)} (hi : Inspected xs ys)
    (hp : p <+: xs) : ∃ q, q <+: ys ∧ Inspected p q := by
  induction hi generalizing p with
  | nil => exact ⟨[], List.nil_prefix, List.prefix_nil.mp hp ▸ .nil⟩
  | same op _ ih =>
    rcases List.prefix_cons_iff.mp hp with rfl | ⟨p, rfl, hrest⟩
    · exact ⟨[], List.nil_prefix, .nil⟩
    · obtain ⟨q, hq, hpq⟩ := ih hrest
      exact ⟨op :: q, List.cons_prefix_cons.mpr ⟨rfl, hq⟩, .same op hpq⟩
  | look i _ ih =>
    obtain ⟨q, hq, hpq⟩ := ih hp
    exact ⟨.inspect i :: q, List.cons_prefix_cons.mpr ⟨rfl, hq⟩, .look i hpq⟩

/-- The sessions are in the same state but for the depth and the disassembler. -/
structure SameSetup (s t : Session κ δ) : Prop where
  breakpoints : s.breakpoints = t.breakpoints
  branches : s.branches = t.branches
  callback : s.callback = t.callback
  continuous : s.continuous = t.continuous
  pending : s.pending = t.pending
  wiring : s.wiring = t.wiring

/-- The program finds the same in both hosts. Registers and disassembler may differ. -/
structure SameForProgram (h g : Host κ δ β ρ σ) : Prop extends
    SameSetup h.session g.session where
  depth : h.session.depth = g.session.depth
  bus : h.bus = g.bus

namespace Session

variable (s : Session κ δ) (depth : Depth) (disassembler : Listing.Disassembler δ)

theorem change_with (c : Change κ) :
    ({ s with depth, disassembler } : Session κ δ).change c =
      ({ (s.change c).1 with depth, disassembler }, (s.change c).2) := by
  cases c <;> rfl

theorem event_with (e : Event) :
    ({ s with depth, disassembler } : Session κ δ).event e =
      ({ (s.event e).1 with depth, disassembler }, (s.event e).2) := by
  cases e with
  | branch x =>
    simp only [event, note]
    split <;> rfl
  | _ => rfl

end Session

namespace SameSetup

variable {s t u : Session κ δ}

theorem refl (s : Session κ δ) : SameSetup s s :=
  ⟨rfl, rfl, rfl, rfl, rfl, rfl⟩

theorem symm (h : SameSetup s t) : SameSetup t s :=
  ⟨h.breakpoints.symm, h.branches.symm, h.callback.symm, h.continuous.symm, h.pending.symm,
    h.wiring.symm⟩

theorem trans (hst : SameSetup s t) (htu : SameSetup t u) : SameSetup s u :=
  ⟨hst.breakpoints.trans htu.breakpoints, hst.branches.trans htu.branches,
    hst.callback.trans htu.callback, hst.continuous.trans htu.continuous,
    hst.pending.trans htu.pending, hst.wiring.trans htu.wiring⟩

theorem exists_with (h : SameSetup s t) :
    ∃ depth disassembler, t = { s with depth, disassembler } := by
  obtain ⟨hb, hr, hk, hc, hp, hw⟩ := h
  refine ⟨t.depth, t.disassembler, ?_⟩
  rw [hb, hr, hk, hc, hp, hw]

theorem change (h : SameSetup s t) (c : Change κ) :
    SameSetup (s.change c).1 (t.change c).1 ∧ (s.change c).2 = (t.change c).2 := by
  obtain ⟨depth, disassembler, rfl⟩ := h.exists_with
  rw [s.change_with depth disassembler c]
  exact ⟨⟨rfl, rfl, rfl, rfl, rfl, rfl⟩, rfl⟩

theorem event (h : SameSetup s t) (e : Event) :
    SameSetup (s.event e).1 (t.event e).1 ∧ (s.event e).2 = (t.event e).2 := by
  obtain ⟨depth, disassembler, rfl⟩ := h.exists_with
  rw [s.event_with depth disassembler e]
  exact ⟨⟨rfl, rfl, rfl, rfl, rfl, rfl⟩, rfl⟩

end SameSetup

namespace SameForProgram

variable {h g k : Host κ δ β ρ σ}

theorem refl (h : Host κ δ β ρ σ) : SameForProgram h h :=
  ⟨.refl h.session, rfl, rfl⟩

theorem symm (ha : SameForProgram h g) : SameForProgram g h :=
  ⟨ha.toSameSetup.symm, ha.depth.symm, ha.bus.symm⟩

theorem trans (hhg : SameForProgram h g) (hgk : SameForProgram g k) : SameForProgram h k :=
  ⟨hhg.toSameSetup.trans hgk.toSameSetup, hhg.depth.trans hgk.depth, hhg.bus.trans hgk.bus⟩

end SameForProgram

namespace Host

variable [Listing.Decoder δ] [Bus β] [Register.CpuRegisters ρ] [Register.SystemRegisters σ]
  {h g : Host κ δ β ρ σ} {op : Operation κ} {xs ys : List (Operation κ)}

/-- The outcomes of all operations that are not looks at the machine. -/
def others (h : Host κ δ β ρ σ) : List (Operation κ) → List (Outcome κ)
  | [] => []
  | op :: ops =>
    (if op.isInspection then [] else [(h.perform op).2]) ++ (h.perform op).1.others ops

theorem others_append (h : Host κ δ β ρ σ) (xs ys : List (Operation κ)) :
    h.others (xs ++ ys) = h.others xs ++ (h.run xs).1.others ys := by
  induction xs generalizing h with
  | nil => rfl
  | cons op xs ih => rw [List.cons_append, others, others, ih, run_cons, List.append_assoc]

theorem sameSetup_inspect (h : Host κ δ β ρ σ) (i : Inspection) :
    SameSetup (h.inspect i).1.session h.session := by
  obtain ⟨depth, disassembler, hi⟩ := h.session_inspect i
  rw [hi]
  exact ⟨rfl, rfl, rfl, rfl, rfl, rfl⟩

/-- The session reports the same at any depth and on any bus. -/
theorem sameSetup_perform (hs : SameSetup h.session g.session) (hop : op.isInspection = false) :
    SameSetup (h.perform op).1.session (g.perform op).1.session ∧
      (h.perform op).2.actions = (g.perform op).2.actions := by
  cases op with
  | change c => exact hs.change c
  | event e => exact hs.event e
  | inspect i => exact absurd hop (by simp [Operation.isInspection])
  | enterScope => exact ⟨⟨hs.1, hs.2, hs.3, hs.4, hs.5, hs.6⟩, rfl⟩
  | leaveScope => exact ⟨⟨hs.1, hs.2, hs.3, hs.4, hs.5, hs.6⟩, rfl⟩
  | write a value => exact ⟨hs, rfl⟩
  | writePort port value => exact ⟨hs, rfl⟩

/-- With the same depth and bus, the operation also answers the same and leaves them the same. -/
theorem sameForProgram_perform (ha : SameForProgram h g) (hop : op.isInspection = false) :
    SameForProgram (h.perform op).1 (g.perform op).1 ∧ (h.perform op).2 = (g.perform op).2 := by
  obtain ⟨hs, hd, hb⟩ := ha
  obtain ⟨hnext, hactions⟩ := sameSetup_perform hs hop
  cases op with
  | change c =>
    have hdepth : (h.session.change c).1.depth = (g.session.change c).1.depth := by
      rw [Session.depth_change, Session.depth_change, hd]
    exact ⟨⟨hnext, hdepth, hb⟩, congrArg (Outcome.mk .none) hactions⟩
  | event e =>
    have hdepth : (h.session.event e).1.depth = (g.session.event e).1.depth := by
      rw [Session.depth_event, Session.depth_event, hd]
    have haccess : e.access h.bus h.session.depth = e.access g.bus g.session.depth := by
      rw [hb, hd]
    refine ⟨⟨hnext, hdepth, congrArg Prod.snd haccess⟩, ?_⟩
    exact congrArg₂ (fun r x => Outcome.mk (Option.elim r.1 .none .byte) x) haccess hactions
  | inspect i => exact absurd hop (by simp [Operation.isInspection])
  | enterScope => exact ⟨⟨hnext, congrArg Depth.enter hd, hb⟩, rfl⟩
  | leaveScope => exact ⟨⟨hnext, congrArg Depth.leave hd, hb⟩, rfl⟩
  | write a value =>
    refine ⟨⟨hnext, hd, ?_⟩, rfl⟩
    simp only [perform, hb, hd]
  | writePort port value =>
    refine ⟨⟨hnext, hd, ?_⟩, rfl⟩
    simp only [perform, hb, hd]

theorem sameForProgram_inspect (hq : Bus.Quiet β) (h : Host κ δ β ρ σ) (i : Inspection)
    (hroom : i.opensScope → h.session.depth.level < Depth.ceiling) :
    SameForProgram (h.inspect i).1 h := by
  have hdepth : (h.perform (.inspect i)).1.session.depth = h.session.depth :=
    depth_perform_eq_iff.mpr hroom
  exact ⟨h.sameSetup_inspect i, hdepth, h.bus_inspect hq i⟩

/-- Whatever the bus is and however deep the scopes are, further looks change nothing of what a
session reports. -/
theorem sameSetup_run (hi : Inspected xs ys) (hs : SameSetup h.session g.session) :
    SameSetup (h.run xs).1.session (g.run ys).1.session ∧
      (h.others xs).map Outcome.actions = (g.others ys).map Outcome.actions := by
  induction hi generalizing h g with
  | nil => exact ⟨hs, rfl⟩
  | same op _ ih =>
    cases hop : op.isInspection with
    | true =>
      obtain ⟨i, rfl⟩ := op.exists_of_isInspection hop
      exact ih ((h.sameSetup_inspect i).trans (hs.trans (g.sameSetup_inspect i).symm))
    | false =>
      obtain ⟨hnext, hactions⟩ := sameSetup_perform hs hop
      obtain ⟨hend, hrest⟩ := ih hnext
      refine ⟨hend, ?_⟩
      simp only [others, hop, List.map_append, hrest, Bool.false_eq_true, if_false, List.map_cons,
        hactions]
  | look i _ ih => exact ih (hs.trans (g.sameSetup_inspect i).symm)

/-- If looks leave no trace on the bus and their scopes are counted, then all is the same. -/
theorem sameForProgram_run (hq : Bus.Quiet β) (hi : Inspected xs ys) (ha : SameForProgram h g)
    (hc : ScopesCounted g.session.depth ys) :
    SameForProgram (h.run xs).1 (g.run ys).1 ∧ h.others xs = g.others ys := by
  induction hi generalizing h g with
  | nil => exact ⟨ha, rfl⟩
  | same op _ ih =>
    obtain ⟨hroom, hrest⟩ := hc
    rw [← depth_perform_eq_iff.mpr hroom] at hrest
    cases hop : op.isInspection with
    | true =>
      obtain ⟨i, rfl⟩ := op.exists_of_isInspection hop
      have hroom' : i.opensScope → h.session.depth.level < Depth.ceiling := by
        rw [ha.depth]
        exact hroom
      exact ih ((h.sameForProgram_inspect hq i hroom').trans
        (ha.trans (g.sameForProgram_inspect hq i hroom).symm)) hrest
    | false =>
      obtain ⟨hnext, hout⟩ := sameForProgram_perform ha hop
      obtain ⟨hend, hothers⟩ := ih hnext hrest
      refine ⟨hend, ?_⟩
      simp only [others, hop, hothers, hout]
  | look i _ ih =>
    obtain ⟨hroom, hrest⟩ := hc
    have hg := g.sameForProgram_inspect hq i hroom
    exact ih (ha.trans hg.symm) (hg.depth ▸ hrest)

end Host

variable [Listing.Decoder δ] [Bus β] [Register.CpuRegisters ρ] [Register.SystemRegisters σ]

/-- Looks that are put into a history do not show in it. The other operations install, call and log
the same, and wherever the histories correspond, breakpoints, trace, callback, flags and wiring are
the same. On a bus that is read without a trace the other operations also read the same, and leave
bus and depth the same, as long as the scopes of the looks are counted: by `Host.depth_run_eq_iff`
just then the looks give the depth back. Session, bus, and the registers of processor and system are
separate objects, so that a register that a look sets is none that the other operations use. -/
theorem inspections_do_not_show (h : Host κ δ β ρ σ) {xs ys : List (Operation κ)}
    (hi : Inspected xs ys) :
    (h.others xs).map Outcome.actions = (h.others ys).map Outcome.actions ∧
    (Bus.Quiet β → ScopesCounted h.session.depth ys → h.others xs = h.others ys) ∧
    ∀ p, p <+: xs → (∃ q, q <+: ys ∧ Inspected p q) ∧
      ∀ q, q <+: ys → Inspected p q →
        let s := (h.run p).1.session
        let t := (h.run q).1.session
        SameSetup s t ∧ s.branches.rows = t.branches.rows ∧
          (Bus.Quiet β → ScopesCounted h.session.depth q →
            s.depth = t.depth ∧ (h.run p).1.bus = (h.run q).1.bus) := by
  refine ⟨(h.sameSetup_run hi (.refl h.session)).2, ?_, ?_⟩
  · intro hq hc
    exact (Host.sameForProgram_run hq hi (.refl h) hc).2
  · intro p hp
    refine ⟨hi.exists_prefix hp, ?_⟩
    intro q _ hpq s t
    have hsetup : SameSetup s t := (h.sameSetup_run hpq (.refl h.session)).1
    refine ⟨hsetup, congrArg Branch.Ring.rows hsetup.branches, ?_⟩
    intro hq hc
    have hend := (Host.sameForProgram_run hq hpq (.refl h) hc).1
    exact ⟨hend.depth, hend.bus⟩

/-- A port is read and an instruction ends with a hit, without looks and with looks of every kind in
between, one of them into the stack segment that another has just set. -/
theorem looks_around_port_read_do_not_show :
    let registers : Register.Bare := ⟨fun _ => 0, fun _ => 0⟩
    let h : Host Nat Idle Feed Register.Bare Register.Bare :=
      ⟨Idle.session, ⟨fun a => a.toUInt8, [7, 8]⟩, registers, registers⟩
    let xs : List (Operation Nat) :=
      [.change (.setCallback (some 1) false), .change (.add .portRead ⟨0, 255, false⟩),
        .enterScope, .leaveScope, .event (.portRead 3), .event (.instruction 5)]
    let ys : List (Operation Nat) :=
      [.inspect .branches, .change (.setCallback (some 1) false), .inspect .switchDialect,
        .change (.add .portRead ⟨0, 255, false⟩), .inspect (.hits .portRead 3), .enterScope,
        .inspect (.disassemble 16 18), .inspect (.cpu (.set 13 9)), .leaveScope,
        .inspect (.forceInterrupt 3), .event (.portRead 3), .inspect (.peek 0 4 true),
        .inspect (.system .values), .event (.instruction 5), .inspect (.breakpoints .pc)]
    Inspected xs ys ∧ Bus.Quiet Feed ∧ ScopesCounted h.session.depth ys ∧
      h.others xs = h.others ys ∧
      (h.others ys).map Outcome.heard =
        [(.none, []), (.none, []), (.none, []), (.none, []), (.byte 7, []),
          (.none, [(1, 5, true)])] ∧
      (h.run ys).1.session.continuous ∧ (h.run ys).1.bus.queue = [8] := by
  intro registers h xs ys
  have hi : Inspected xs ys :=
    .look _ (.same _ (.look _ (.same _ (.look _ (.same _ (.look _ (.look _ (.same _ (.look _
      (.same _ (.look _ (.look _ (.same _ (.look _ .nil))))))))))))))
  have hc : ScopesCounted h.session.depth ys := scopesCounted_of_countP_lt (by decide)
  obtain ⟨-, hsame, hpoints⟩ := inspections_do_not_show h hi
  have hothers : h.others xs = h.others ys := hsame Feed.quiet hc
  obtain ⟨hsetup, -, hprogram⟩ :=
    (hpoints xs (List.prefix_refl xs)).2 ys (List.prefix_refl ys) hi
  obtain ⟨-, hbus⟩ := hprogram Feed.quiet hc
  refine ⟨hi, Feed.quiet, hc, hothers, ?_, ?_, ?_⟩
  · rw [← hothers]
    decide
  · rw [← hsetup.continuous]
    decide
  · rw [← hbus]
    decide

/-- With as many scopes as can be counted, a peek that is put in costs the host one of them. Behind
it the second read of a port brings another byte. -/
theorem lost_scope_shows_in_depth_and_reads :
    let h : Host Nat Idle Feed Idle Idle :=
      ⟨Idle.session, ⟨fun a => a.toUInt8, [7, 8]⟩, .rest, .rest⟩
    let reads : List (Operation Nat) := [.event (.portRead 3), .event (.portRead 3)]
    let xs := Operation.crowd Depth.ceiling [] ++ reads
    let ys := Operation.crowd Depth.ceiling [.inspect (.peek 0 1 false)] ++ reads
    Inspected xs ys ∧ Bus.Quiet Feed ∧ h.others xs ≠ h.others ys ∧
      (h.others xs).getLast? = some ⟨.byte 7, []⟩ ∧ (h.others ys).getLast? = some ⟨.byte 8, []⟩ ∧
      (h.run xs).1.session.depth = ⟨1⟩ ∧ (h.run ys).1.session.depth = ⟨0⟩ := by
  intro h reads xs ys
  have hzero : h.session.depth.level = 0 := rfl
  have hkept := h.run_crowd_nil hzero (by decide) (Nat.le_refl Depth.ceiling)
  have hlost := h.run_crowd_peek Feed.quiet hzero 0 1 false
  have hlook : Inspected xs ys :=
    (Inspected.crowd Depth.ceiling (.look (.peek 0 1 false) .nil)).append (.refl reads)
  have hlast : (h.others xs).getLast? = some ⟨.byte 7, []⟩ := by
    rw [Host.others_append, hkept, List.getLast?_append]
    rfl
  have hlast' : (h.others ys).getLast? = some ⟨.byte 8, []⟩ := by
    rw [Host.others_append, hlost, List.getLast?_append]
    rfl
  refine ⟨hlook, Feed.quiet, ?_, hlast, hlast', ?_, ?_⟩
  · intro heq
    rw [heq, hlast'] at hlast
    exact absurd hlast (by decide)
  · rw [Host.run_append, hkept]
    rfl
  · rw [Host.run_append, hlost]
    rfl

end V30Probe
