import V30Probe.Proofs.Session.Actions

/-! Of the breakpoints only the addresses that they watch are seen. Sessions whose lists differ, but
watch the same addresses, behave alike under the same changes and events. -/

namespace V30Probe

variable {κ δ β ρ σ : Type}

/-- The sessions watch the same addresses and are otherwise in the same state, as far as program and
callback can tell. Lists, what is installed for them, and the disassembler may differ. -/
structure Alike (s t : Session κ δ) : Prop where
  hits : ∀ c a, s.breakpoints.hits c a = t.breakpoints.hits c a
  callback : s.callback = t.callback
  continuous : s.continuous = t.continuous
  pending : s.pending = t.pending
  branches : s.branches = t.branches
  depth : s.depth = t.depth

namespace Alike

variable {s t : Session κ δ}

/-- A later breakpoint or a clearing of a list does the same to the addresses that both watch. -/
theorem revise (h : Alike s t) (c : Change κ) : Alike (s.revise c) (t.revise c) := by
  cases c with
  | add c b =>
    refine ⟨fun d a => ?_, h.callback, h.continuous, h.pending, h.branches, h.depth⟩
    have hd := h.hits d a
    simp only [Session.revise, BreakpointTable.hits_add, hd]
  | clear c =>
    refine ⟨fun d a => ?_, h.callback, h.continuous, h.pending, h.branches, h.depth⟩
    have hd := h.hits d a
    simp only [Session.revise, BreakpointTable.hits_clear, hd]
  | setCallback k continuous => exact ⟨h.hits, rfl, rfl, h.pending, h.branches, h.depth⟩
  | setTracing on =>
    have hb : s.branches.setEnabled on = t.branches.setEnabled on := by rw [h.branches]
    exact ⟨h.hits, h.callback, h.continuous, h.pending, hb, h.depth⟩

theorem change (h : Alike s t) (c : Change κ) : Alike (s.change c).1 (t.change c).1 := by
  have hr := h.revise c
  exact ⟨hr.hits, hr.callback, hr.continuous, hr.pending, hr.branches, hr.depth⟩

theorem watch (h : Alike s t) (categories : List Category) (a : UInt32) :
    Alike (s.watch categories a) (t.watch categories a) := by
  refine ⟨h.hits, h.callback, h.continuous, ?_, h.branches, h.depth⟩
  simp only [Session.watch, h.pending, h.hits]

theorem note (h : Alike s t) (x : Branch.Transition) : Alike (s.note x) (t.note x) := by
  have hb := h.branches
  simp only [Session.note, hb]
  split
  · exact ⟨h.hits, h.callback, h.continuous, h.pending, rfl, h.depth⟩
  · exact h

/-- At the end of an instruction both report the same, down to the log. -/
theorem boundary (h : Alike s t) (pc : UInt32) :
    Alike (s.boundary pc).1 (t.boundary pc).1 ∧ (s.boundary pc).2 = (t.boundary pc).2 := by
  have hhit : (s.pending || s.breakpoints.hits .pc pc) =
      (t.pending || t.breakpoints.hits .pc pc) := by
    rw [h.pending, h.hits]
  refine ⟨⟨h.hits, h.callback, ?_, rfl, h.branches, h.depth⟩, ?_⟩
  · simp only [Session.boundary, hhit, h.continuous]
  · simp only [Session.boundary, hhit, h.continuous, h.callback]

theorem event (h : Alike s t) (e : Event) :
    Alike (s.event e).1 (t.event e).1 ∧ (s.event e).2 = (t.event e).2 := by
  cases e with
  | memoryRead a => exact ⟨h.watch _ a, rfl⟩
  | memoryWrite a value => exact ⟨h.watch _ a, rfl⟩
  | portRead port => exact ⟨h.watch _ port, rfl⟩
  | portWrite port value => exact ⟨h.watch _ port, rfl⟩
  | instruction pc => exact h.boundary pc
  | branch x => exact ⟨h.note x, rfl⟩

end Alike

/-- Whether the operation is a look at the machine. -/
def Operation.isInspection : Operation κ → Bool
  | .inspect _ => true
  | _ => false

/-- What program and callback hear of an operation: the byte that is read and the calls. -/
def Outcome.heard (o : Outcome κ) : Reply × List (κ × UInt32 × Bool) :=
  (o.reply, Action.calls o.actions)

/-- Two hosts with the same bus, whose sessions are alike. -/
structure AlikeHosts (h g : Host κ δ β ρ σ) : Prop where
  session : Alike h.session g.session
  bus : h.bus = g.bus

variable [Listing.Decoder δ] [Bus β] [Register.CpuRegisters ρ] [Register.SystemRegisters σ]
  {h g : Host κ δ β ρ σ}

theorem AlikeHosts.perform (ha : AlikeHosts h g) {op : Operation κ}
    (hop : op.isInspection = false) :
    AlikeHosts (h.perform op).1 (g.perform op).1 ∧
      (h.perform op).2.heard = (g.perform op).2.heard := by
  obtain ⟨hs, hb⟩ := ha
  have hd := hs.depth
  cases op with
  | change c =>
    refine ⟨⟨hs.change c, hb⟩, ?_⟩
    have hcalls : Action.calls (h.session.change c).2 = Action.calls (g.session.change c).2 := by
      rw [h.session.calls_change, g.session.calls_change]
    exact congrArg (Prod.mk Reply.none) hcalls
  | event e =>
    obtain ⟨hnext, hactions⟩ := hs.event e
    rw [Host.perform_event, Host.perform_event, hb, hd, hactions]
    exact ⟨⟨hnext, rfl⟩, rfl⟩
  | inspect i => exact absurd hop (by simp [Operation.isInspection])
  | enterScope =>
    refine ⟨⟨⟨hs.hits, hs.callback, hs.continuous, hs.pending, hs.branches, ?_⟩, hb⟩, rfl⟩
    exact congrArg Depth.enter hd
  | leaveScope =>
    refine ⟨⟨⟨hs.hits, hs.callback, hs.continuous, hs.pending, hs.branches, ?_⟩, hb⟩, rfl⟩
    exact congrArg Depth.leave hd
  | write a value =>
    refine ⟨⟨hs, ?_⟩, rfl⟩
    simp only [Host.perform, hb, hd]
  | writePort port value =>
    refine ⟨⟨hs, ?_⟩, rfl⟩
    simp only [Host.perform, hb, hd]

theorem AlikeHosts.run (ha : AlikeHosts h g) {ops : List (Operation κ)}
    (hops : ∀ op ∈ ops, op.isInspection = false) :
    AlikeHosts (h.run ops).1 (g.run ops).1 ∧
      (h.run ops).2.map Outcome.heard = (g.run ops).2.map Outcome.heard := by
  induction ops generalizing h g with
  | nil => exact ⟨ha, rfl⟩
  | cons op ops ih =>
    obtain ⟨hop, hrest⟩ := List.forall_mem_cons.mp hops
    obtain ⟨hnext, hheard⟩ := ha.perform hop
    obtain ⟨hend, htail⟩ := ih hnext hrest
    exact ⟨hend, congrArg₂ List.cons hheard htail⟩

/-- Two sessions that watch the same addresses, on the same bus, answer the program and call back
alike as long as nobody looks at their lists. After each operation they have the same flags and the
same trace, and they still watch the same addresses. -/
theorem only_watched_addresses_show (hs : Alike h.session g.session) (hb : h.bus = g.bus)
    (ops : List (Operation κ)) (hops : ∀ op ∈ ops, op.isInspection = false) :
    (h.run ops).2.map Outcome.heard = (g.run ops).2.map Outcome.heard ∧
      ∀ p, p <+: ops →
        Alike (h.run p).1.session (g.run p).1.session ∧ (h.run p).1.bus = (g.run p).1.bus ∧
          (h.run p).1.session.branches.rows = (g.run p).1.session.branches.rows := by
  have ha : AlikeHosts h g := ⟨hs, hb⟩
  refine ⟨(ha.run hops).2, ?_⟩
  intro p hp
  obtain ⟨hend, -⟩ := ha.run fun op hop => hops op (hp.subset hop)
  exact ⟨hend.session, hend.bus, congrArg Branch.Ring.rows hend.session.branches⟩

/-- Ports 10 to 1F, watched once as a whole, and once in two parts that overlap, with other high
bits and an empty range in between. -/
theorem overlapping_ports_do_not_show :
    let whole := BreakpointTable.empty.add .portRead ⟨0x10, 0x1F, false⟩
    let parts := ((BreakpointTable.empty.add .portRead ⟨0x218, 0x91F, true⟩).add
      .portRead ⟨9, 3, false⟩).add .portRead ⟨0x710, 0x11A, false⟩
    let s : Session Nat Idle := { Idle.session with breakpoints := whole }
    let t : Session Nat Idle := { Idle.session with breakpoints := parts }
    let ops : List (Operation Nat) := [.change (.setCallback (some 1) false),
      .change (.add .pc ⟨5, 7, false⟩), .event (.portRead 0x319), .change (.clear .portRead),
      .event (.instruction 9), .event (.instruction 2)]
    Alike s t ∧ (∀ op ∈ ops, op.isInspection = false) ∧
      ((Host.mk s Idle.rest Idle.rest Idle.rest).run ops).2.map Outcome.heard =
        ((Host.mk t Idle.rest Idle.rest Idle.rest).run ops).2.map Outcome.heard ∧
      ((Host.mk t Idle.rest Idle.rest Idle.rest).run ops).2.map Outcome.heard =
        [(.none, []), (.none, []), (.byte 0, []), (.none, []), (.none, [(1, 9, true)]),
          (.none, [(1, 2, false)])] := by
  intro whole parts s t ops
  have hs : Alike s t := by
    refine ⟨fun c a => ?_, rfl, rfl, rfl, rfl, rfl⟩
    simp only [s, t, whole, parts, BreakpointTable.hits_add, BreakpointTable.hits_empty]
    cases c with
    | portRead =>
      apply Bool.eq_iff_iff.mpr
      simp [Breakpoint.catches, Category.isPort, Breakpoint.coversPort_iff]
      omega
    | _ => rfl
  have hops : ∀ op ∈ ops, op.isInspection = false := by decide
  have hheard := (only_watched_addresses_show
    (h := Host.mk s Idle.rest Idle.rest Idle.rest) (g := Host.mk t Idle.rest Idle.rest Idle.rest)
    hs rfl ops hops).1
  exact ⟨hs, hops, hheard, by decide⟩

end V30Probe
