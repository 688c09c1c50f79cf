import V30Probe.Proofs.Session.History

/-! The state of a session is the one that its history tells, after every operation. -/

namespace V30Probe

open History

variable {κ δ β ρ σ : Type} {s t : Session κ δ} {ops before : List (Operation κ)}
  {op : Operation κ}

/-- What the changes have set up, and that it is installed. -/
structure Configured (s : Session κ δ) (ops : List (Operation κ)) : Prop where
  list : ∀ c, s.breakpoints.list c = inForce c ops
  callback : s.callback = registered ops
  tracing : s.branches.enabled = tracing ops
  wiring : s.wiring = s.needed

/-- The session is in the state that its history tells. -/
structure Tracks (s : Session κ δ) (ops : List (Operation κ)) : Prop extends Configured s ops where
  continuous : s.continuous ↔ Latched ops
  pending : s.pending ↔ Struck ops

theorem Configured.hits_iff (h : Configured s ops) (c : Category) (a : UInt32) :
    s.breakpoints.hits c a ↔ Covered c a ops := by
  rw [BreakpointTable.hits, h.list c, List.any_eq_true]
  rfl

theorem inForce_of_not_change (c : Category) (h : op.isChange = false) :
    inForce c (ops ++ [op]) = inForce c ops := by
  have hnone : op.tableStep? = none := by
    cases op <;> simp_all [Operation.isChange, Operation.tableStep?]
  rw [inForce_concat, hnone, Option.toList_none, List.append_nil]
  rfl

theorem registered_of_not_change (h : op.isChange = false) :
    registered (ops ++ [op]) = registered ops := by
  rw [registered_concat]
  cases op <;> simp_all [Operation.isChange, Operation.callbackSet?]

theorem tracing_of_not_change (h : op.isChange = false) :
    History.tracing (ops ++ [op]) = History.tracing ops := by
  rw [tracing_concat]
  cases op <;> simp_all [Operation.isChange, Operation.tracingSet?]

theorem callbackSet?_of_not_change (h : op.isChange = false) : op.callbackSet? = none := by
  cases op <;> simp_all [Operation.isChange, Operation.callbackSet?]

/-- Only a change alters what is set up. -/
theorem Configured.keep (h : Configured s ops) (hop : op.isChange = false)
    (hb : t.breakpoints = s.breakpoints) (hc : t.callback = s.callback)
    (he : t.branches.enabled = s.branches.enabled) (hw : t.wiring = s.wiring) :
    Configured t (ops ++ [op]) where
  list c := by rw [hb, h.list c, inForce_of_not_change c hop]
  callback := by rw [hc, h.callback, registered_of_not_change hop]
  tracing := by rw [he, h.tracing, tracing_of_not_change hop]
  wiring := by rw [hw, h.wiring, Session.needed, Session.needed, hb, hc, he]

theorem Configured.change (h : Configured s ops) (c : Change κ) :
    Configured (s.change c).1 (ops ++ [.change c]) where
  list d := by
    rw [inForce_concat, Session.breakpoints_change]
    exact BreakpointTable.list_run_append (h.list d) _
  callback := by
    rw [registered_concat]
    cases c with
    | setCallback k continuous => rfl
    | _ => exact h.callback
  tracing := by
    rw [tracing_concat]
    cases c with
    | setTracing on => exact Branch.Ring.enabled_setEnabled s.branches on
    | _ => exact h.tracing
  wiring := rfl

theorem Tracks.change (h : Tracks s ops) (c : Change κ) :
    Tracks (s.change c).1 (ops ++ [.change c]) where
  toConfigured := h.toConfigured.change c
  continuous := by
    cases c with
    | setCallback k continuous => exact latched_concat_of_callbackSet.symm
    | _ =>
      rw [latched_concat rfl]
      exact h.continuous.trans (by simp [HitBoundary])
  pending := by
    rw [struck_concat]
    cases c <;> exact h.pending.trans (by simp [Trips, Operation.isBoundary])

theorem Tracks.watch (h : Tracks s ops) {e : Event} {categories : List Category} {a : UInt32}
    (he : e.accesses = categories.map fun c => (c, a)) (hs : e.slot ≠ .instruction) :
    Tracks (s.watch categories a) (ops ++ [.event e]) := by
  have hb : Operation.isBoundary (κ := κ) (.event e) = false := by
    cases e <;> simp_all [Operation.isBoundary, Event.slot]
  have hn : ¬ HitBoundary ops (.event e) := by
    cases e <;> simp_all [HitBoundary, Event.slot]
  refine ⟨h.toConfigured.keep rfl rfl rfl rfl rfl, ?_, ?_⟩
  · rw [latched_concat rfl]
    exact h.continuous.trans (by simp [hn])
  · rw [struck_concat, hb, Session.watch]
    simp only [Bool.or_eq_true, List.any_eq_true, h.hits_iff, h.pending, Trips, he]
    simp [or_comm]

/-- What is neither a change, an access nor the end of an instruction leaves no mark. -/
theorem Tracks.keep (h : Tracks s ops) (hop : op.isChange = false) (hb : op.isBoundary = false)
    (ht : ¬ Trips ops op) {branches : Branch.Ring} (he : branches.enabled = s.branches.enabled)
    (depth : Depth) (disassembler : Listing.Disassembler δ) :
    Tracks { s with branches, depth, disassembler } (ops ++ [op]) := by
  have hn : ¬ HitBoundary ops op := by
    intro hh
    cases op with
    | event e => cases e <;> simp_all [HitBoundary, Operation.isBoundary]
    | _ => exact hh
  refine ⟨h.toConfigured.keep hop rfl rfl he rfl, ?_, ?_⟩
  · rw [latched_concat (callbackSet?_of_not_change hop)]
    exact h.continuous.trans (by simp [hn])
  · rw [struck_concat, hb]
    exact h.pending.trans (by simp [ht])

/-- A branch is no access, and the ring stays switched as it is. -/
theorem Tracks.note (h : Tracks s ops) (x : Branch.Transition) :
    Tracks (s.note x) (ops ++ [.event (.branch x)]) := by
  have ht : ¬ Trips ops (.event (.branch x)) := by simp [Trips, Event.accesses]
  rw [Session.note]
  split
  · exact h.keep rfl rfl ht (Branch.Ring.enabled_record s.branches x) s.depth s.disassembler
  · exact h.keep rfl rfl ht rfl s.depth s.disassembler

theorem Tracks.hit_iff (h : Tracks s ops) (pc : UInt32) :
    (s.pending || s.breakpoints.hits .pc pc) ↔ Hit pc ops := by
  rw [Bool.or_eq_true, h.hits_iff, h.pending]
  exact or_comm

theorem Tracks.boundary (h : Tracks s ops) (pc : UInt32) :
    Tracks (s.boundary pc).1 (ops ++ [.event (.instruction pc)]) where
  toConfigured := h.toConfigured.keep rfl rfl rfl rfl rfl
  continuous := by
    rw [latched_concat rfl, Session.boundary, Bool.or_eq_true, h.hit_iff, h.continuous]
    exact or_comm
  pending := by
    rw [struck_concat]
    simp [Session.boundary, Trips, Event.accesses, Operation.isBoundary]

theorem Tracks.event (h : Tracks s ops) (e : Event) :
    Tracks (s.event e).1 (ops ++ [.event e]) := by
  cases e with
  | memoryRead a => exact h.watch rfl (by simp [Event.slot])
  | memoryWrite a value => exact h.watch rfl (by simp [Event.slot])
  | portRead port => exact h.watch rfl (by simp [Event.slot])
  | portWrite port value => exact h.watch rfl (by simp [Event.slot])
  | instruction pc => exact h.boundary pc
  | branch x => exact h.note x

theorem tracks_start {sizes : Sizes} {decoder : δ} {actions : List (Action κ)}
    (h : Session.start sizes decoder = .ok (s, actions)) : Tracks s [] := by
  have hr := (Session.start_eq_ok_iff.mp h).2
  obtain rfl : (Session.setUp sizes decoder).rewire.1 = s := congrArg Prod.fst hr
  refine ⟨⟨fun c => BreakpointTable.list_empty c, rfl, rfl, rfl⟩, ?_, ?_⟩
  · simp [Latched, askedContinuous, Session.rewire, Session.setUp]
  · simp [Struck, Session.rewire, Session.setUp]

variable [Listing.Decoder δ] [Bus β] [Register.CpuRegisters ρ] [Register.SystemRegisters σ]
  {host : Host κ δ β ρ σ}

theorem Tracks.perform (h : Tracks host.session ops) (op : Operation κ) :
    Tracks (host.perform op).1.session (ops ++ [op]) := by
  cases op with
  | change c => exact h.change c
  | event e => exact h.event e
  | inspect i =>
    obtain ⟨depth, disassembler, hi⟩ := host.session_inspect i
    rw [Host.perform, hi]
    exact h.keep rfl rfl id rfl depth disassembler
  | enterScope => exact h.keep rfl rfl id rfl _ _
  | leaveScope => exact h.keep rfl rfl id rfl _ _
  | write a value => exact h.keep rfl rfl id rfl _ _
  | writePort port value => exact h.keep rfl rfl id rfl _ _

theorem Tracks.run (h : Tracks host.session before) (ops : List (Operation κ)) :
    Tracks (host.run ops).1.session (before ++ ops) := by
  induction ops generalizing host before with
  | nil => simpa using h
  | cons op ops ih =>
    have hr := ih (h.perform op)
    rwa [List.append_assoc] at hr

theorem tracks_run_start {sizes : Sizes} {decoder : δ} {started : List (Action κ)}
    (hs : Session.start sizes decoder = .ok (s, started)) (bus : β) (cpu : ρ) (system : σ)
    (ops : List (Operation κ)) :
    Tracks ((Host.mk s bus cpu system).run ops).1.session ops := by
  have ht : Tracks (Host.mk s bus cpu system).session [] := tracks_start hs
  exact ht.run ops

theorem Host.Fresh.tracks {sizes : Sizes} (hf : host.Fresh sizes) (ops : List (Operation κ)) :
    Tracks (host.run ops).1.session ops := by
  obtain ⟨decoder, started, hs⟩ := hf
  exact tracks_run_start hs host.bus host.cpu host.system ops

end V30Probe
