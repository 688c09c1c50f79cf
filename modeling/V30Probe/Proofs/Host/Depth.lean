import V30Probe.Bus.Recorder
import V30Probe.Proofs.Session.Actions

/-! Reads that reach the bus, with the depth they reach it at, and the scopes that this depth
counts. As long as all open scopes can be counted, the debugger closes just those that it has opened;
with one scope more it loses one of the host. -/

namespace V30Probe

variable {κ δ β ρ σ : Type}

/-- What an operation brings, and the reads that reach the bus for it. -/
structure Sighting where
  reply : Reply
  memory : List Reading
  ports : List Reading
  deriving DecidableEq, Repr

namespace Operation

/-- The debugger opens a scope of its own. -/
def opensScope : Operation κ → Bool
  | .inspect i => i.opensScope
  | _ => false

/-- The scopes that the host holds open after the operation. -/
def hostDepth (d : Depth) : Operation κ → Depth
  | .enterScope => d.enter
  | .leaveScope => d.leave
  | _ => d

end Operation

/-- Each scope that the debugger opens is counted: fewer than 2^32 are open, with its own. Beyond
that the count stays where it is when a scope is opened, and still goes down when it is closed. -/
def ScopesCounted : Depth → List (Operation κ) → Prop
  | _, [] => True
  | d, op :: ops => (op.opensScope → d.level < Depth.ceiling) ∧ ScopesCounted (op.hostDepth d) ops

theorem scopesCounted_of_no_scope {d : Depth} {ops : List (Operation κ)}
    (h : ∀ op ∈ ops, op.opensScope = false) : ScopesCounted d ops := by
  induction ops generalizing d with
  | nil => trivial
  | cons op ops ih =>
    obtain ⟨hop, hrest⟩ := List.forall_mem_cons.mp h
    exact ⟨fun ho => absurd ho (ne_true_of_eq_false hop), ih hrest⟩

namespace Host

variable [Listing.Decoder δ] [Bus β] [Register.CpuRegisters ρ] [Register.SystemRegisters σ]
  {h : Host κ δ β ρ σ} {op : Operation κ} {ops : List (Operation κ)}

/-- What an operation brings, and the reads that reach the bus meanwhile. -/
def sighting (h : Host κ δ β ρ σ) (op : Operation κ) : Sighting :=
  let recorded : Host κ δ (Recorder β) ρ σ := ⟨h.session, .ofBus h.bus, h.cpu, h.system⟩
  let bus := (recorded.perform op).1.bus
  ⟨(h.perform op).2.reply, bus.reads.toList, bus.portReads.toList⟩

/-- What the debugger reads in a scope of its own reaches the bus inside that scope, and no port is
read. -/
theorem sighting_of_readScoped (h : Host κ δ β ρ σ) (i : Inspection) (addresses : List UInt32)
    (hbus : ((Host.mk h.session (Recorder.ofBus h.bus) h.cpu h.system).inspect i).1.bus =
      (Bus.readScoped (Recorder.ofBus h.bus) h.session.depth addresses).2.1) :
    h.sighting (.inspect i) =
      ⟨(h.inspect i).2.reply, addresses.map (⟨·, h.session.depth.enter⟩), []⟩ := by
  have hread : (Bus.readScoped (Recorder.ofBus h.bus) h.session.depth addresses).2.1 =
      (Bus.readAll (Recorder.ofBus h.bus) h.session.depth.enter addresses).2 := rfl
  rw [hread, Recorder.readAll_ofBus] at hbus
  have hperform : ((Host.mk h.session (Recorder.ofBus h.bus) h.cpu h.system).perform
      (.inspect i)).1.bus = _ := hbus
  rw [sighting, hperform]
  rfl

/-- After an operation just the host's scopes are open, if and only if there was room to count the
debugger's. -/
theorem depth_perform_eq_iff :
    (h.perform op).1.session.depth = op.hostDepth h.session.depth ↔
      (op.opensScope → h.session.depth.level < Depth.ceiling) := by
  cases op with
  | inspect i =>
    have hd : (h.perform (.inspect i)).1.session.depth = _ := h.depth_inspect i
    rw [hd]
    by_cases hi : i.opensScope
    · simp [Operation.hostDepth, Operation.opensScope, hi, Depth.leave_enter_iff]
    · simp [Operation.hostDepth, Operation.opensScope, hi]
  | change c =>
    have hd : (h.perform (.change c)).1.session.depth = _ := h.session.depth_change c
    simp [hd, Operation.hostDepth, Operation.opensScope]
  | event e =>
    have hd : (h.perform (.event e)).1.session.depth = _ := h.session.depth_event e
    simp [hd, Operation.hostDepth, Operation.opensScope]
  | _ => exact ⟨fun _ ho => absurd ho Bool.false_ne_true, fun _ => rfl⟩

/-- Over a whole run the depth counts the host's scopes and no others, if and only if there is always
room to count the debugger's. -/
theorem depth_run_eq_iff :
    (∀ p, p <+: ops → (h.run p).1.session.depth = p.foldl Operation.hostDepth h.session.depth) ↔
      ScopesCounted h.session.depth ops := by
  induction ops generalizing h with
  | nil =>
    refine iff_of_true (fun p hp => ?_) trivial
    rw [List.prefix_nil.mp hp]
    rfl
  | cons op ops ih =>
    constructor
    · intro hall
      have hop : (h.perform op).1.session.depth = op.hostDepth h.session.depth :=
        hall [op] (List.prefix_append [op] ops)
      refine ⟨depth_perform_eq_iff.mp hop, ?_⟩
      rw [← hop]
      apply ih.mp
      intro p hp
      rw [hop]
      exact hall (op :: p) (List.cons_prefix_cons.mpr ⟨rfl, hp⟩)
    · rintro ⟨hop, hrest⟩ p hp
      have hd := depth_perform_eq_iff.mpr hop
      rw [← hd] at hrest
      rcases List.prefix_cons_iff.mp hp with rfl | ⟨q, rfl, hq⟩
      · rfl
      · rw [run_cons, List.foldl_cons, ← hd]
        exact ih.mpr hrest q hq

/-- Scopes that the host opens are counted one by one, up to the ceiling. -/
theorem run_replicate_enterScope (h : Host κ δ β ρ σ) {n : Nat}
    (hn : h.session.depth.level + n ≤ Depth.ceiling) :
    (h.run (List.replicate n .enterScope)).1 =
      { h with session.depth := ⟨h.session.depth.level + n⟩ } := by
  induction n generalizing h with
  | zero => rfl
  | succ n ih =>
    have hfirst : h.session.depth.enter = ⟨h.session.depth.level + 1⟩ :=
      congrArg Depth.mk (Nat.min_eq_left (by omega))
    have hperform : (h.perform .enterScope).1 =
        { h with session.depth := ⟨h.session.depth.level + 1⟩ } := by
      rw [← hfirst]
      rfl
    have hlevel : h.session.depth.level + 1 + n = h.session.depth.level + (n + 1) := by omega
    have hroom : h.session.depth.level + 1 + n ≤ Depth.ceiling := by omega
    rw [List.replicate_succ, run_cons, hperform, ih _ hroom, hlevel]

theorem run_replicate_leaveScope (h : Host κ δ β ρ σ) (n : Nat) :
    (h.run (List.replicate n .leaveScope)).1 =
      { h with session.depth := ⟨h.session.depth.level - n⟩ } := by
  induction n generalizing h with
  | zero => rfl
  | succ n ih =>
    have hperform : (h.perform .leaveScope).1 =
        { h with session.depth := ⟨h.session.depth.level - 1⟩ } := rfl
    have hlevel : h.session.depth.level - 1 - n = h.session.depth.level - (n + 1) := by omega
    rw [List.replicate_succ, run_cons, hperform, ih, hlevel]

theorem inspect_peek_of_quiet (hq : Bus.Quiet β) (h : Host κ δ β ρ σ) (a size : UInt32)
    (logical : Bool) :
    (h.inspect (.peek a size logical)).1 =
      { h with session.depth := h.session.depth.enter.leave } := by
  have hbus := h.bus_inspect hq (.peek a size logical)
  exact congrArg (fun bus => (Host.mk _ bus h.cpu h.system)) hbus

end Host

/-! ### A scope too many -/

namespace Operation

/-- The host opens `n` scopes. After what is done then, it closes all of them but one. -/
def crowd (n : Nat) (inside : List (Operation κ)) : List (Operation κ) :=
  List.replicate n .enterScope ++ inside ++ List.replicate (n - 1) .leaveScope

/-- What holds of opening and of closing a scope, and of what is done inside, holds of all. -/
theorem forall_mem_crowd {P : Operation κ → Prop} {n : Nat} {inside : List (Operation κ)}
    (henter : P .enterScope) (hleave : P .leaveScope) (hin : ∀ op ∈ inside, P op) :
    ∀ op ∈ crowd n inside, P op := by
  intro op hop
  rw [crowd, List.mem_append, List.mem_append] at hop
  rcases hop with (hop | hop) | hop
  · rwa [List.eq_of_mem_replicate hop]
  · exact hin op hop
  · rwa [List.eq_of_mem_replicate hop]

end Operation

namespace Host

variable [Listing.Decoder δ] [Bus β] [Register.CpuRegisters ρ] [Register.SystemRegisters σ]
  {h : Host κ δ β ρ σ} {n : Nat} {inside : List (Operation κ)} {d : Depth}

theorem run_crowd (hzero : h.session.depth.level = 0) (hn : n ≤ Depth.ceiling)
    (hin : (Host.run { h with session.depth := ⟨n⟩ } inside).1 = { h with session.depth := d }) :
    (h.run (Operation.crowd n inside)).1 = { h with session.depth := ⟨d.level - (n - 1)⟩ } := by
  have hfull : (h.run (List.replicate n .enterScope)).1 = { h with session.depth := ⟨n⟩ } := by
    have hlevel : h.session.depth.level + n = n := by omega
    rw [h.run_replicate_enterScope (by omega), hlevel]
  rw [Operation.crowd, run_append, run_append, hfull, hin, run_replicate_leaveScope]

/-- With nothing inside, the scope that stays open is counted. -/
theorem run_crowd_nil (hzero : h.session.depth.level = 0) (hpos : 0 < n)
    (hn : n ≤ Depth.ceiling) :
    (h.run (Operation.crowd n [])).1 = { h with session.depth := ⟨1⟩ } := by
  have hone : n - (n - 1) = 1 := by omega
  rw [run_crowd hzero hn rfl, hone]

/-- A peek at the ceiling loses it. -/
theorem run_crowd_peek (hq : Bus.Quiet β) (hzero : h.session.depth.level = 0) (a size : UInt32)
    (logical : Bool) :
    (h.run (Operation.crowd Depth.ceiling [.inspect (.peek a size logical)])).1 =
      { h with session.depth := ⟨0⟩ } := by
  have hlost : (⟨Depth.ceiling⟩ : Depth).enter.leave = ⟨Depth.ceiling - 1⟩ :=
    congrArg (fun level => Depth.mk (level - 1)) (Nat.min_eq_right (Nat.le_succ _))
  have hin : (Host.run { h with session.depth := ⟨Depth.ceiling⟩ }
      [.inspect (.peek a size logical)]).1 = { h with session.depth := ⟨Depth.ceiling - 1⟩ } := by
    have hpeek :=
      inspect_peek_of_quiet hq { h with session.depth := ⟨Depth.ceiling⟩ } a size logical
    rw [hlost] at hpeek
    exact hpeek
  rw [run_crowd hzero (Nat.le_refl _) hin, Nat.sub_self]

end Host
end V30Probe
