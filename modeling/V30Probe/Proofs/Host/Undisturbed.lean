import V30Probe.Proofs.Host.Depth

/-! The program runs as if no debugger were there: on a bus that the debugger can read without a
trace, it reads the same bytes at the same depths and leaves the bus in the same state. This holds
as long as all open scopes can be counted, and fails with one scope more. -/

namespace V30Probe

variable {κ δ β ρ σ : Type}

/-- What program and host do to the machine, with no debugger in between. -/
inductive Access where
  | read (address : UInt32)
  | readPort (port : UInt32)
  | write (address : UInt32) (value : UInt8)
  | writePort (port : UInt32) (value : UInt8)
  | enterScope
  | leaveScope
  deriving DecidableEq, Repr

/-- A machine with no debugger: its bus, and the scopes that the host holds open. -/
structure Machine (β : Type) where
  bus : β
  depth : Depth

namespace Machine

variable [Bus β]

def perform (m : Machine β) : Access → Machine β × List Sighting
  | .read a =>
    let (byte, bus) := Bus.read m.bus m.depth a
    ({ m with bus }, [⟨.byte byte, [⟨a, m.depth⟩], []⟩])
  | .readPort port =>
    let (byte, bus) := Bus.readPort m.bus m.depth port
    ({ m with bus }, [⟨.byte byte, [], [⟨port, m.depth⟩]⟩])
  | .write a value => ({ m with bus := Bus.write m.bus m.depth a value }, [])
  | .writePort port value => ({ m with bus := Bus.writePort m.bus m.depth port value }, [])
  | .enterScope => ({ m with depth := m.depth.enter }, [])
  | .leaveScope => ({ m with depth := m.depth.leave }, [])

/-- The machine after some accesses, and what the program sees in them. -/
def run (m : Machine β) : List Access → Machine β × List Sighting
  | [] => (m, [])
  | x :: xs =>
    let (m, seen) := m.perform x
    let (m, rest) := m.run xs
    (m, seen ++ rest)

end Machine

namespace Operation

/-- What is left of an operation without the debugger: accesses and the host's scopes. A read that
the session intercepts is a plain read of the bus. -/
def access? : Operation κ → Option Access
  | .event (.memoryRead a) => some (.read a)
  | .event (.portRead port) => some (.readPort port)
  | .write a value => some (.write a value)
  | .writePort port value => some (.writePort port value)
  | .enterScope => some .enterScope
  | .leaveScope => some .leaveScope
  | .event _ | .change _ | .inspect _ => none

def isProgramRead : Operation κ → Bool
  | .event (.memoryRead _) | .event (.portRead _) => true
  | _ => false

end Operation

/-- There is room for the debugger's scopes if the host never opens as many as can be counted. -/
theorem scopesCounted_of_countP_lt {d : Depth} {ops : List (Operation κ)}
    (h : d.level + ops.countP (fun op => decide (op.access? = some .enterScope)) < Depth.ceiling) :
    ScopesCounted d ops := by
  induction ops generalizing d with
  | nil => trivial
  | cons op ops ih =>
    refine ⟨fun _ => by omega, ih ?_⟩
    rw [List.countP_cons] at h
    cases op <;>
      simp_all [Operation.hostDepth, Operation.access?, Depth.enter, Depth.leave] <;> omega

namespace Host

/-- The machine that the debugger is attached to. -/
def machine (h : Host κ δ β ρ σ) : Machine β :=
  ⟨h.bus, h.session.depth⟩

variable [Listing.Decoder δ] [Bus β] [Register.CpuRegisters ρ] [Register.SystemRegisters σ]
  {h : Host κ δ β ρ σ} {op : Operation κ} {ops : List (Operation κ)} {x : Access}

/-- What the program sees in its reads, among all that happens. -/
def programReads (h : Host κ δ β ρ σ) : List (Operation κ) → List Sighting
  | [] => []
  | op :: ops =>
    (if op.isProgramRead then [h.sighting op] else []) ++ (h.perform op).1.programReads ops

/-- With the debugger in between, an access does to the machine what it does without. -/
theorem perform_of_access (hx : op.access? = some x) :
    (h.perform op).1.machine = (h.machine.perform x).1 ∧
      (if op.isProgramRead then [h.sighting op] else []) = (h.machine.perform x).2 := by
  cases op with
  | event e =>
    cases e with
    | memoryRead a =>
      obtain rfl : .read a = x := Option.some.inj hx
      exact ⟨rfl, rfl⟩
    | portRead port =>
      obtain rfl : .readPort port = x := Option.some.inj hx
      exact ⟨rfl, rfl⟩
    | _ => exact absurd hx (by simp [Operation.access?])
  | write a value =>
    obtain rfl : .write a value = x := Option.some.inj hx
    exact ⟨rfl, rfl⟩
  | writePort port value =>
    obtain rfl : .writePort port value = x := Option.some.inj hx
    exact ⟨rfl, rfl⟩
  | enterScope =>
    obtain rfl : .enterScope = x := Option.some.inj hx
    exact ⟨rfl, rfl⟩
  | leaveScope =>
    obtain rfl : .leaveScope = x := Option.some.inj hx
    exact ⟨rfl, rfl⟩
  | _ => exact absurd hx (by simp [Operation.access?])

/-- What the debugger does on its own leaves the bus as it is. -/
theorem bus_perform_of_no_access (hq : Bus.Quiet β) (hx : op.access? = none) :
    (h.perform op).1.bus = h.bus := by
  cases op with
  | change c => rfl
  | event e => cases e <;> simp_all [Operation.access?, perform, Event.access]
  | inspect i => exact h.bus_inspect hq i
  | _ => exact absurd hx (by simp [Operation.access?])

theorem machine_perform_of_no_access (hq : Bus.Quiet β) (hx : op.access? = none)
    (hc : op.opensScope → h.session.depth.level < Depth.ceiling) :
    (h.perform op).1.machine = h.machine := by
  have hd := depth_perform_eq_iff.mpr hc
  have hhost : op.hostDepth h.session.depth = h.session.depth := by
    cases op <;> simp_all [Operation.access?, Operation.hostDepth]
  rw [machine, bus_perform_of_no_access hq hx, hd, hhost]
  rfl

/-- Over a whole run the debugger drops out. -/
theorem run_machine (hq : Bus.Quiet β) (hc : ScopesCounted h.session.depth ops) :
    (h.run ops).1.machine = (h.machine.run (ops.filterMap Operation.access?)).1 ∧
      h.programReads ops = (h.machine.run (ops.filterMap Operation.access?)).2 := by
  induction ops generalizing h with
  | nil => exact ⟨rfl, rfl⟩
  | cons op ops ih =>
    obtain ⟨hop, hrest⟩ := hc
    rw [← depth_perform_eq_iff.mpr hop] at hrest
    obtain ⟨hend, hreads⟩ := ih hrest
    rw [run_cons, programReads, hreads]
    cases hx : op.access? with
    | none =>
      have hr : op.isProgramRead = false := by
        cases op with
        | event e => cases e <;> simp_all [Operation.access?, Operation.isProgramRead]
        | _ => rfl
      rw [machine_perform_of_no_access hq hx hop] at hend
      rw [List.filterMap_cons_none hx, machine_perform_of_no_access hq hx hop, hr]
      exact ⟨hend, rfl⟩
    | some x =>
      obtain ⟨hm, hs⟩ := perform_of_access (h := h) hx
      rw [hm] at hend
      rw [List.filterMap_cons_some hx, hm, hs]
      exact ⟨hend, rfl⟩

theorem programReads_append (h : Host κ δ β ρ σ) (xs ys : List (Operation κ)) :
    h.programReads (xs ++ ys) = h.programReads xs ++ (h.run xs).1.programReads ys := by
  induction xs generalizing h with
  | nil => rfl
  | cons op xs ih =>
    rw [List.cons_append, programReads, programReads, ih, run_cons, List.append_assoc]

theorem programReads_eq_nil (h : Host κ δ β ρ σ) (hno : ∀ op ∈ ops, op.isProgramRead = false) :
    h.programReads ops = [] := by
  induction ops generalizing h with
  | nil => rfl
  | cons op ops ih =>
    obtain ⟨hop, hrest⟩ := List.forall_mem_cons.mp hno
    rw [programReads, hop, ih _ hrest]
    rfl

end Host

/-! ### A scope too many -/

namespace Operation

theorem filterMap_access?_crowd {n : Nat} {inside : List (Operation κ)}
    (hin : inside.filterMap access? = []) :
    (crowd n inside).filterMap access? = (crowd (κ := κ) n []).filterMap access? := by
  simp only [crowd, List.filterMap_append, hin, List.filterMap_nil]

end Operation

namespace Host

variable [Listing.Decoder δ] [Bus β] [Register.CpuRegisters ρ] [Register.SystemRegisters σ]
  {h : Host κ δ β ρ σ} {n : Nat} {inside : List (Operation κ)} {d : Depth}

theorem programReads_crowd_append (h : Host κ δ β ρ σ)
    (hin : ∀ op ∈ inside, op.isProgramRead = false) (ops : List (Operation κ)) :
    h.programReads (Operation.crowd n inside ++ ops) =
      (h.run (Operation.crowd n inside)).1.programReads ops := by
  rw [programReads_append, h.programReads_eq_nil (Operation.forall_mem_crowd rfl rfl hin),
    List.nil_append]

/-- Without the debugger one scope stays open, whatever it would have done inside. -/
theorem machine_run_crowd (hq : Bus.Quiet β) (hzero : h.session.depth.level = 0) (hpos : 0 < n)
    (hn : n ≤ Depth.ceiling) (hin : inside.filterMap Operation.access? = [])
    {ops : List (Operation κ)} (hops : ∀ op ∈ ops, op.opensScope = false) :
    let g : Host κ δ β ρ σ := { h with session.depth := ⟨1⟩ }
    h.machine.run ((Operation.crowd n inside ++ ops).filterMap Operation.access?) =
      ((g.run ops).1.machine, g.programReads ops) := by
  intro g
  have hcounted : ScopesCounted h.session.depth (Operation.crowd n [] ++ ops) := by
    refine scopesCounted_of_no_scope (List.forall_mem_append.mpr ⟨?_, hops⟩)
    exact Operation.forall_mem_crowd rfl rfl (List.forall_mem_nil _)
  have hkept : (h.run (Operation.crowd n [])).1 = g := run_crowd_nil hzero hpos hn
  obtain ⟨hend, hreads⟩ := h.run_machine hq hcounted
  rw [run_append, hkept] at hend
  rw [h.programReads_crowd_append (List.forall_mem_nil _), hkept] at hreads
  rw [List.filterMap_append, Operation.filterMap_access?_crowd hin, ← List.filterMap_append]
  exact Prod.ext hend.symm hreads.symm

end Host

variable [Listing.Decoder δ] [Bus β] [Register.CpuRegisters ρ] [Register.SystemRegisters σ]

/-- On a bus that the debugger reads without a trace, the program gets the bytes that it gets when
every operation of the debugger is left out and each read that was intercepted goes straight to the
bus. Its reads reach the bus at the same depths, and the bus ends in the same state. The scopes have
to be few enough to be counted in thirty-two bits: by `Host.depth_run_eq_iff` just then the
debugger gives the depth back as it found it. The bus is an object apart from the registers of
processor and system, so that setting one of these or asking for an interrupt does not reach it. -/
theorem program_sees_no_debugger (hq : Bus.Quiet β) (h : Host κ δ β ρ σ)
    (ops : List (Operation κ)) (hc : ScopesCounted h.session.depth ops) :
    let m : Machine β := ⟨h.bus, h.session.depth⟩
    let bare := m.run (ops.filterMap Operation.access?)
    h.programReads ops = bare.2 ∧ (h.run ops).1.bus = bare.1.bus ∧
      (h.run ops).1.session.depth = bare.1.depth := by
  intro m bare
  obtain ⟨hend, hreads⟩ := h.run_machine hq hc
  exact ⟨hreads, congrArg Machine.bus hend, congrArg Machine.depth hend⟩

/-- Every port is watched, and the debugger looks around between the reads and inside a scope of the
host, where the queue stays as it is. -/
theorem program_takes_bytes_in_turn :
    let h : Host Nat Idle Feed Idle Idle :=
      ⟨Idle.session, ⟨fun a => a.toUInt8, [7, 8]⟩, .rest, .rest⟩
    let ops : List (Operation Nat) :=
      [.change (.add .portRead ⟨0, 255, false⟩), .inspect (.peek 0 4 false), .event (.portRead 3),
        .enterScope, .inspect (.disassemble 16 18), .event (.portRead 3), .leaveScope,
        .event (.instruction 5), .event (.portRead 3), .event (.memoryRead 20)]
    Bus.Quiet Feed ∧ ScopesCounted h.session.depth ops ∧
      h.programReads ops =
        [⟨.byte 7, [], [⟨3, ⟨0⟩⟩]⟩, ⟨.byte 8, [], [⟨3, ⟨1⟩⟩]⟩, ⟨.byte 8, [], [⟨3, ⟨0⟩⟩]⟩,
          ⟨.byte 20, [⟨20, ⟨0⟩⟩], []⟩] ∧
      (h.run ops).1.bus.queue = [] := by
  intro h ops
  have hc : ScopesCounted h.session.depth ops := scopesCounted_of_countP_lt (by decide)
  obtain ⟨hreads, hbus, -⟩ := program_sees_no_debugger Feed.quiet h ops hc
  exact ⟨Feed.quiet, hc, hreads, congrArg Feed.queue hbus⟩

/-- With as many scopes as can be counted, a peek costs the host one of them. The program then reads
at depth zero and takes the bytes from the queue, where it would leave them if nobody had peeked. -/
theorem lost_scope_shows_in_program_reads :
    let h : Host Nat Idle Feed Idle Idle :=
      ⟨Idle.session, ⟨fun a => a.toUInt8, [7, 8]⟩, .rest, .rest⟩
    let ops : List (Operation Nat) :=
      Operation.crowd Depth.ceiling [.inspect (.peek 0 1 false)] ++
        [.event (.portRead 3), .event (.portRead 3)]
    let m : Machine Feed := ⟨h.bus, h.session.depth⟩
    let bare := m.run (ops.filterMap Operation.access?)
    Bus.Quiet Feed ∧ h.programReads ops ≠ bare.2 ∧ (h.run ops).1.bus ≠ bare.1.bus ∧
      h.programReads ops = [⟨.byte 7, [], [⟨3, ⟨0⟩⟩]⟩, ⟨.byte 8, [], [⟨3, ⟨0⟩⟩]⟩] ∧
      bare.2 = [⟨.byte 7, [], [⟨3, ⟨1⟩⟩]⟩, ⟨.byte 7, [], [⟨3, ⟨1⟩⟩]⟩] ∧
      (h.run ops).1.bus.queue = [] ∧ bare.1.bus.queue = [7, 8] := by
  intro h ops m bare
  have hzero : h.session.depth.level = 0 := rfl
  have hlost := h.run_crowd_peek Feed.quiet hzero 0 1 false
  have hsees : h.programReads ops =
      [⟨.byte 7, [], [⟨3, ⟨0⟩⟩]⟩, ⟨.byte 8, [], [⟨3, ⟨0⟩⟩]⟩] := by
    rw [h.programReads_crowd_append (List.forall_mem_singleton.mpr rfl), hlost]
    rfl
  have hqueue : (h.run ops).1.bus.queue = [] := by
    rw [Host.run_append, hlost]
    rfl
  have hbare : bare = _ :=
    h.machine_run_crowd Feed.quiet hzero (by decide) (Nat.le_refl Depth.ceiling) rfl (by decide)
  have hsees' : bare.2 = [⟨.byte 7, [], [⟨3, ⟨1⟩⟩]⟩, ⟨.byte 7, [], [⟨3, ⟨1⟩⟩]⟩] := by
    rw [hbare]
    rfl
  have hqueue' : bare.1.bus.queue = [7, 8] := by
    rw [hbare]
    rfl
  refine ⟨Feed.quiet, ?_, ?_, hsees, hsees', hqueue, hqueue'⟩
  · rw [hsees, hsees']
    decide
  · intro heq
    rw [heq, hqueue'] at hqueue
    cases hqueue

end V30Probe
