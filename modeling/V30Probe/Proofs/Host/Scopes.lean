import Mathlib.Algebra.Order.Ring.Nat
import V30Probe.Proofs.Depth.Alive
import V30Probe.Proofs.History
import V30Probe.Proofs.Host.Depth

/-! The debug depth of a session counts the scopes that its host holds. The program reads at that
depth and the debugger one scope deeper. -/

namespace V30Probe

open History

variable {κ δ β ρ σ : Type} {ops : List (Operation κ)}

namespace Operation

/-- The scopes that the host holds after the operation, if it held `k` before. -/
def holds (k : Nat) : Operation κ → Nat
  | .enterScope => k + 1
  | .leaveScope => k - 1
  | _ => k

/-- The most scopes that are open during the operation, with the debugger's own. -/
def peak (k : Nat) (op : Operation κ) : Nat :=
  if op.opensScope then k + 1 else op.holds k

end Operation

namespace History

/-- The scopes that the host holds. -/
def held (ops : List (Operation κ)) : Nat :=
  ops.foldl Operation.holds 0

/-- All scopes that are open at a time can be counted in thirty-two bits. -/
def ScopesFit (ops : List (Operation κ)) : Prop :=
  ∀ before op, before ++ [op] <+: ops → op.peak (held before) < 2 ^ 32

theorem held_concat (ops : List (Operation κ)) (op : Operation κ) :
    held (ops ++ [op]) = op.holds (held ops) := by
  simp [held]

theorem held_le_length (ops : List (Operation κ)) : held ops ≤ ops.length := by
  induction ops using List.reverseRecOn with
  | nil => exact Nat.le_refl 0
  | append_singleton ops op ih =>
    rw [held_concat, List.length_append, List.length_singleton]
    cases op <;> simp only [Operation.holds] <;> omega

/-- It takes a long run to hold so many. -/
theorem scopesFit_of_length_lt (h : ops.length < 2 ^ 32) : ScopesFit ops := by
  intro before op hp
  have hl := hp.length_le
  have hb := held_le_length before
  have ho := held_le_length (before ++ [op])
  rw [held_concat] at ho
  rw [List.length_append, List.length_singleton] at hl ho
  rw [Operation.peak]
  split <;> omega

end History

namespace Host

variable [Listing.Decoder δ] [Bus β] [Register.CpuRegisters ρ] [Register.SystemRegisters σ]
  {h : Host κ δ β ρ σ} {sizes : Sizes}

/-- The operation reads these addresses, all of them at one depth, and leaves the depth as it was. -/
structure ReadsAt (h : Host κ δ β ρ σ) (op : Operation κ) (memory ports : List UInt32)
    (level : Nat) : Prop where
  memory : (h.sighting op).memory = memory.map fun a => ⟨a, ⟨level⟩⟩
  ports : (h.sighting op).ports = ports.map fun a => ⟨a, ⟨level⟩⟩
  depth : (h.perform op).1.session.depth = h.session.depth

/-- After each operation the depth is the number of scopes that the host holds. -/
theorem Fresh.depth_run (hf : h.Fresh sizes) (hfit : ScopesFit ops) :
    (h.run ops).1.session.depth = ⟨held ops⟩ := by
  induction ops using List.reverseRecOn with
  | nil =>
    obtain ⟨decoder, hs⟩ := hf.session_eq
    rw [run_nil, hs]
    rfl
  | append_singleton ops op ih =>
    have hbefore : (h.run ops).1.session.depth = ⟨held ops⟩ :=
      ih fun before x hp => hfit before x (hp.trans (List.prefix_append ops [op]))
    have hpeak := hfit ops op List.prefix_rfl
    have hroom : op.opensScope → (h.run ops).1.session.depth.level < Depth.ceiling := by
      intro ho
      rw [Operation.peak, if_pos ho] at hpeak
      simp only [hbefore, Depth.ceiling]
      omega
    rw [run_append, held_concat]
    refine (depth_perform_eq_iff.mpr hroom).trans ?_
    rw [hbefore]
    cases op with
    | enterScope =>
      rw [Operation.peak, if_neg (by simp [Operation.opensScope]), Operation.holds] at hpeak
      simp only [Operation.hostDepth, Operation.holds, Depth.enter, Depth.ceiling]
      congr 1
      omega
    | _ => rfl

/-- A read by the program reaches the bus at the depth of the session. -/
theorem readsAt_memoryRead (h : Host κ δ β ρ σ) (a : UInt32) :
    h.ReadsAt (.event (.memoryRead a)) [a] [] h.session.depth.level :=
  ⟨rfl, rfl, h.session.depth_event (.memoryRead a)⟩

theorem readsAt_portRead (h : Host κ δ β ρ σ) (port : UInt32) :
    h.ReadsAt (.event (.portRead port)) [] [port] h.session.depth.level :=
  ⟨rfl, rfl, h.session.depth_event (.portRead port)⟩

/-- What the debugger reads in a scope of its own reaches the bus one scope deeper. -/
theorem readsAt_of_readScoped (h : Host κ δ β ρ σ) (i : Inspection) (addresses : List UInt32)
    (hroom : h.session.depth.level < Depth.ceiling)
    (hbus : ((Host.mk h.session (Recorder.ofBus h.bus) h.cpu h.system).inspect i).1.bus =
      (Bus.readScoped (Recorder.ofBus h.bus) h.session.depth addresses).2.1) :
    h.ReadsAt (.inspect i) addresses [] (h.session.depth.level + 1) := by
  have hinside : h.session.depth.enter = ⟨h.session.depth.level + 1⟩ :=
    congrArg Depth.mk (Nat.min_eq_left hroom)
  have hseen := h.sighting_of_readScoped i addresses hbus
  rw [hinside] at hseen
  exact ⟨congrArg Sighting.memory hseen, congrArg Sighting.ports hseen,
    depth_perform_eq_iff.mpr fun _ => hroom⟩

theorem readsAt_peek (h : Host κ δ β ρ σ) (hroom : h.session.depth.level < Depth.ceiling)
    (a size : UInt32) (logical : Bool) :
    h.ReadsAt (.inspect (.peek a size logical))
      (peekAddresses (if logical then .segment (Register.CpuRegisters.get h.cpu .ss) else .flat)
        a size) [] (h.session.depth.level + 1) :=
  h.readsAt_of_readScoped _ _ hroom rfl

theorem readsAt_disassemble (h : Host κ δ β ρ σ) (hroom : h.session.depth.level < Depth.ceiling)
    (a marker : UInt16) :
    h.ReadsAt (.inspect (.disassemble a marker))
      (Listing.fetchAddresses (Register.CpuRegisters.get h.cpu .ps) a
        h.session.disassembler.instructionBytes) [] (h.session.depth.level + 1) :=
  h.readsAt_of_readScoped _ _ hroom rfl

end Host

variable [Listing.Decoder δ] [Bus β] [Register.CpuRegisters ρ] [Register.SystemRegisters σ]

/-- Counters: as long as fewer than 2^32 scopes are open on each, every handle shows how many are
open on its counter, whatever the order in which they were opened and closed, and no step moves a
counter other than its own.

Sessions: the depth is the number `k` of scopes that the host holds. A read by the program reaches
the bus at depth `k`, and one by the debugger at depth `k + 1`; afterwards the depth is `k` again. -/
theorem depth_counts_open_scopes :
    (∀ steps : List CounterStep,
      (∀ p, p <+: steps → ∀ handle, (Counters.empty.run p).alive handle < 2 ^ 32) →
      let s := Counters.empty.run steps
      (∀ handle, (s.depth handle).level = s.alive handle ∧
        ((s.depth handle).isActive ↔ 0 < s.alive handle)) ∧
      ∀ x handle c, s.handles[handle]? = some c → s.moved? x ≠ some c →
        (s.step x).depth handle = s.depth handle) ∧
    ∀ (sizes : Sizes) (h : Host κ δ β ρ σ), h.Fresh sizes → ∀ ops, ScopesFit ops →
      let g := (h.run ops).1
      let k := held ops
      g.session.depth = ⟨k⟩ ∧
      (∀ a, g.ReadsAt (.event (.memoryRead a)) [a] [] k) ∧
      (∀ port, g.ReadsAt (.event (.portRead port)) [] [port] k) ∧
      (k + 1 < 2 ^ 32 →
        (∀ a size logical, g.ReadsAt (.inspect (.peek a size logical))
          (peekAddresses (if logical then .segment (Register.CpuRegisters.get g.cpu .ss) else .flat)
            a size) [] (k + 1)) ∧
        ∀ a marker, g.ReadsAt (.inspect (.disassemble a marker))
          (Listing.fetchAddresses (Register.CpuRegisters.get g.cpu .ps) a
            g.session.disassembler.instructionBytes) [] (k + 1)) := by
  constructor
  · intro steps hfew s
    have hs : s.Counted := by
      apply Counters.counted_run
      intro p hp handle
      exact Nat.le_of_lt_succ (hfew p hp handle)
    refine ⟨?_, ?_⟩
    · intro handle
      rw [hs.depth_eq]
      exact ⟨rfl, decide_eq_true_iff⟩
    · intro x handle c hh hne
      exact hs.depth_step_of_ne x hh hne
  · intro sizes h hf ops hfit g k
    have hdepth : g.session.depth = ⟨k⟩ := hf.depth_run hfit
    have hlevel : g.session.depth.level = k := congrArg Depth.level hdepth
    refine ⟨hdepth, ?_, ?_, ?_⟩
    · intro a
      rw [← hlevel]
      exact g.readsAt_memoryRead a
    · intro port
      rw [← hlevel]
      exact g.readsAt_portRead port
    · intro hk
      rw [← hlevel] at hk ⊢
      have hroom : g.session.depth.level < Depth.ceiling := Nat.lt_of_succ_lt_succ hk
      exact ⟨g.readsAt_peek hroom, g.readsAt_disassemble hroom⟩

/-- Three scopes through a handle and its copy, of which the oldest is closed first, beside one on
another counter; and a session that looks around while its host holds two scopes. -/
theorem depth_of_three_scopes :
    let steps : List CounterStep :=
      [.create, .copy 0, .create, .enter 0, .enter 1, .enter 2, .enter 1, .close 0]
    let s := Counters.empty.run steps
    let ops : List (Operation Nat) :=
      [.enterScope, .inspect (.peek 3 2 false), .change (.add .memoryRead ⟨0, 9, false⟩),
        .enterScope, .enterScope, .inspect (.disassemble 7 8), .leaveScope]
    let g := (Idle.host.run ops).1
    (∀ p, p <+: steps → ∀ handle, (Counters.empty.run p).alive handle < 2 ^ 32) ∧
      s.depth 0 = ⟨2⟩ ∧ s.depth 1 = ⟨2⟩ ∧ s.depth 2 = ⟨1⟩ ∧
      (s.step (.close 1)).depth 0 = s.depth 0 ∧
      Idle.host.Fresh {} ∧ ScopesFit ops ∧ g.session.depth = ⟨2⟩ ∧
      (g.sighting (.event (.memoryRead 5))).memory = [⟨5, ⟨2⟩⟩] ∧
      (g.sighting (.inspect (.peek 0xFFFFF 2 false))).memory = [⟨0xFFFFF, ⟨3⟩⟩, ⟨0, ⟨3⟩⟩] := by
  intro steps s ops g
  have hfew : ∀ p, p <+: steps → ∀ handle, (Counters.empty.run p).alive handle < 2 ^ 32 := by
    intro p hp handle
    have hlength : p.length ≤ 8 := hp.length_le
    have halive := Counters.alive_run_le_length p handle
    omega
  have hfit : ScopesFit ops := scopesFit_of_length_lt (show 7 < 2 ^ 32 by omega)
  obtain ⟨hcounters, hsessions⟩ :=
    depth_counts_open_scopes (κ := Nat) (δ := Idle) (β := Idle) (ρ := Idle) (σ := Idle)
  obtain ⟨hdepth, hother⟩ := hcounters steps hfew
  have hg : (Idle.host.run ops).1 = g := rfl
  have hk : held ops = 2 := by decide
  have hsession := hsessions {} Idle.host Idle.fresh ops hfit
  rw [hg, hk] at hsession
  obtain ⟨hheld, hread, -, hinside⟩ := hsession
  obtain ⟨hpeek, -⟩ := hinside (by omega)
  have hlevel : ∀ handle n, s.alive handle = n → s.depth handle = ⟨n⟩ := by
    rintro handle n rfl
    exact congrArg Depth.mk (hdepth handle).1
  refine ⟨hfew, hlevel 0 2 rfl, hlevel 1 2 rfl, hlevel 2 1 rfl, ?_, Idle.fresh, hfit,
    hheld, (hread 5).memory, (hpeek 0xFFFFF 2 false).memory.trans (by decide)⟩
  exact hother (.close 1) 0 0 rfl (by decide)

end V30Probe
