import V30Probe.Proofs.Session.Tracks

/-! When the callback is called, told from the history alone. -/

namespace V30Probe

open History

variable {κ δ β ρ σ : Type} [Listing.Decoder δ] [Bus β] [Register.CpuRegisters ρ]
  [Register.SystemRegisters σ] {sizes : Sizes} {decoder : δ} {s : Session κ δ}
  {started : List (Action κ)}

/-- At the end of an instruction the registered callback is called once if the history latches it,
with the hit that the history tells. Nothing else calls it. Between two ends of instructions a hit
is pending just if an access tripped a breakpoint since the first of them. -/
theorem calls_follow_history (hs : Session.start sizes decoder = .ok (s, started)) (bus : β)
    (cpu : ρ) (system : σ) (ops : List (Operation κ)) :
    let h := ((Host.mk s bus cpu system).run ops).1
    (∀ pc, Action.calls (h.perform (.event (.instruction pc))).2.actions =
      if Latched (ops ++ [.event (.instruction pc)]) then
        (registered ops).toList.map fun k => (k, pc, decide (Hit pc ops))
      else []) ∧
    (∀ op : Operation κ, op.isBoundary = false → Action.calls (h.perform op).2.actions = []) ∧
    Action.calls started = [] ∧ Action.calls h.session.finish = [] ∧
    (h.session.pending ↔ Struck ops) := by
  intro h
  have ht : Tracks h.session ops := tracks_run_start hs bus cpu system ops
  refine ⟨fun pc => ?_, fun op hop => h.calls_perform hop, ?_, rfl, ht.pending⟩
  · have hc := (ht.boundary pc).continuous
    have hhit : (h.session.pending || h.session.breakpoints.hits .pc pc) = decide (Hit pc ops) :=
      Bool.eq_iff_iff.mpr ((ht.hit_iff pc).trans (decide_eq_true_iff).symm)
    have hcalls := h.session.calls_boundary pc
    rw [hhit, ht.callback] at hcalls
    simp only [hc] at hcalls
    exact hcalls
  · rw [Session.start_actions hs]
    rfl

/-- A hit outlives the breakpoint that it tripped. -/
theorem calls_after_clear :
    Session.start {} Idle.rest = .ok (Idle.session, [.install .detached]) ∧
      Action.calls ((Idle.host.run
        [.change (.setCallback (some 1) false), .change (.add .auxRead ⟨16, 31, false⟩),
          .event (.memoryRead 20), .change (.clear .auxRead)]).1.perform
        (.event (.instruction 7))).2.actions = [(1, 7, true)] := by
  refine ⟨rfl, ?_⟩
  have h := (calls_follow_history Idle.start_eq Idle.rest Idle.rest Idle.rest
    [.change (.setCallback (some 1) false), .change (.add .auxRead ⟨16, 31, false⟩),
      .event (.memoryRead 20), .change (.clear .auxRead)]).1 7
  exact h.trans (by decide)

end V30Probe
