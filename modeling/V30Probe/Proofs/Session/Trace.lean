import V30Probe.Proofs.Branch.RingLog
import V30Probe.Proofs.Session.Installs

/-! What the trace of a session shows, told from the history alone. -/

namespace V30Probe

open Branch History

variable {κ δ β ρ σ : Type} {ops : List (Operation κ)}

namespace Operation

/-- Whether tracing is switched off, which forgets the trace. -/
def stopsTracing (op : Operation κ) : Bool :=
  op.tracingSet? == some false

def branch? : Operation κ → Option Transition
  | .event (.branch t) => some t
  | _ => none

/-- What the operation does to the ring, with tracing on or off. -/
def ringStep? (on : Bool) : Operation κ → Option RingStep
  | .change (.setTracing on') => some (.setEnabled on')
  | .event (.branch t) => if on then some (.record t) else none
  | _ => none

end Operation

namespace History

/-- The branches that were taken while tracing was on, after it was last switched off. -/
def traced (ops : List (Operation κ)) : List Transition :=
  (since (fun m => m.2.stopsTracing) (moments ops)).filterMap fun m =>
    if tracing m.1 then m.2.branch? else none

/-- What the operations do to the ring, one after the other. -/
def ringSteps (ops : List (Operation κ)) : List RingStep :=
  (moments ops).filterMap fun m => m.2.ringStep? (tracing m.1)

theorem traced_concat (ops : List (Operation κ)) (op : Operation κ) :
    traced (ops ++ [op]) =
      if op.stopsTracing then []
      else traced ops ++ (if tracing ops then op.branch? else none).toList := by
  rw [traced, moments_concat]
  exact filterMap_since_concat _ _ (moments ops) (ops, op)

theorem ringSteps_concat (ops : List (Operation κ)) (op : Operation κ) :
    ringSteps (ops ++ [op]) = ringSteps ops ++ (op.ringStep? (tracing ops)).toList := by
  rw [ringSteps, moments_concat, List.filterMap_append]
  cases h : op.ringStep? (tracing ops) <;> simp [ringSteps, h]

theorem recorded_append_ringStep (steps : List RingStep) (on : Bool) (op : Operation κ) :
    recorded (steps ++ (op.ringStep? on).toList) =
      if op.stopsTracing then []
      else recorded steps ++ (if on then op.branch? else none).toList := by
  have hquiet (hring : op.ringStep? on = none) (hstop : op.stopsTracing = false)
      (hbranch : (if on then op.branch? else none) = none) :
      recorded (steps ++ (op.ringStep? on).toList) =
        if op.stopsTracing then []
        else recorded steps ++ (if on then op.branch? else none).toList := by
    simp [hring, hstop, hbranch]
  cases op with
  | change c =>
    cases c with
    | setTracing on' => cases on' <;> cases on <;> exact recorded_concat steps _
    | _ => exact hquiet rfl rfl (ite_self none)
  | event e =>
    cases e with
    | branch t =>
      cases on with
      | false => exact hquiet rfl rfl rfl
      | true => exact recorded_concat steps (.record t)
    | _ => exact hquiet rfl rfl (ite_self none)
  | _ => exact hquiet rfl rfl (ite_self none)

/-- What the ring is given and does not forget is what the history counts. -/
theorem recorded_ringSteps (ops : List (Operation κ)) : recorded (ringSteps ops) = traced ops := by
  induction ops using List.reverseRecOn with
  | nil => rfl
  | append_singleton ops op ih =>
    rw [ringSteps_concat, traced_concat, recorded_append_ringStep, ih]

/-- Nothing counts while tracing is off. -/
theorem traced_eq_nil (h : tracing ops = false) : traced ops = [] := by
  induction ops using List.reverseRecOn with
  | nil => rfl
  | append_singleton ops op ih =>
    rw [tracing_concat] at h
    rw [traced_concat, Operation.stopsTracing]
    cases hset : op.tracingSet? with
    | none =>
      have hoff : tracing ops = false := by simpa [hset] using h
      simp [hoff, ih hoff]
    | some on =>
      obtain rfl : on = false := by simpa [hset] using h
      rfl

/-- Once tracing is switched off, what was before does not count. -/
theorem traced_after_stop (xs ys common : List (Operation κ)) :
    tracing (xs ++ [.change (.setTracing false)] ++ common) =
        tracing (ys ++ [.change (.setTracing false)] ++ common) ∧
      traced (xs ++ [.change (.setTracing false)] ++ common) =
        traced (ys ++ [.change (.setTracing false)] ++ common) := by
  induction common using List.reverseRecOn with
  | nil =>
    rw [List.append_nil, List.append_nil, tracing_concat, tracing_concat, traced_concat,
      traced_concat]
    exact ⟨rfl, rfl⟩
  | append_singleton common op ih =>
    obtain ⟨hon, htraced⟩ := ih
    rw [← List.append_assoc, ← List.append_assoc, tracing_concat, tracing_concat, traced_concat,
      traced_concat, hon, htraced]
    exact ⟨rfl, rfl⟩

end History

variable [Listing.Decoder δ] [Bus β] [Register.CpuRegisters ρ] [Register.SystemRegisters σ]
  {h : Host κ δ β ρ σ} {sizes : Sizes}

namespace Host

theorem branches_perform (h : Host κ δ β ρ σ) (op : Operation κ) :
    (h.perform op).1.session.branches =
      h.session.branches.run (op.ringStep? h.session.branches.enabled).toList := by
  cases op with
  | change c => cases c <;> rfl
  | event e =>
    cases e with
    | branch t =>
      rw [perform_event, Session.event, Session.note, Operation.ringStep?]
      split <;> rfl
    | _ => rfl
  | inspect i =>
    obtain ⟨depth, disassembler, hi⟩ := h.session_inspect i
    rw [perform, hi]
    rfl
  | _ => rfl

/-- The ring of a session goes through the steps that the history tells. -/
theorem Fresh.branches_run (hf : h.Fresh sizes) (ops : List (Operation κ)) :
    (h.run ops).1.session.branches = (Ring.ofCapacity sizes.traceCapacity).run (ringSteps ops) := by
  induction ops using List.reverseRecOn with
  | nil =>
    obtain ⟨decoder, hs⟩ := hf.session_eq
    rw [run_nil, hs]
    rfl
  | append_singleton ops op ih =>
    rw [run_concat_fst, branches_perform, (hf.tracks ops).tracing, ih, ringSteps_concat, Ring.run,
      Ring.run, Ring.run, List.foldl_append]

theorem Fresh.keeps (hf : h.Fresh sizes) (ops : List (Operation κ)) :
    (h.run ops).1.session.branches.Keeps (Runs.ofList (traced ops)) := by
  rw [hf.branches_run, ← recorded_ringSteps]
  exact Ring.keeps_run _ _

theorem Fresh.capacity (hf : h.Fresh sizes) (ops : List (Operation κ)) :
    (h.run ops).1.session.branches.capacity = sizes.traceCapacity := by
  have hsize := sizes.check_eq_ok_iff.mp hf.check .traceCapacity
  rw [hf.branches_run, Ring.capacity_run, Ring.capacity_ofCapacity]
  exact max_eq_left hsize.1

/-- The rows are those of the last runs that the history counts. -/
theorem Fresh.rows (hf : h.Fresh sizes) (ops : List (Operation κ)) :
    (h.run ops).1.session.branches.rows =
      ((Runs.ofList (traced ops)).rtake sizes.traceCapacity).map Run.row := by
  rw [Ring.rows, (hf.keeps ops).runs, hf.capacity]

end Host

/-- A session of valid sizes starts. After any operations it shows the last runs of what was recorded
while tracing was on and after it was last switched off, as many as its capacity. While tracing is
off the ring is as it was made. Sessions of the same sizes that have just switched tracing off show
the same from then on, whatever went before. Switching tracing on again changes nothing. -/
theorem trace_follows_history (hv : sizes.check = .ok ()) :
    let ring := fun (h : Host κ δ β ρ σ) ops => (h.run ops).1.session.branches
    let shown := fun (h : Host κ δ β ρ σ) ops =>
      ((h.run ops).1.perform (.inspect .branches)).2.reply
    (∀ decoder : δ, ∃ (s : Session κ δ) (started : List (Action κ)),
      Session.start sizes decoder = .ok (s, started)) ∧
    ∀ h : Host κ δ β ρ σ, h.Fresh sizes →
      (∀ ops, ∃ rs, Runs.Encodes rs (traced ops) ∧
        (∀ rs', Runs.Encodes rs' (traced ops) → rs' = rs) ∧
        shown h ops = .rows ((rs.rtake sizes.traceCapacity).map Run.row)) ∧
      (∀ ops, (ring h ops).enabled = false → (ring h ops).writeIndex = 0 ∧
        (ring h ops).entries = List.replicate sizes.traceCapacity Entry.blank) ∧
      (∀ g : Host κ δ β ρ σ, g.Fresh sizes → ∀ xs ys common,
        shown h (xs ++ [.change (.setTracing false)] ++ common) =
          shown g (ys ++ [.change (.setTracing false)] ++ common)) ∧
      ∀ ops, (ring h ops).enabled → ring h (ops ++ [.change (.setTracing true)]) = ring h ops := by
  intro ring shown
  have hshown : ∀ (h : Host κ δ β ρ σ), h.Fresh sizes → ∀ ops, shown h ops =
      .rows (((Runs.ofList (traced ops)).rtake sizes.traceCapacity).map Run.row) := by
    intro h hf ops
    exact congrArg Reply.rows (hf.rows ops)
  refine ⟨fun decoder => ?_, fun h hf => ⟨fun ops => ?_, fun ops hoff => ?_, ?_, fun ops hon => ?_⟩⟩
  · exact ⟨_, _, Session.start_eq_ok_iff.mpr ⟨hv, rfl⟩⟩
  · exact ⟨Runs.ofList (traced ops), Runs.encodes_ofList _, fun _ he => he.eq_ofList,
      hshown h hf ops⟩
  · have hk := hf.keeps ops
    have htracing : tracing ops = false := (hf.tracks ops).tracing.symm.trans hoff
    rw [traced_eq_nil htracing] at hk
    rw [← hf.capacity ops]
    exact hk.pristine
  · intro g hg xs ys common
    rw [hshown h hf, hshown g hg, (traced_after_stop xs ys common).2]
  · have hstep : ring h (ops ++ [.change (.setTracing true)]) = (ring h ops).setEnabled true :=
      congrArg (fun h : Host κ δ β ρ σ => h.session.branches) (h.run_concat_fst ops _)
    rw [hstep, Ring.setEnabled, if_pos rfl, ← hon]

/-- Of two slots the oldest run is gone; branches before tracing is on, and before it was switched
off, were never there. -/
theorem trace_of_two_slots :
    let sizes : Sizes := ⟨2, 256, 40⟩
    let t := fun n : UInt16 => (⟨⟨0, n⟩, ⟨0xF000, 0⟩, true⟩ : Transition)
    let branch := fun n : UInt16 => Operation.event (κ := Nat) (.branch (t n))
    let h : Host Nat Idle Idle Idle Idle :=
      ⟨(Session.setUp sizes .rest).rewire.1, .rest, .rest, .rest⟩
    let past := [branch 9, .change (.setTracing true), branch 8]
    let common := [branch 7, .change (.setTracing true), branch 1, branch 2, branch 2, branch 2,
      branch 3]
    let ring := fun ops => (h.run ops).1.session.branches
    let shown := fun ops => ((h.run ops).1.perform (.inspect .branches)).2.reply
    sizes.check = .ok () ∧ h.Fresh sizes ∧
      shown (past ++ [.change (.setTracing false)] ++ common) =
        .rows [⟨"0000:0002", "F000:0000", "INT", 3⟩, ⟨"0000:0003", "F000:0000", "INT", 1⟩] ∧
      shown (past ++ [.change (.setTracing false)] ++ common) =
        shown ([] ++ [.change (.setTracing false)] ++ common) ∧
      (ring (past ++ [.change (.setTracing false)])).entries = [Entry.blank, Entry.blank] ∧
      ring (past ++ [.change (.setTracing true)]) = ring past := by
  intro sizes t branch h past common ring shown
  have hv : sizes.check = .ok () := rfl
  have hf : h.Fresh sizes := ⟨.rest, [.install .detached], rfl⟩
  obtain ⟨hrows, hoff, hsame, hon⟩ := (trace_follows_history hv).2 h hf
  obtain ⟨rs, -, hone, hshown⟩ := hrows (past ++ [.change (.setTracing false)] ++ common)
  have hruns : Runs.ofList (traced (past ++ [.change (.setTracing false)] ++ common)) =
      [⟨t 1, 1⟩, ⟨t 2, 3⟩, ⟨t 3, 1⟩] := by decide
  rw [← hone _ (Runs.encodes_ofList _), hruns] at hshown
  refine ⟨hv, hf, hshown.trans ?_, ?_, ?_, ?_⟩
  · decide
  · exact hsame h hf past [] common
  · exact (hoff _ rfl).2
  · exact hon past rfl

end V30Probe
