import V30Probe.Proofs.Session.Gated

/-! The gated interpreter and the host that hears of every event, in step for a whole run. They call
the callback alike, but for an instruction that is told of an earlier one's hit. -/

namespace V30Probe

open History

variable {κ δ β ρ σ : Type}

namespace History

/-- An instruction ends at `pc` with a callback that is told of a hit of an earlier instruction, and
there is no hit of its own. -/
def LateAt (pc : UInt32) (ops : List (Operation κ)) : Prop :=
  (registered ops).isSome ∧ Overdue ops ∧ ¬ Hit pc ops

/-- Some instruction of the history ends so, when `past` came before. -/
def LateFrom (past ops : List (Operation κ)) : Prop :=
  ∃ before pc after, ops = before ++ .event (.instruction pc) :: after ∧ LateAt pc (past ++ before)

variable {past ops : List (Operation κ)} {op : Operation κ}

theorem not_lateFrom_nil : ¬ LateFrom past [] := by
  rintro ⟨before, pc, after, h, -⟩
  simp at h

theorem lateFrom_cons :
    LateFrom past (op :: ops) ↔
      (∃ pc, op = .event (.instruction pc) ∧ LateAt pc past) ∨ LateFrom (past ++ [op]) ops := by
  constructor
  · rintro ⟨before, pc, after, h, hl⟩
    cases before with
    | nil =>
      obtain ⟨rfl, -⟩ := List.cons.inj h
      exact Or.inl ⟨pc, rfl, by simpa using hl⟩
    | cons x before =>
      obtain ⟨rfl, rfl⟩ := List.cons.inj h
      exact Or.inr ⟨before, pc, after, rfl, by simpa using hl⟩
  · rintro (⟨pc, rfl, hl⟩ | ⟨before, pc, after, rfl, hl⟩)
    · exact ⟨[], pc, ops, rfl, by simpa using hl⟩
    · exact ⟨op :: before, pc, after, rfl, by simpa using hl⟩

instance : Decidable (Watching ops) :=
  have : Decidable (∃ c, Populated c ops) :=
    decidable_of_iff (∃ c ∈ Category.all, Populated c ops) (by simp [Category.mem_all])
  inferInstanceAs (Decidable (_ ∨ _))

instance : Decidable (Overdue ops) :=
  inferInstanceAs (Decidable (Once _ _ ops))

instance {pc : UInt32} : Decidable (LateAt pc ops) :=
  inferInstanceAs (Decidable (_ ∧ _ ∧ _))

instance decidableLateFrom (past : List (Operation κ)) :
    (ops : List (Operation κ)) → Decidable (LateFrom past ops)
  | [] => .isFalse not_lateFrom_nil
  | op :: ops =>
    have := decidableLateFrom (past ++ [op]) ops
    have : Decidable (∃ pc, op = .event (.instruction pc) ∧ LateAt pc past) :=
      match op with
      | .event (.instruction pc) => decidable_of_iff (LateAt pc past) (by simp)
      | .event (.memoryRead _) | .event (.memoryWrite ..) | .event (.portRead _)
      | .event (.portWrite ..) | .event (.branch _) => .isFalse (by simp)
      | .change _ | .inspect _ | .enterScope | .leaveScope | .write .. | .writePort .. =>
        .isFalse (by simp)
    decidable_of_iff _ lateFrom_cons.symm

end History

namespace Interpreter

variable {i : Interpreter κ δ β ρ σ} {h : Host κ δ β ρ σ} {past : List (Operation κ)}
  {op : Operation κ} {pc : UInt32}

/-- The interpreter runs in step with a host that hears of every event. What it holds pending may
stem from an earlier instruction, and it may have begun to report every instruction before. -/
structure Alongside (i : Interpreter κ δ β ρ σ) (h : Host κ δ β ρ σ) (past : List (Operation κ)) :
    Prop where
  same : i = beside h i.host.session.pending i.host.session.continuous
  tracks : Tracks h.session past
  pending : i.host.session.pending ↔ Overdue past
  ahead : (registered past).isSome → h.session.continuous → i.host.session.continuous

/-- Both report every instruction, or neither does. -/
def Level (i : Interpreter κ δ β ρ σ) (h : Host κ δ β ρ σ) (past : List (Operation κ)) : Prop :=
  (registered past).isSome → i.host.session.continuous = h.session.continuous

theorem Alongside.exists_beside (ha : Alongside i h past) :
    ∃ p c, i = beside h p c ∧ (p ↔ Overdue past) ∧
      ((registered past).isSome → h.session.continuous → c) :=
  ⟨_, _, ha.same, ha.pending, ha.ahead⟩

theorem Alongside.hitAt_iff (ha : Alongside i h past) (pc : UInt32) :
    i.host.session.hitAt pc ↔ Overdue past ∨ Covered .pc pc past := by
  obtain ⟨p, c, rfl, hp, -⟩ := ha.exists_beside
  have hcov := ha.tracks.hits_iff .pc pc
  rw [← hp, ← hcov]
  exact Bool.or_eq_true_iff

theorem Alongside.hitAt_of_hit (ha : Alongside i h past) (hh : h.session.hitAt pc) :
    i.host.session.hitAt pc := by
  apply (ha.hitAt_iff pc).mpr
  rcases (ha.tracks.hit_iff pc).mp hh with hc | hs
  · exact Or.inr hc
  · exact Or.inl (overdue_of_struck hs)

/-- An instruction is told of an earlier one's hit if the interpreter reports one and the host
does not. -/
theorem Alongside.lateAt_iff (ha : Alongside i h past) :
    LateAt pc past ↔
      (registered past).isSome ∧ i.host.session.hitAt pc ∧ ¬ h.session.hitAt pc := by
  have hhit : h.session.hitAt pc ↔ Hit pc past := ha.tracks.hit_iff pc
  rw [ha.hitAt_iff pc, hhit]
  constructor
  · rintro ⟨hk, ho, hn⟩
    exact ⟨hk, Or.inl ho, hn⟩
  · rintro ⟨hk, ho | hc, hn⟩
    · exact ⟨hk, ho, hn⟩
    · exact absurd (Or.inl hc) hn

theorem Alongside.hitAt_eq (ha : Alongside i h past) (hn : ¬ LateAt pc past)
    (hk : (registered past).isSome) : i.host.session.hitAt pc = h.session.hitAt pc := by
  apply Bool.eq_iff_iff.mpr
  constructor
  · intro hi
    by_contra hh
    exact hn (ha.lateAt_iff.mpr ⟨hk, hi, hh⟩)
  · exact ha.hitAt_of_hit

/-- At the start both are in the state of a session with no history. -/
theorem alongside_attach {sizes : Sizes} {decoder : δ} {s : Session κ δ} {started : List (Action κ)}
    (hs : Session.start sizes decoder = .ok (s, started)) (bus : β) (cpu : ρ) (system : σ) :
    let h : Host κ δ β ρ σ := ⟨s, bus, cpu, system⟩
    Alongside (attach h started) h [] ∧ Level (attach h started) h [] := by
  intro h
  have ht : Tracks h.session [] := tracks_start hs
  have hw : obey .detached started = s.wiring := by
    have hr := (Session.start_eq_ok_iff.mp hs).2
    have ho := obey_rewire .detached (Session.setUp sizes decoder : Session κ δ)
    rwa [hr] at ho
  refine ⟨⟨congrArg (Interpreter.mk h) hw, ht, ?_, fun _ => id⟩, fun _ => rfl⟩
  exact ht.pending.trans (iff_of_false not_once_nil not_once_nil)

variable [Listing.Decoder δ] [Bus β] [Register.CpuRegisters ρ] [Register.SystemRegisters σ]

theorem effects_cons (i : Interpreter κ δ β ρ σ) (op : Operation κ) (ops : List (Operation κ)) :
    i.effects (op :: ops) = (i.perform op).2.actions ++ (i.perform op).1.effects ops := rfl

/-- A callback that is registered anew is told at once whether to hear of every instruction. -/
theorem latch_of_not_boundary {c : Bool} {r : Bool → Bool → Prop} (hr : ∀ b, r b b)
    (hb : op.isBoundary = false) (hc : (registered past).isSome → r h.session.continuous c) :
    (registered (past ++ [op])).isSome →
      r (h.perform op).1.session.continuous ((op.callbackSet?.map Prod.snd).getD c) := by
  intro hk
  rw [registered_concat] at hk
  rw [h.continuous_perform hb]
  cases hs : op.callbackSet? with
  | none =>
    rw [hs] at hk
    exact hc hk
  | some x => exact hr x.2

/-- Between ends of instructions both do the same, and stay in step. -/
theorem Alongside.not_boundary (ha : Alongside i h past) (hb : op.isBoundary = false) :
    Alongside (i.perform op).1 (h.perform op).1 (past ++ [op]) ∧
      (i.perform op).2 = (h.perform op).2 ∧
      (Level i h past → Level (i.perform op).1 (h.perform op).1 (past ++ [op])) := by
  obtain ⟨p, c, rfl, hp, hc⟩ := ha.exists_beside
  obtain ⟨q, hs, hq⟩ := perform_beside_of_not_boundary (c := c) ha.tracks hp hb
  rw [hs]
  refine ⟨⟨rfl, ha.tracks.perform op, hq, ?_⟩, rfl, ?_⟩
  · exact latch_of_not_boundary (r := fun x y => x → y) (fun _ => id) hb hc
  · intro hl
    exact latch_of_not_boundary (r := fun x y => y = x) (fun _ => rfl) hb hl

/-- At the end of an instruction both stay in step, and each calls by its own latches. -/
theorem Alongside.boundary (ha : Alongside i h past) (pc : UInt32) :
    let op := Operation.event (Event.instruction pc)
    Alongside (i.perform op).1 (h.perform op).1 (past ++ [op]) ∧
      (i.perform op).2.reply = (h.perform op).2.reply ∧
      Action.calls (h.perform op).2.actions =
        reports (registered past) pc h.session.continuous (h.session.hitAt pc) ∧
      Action.calls (i.perform op).2.actions =
        reports (registered past) pc i.host.session.continuous (i.host.session.hitAt pc) ∧
      ((registered past).isSome →
        (i.perform op).1.host.session.continuous =
          (i.host.session.continuous || i.host.session.hitAt pc)) := by
  intro op
  have hown : h.session.hitAt pc → i.host.session.hitAt pc := ha.hitAt_of_hit
  have hahead := ha.ahead
  obtain ⟨p, c, rfl, hp, -⟩ := ha.exists_beside
  obtain ⟨q, d, hs, hq, hreply, hcalls, hd⟩ := perform_beside_boundary (c := c) ha.tracks hp pc
  have hr : registered (past ++ [op]) = registered past := registered_of_not_change rfl
  refine ⟨⟨?_, ha.tracks.perform op, ?_, ?_⟩, hreply, ?_, hcalls, ?_⟩
  · rw [hs]
    rfl
  · rw [hs]
    exact hq
  · rw [hs, hr]
    intro hk hcont
    have hlatch : h.session.continuous ∨ h.session.hitAt pc := Bool.or_eq_true_iff.mp hcont
    rw [hd hk]
    exact Bool.or_eq_true_iff.mpr (hlatch.imp (hahead hk) hown)
  · rw [← ha.tracks.callback]
    exact h.session.calls_boundary_eq_reports pc
  · rw [hs]
    exact hd

/-- One operation keeps the two in step, with the same answer and no fewer calls. -/
theorem Alongside.perform (ha : Alongside i h past) (op : Operation κ) :
    Alongside (i.perform op).1 (h.perform op).1 (past ++ [op]) ∧
      (i.perform op).2.reply = (h.perform op).2.reply ∧
      (Action.calls (h.perform op).2.actions).length ≤
        (Action.calls (i.perform op).2.actions).length := by
  cases hb : op.isBoundary with
  | false =>
    obtain ⟨hnext, heq, -⟩ := ha.not_boundary hb
    exact ⟨hnext, congrArg Outcome.reply heq, by rw [heq]⟩
  | true =>
    obtain ⟨pc, rfl⟩ := op.isBoundary_iff.mp hb
    obtain ⟨hnext, hreply, hfull, hgated, -⟩ := ha.boundary pc
    refine ⟨hnext, hreply, ?_⟩
    rw [hfull, hgated]
    exact reports_length_le ha.ahead ha.hitAt_of_hit

/-- From level latches, an operation that is not late makes the same calls and keeps them level. -/
theorem Alongside.perform_level (ha : Alongside i h past) (hl : Level i h past)
    (hn : ∀ pc, op = .event (.instruction pc) → ¬ LateAt pc past) :
    Level (i.perform op).1 (h.perform op).1 (past ++ [op]) ∧
      Action.calls (i.perform op).2.actions = Action.calls (h.perform op).2.actions := by
  cases hb : op.isBoundary with
  | false =>
    obtain ⟨-, heq, hlevel⟩ := ha.not_boundary hb
    exact ⟨hlevel hl, by rw [heq]⟩
  | true =>
    obtain ⟨pc, rfl⟩ := op.isBoundary_iff.mp hb
    obtain ⟨-, -, hfull, hgated, hlatch⟩ := ha.boundary pc
    have hhit := ha.hitAt_eq (hn pc rfl)
    constructor
    · intro hk
      rw [registered_of_not_change rfl] at hk
      rw [hlatch hk, hl hk, hhit hk]
      rfl
    · rw [hfull, hgated]
      exact reports_congr hl hhit

/-- The answers are the same over a whole run, and the interpreter makes no fewer calls. -/
theorem Alongside.run (ha : Alongside i h past) (ops : List (Operation κ)) :
    Alongside (i.run ops).1 (h.run ops).1 (past ++ ops) ∧
      (i.run ops).2.map Outcome.reply = (h.run ops).2.map Outcome.reply ∧
      (Action.calls (h.effects ops)).length ≤ (Action.calls (i.effects ops)).length := by
  induction ops generalizing i h past with
  | nil =>
    refine ⟨?_, rfl, Nat.le_refl 0⟩
    rw [List.append_nil]
    exact ha
  | cons op ops ih =>
    obtain ⟨hnext, hreply, hlen⟩ := ha.perform op
    obtain ⟨hend, hreplies, hlens⟩ := ih hnext
    refine ⟨?_, ?_, ?_⟩
    · rwa [List.append_assoc] at hend
    · exact congrArg₂ List.cons hreply hreplies
    · rw [Host.effects_cons, effects_cons, Action.calls_append, Action.calls_append,
        List.length_append, List.length_append]
      omega

/-- Over a whole run from level latches the calls are the same just if no instruction is late. -/
theorem Alongside.calls_run (ha : Alongside i h past) (hl : Level i h past)
    (ops : List (Operation κ)) :
    Action.calls (i.effects ops) = Action.calls (h.effects ops) ↔ ¬ LateFrom past ops := by
  induction ops generalizing i h past with
  | nil => exact iff_of_true rfl not_lateFrom_nil
  | cons op ops ih =>
    obtain ⟨hnext, -, -⟩ := ha.perform op
    have hlens := (hnext.run ops).2.2
    rw [Host.effects_cons, effects_cons, Action.calls_append, Action.calls_append, lateFrom_cons]
    by_cases hlate : ∃ pc, op = .event (.instruction pc) ∧ LateAt pc past
    · -- the interpreter calls with a hit, and the host cannot catch up
      obtain ⟨pc, rfl, hat⟩ := hlate
      obtain ⟨-, -, hfull, hgated, -⟩ := ha.boundary pc
      obtain ⟨hk, hown, hhit⟩ := ha.lateAt_iff.mp hat
      rw [hfull, hgated, hown, eq_false_of_ne_true hhit]
      apply iff_of_false (reports_append_ne hk hlens)
      intro hno
      exact hno (Or.inl ⟨pc, rfl, hat⟩)
    · have hn : ∀ pc, op = .event (.instruction pc) → ¬ LateAt pc past := by
        intro pc hop hat
        exact hlate ⟨pc, hop, hat⟩
      obtain ⟨hlevel, hcalls⟩ := ha.perform_level hl hn
      have hrest := ih hnext hlevel
      rw [hcalls, List.append_cancel_left_eq, hrest]
      tauto

end Interpreter

variable [Listing.Decoder δ] [Bus β] [Register.CpuRegisters ρ] [Register.SystemRegisters σ]

/-- Whether events are reported through installed slots only or all of them, the program reads the
same bytes, every look at the machine shows the same, and the trace is the same. The callback is
called alike just if no instruction ends with a hit that is not its own. -/
theorem gated_run_eq_iff {sizes : Sizes} {decoder : δ} {s : Session κ δ} {started : List (Action κ)}
    (hs : Session.start sizes decoder = .ok (s, started)) (bus : β) (cpu : ρ) (system : σ)
    (ops : List (Operation κ)) :
    let host : Host κ δ β ρ σ := ⟨s, bus, cpu, system⟩
    let gated := Interpreter.attach host started
    (gated.run ops).2.map Outcome.reply = (host.run ops).2.map Outcome.reply ∧
    (gated.run ops).1.host.session.branches.rows = (host.run ops).1.session.branches.rows ∧
    (Action.calls (gated.effects ops) = Action.calls (host.effects ops) ↔ ¬ LateFrom [] ops) := by
  intro host gated
  obtain ⟨ha, hl⟩ := Interpreter.alongside_attach hs bus cpu system
  obtain ⟨hend, hreplies, -⟩ := ha.run ops
  refine ⟨hreplies, ?_, ha.calls_run hl ops⟩
  obtain ⟨p, c, heq, -⟩ := hend.exists_beside
  rw [heq]
  rfl

/-- A hit that is reported in its own instruction is reported by both, though no breakpoint is left
when the instruction ends. -/
theorem gated_calls_of_clear :
    Session.start {} Idle.rest = .ok (Idle.session, [.install .detached]) ∧
      let ops : List (Operation Nat) := [.change (.setCallback (some 1) false),
        .change (.add .auxRead ⟨16, 31, false⟩), .event (.memoryRead 20),
        .change (.clear .auxRead), .event (.instruction 7)]
      Action.calls ((Interpreter.attach Idle.host [.install .detached]).effects ops) =
        Action.calls (Idle.host.effects ops) := by
  refine ⟨Idle.start_eq, ?_⟩
  intro ops
  have hn : ¬ LateFrom [] ops := by decide
  exact (gated_run_eq_iff Idle.start_eq Idle.rest Idle.rest Idle.rest ops).2.2.mpr hn

/-- A hit that is left pending when the last breakpoint goes, with no callback, is reported by the
gated interpreter to a callback that comes later. -/
theorem gated_calls_late :
    let ops : List (Operation Nat) := [.change (.add .memoryRead ⟨16, 16, false⟩),
      .event (.memoryRead 16), .change (.clear .memoryRead), .event (.instruction 0),
      .change (.setCallback (some 1) false), .event (.instruction 2)]
    Action.calls ((Interpreter.attach Idle.host [.install .detached]).effects ops) =
        [(1, 2, true)] ∧
      Action.calls (Idle.host.effects ops) = [] := by
  decide

end V30Probe
