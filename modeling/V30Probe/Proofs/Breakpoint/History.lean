import Mathlib.Algebra.Order.Ring.Nat
import V30Probe.Proofs.History
import V30Probe.Proofs.Session.Actions

/-! The breakpoint table as a record of what was added and cleared: each category by itself. -/

namespace V30Probe

variable {κ δ β ρ σ : Type}

/-- What can be done to a table. -/
inductive TableStep where
  | add (category : Category) (breakpoint : Breakpoint)
  | clear (category : Category)
  deriving DecidableEq, Repr

namespace TableStep

def category : TableStep → Category
  | .add c _ => c
  | .clear c => c

def added? (c : Category) : TableStep → Option Breakpoint
  | .add d b => if d = c then some b else none
  | .clear _ => none

end TableStep

namespace BreakpointTable

variable {t : BreakpointTable} {steps : List TableStep} {c : Category}

def step (t : BreakpointTable) : TableStep → BreakpointTable
  | .add c b => t.add c b
  | .clear c => t.clear c

def run (t : BreakpointTable) (steps : List TableStep) : BreakpointTable :=
  steps.foldl step t

/-- The breakpoints added to a category after it was last cleared. -/
def inForce (c : Category) (steps : List TableStep) : List Breakpoint :=
  (History.since (fun x => x == .clear c) steps).filterMap (TableStep.added? c)

/-- The steps that name the category. -/
def within (c : Category) (steps : List TableStep) : List TableStep :=
  steps.filter fun x => x.category = c

theorem run_concat (t : BreakpointTable) (steps : List TableStep) (x : TableStep) :
    t.run (steps ++ [x]) = (t.run steps).step x := by
  simp [run]

theorem inForce_concat (c : Category) (steps : List TableStep) (x : TableStep) :
    inForce c (steps ++ [x]) =
      if x = .clear c then [] else inForce c steps ++ (x.added? c).toList := by
  rw [inForce, History.filterMap_since_concat]
  simp only [beq_iff_eq]
  rfl

/-- One step does to the list of a category what it does to the history. -/
theorem list_step (h : t.list c = inForce c steps) (x : TableStep) :
    (t.step x).list c = inForce c (steps ++ [x]) := by
  rw [inForce_concat]
  cases x with
  | add d b =>
    rw [step, list_add, h]
    by_cases hd : d = c <;> simp [TableStep.added?, hd]
  | clear d =>
    rw [step, list_clear, h]
    by_cases hd : d = c <;> simp [TableStep.added?, hd]

/-- A table that holds what some steps say holds, after more, what all of them say. -/
theorem list_run_append (h : t.list c = inForce c steps) (more : List TableStep) :
    (t.run more).list c = inForce c (steps ++ more) := by
  induction more using List.reverseRecOn with
  | nil => rwa [List.append_nil]
  | append_singleton more x ih =>
    rw [run_concat, ← List.append_assoc]
    exact list_step ih x

theorem list_run (steps : List TableStep) (c : Category) :
    (empty.run steps).list c = inForce c steps := by
  have hempty : empty.list c = inForce c [] := list_empty c
  exact list_run_append hempty steps

/-- Steps that name another category do not count. -/
theorem inForce_within (c : Category) (steps : List TableStep) :
    inForce c (within c steps) = inForce c steps := by
  induction steps using List.reverseRecOn with
  | nil => rfl
  | append_singleton steps x ih =>
    rw [inForce_concat, ← ih, within, List.filter_append]
    by_cases hx : x.category = c
    · have hs : [x].filter (fun x => x.category = c) = [x] := by simp [hx]
      rw [hs, inForce_concat]
      rfl
    · have hs : [x].filter (fun x => x.category = c) = [] := by simp [hx]
      have hclear : x ≠ .clear c := by
        rintro rfl
        exact hx rfl
      have hadd : x.added? c = none := by
        cases x with
        | add d b => exact if_neg hx
        | clear d => rfl
      rw [hs, List.append_nil, if_neg hclear, hadd, Option.toList_none, List.append_nil]
      rfl

/-- The order matters within each category only. -/
theorem run_eq_of_within_eq {steps' : List TableStep}
    (h : ∀ c, within c steps' = within c steps) : empty.run steps' = empty.run steps := by
  apply ext
  intro c
  rw [list_run, list_run, ← inForce_within, h c, inForce_within]

/-- The table holds and answers what the steps say. -/
structure Follows (t : BreakpointTable) (steps : List TableStep) : Prop where
  list : ∀ c, t.list c = inForce c steps
  hits : ∀ c a, t.hits c a ↔ ∃ b ∈ inForce c steps,
    if c = .portRead ∨ c = .portWrite then
      b.low.toNat % 256 ≤ a.toNat % 256 ∧ a.toNat % 256 ≤ b.high.toNat % 256
    else b.low.toNat ≤ a.toNat ∧ a.toNat ≤ b.high.toNat
  hasAny : ∀ c, t.hasAny c ↔ inForce c steps ≠ []
  isEmpty : t.isEmpty ↔ ∀ c, inForce c steps = []
  size : t.size = (Category.all.map fun c => (inForce c steps).length).sum

/-- Everything that a table answers is told by its lists. -/
theorem follows_of_list (h : ∀ c, t.list c = inForce c steps) : t.Follows steps where
  list := h
  hits c a := by
    rw [BreakpointTable.hits, List.any_eq_true, h c]
    apply exists_congr
    intro b
    apply and_congr_right
    intro _
    rw [Breakpoint.catches]
    simp only [Category.isPort_iff]
    split
    · exact b.coversPort_iff a
    · exact b.covers_iff a
  hasAny c := by
    rw [BreakpointTable.hasAny, h c]
    simp
  isEmpty := by
    simp [BreakpointTable.isEmpty, h, Category.mem_all]
  size := by
    simp [BreakpointTable.size, toList, List.length_flatMap, h]

end BreakpointTable

/-- What an operation does to the table. -/
def Operation.tableStep? : Operation κ → Option TableStep
  | .change (.add c b) => some (.add c b)
  | .change (.clear c) => some (.clear c)
  | _ => none

theorem Session.breakpoints_change (s : Session κ δ) (c : Change κ) :
    (s.change c).1.breakpoints = s.breakpoints.run (Operation.change c).tableStep?.toList := by
  cases c <;> rfl

namespace Host

variable [Listing.Decoder δ] [Bus β] [Register.CpuRegisters ρ] [Register.SystemRegisters σ]

theorem breakpoints_perform (h : Host κ δ β ρ σ) (op : Operation κ) :
    (h.perform op).1.session.breakpoints =
      h.session.breakpoints.run op.tableStep?.toList := by
  cases op with
  | change c => exact h.session.breakpoints_change c
  | event e =>
    obtain ⟨branches, continuous, pending, he⟩ := h.session.event_fst e
    rw [perform_event, he]
    rfl
  | inspect i =>
    obtain ⟨depth, disassembler, hi⟩ := h.session_inspect i
    rw [perform, hi]
    rfl
  | _ => rfl

/-- The table of a session goes through the adds and clears among the operations. -/
theorem breakpoints_run (h : Host κ δ β ρ σ) (ops : List (Operation κ)) :
    (h.run ops).1.session.breakpoints =
      h.session.breakpoints.run (ops.filterMap Operation.tableStep?) := by
  induction ops generalizing h with
  | nil => rfl
  | cons op ops ih =>
    rw [run_cons, ih, breakpoints_perform]
    cases hop : op.tableStep? with
    | none => rw [List.filterMap_cons_none hop]; rfl
    | some x => rw [List.filterMap_cons_some hop]; rfl

end Host

variable [Listing.Decoder δ] [Bus β] [Register.CpuRegisters ρ] [Register.SystemRegisters σ]

/-- After any adds and clears the table holds, for each category, what was added after the last
clear of it, and answers accordingly. Steps in another order leave the same table if those of each
category keep theirs. The table of a session is the one that its adds and clears leave, whatever
else it is used for. -/
theorem table_follows_history (steps : List TableStep) :
    let t := BreakpointTable.empty.run steps
    t.Follows steps ∧
      (∀ steps', (∀ c, BreakpointTable.within c steps' = BreakpointTable.within c steps) →
        BreakpointTable.empty.run steps' = t) ∧
      ∀ (sizes : Sizes) (h : Host κ δ β ρ σ), h.Fresh sizes → ∀ ops,
        ops.filterMap Operation.tableStep? = steps → (h.run ops).1.session.breakpoints = t := by
  intro t
  refine ⟨BreakpointTable.follows_of_list (BreakpointTable.list_run steps), ?_, ?_⟩
  · intro steps' hwithin
    exact BreakpointTable.run_eq_of_within_eq hwithin
  · intro sizes h hf ops hops
    obtain ⟨decoder, hs⟩ := hf.session_eq
    rw [h.breakpoints_run, hops, hs]
    rfl

/-- A clear between two adds of its category: amid steps of another category, after all of them, and
in a session that does other things as well. -/
theorem table_of_other_order :
    let steps : List TableStep :=
      [.add .portRead ⟨0x1F0, 0x2FF, true⟩, .add .memoryRead ⟨16, 31, false⟩, .clear .portRead,
        .add .memoryRead ⟨16, 31, false⟩, .add .portRead ⟨0x310, 0x120, false⟩]
    let steps' : List TableStep :=
      [.add .memoryRead ⟨16, 31, false⟩, .add .memoryRead ⟨16, 31, false⟩,
        .add .portRead ⟨0x1F0, 0x2FF, true⟩, .clear .portRead, .add .portRead ⟨0x310, 0x120, false⟩]
    let ops : List (Operation Nat) :=
      [.change (.add .portRead ⟨0x1F0, 0x2FF, true⟩), .event (.portRead 0xF4),
        .change (.add .memoryRead ⟨16, 31, false⟩), .inspect (.peek 0 4 false),
        .change (.clear .portRead), .change (.add .memoryRead ⟨16, 31, false⟩),
        .change (.setTracing true), .change (.add .portRead ⟨0x310, 0x120, false⟩)]
    (∀ c, BreakpointTable.within c steps' = BreakpointTable.within c steps) ∧
      Idle.host.Fresh {} ∧ ops.filterMap Operation.tableStep? = steps ∧
      BreakpointTable.empty.run steps' = (Idle.host.run ops).1.session.breakpoints ∧
      (Idle.host.run ops).1.session.breakpoints.list .memoryRead =
        [⟨16, 31, false⟩, ⟨16, 31, false⟩] ∧
      (Idle.host.run ops).1.session.breakpoints.hits .portRead 0xF15 := by
  intro steps steps' ops
  have hwithin : ∀ c, BreakpointTable.within c steps' = BreakpointTable.within c steps := by
    intro c
    cases c <;> rfl
  have hops : ops.filterMap Operation.tableStep? = steps := rfl
  obtain ⟨hfollows, hsame, hsession⟩ :=
    table_follows_history (κ := Nat) (δ := Idle) (β := Idle) (ρ := Idle) (σ := Idle) steps
  have htable := hsession {} Idle.host Idle.fresh ops hops
  refine ⟨hwithin, Idle.fresh, hops, (hsame steps' hwithin).trans htable.symm, ?_, ?_⟩
  · rw [htable, hfollows.list]
    rfl
  · rw [htable, hfollows.hits]
    decide

end V30Probe
