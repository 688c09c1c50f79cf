import V30Probe.Depth.Counters
import Mathlib.Data.List.Perm.Basic
import Mathlib.Data.List.Induction

/-! Each depth counter shows how many scopes are open on it, in whatever order they are closed. -/

namespace V30Probe

/-- What can be done with counters, handles and scopes. -/
inductive CounterStep where
  | create
  | copy (handle : Nat)
  | enter (handle : Nat)
  | close (place : Nat)
  deriving DecidableEq, Repr

namespace Counters

variable {s : Counters} {c handle : Nat}

def step (s : Counters) : CounterStep → Counters
  | .create => s.create.2
  | .copy handle => (s.copy handle).2
  | .enter handle => s.enter handle
  | .close place => s.close place

def run (s : Counters) (steps : List CounterStep) : Counters :=
  steps.foldl step s

/-- The counter that a step moves. -/
def moved? (s : Counters) : CounterStep → Option Nat
  | .create | .copy _ => none
  | .enter handle => s.handles[handle]?
  | .close place => s.scopes[place]?

/-- Every counter shows how many scopes are open on it. -/
structure Counted (s : Counters) : Prop where
  named : ∀ c ∈ s.handles, c < s.levels.size
  owned : ∀ c ∈ s.scopes, c ∈ s.handles
  level : ∀ c d, s.levels[c]? = some d → d.level = s.scopes.count c

theorem run_concat (s : Counters) (steps : List CounterStep) (x : CounterStep) :
    s.run (steps ++ [x]) = (s.run steps).step x := by
  simp [run]

theorem alive_of_handle (h : s.handles[handle]? = some c) : s.alive handle = s.scopes.count c := by
  simp [alive, h]

theorem depth_of_handle {d : Depth} (h : s.handles[handle]? = some c) (hd : s.levels[c]? = some d) :
    s.depth handle = d := by
  simp [depth, h, hd]

theorem copy_of_handle (h : s.handles[handle]? = some c) :
    (s.copy handle).2 = { s with handles := s.handles.push c } := by
  simp [copy, h]

theorem enter_of_handle (h : s.handles[handle]? = some c) :
    s.enter handle =
      { s with levels := s.levels.modify c Depth.enter, scopes := s.scopes ++ [c] } := by
  simp [enter, h]

theorem close_of_scope {place : Nat} (h : s.scopes[place]? = some c) :
    s.close place =
      { s with levels := s.levels.modify c Depth.leave, scopes := s.scopes.eraseIdx place } := by
  simp [close, h]

/-- A counter is the one that was moved, or as it was. -/
theorem levels_modify_cases {f : Depth → Depth} {c' : Nat} {d : Depth}
    (hd : (s.levels.modify c f)[c']? = some d) :
    (c = c' ∧ ∃ d', s.levels[c]? = some d' ∧ f d' = d) ∨ (c ≠ c' ∧ s.levels[c']? = some d) := by
  rw [Array.getElem?_modify] at hd
  by_cases hc : c = c'
  · rw [if_pos hc, ← hc] at hd
    exact Or.inl ⟨hc, Option.map_eq_some_iff.mp hd⟩
  · rw [if_neg hc] at hd
    exact Or.inr ⟨hc, hd⟩

theorem counted_empty : empty.Counted := by
  constructor <;> simp [empty]

/-- No scope is open on a counter that no handle names. -/
theorem Counted.count_eq_zero (h : Counted s) (hc : s.levels.size ≤ c) : s.scopes.count c = 0 := by
  rw [List.count_eq_zero]
  intro hmem
  have := h.named c (h.owned c hmem)
  omega

theorem Counted.create (h : Counted s) : Counted s.create.2 where
  named c hc := by
    rcases Array.mem_push.mp hc with hc | rfl
    · have := h.named c hc
      simp only [Counters.create, Array.size_push]
      omega
    · simp [Counters.create]
  owned c hc := Array.mem_push.mpr (Or.inl (h.owned c hc))
  level c d hd := by
    have hp : (s.levels.push .zero)[c]? = some d := hd
    rw [Array.getElem?_push] at hp
    split at hp
    · rename_i hsize
      obtain rfl : Depth.zero = d := Option.some.inj hp
      exact (h.count_eq_zero (Nat.le_of_eq hsize.symm)).symm
    · exact h.level c d hp

theorem Counted.copy (h : Counted s) (handle : Nat) : Counted (s.copy handle).2 := by
  cases hh : s.handles[handle]? with
  | none =>
    rw [Counters.copy, hh]
    exact h
  | some c =>
    rw [copy_of_handle hh]
    refine ⟨?_, ?_, h.level⟩
    · intro c' hc'
      rcases Array.mem_push.mp hc' with hc' | rfl
      · exact h.named c' hc'
      · exact h.named c' (Array.mem_of_getElem? hh)
    · intro c' hc'
      exact Array.mem_push.mpr (Or.inl (h.owned c' hc'))

/-- A scope is counted when it is opened, if there is room. -/
theorem Counted.enter (h : Counted s) (handle : Nat)
    (hfit : (s.enter handle).alive handle ≤ Depth.ceiling) : Counted (s.enter handle) := by
  cases hh : s.handles[handle]? with
  | none =>
    rw [Counters.enter, hh]
    exact h
  | some c =>
    have halive : (s.enter handle).alive handle = s.scopes.count c + 1 := by
      simp [enter_of_handle hh, alive, hh]
    rw [halive] at hfit
    rw [enter_of_handle hh]
    refine ⟨?_, ?_, ?_⟩
    · intro c' hc'
      rw [Array.size_modify]
      exact h.named c' hc'
    · intro c' hc'
      rcases List.mem_append.mp hc' with hc' | hc'
      · exact h.owned c' hc'
      · rw [List.mem_singleton.mp hc']
        exact Array.mem_of_getElem? hh
    · intro c' d hd
      rw [List.count_append, List.count_singleton]
      rcases levels_modify_cases hd with ⟨rfl, d', hd', rfl⟩ | ⟨hc, hd'⟩
      · have hl := h.level c d' hd'
        rw [← hl] at hfit
        have hmin : d'.enter.level = d'.level + 1 := Nat.min_eq_left hfit
        simpa [hl] using hmin
      · simpa [hc] using h.level c' d hd'

/-- A scope is uncounted when it is closed, wherever it stands among the others. -/
theorem Counted.close (h : Counted s) (place : Nat) : Counted (s.close place) := by
  cases hp : s.scopes[place]? with
  | none =>
    rw [Counters.close, hp]
    exact h
  | some c =>
    rw [close_of_scope hp]
    obtain ⟨hlt, hget⟩ := List.getElem?_eq_some_iff.mp hp
    have hperm : (c :: s.scopes.eraseIdx place).Perm s.scopes :=
      hget ▸ List.getElem_cons_eraseIdx_perm hlt
    refine ⟨?_, ?_, ?_⟩
    · intro c' hc'
      rw [Array.size_modify]
      exact h.named c' hc'
    · intro c' hc'
      exact h.owned c' (List.mem_of_mem_eraseIdx hc')
    · intro c' d hd
      have hcount := hperm.count_eq c'
      rw [List.count_cons] at hcount
      rcases levels_modify_cases hd with ⟨rfl, d', hd', rfl⟩ | ⟨hc, hd'⟩
      · have hl := h.level c d' hd'
        simp only [beq_self_eq_true, if_true] at hcount
        simp only [Depth.leave]
        omega
      · have hl := h.level c' d hd'
        simp only [beq_iff_eq, hc, if_false] at hcount
        exact hl.trans hcount.symm

theorem Counted.step (h : Counted s) (x : CounterStep)
    (hfit : ∀ handle, (s.step x).alive handle ≤ Depth.ceiling) : Counted (s.step x) := by
  cases x with
  | create => exact h.create
  | copy handle => exact h.copy handle
  | enter handle => exact h.enter handle (hfit handle)
  | close place => exact h.close place

theorem counted_run {steps : List CounterStep}
    (hfit : ∀ p, p <+: steps → ∀ handle, (empty.run p).alive handle ≤ Depth.ceiling) :
    Counted (empty.run steps) := by
  induction steps using List.reverseRecOn with
  | nil => exact counted_empty
  | append_singleton steps x ih =>
    have hbefore : Counted (empty.run steps) :=
      ih fun p hp => hfit p (hp.trans (List.prefix_append steps [x]))
    have hlast := hfit (steps ++ [x]) List.prefix_rfl
    rw [run_concat] at hlast ⊢
    exact hbefore.step x hlast

theorem length_scopes_step_le (s : Counters) (x : CounterStep) :
    (s.step x).scopes.length ≤ s.scopes.length + 1 := by
  cases x with
  | create => exact Nat.le_succ _
  | copy handle =>
    rw [step, copy]
    split <;> exact Nat.le_succ _
  | enter handle =>
    rw [step, enter]
    split
    · exact Nat.le_of_eq (List.length_append.trans rfl)
    · exact Nat.le_succ _
  | close place =>
    rw [step, close]
    split
    · exact Nat.le_succ_of_le (List.length_eraseIdx_le _ _)
    · exact Nat.le_succ _

/-- It takes a long run to open so many scopes that they cannot be counted. -/
theorem alive_run_le_length (steps : List CounterStep) (handle : Nat) :
    (empty.run steps).alive handle ≤ steps.length := by
  have hscopes : (empty.run steps).scopes.length ≤ steps.length := by
    induction steps using List.reverseRecOn with
    | nil => exact Nat.le_refl 0
    | append_singleton steps x ih =>
      have hx := length_scopes_step_le (empty.run steps) x
      rw [run_concat, List.length_append, List.length_singleton]
      omega
  cases hh : (empty.run steps).handles[handle]? with
  | none => simp [alive, hh]
  | some c =>
    rw [alive_of_handle hh]
    exact Nat.le_trans List.count_le_length hscopes

/-- A handle shows the number of scopes that are open on its counter. -/
theorem Counted.depth_eq (h : Counted s) (handle : Nat) : s.depth handle = ⟨s.alive handle⟩ := by
  cases hh : s.handles[handle]? with
  | none => simp [depth, alive, hh, Depth.zero]
  | some c =>
    have hlt := h.named c (Array.mem_of_getElem? hh)
    have hd : s.levels[c]? = some s.levels[c] := Array.getElem?_eq_getElem hlt
    have hl := h.level c _ hd
    rw [depth_of_handle hh hd, alive_of_handle hh, ← hl]

/-- A handle keeps its counter. -/
theorem handles_step (x : CounterStep) (hh : s.handles[handle]? = some c) :
    (s.step x).handles[handle]? = some c := by
  have hne : handle ≠ s.handles.size := Nat.ne_of_lt (Array.getElem?_eq_some_iff.mp hh).1
  cases x with
  | create =>
    rw [step, create, Array.getElem?_push, if_neg hne]
    exact hh
  | copy handle' =>
    cases hh' : s.handles[handle']? with
    | none => simpa [step, copy, hh'] using hh
    | some c' =>
      rw [step, copy_of_handle hh', Array.getElem?_push, if_neg hne]
      exact hh
  | enter handle' =>
    cases hh' : s.handles[handle']? with
    | none => simpa [step, enter, hh'] using hh
    | some c' => simpa [step, enter_of_handle hh'] using hh
  | close place =>
    cases hp : s.scopes[place]? with
    | none => simpa [step, close, hp] using hh
    | some c' => simpa [step, close_of_scope hp] using hh

theorem levels_step_of_ne (x : CounterStep) (hlt : c < s.levels.size)
    (hne : s.moved? x ≠ some c) : (s.step x).levels[c]? = s.levels[c]? := by
  cases x with
  | create => rw [step, create, Array.getElem?_push, if_neg (Nat.ne_of_lt hlt)]
  | copy handle' =>
    cases hh' : s.handles[handle']? with
    | none => simp [step, copy, hh']
    | some c' => rw [step, copy_of_handle hh']
  | enter handle' =>
    cases hh' : s.handles[handle']? with
    | none => simp [step, enter, hh']
    | some c' =>
      have hc : c' ≠ c := fun he => hne (hh'.trans (congrArg some he))
      rw [step, enter_of_handle hh', Array.getElem?_modify, if_neg hc]
  | close place =>
    cases hp : s.scopes[place]? with
    | none => simp [step, close, hp]
    | some c' =>
      have hc : c' ≠ c := fun he => hne (hp.trans (congrArg some he))
      rw [step, close_of_scope hp, Array.getElem?_modify, if_neg hc]

/-- A step moves one counter at most; handles on the others show what they showed. -/
theorem Counted.depth_step_of_ne (h : Counted s) (x : CounterStep)
    (hh : s.handles[handle]? = some c) (hne : s.moved? x ≠ some c) :
    (s.step x).depth handle = s.depth handle := by
  have hlt := h.named c (Array.mem_of_getElem? hh)
  rw [depth, depth, handles_step x hh, hh, Option.bind_some, Option.bind_some,
    levels_step_of_ne x hlt hne]

end Counters
end V30Probe
