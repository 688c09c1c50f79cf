/-! The debug depth: how many scopes of debugger activity are open. -/

namespace V30Probe

/-- A count of open scopes. A bus that is read at a positive depth is read by the debugger. -/
structure Depth where
  level : Nat
  deriving DecidableEq, Repr

namespace Depth

def zero : Depth := ⟨0⟩

/-- The count stays here when more scopes are opened. -/
def ceiling : Nat := 4294967295

/-- The depth inside one more scope. -/
def enter (d : Depth) : Depth := ⟨min (d.level + 1) ceiling⟩

/-- The depth after one scope is closed. -/
def leave (d : Depth) : Depth := ⟨d.level - 1⟩

/-- Whether the debugger is at work. -/
def isActive (d : Depth) : Bool := 0 < d.level

theorem leave_enter {d : Depth} (h : d.level < ceiling) : d.enter.leave = d := by
  simp [enter, leave, Nat.min_eq_left (Nat.succ_le_of_lt h)]

/-- A scope that is closed again is gone just if there was room to count it. -/
theorem leave_enter_iff {d : Depth} : d.enter.leave = d ↔ d.level < ceiling := by
  refine ⟨fun h => ?_, leave_enter⟩
  have hl := congrArg level h
  simp only [enter, leave, ceiling] at hl ⊢
  omega

/-- Scopes that are opened one after the other are counted alike, also at the ceiling. -/
theorem enter_leave_enter (d : Depth) : d.enter.leave.enter = d.enter := by
  simp only [enter, leave, ceiling]
  congr 1
  omega

theorem isActive_enter (d : Depth) : d.enter.isActive := by
  have h : 0 < min (d.level + 1) ceiling := Nat.lt_min.mpr ⟨by omega, by decide⟩
  exact decide_eq_true h

end Depth
end V30Probe
