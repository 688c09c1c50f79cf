import V30Probe.Address

/-! Branches that were taken: runs of one branch taken again and again, their rows of text for the
front end, and the unbounded log of transitions folded into runs. -/

namespace V30Probe.Branch

/-- A change of the program counter that is not the next instruction. -/
structure Transition where
  source : FarAddress
  target : FarAddress
  interrupt : Bool
  deriving DecidableEq, Repr

/-- One transition and how often it was taken in a row. -/
structure Run where
  transition : Transition
  count : Nat
  deriving DecidableEq, Repr

/-- A run does not grow beyond this count. -/
def countCeiling : Nat := 4294967295

namespace Run

def single (t : Transition) : Run := ⟨t, 1⟩

/-- Whether the next transition only lengthens the run. -/
def absorbs (r : Run) (t : Transition) : Bool :=
  r.transition == t && r.count < countCeiling

def longer (r : Run) : Run := { r with count := r.count + 1 }

theorem absorbs_iff (r : Run) (t : Transition) :
    r.absorbs t ↔ r.transition = t ∧ r.count < countCeiling := by
  simp [absorbs]

end Run

/-- A run as text. -/
structure Row where
  source : String
  target : String
  code : String
  count : Nat
  deriving DecidableEq, Repr

/-- The code of a transition that an interrupt made. -/
def interruptCode : String := "INT"

def Run.row (r : Run) : Row where
  source := r.transition.source.text
  target := r.transition.target.text
  code := if r.transition.interrupt then interruptCode else ""
  count := r.count

namespace Runs

/-- Puts one more transition on a log that is kept newest first. -/
def push (t : Transition) : List Run → List Run
  | [] => [.single t]
  | r :: rs => if r.absorbs t then r.longer :: rs else .single t :: r :: rs

/-- The runs of a list of transitions, newest first. -/
def newestFirst (ts : List Transition) : List Run :=
  ts.foldl (fun rs t => push t rs) []

/-- The runs of a list of transitions, in the order they were taken. -/
def ofList (ts : List Transition) : List Run :=
  (newestFirst ts).reverse

def expand (rs : List Run) : List Transition :=
  rs.flatMap fun r => List.replicate r.count r.transition

theorem newestFirst_concat (ts : List Transition) (t : Transition) :
    newestFirst (ts ++ [t]) = push t (newestFirst ts) := by
  simp [newestFirst]

end Runs
end V30Probe.Branch
