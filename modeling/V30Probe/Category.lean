/-! The kinds of access that a breakpoint watches, and how each is numbered and named. -/

namespace V30Probe

/-- What the program does when it trips a breakpoint. -/
inductive Category where
  | memoryRead
  | memoryWrite
  | pc
  | portRead
  | portWrite
  | auxRead
  | auxWrite
  deriving DecidableEq, Repr

namespace Category

/-- Every category, in the order of their codes. -/
def all : List Category :=
  [.memoryRead, .memoryWrite, .pc, .portRead, .portWrite, .auxRead, .auxWrite]

/-- How many categories there are. -/
abbrev count : Nat := 7

/-- The place of a category among all of them. -/
def index : Category → Fin count
  | .memoryRead => 0
  | .memoryWrite => 1
  | .pc => 2
  | .portRead => 3
  | .portWrite => 4
  | .auxRead => 5
  | .auxWrite => 6

/-- Codes count from one. -/
def code (c : Category) : Nat := c.index + 1

def name : Category → String
  | .memoryRead => "read"
  | .memoryWrite => "write"
  | .pc => "pc"
  | .portRead => "port-read"
  | .portWrite => "port-write"
  | .auxRead => "aux-read"
  | .auxWrite => "aux-write"

/-- Whether the addresses are ports. -/
def isPort : Category → Bool
  | .portRead | .portWrite => true
  | _ => false

theorem mem_all (c : Category) : c ∈ all := by
  cases c <;> decide

theorem index_injective {c d : Category} (h : c.index = d.index) : c = d := by
  revert h
  cases c <;> cases d <;> decide

theorem isPort_iff {c : Category} : c.isPort ↔ c = .portRead ∨ c = .portWrite := by
  cases c <;> decide

theorem exists_index (i : Fin count) : ∃ c : Category, c.index = i := by
  have h : ∀ j : Fin count, (all.get j).index = j := by decide
  exact ⟨_, h i⟩

end Category
end V30Probe
