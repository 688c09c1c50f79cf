import V30Probe.Address
import V30Probe.Category
import V30Probe.Text

/-! Breakpoints: closed address ranges, of which ports are compared by their low eight bits. Those
in force are kept in one list for each category, oldest first. -/

namespace V30Probe

/-- The addresses from `low` to `high`. Whether they were meant as logical is kept for the front end. -/
structure Breakpoint where
  low : UInt32
  high : UInt32
  logical : Bool
  deriving DecidableEq, Repr

namespace Breakpoint

def covers (b : Breakpoint) (address : UInt32) : Bool :=
  b.low ≤ address && address ≤ b.high

/-- The range and the port taken modulo 256. -/
def coversPort (b : Breakpoint) (port : UInt32) : Bool :=
  (b.low &&& portMask) ≤ (port &&& portMask) && (port &&& portMask) ≤ (b.high &&& portMask)

/-- Whether an access of a category trips the breakpoint. -/
def catches (b : Breakpoint) (c : Category) (address : UInt32) : Bool :=
  if c.isPort then b.coversPort address else b.covers address

def text (b : Breakpoint) : String :=
  Record.closed "Breakpoint"
    [("low", toString b.low.toNat), ("high", toString b.high.toNat), ("logical", Record.flag b.logical)]

theorem covers_iff (b : Breakpoint) (a : UInt32) :
    b.covers a ↔ b.low.toNat ≤ a.toNat ∧ a.toNat ≤ b.high.toNat := by
  simp [covers, UInt32.le_iff_toNat_le]

theorem coversPort_iff (b : Breakpoint) (a : UInt32) :
    b.coversPort a ↔
      b.low.toNat % 256 ≤ a.toNat % 256 ∧ a.toNat % 256 ≤ b.high.toNat % 256 := by
  simp [coversPort, UInt32.le_iff_toNat_le, and_portMask_toNat, -UInt32.toNat_and]

end Breakpoint

structure BreakpointTable where
  lists : Vector (List Breakpoint) Category.count
  deriving DecidableEq

namespace BreakpointTable

def empty : BreakpointTable :=
  ⟨Vector.replicate Category.count []⟩

/-- The breakpoints of one category, in the order they were added. -/
def list (t : BreakpointTable) (c : Category) : List Breakpoint :=
  t.lists[c.index]

/-- Adds a breakpoint to a category; one that is there already is kept twice. -/
def add (t : BreakpointTable) (c : Category) (b : Breakpoint) : BreakpointTable :=
  ⟨t.lists.set c.index (t.list c ++ [b])⟩

/-- Removes all breakpoints of one category. -/
def clear (t : BreakpointTable) (c : Category) : BreakpointTable :=
  ⟨t.lists.set c.index []⟩

def hasAny (t : BreakpointTable) (c : Category) : Bool :=
  !(t.list c).isEmpty

def isEmpty (t : BreakpointTable) : Bool :=
  Category.all.all fun c => (t.list c).isEmpty

/-- The breakpoints of all categories. -/
def toList (t : BreakpointTable) : List Breakpoint :=
  Category.all.flatMap t.list

def size (t : BreakpointTable) : Nat :=
  t.toList.length

/-- Whether an access of a category to an address trips a breakpoint. -/
def hits (t : BreakpointTable) (c : Category) (address : UInt32) : Bool :=
  (t.list c).any fun b => b.catches c address

def text (t : BreakpointTable) : String :=
  Record.closed "BreakpointRegistry"
    [("lists", Record.list (t.lists.toList.map fun bs => Record.list (bs.map Breakpoint.text)))]

@[simp]
theorem list_empty (c : Category) : empty.list c = [] := by
  simp [empty, list]

theorem list_add (t : BreakpointTable) (c d : Category) (b : Breakpoint) :
    (t.add c b).list d = if c = d then t.list d ++ [b] else t.list d := by
  by_cases h : c = d
  · subst h
    simp [add, list]
  · have hi : c.index.val ≠ d.index.val :=
      fun he => h (Category.index_injective (Fin.ext he))
    simp [add, list, h, hi]

theorem list_clear (t : BreakpointTable) (c d : Category) :
    (t.clear c).list d = if c = d then [] else t.list d := by
  by_cases h : c = d
  · subst h
    simp [clear, list]
  · have hi : c.index.val ≠ d.index.val :=
      fun he => h (Category.index_injective (Fin.ext he))
    simp [clear, list, h, hi]

theorem not_isEmpty_iff (t : BreakpointTable) : (!t.isEmpty) ↔ ∃ c, t.hasAny c := by
  simp [isEmpty, hasAny, Category.mem_all]

@[simp]
theorem hits_empty (c : Category) (a : UInt32) : empty.hits c a = false := by
  simp [hits]

theorem hits_add (t : BreakpointTable) (c d : Category) (b : Breakpoint) (a : UInt32) :
    (t.add c b).hits d a = (t.hits d a || (c == d && b.catches d a)) := by
  rw [hits, hits, list_add]
  by_cases h : c = d <;> simp [h]

theorem hits_clear (t : BreakpointTable) (c d : Category) (a : UInt32) :
    (t.clear c).hits d a = (c != d && t.hits d a) := by
  rw [hits, hits, list_clear]
  by_cases h : c = d <;> simp [h]

/-- A table is known by its lists. -/
@[ext]
theorem ext {t u : BreakpointTable} (h : ∀ c, t.list c = u.list c) : t = u := by
  obtain ⟨lists⟩ := t
  obtain ⟨lists'⟩ := u
  have hl : ∀ i : Fin Category.count, lists[i] = lists'[i] := by
    intro i
    obtain ⟨c, rfl⟩ := Category.exists_index i
    exact h c
  congr 1
  exact Vector.ext fun i hi => hl ⟨i, hi⟩

end BreakpointTable
end V30Probe
