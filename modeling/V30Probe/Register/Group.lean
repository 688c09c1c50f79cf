import V30Probe.Log

/-! Tables of registers that are read and written by number, and their rows as a front end lists
them. -/

namespace V30Probe.Register

/-- A register with its size in bytes, or a heading, which has size zero. -/
structure Row where
  id : UInt32
  displayWidth : Nat
  name : String
  description : String
  size : Nat
  deriving DecidableEq, Repr

namespace Row

def separator (title : String) : Row := ⟨0, 0, title, "", 0⟩

def isSeparator (r : Row) : Bool := r.size == 0

/-- All bits that a value of the row's size can have; a value has at most four bytes. -/
def valueMask (r : Row) : UInt32 :=
  match r.size with
  | 0 => 0
  | 1 => 0xFF
  | 2 => 0xFFFF
  | 3 => 0xFFFFFF
  | _ => 0xFFFFFFFF

end Row

/-- Registers that are found by their own numbers are found by no others. -/
theorem find?_number_eq_some_iff {α : Type} {all : List α} {number : α → UInt32}
    (hfind : ∀ r, all.find? (fun q => number q == number r) = some r) {n : UInt32} {r : α} :
    all.find? (fun q => number q == n) = some r ↔ number r = n := by
  constructor
  · intro h
    simpa using List.find?_some h
  · rintro rfl
    exact hfind r

/-- How one register is read and written as a word of thirty-two bits. -/
structure Cell (σ : Type) where
  read : σ → UInt32
  write : σ → UInt32 → σ

/-- A table over registers kept in a state `σ`. -/
structure Group (σ : Type) where
  name : String
  rows : List Row
  cell? : UInt32 → Option (Cell σ)

/-- What a front end asks of a table. -/
inductive Access where
  | get (id : UInt32)
  | set (id value : UInt32)
  | values
  deriving DecidableEq, Repr

inductive Answer where
  | value (value : UInt32)
  | done
  | values (values : List (Row × UInt32))
  deriving DecidableEq, Repr

namespace Group

variable {σ : Type}

/-- The value under a number. An unknown number reads as zero and is warned of. -/
def get (g : Group σ) (s : σ) (id : UInt32) : UInt32 × List LogEvent :=
  match g.cell? id with
  | some cell => (cell.read s, [])
  | none => (0, [.unknownRead g.name id])

/-- Writes the value under a number. An unknown number changes nothing and is warned of. -/
def set (g : Group σ) (s : σ) (id value : UInt32) : σ × List LogEvent :=
  match g.cell? id with
  | some cell => (cell.write s value, [])
  | none => (s, [.unknownWrite g.name id])

/-- The value of each row that is not a heading, in the order of the table. -/
def values (g : Group σ) (s : σ) : List (Row × UInt32) × List LogEvent :=
  let readings := (g.rows.filter fun row => !row.isSeparator).map fun row => (row, g.get s row.id)
  (readings.map fun (row, value, _) => (row, value), readings.flatMap fun (_, _, events) => events)

def perform (g : Group σ) (s : σ) : Access → Answer × σ × List LogEvent
  | .get id =>
    let (value, events) := g.get s id
    (.value value, s, events)
  | .set id value =>
    let (s, events) := g.set s id value
    (.done, s, events)
  | .values =>
    let (values, events) := g.values s
    (.values values, s, events)

end Group
end V30Probe.Register
