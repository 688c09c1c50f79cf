/-! Text as the front end shows it: hexadecimal numbers of a fixed width or after a radix mark, with
their reading, and records and lists on one line. -/

namespace V30Probe

namespace Hex

/-- The letters that stand for the digits ten to fifteen. -/
inductive Letters where
  | lower
  | upper
  deriving DecidableEq, Repr

/-- The letter for ten. -/
def Letters.ten : Letters → Char
  | .lower => 'a'
  | .upper => 'A'

/-- The digit for a value below sixteen. -/
def digit (letters : Letters) (n : Nat) : Char :=
  if n < 10 then Char.ofNat ('0'.toNat + n) else Char.ofNat (letters.ten.toNat + (n - 10))

/-- The last `width` digits of `n`, most significant first. -/
def digits (letters : Letters) : Nat → Nat → List Char
  | 0, _ => []
  | width + 1, n => digits letters width (n / 16) ++ [digit letters (n % 16)]

/-- Text of exactly `width` digits, filled with zeros on the left. -/
def fixed (letters : Letters) (width n : Nat) : String :=
  String.ofList (digits letters width n)

/-- How many digits `n` needs; zero needs one. -/
def width (n : Nat) : Nat :=
  n.log2 / 4 + 1

/-- The shortest lower-case text of `n`, after the mark `0x`. -/
def marked (n : Nat) : String :=
  "0x" ++ fixed .lower (width n) n

/-- The value of one digit, with either kind of letter. -/
def digitValue? (c : Char) : Option Nat :=
  if '0' ≤ c ∧ c ≤ '9' then some (c.toNat - '0'.toNat)
  else if 'a' ≤ c ∧ c ≤ 'f' then some (c.toNat - 'a'.toNat + 10)
  else if 'A' ≤ c ∧ c ≤ 'F' then some (c.toNat - 'A'.toNat + 10)
  else none

/-- The number that a list of digits stands for. -/
def value? (cs : List Char) : Option Nat :=
  cs.foldlM (fun n c => (digitValue? c).map (16 * n + ·)) 0

theorem length_digits (letters : Letters) (w n : Nat) : (digits letters w n).length = w := by
  induction w generalizing n with
  | zero => rfl
  | succ w ih => simp [digits, ih]

theorem digitValue?_digit (letters : Letters) {n : Nat} (h : n < 16) :
    digitValue? (digit letters n) = some n := by
  have : ∀ k : Fin 16, digitValue? (digit letters k) = some k.val := by
    cases letters <;> decide
  exact this ⟨n, h⟩

end Hex

namespace Record

def fields (items : List (String × String)) : String :=
  String.intercalate ", " (items.map fun (label, value) => label ++ ": " ++ value)

/-- A record with all its fields. -/
def closed (name : String) (items : List (String × String)) : String :=
  name ++ " \x7b " ++ fields items ++ " \x7d"

/-- A record that holds more than the fields it shows. -/
def partly (name : String) (items : List (String × String)) : String :=
  name ++ " \x7b " ++ fields items ++ ", .. \x7d"

def list (items : List String) : String :=
  "[" ++ String.intercalate ", " items ++ "]"

def flag (b : Bool) : String :=
  if b then "true" else "false"

end Record
end V30Probe
