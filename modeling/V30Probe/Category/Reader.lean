import V30Probe.Category

/-! Categories as a front end asks for them: by their code, or by a name as a person types it, where
blanks around the name and the case of its letters are free. -/

namespace V30Probe

inductive CategoryError where
  | unknownCode (code : Nat)
  | unknownName (text : String)
  deriving DecidableEq, Repr

def CategoryError.message : CategoryError → String
  | .unknownCode code => "unknown breakpoint category code " ++ toString code
  | .unknownName text => "unknown breakpoint category `" ++ text ++ "`"

namespace Blank

/-- The code points with the property White_Space, as closed ranges. -/
def ranges : List (Nat × Nat) :=
  [(0x0009, 0x000D), (0x0020, 0x0020), (0x0085, 0x0085), (0x00A0, 0x00A0), (0x1680, 0x1680),
   (0x2000, 0x200A), (0x2028, 0x2029), (0x202F, 0x202F), (0x205F, 0x205F), (0x3000, 0x3000)]

def isBlank (c : Char) : Bool :=
  ranges.any fun (low, high) => low ≤ c.toNat && c.toNat ≤ high

/-- The text from its first character that is not blank to its last one. -/
def trim (cs : List Char) : List Char :=
  ((cs.dropWhile isBlank).reverse.dropWhile isBlank).reverse

end Blank

namespace Category

def ofCode (n : Nat) : Except CategoryError Category :=
  match all.find? fun c => c.code == n with
  | some c => .ok c
  | none => .error (.unknownCode n)

/-- Every spelling that is read, each with what it names: the names, and `io` for a port. -/
def spellings : List (String × Category) :=
  ("io-read", .portRead) :: ("io-write", .portWrite) :: all.map fun c => (c.name, c)

/-- The text without blanks at its ends, with the letters A to Z in lower case. -/
def normalize (text : String) : String :=
  String.ofList ((Blank.trim text.toList).map Char.toLower)

/-- The category that the text names. A text that names none is reported as it was given. -/
def read (text : String) : Except CategoryError Category :=
  match spellings.lookup (normalize text) with
  | some c => .ok c
  | none => .error (.unknownName text)

theorem ofCode_code (c : Category) : ofCode c.code = .ok c := by
  cases c <;> rfl

end Category
end V30Probe
