import V30Probe.Text

/-! Lines of a listing: what an instruction decoder is asked, and how the text of one instruction is
laid out before its bytes. -/

namespace V30Probe.Listing

/-- The text of an instruction and how many bytes it is said to have. -/
structure Decoded where
  text : String
  length : Nat
  deriving DecidableEq, Repr

class Decoder (δ : Type) where
  /-- Decodes the instruction at the start of the bytes, which lie at an offset in the segment. -/
  decode : δ → UInt16 → List UInt8 → Decoded × δ
  /-- Goes over to the other dialect of the assembly language. -/
  switchDialect : δ → δ

structure Line where
  text : String
  /-- How many bytes the line stands for. -/
  length : Nat
  /-- The offset behind the last of them. -/
  next : UInt16
  deriving DecidableEq, Repr

/-- The text for an instruction that reaches over the marker. -/
def placeholder : String := "--------"

/-- How many bytes of an instruction lie before the marker, if the marker is strictly inside it. -/
def cut? (address marker : UInt16) (length : Nat) : Option Nat :=
  (List.range' 1 (length - 1)).find? fun i => address + UInt16.ofNat i == marker

/-- Fills a text with blanks up to a column; a longer text stays as it is. -/
def padRight (column : Nat) (text : String) : String :=
  String.ofList (text.toList.rightpad column ' ')

/-- Each byte as a blank and two lower-case digits. -/
def byteColumn (bytes : List UInt8) : String :=
  String.join (bytes.map fun b => " " ++ Hex.fixed .lower 2 b.toNat)

/-- The line for an instruction that was decoded from some bytes. -/
def Line.layout (column : Nat) (address marker : UInt16) (decoded : Decoded)
    (bytes : List UInt8) : Line :=
  let whole := min decoded.length bytes.length
  let (text, length) :=
    match cut? address marker whole with
    | some k => (placeholder, k)
    | none => (decoded.text, whole)
  { text := padRight column text ++ byteColumn (bytes.take length)
    length
    next := address + UInt16.ofNat length }

theorem cut?_eq_some_iff {address marker : UInt16} {length k : Nat} :
    cut? address marker length = some k ↔
      1 ≤ k ∧ k < length ∧ address + UInt16.ofNat k = marker ∧
        ∀ i, 1 ≤ i → i < k → address + UInt16.ofNat i ≠ marker := by
  rw [cut?, List.find?_range'_eq_some]
  simp only [beq_iff_eq, Bool.not_eq_true', beq_eq_false_iff_ne, List.mem_range'_1]
  constructor
  · rintro ⟨hk, hm, hi⟩
    exact ⟨hm.1, by omega, hk, hi⟩
  · rintro ⟨h1, hk, hm, hi⟩
    exact ⟨hm, ⟨h1, by omega⟩, hi⟩

end V30Probe.Listing
