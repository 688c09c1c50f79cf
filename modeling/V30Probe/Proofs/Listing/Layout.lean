import V30Probe.Bus.Recorder
import V30Probe.Proofs.Bus.Quiet
import V30Probe.Proofs.Listing.Marker
import V30Probe.Text.Lemmas
import Mathlib.Data.List.DropRight
import Mathlib.Order.Bounds.Basic

/-! The whole of a line: which bytes are fetched for it, what the decoder is asked, where the marker
cuts the instruction, and how the text is laid out. The bytes can be read back from the text. -/

namespace V30Probe.Listing

/-! ### Bytes as text -/

/-- The sixteen digits of the bytes in a listing. -/
def byteDigit : Fin 16 → Char :=
  ['0', '1', '2', '3', '4', '5', '6', '7', '8', '9', 'a', 'b', 'c', 'd', 'e', 'f'].get

/-- A byte in a listing: a blank and two digits. -/
def byteCell (b : UInt8) : List Char :=
  [' ', byteDigit (.ofNat 16 (b.toNat / 16)), byteDigit (.ofNat 16 b.toNat)]

/-- Reads bytes, each from a blank and two digits. -/
def readCells? : List Char → Option (List UInt8)
  | [] => some []
  | ' ' :: high :: low :: rest => do
    let value ← Hex.value? [high, low]
    let bytes ← readCells? rest
    return UInt8.ofNat value :: bytes
  | _ => none

theorem digit_mod_sixteen (n : Nat) : Hex.digit .lower (n % 16) = byteDigit (.ofNat 16 n) := by
  have h : ∀ i : Fin 16, Hex.digit .lower i = byteDigit i := by decide
  exact h (.ofNat 16 n)

theorem digits_two_eq (b : UInt8) :
    Hex.digits .lower 2 b.toNat =
      [byteDigit (.ofNat 16 (b.toNat / 16)), byteDigit (.ofNat 16 b.toNat)] := by
  simp [Hex.digits, digit_mod_sixteen]

theorem length_byteCells (bytes : List UInt8) :
    (bytes.flatMap byteCell).length = 3 * bytes.length := by
  induction bytes with
  | nil => rfl
  | cons b bytes ih =>
    simp only [List.flatMap_cons, List.length_append, ih, byteCell, List.length_cons,
      List.length_nil]
    omega

theorem toList_byteColumn (bytes : List UInt8) :
    (byteColumn bytes).toList = bytes.flatMap byteCell := by
  rw [byteColumn, String.toList_join, List.flatMap_map]
  apply List.flatMap_congr
  intro b _
  simp only [String.toList_append, Hex.fixed, digits_two_eq, String.toList_ofList]
  rfl

/-- The cells of a listing read back as the bytes that they show. -/
theorem readCells?_byteCells (bytes : List UInt8) :
    readCells? (bytes.flatMap byteCell) = some bytes := by
  induction bytes with
  | nil => rfl
  | cons b bytes ih =>
    have hvalue : Hex.value? [byteDigit (.ofNat 16 (b.toNat / 16)), byteDigit (.ofNat 16 b.toNat)] =
        some b.toNat := by
      have hb : b.toNat % 16 ^ 2 = b.toNat := Nat.mod_eq_of_lt b.toNat_lt
      have hread := Hex.value?_digits .lower 2 b.toNat
      rw [hb] at hread
      rwa [digits_two_eq] at hread
    simp only [List.flatMap_cons, byteCell, List.cons_append, List.nil_append, readCells?, hvalue,
      ih, Option.bind_eq_bind, Option.bind_some, UInt8.ofNat_toNat, Option.pure_def]

/-! ### The cut -/

/-- How far into an instruction the marker lies, wherever it is strictly inside. -/
def markerOffsets (address marker : UInt16) (length : Nat) : Set Nat :=
  {i | 1 ≤ i ∧ i < length ∧ (address.toNat + i) % 65536 = marker.toNat}

section Cut

variable {address marker : UInt16} {length k : Nat}

theorem toNat_add_ofNat (address : UInt16) (i : Nat) :
    (address + UInt16.ofNat i).toNat = (address.toNat + i) % 65536 := by
  rw [UInt16.toNat_add, UInt16.toNat_ofNat']
  omega

theorem add_ofNat_eq_marker_iff (i : Nat) :
    address + UInt16.ofNat i = marker ↔ (address.toNat + i) % 65536 = marker.toNat := by
  rw [← UInt16.toNat_inj, toNat_add_ofNat]

/-- The cut is made at the first place where the marker lies. -/
theorem cut?_eq_some_iff_isLeast :
    cut? address marker length = some k ↔ IsLeast (markerOffsets address marker length) k := by
  rw [cut?_eq_some_iff, add_ofNat_eq_marker_iff]
  constructor
  · rintro ⟨h1, hk, hm, hfirst⟩
    refine ⟨⟨h1, hk, hm⟩, ?_⟩
    rintro i ⟨hi, -, him⟩
    by_contra hlt
    exact hfirst i hi (Nat.lt_of_not_le hlt) ((add_ofNat_eq_marker_iff i).mpr him)
  · rintro ⟨⟨h1, hk, hm⟩, hleast⟩
    refine ⟨h1, hk, hm, ?_⟩
    intro i hi hik him
    have hle : k ≤ i := hleast ⟨hi, hik.trans hk, (add_ofNat_eq_marker_iff i).mp him⟩
    omega

theorem cut?_eq_none_iff :
    cut? address marker length = none ↔ markerOffsets address marker length = ∅ := by
  simp only [cut?, List.find?_eq_none, List.mem_range'_1, Set.eq_empty_iff_forall_notMem,
    markerOffsets, Set.mem_ofPred_eq, beq_iff_eq, add_ofNat_eq_marker_iff]
  constructor
  · rintro h i ⟨h1, hi, hm⟩
    exact h i ⟨h1, by omega⟩ hm
  · rintro h i ⟨h1, hi⟩ hm
    exact h i ⟨h1, by omega, hm⟩

end Cut

/-! ### The text -/

/-- The line stands for so many of the bytes that were fetched. It shows a text, filled with blanks
up to the column, and behind it these bytes, which can be read back. -/
structure Line.Shows (line : Line) (column : Nat) (address : UInt16) (shown : String)
    (fetched : List UInt8) (count : Nat) : Prop where
  length : line.length = count
  next : line.next.toNat = (address.toNat + count) % 65536
  text : line.text.toList = shown.toList ++ List.replicate (column - shown.length) ' ' ++
    (fetched.take count).flatMap byteCell
  length_text : line.text.length = max column shown.length + 3 * count
  bytes : readCells? (line.text.toList.rtake (3 * count)) = some (fetched.take count)

/-- A line begins with the text that it shows. -/
theorem Line.Shows.begins {line : Line} {column : Nat} {address : UInt16} {shown : String}
    {fetched : List UInt8} {count : Nat} (h : line.Shows column address shown fetched count) :
    shown.toList <+: line.text.toList := by
  rw [h.text, List.append_assoc]
  exact List.prefix_append _ _

section Text

variable {column count : Nat} {address marker : UInt16} {decoded : Decoded} {shown : String}
  {fetched : List UInt8}

theorem toList_padRight (column : Nat) (shown : String) :
    (padRight column shown).toList =
      shown.toList ++ List.replicate (column - shown.length) ' ' := by
  rw [padRight, String.toList_ofList, List.rightpad, String.length_toList]

theorem shows_of_le (h : count ≤ fetched.length) :
    Line.Shows ⟨padRight column shown ++ byteColumn (fetched.take count), count,
      address + UInt16.ofNat count⟩ column address shown fetched count := by
  have hcells : ((fetched.take count).flatMap byteCell).length = 3 * count := by
    rw [length_byteCells, List.length_take, Nat.min_eq_left h]
  have htext : (padRight column shown ++ byteColumn (fetched.take count)).toList =
      shown.toList ++ List.replicate (column - shown.length) ' ' ++
        (fetched.take count).flatMap byteCell := by
    rw [String.toList_append, toList_padRight, toList_byteColumn]
  refine ⟨rfl, toNat_add_ofNat address count, htext, ?length_text, ?bytes⟩
  case length_text =>
    rw [← String.length_toList, htext, List.length_append, hcells, List.length_append,
      List.length_replicate, String.length_toList]
    omega
  case bytes =>
    have hlast : (shown.toList ++ List.replicate (column - shown.length) ' ' ++
        (fetched.take count).flatMap byteCell).rtake (3 * count) =
          (fetched.take count).flatMap byteCell := by
      rw [← hcells, List.rtake, List.length_append, Nat.add_sub_cancel, List.drop_left]
    rw [htext, hlast, readCells?_byteCells]

theorem layout_of_cut {k : Nat}
    (h : cut? address marker (min decoded.length fetched.length) = some k) :
    Line.layout column address marker decoded fetched =
      ⟨padRight column placeholder ++ byteColumn (fetched.take k), k,
        address + UInt16.ofNat k⟩ := by
  simp only [Line.layout, h]

theorem layout_of_whole
    (h : cut? address marker (min decoded.length fetched.length) = none) :
    Line.layout column address marker decoded fetched =
      ⟨padRight column decoded.text ++
          byteColumn (fetched.take (min decoded.length fetched.length)),
        min decoded.length fetched.length,
        address + UInt16.ofNat (min decoded.length fetched.length)⟩ := by
  simp only [Line.layout, h]

/-- Either the marker cuts the instruction, and the line shows the placeholder and ends there; or the
line shows what the decoder said, with as many bytes as it asked for and were fetched. -/
theorem layout_shows (column : Nat) (address marker : UInt16) (decoded : Decoded)
    (fetched : List UInt8) :
    let line := Line.layout column address marker decoded fetched
    let whole := min decoded.length fetched.length
    (∃ k, IsLeast (markerOffsets address marker whole) k ∧ line.next = marker ∧
      line.Shows column address placeholder fetched k) ∨
    (markerOffsets address marker whole = ∅ ∧
      line.Shows column address decoded.text fetched whole) := by
  intro line whole
  cases hcut : cut? address marker whole with
  | some k =>
    obtain ⟨-, hk, hm, -⟩ := cut?_eq_some_iff.mp hcut
    have hle : k ≤ fetched.length := hk.le.trans (Nat.min_le_right _ _)
    left
    refine ⟨k, cut?_eq_some_iff_isLeast.mp hcut, ?_, ?_⟩
    · simp only [line, layout_of_cut hcut, hm]
    · simp only [line, layout_of_cut hcut]
      exact shows_of_le hle
  | none =>
    right
    refine ⟨cut?_eq_none_iff.mp hcut, ?_⟩
    simp only [line, layout_of_whole hcut]
    exact shows_of_le (Nat.min_le_right _ _)

end Text

/-! ### The questions to the decoder -/

/-- A decoder that remembers what it was asked, oldest first. -/
structure Consulted (δ : Type) where
  decoder : δ
  questions : List (UInt16 × List UInt8)

instance {δ : Type} [Decoder δ] : Decoder (Consulted δ) where
  decode d address bytes :=
    let (decoded, decoder) := Decoder.decode d.decoder address bytes
    (decoded, ⟨decoder, d.questions ++ [(address, bytes)]⟩)
  switchDialect d := { d with decoder := Decoder.switchDialect d.decoder }

/-- The same disassembler, whose decoder remembers what it is asked. -/
def Disassembler.consulted {δ : Type} (d : Disassembler δ) : Disassembler (Consulted δ) :=
  ⟨⟨d.decoder, []⟩, d.instructionBytes, d.column⟩

variable {δ β : Type} [Decoder δ] [Bus β]

/-- The marker decides which text a line shows. Whichever it is, its bytes are the first of those
that are fetched. -/
theorem Disassembler.line_shows (d : Disassembler δ) (bus : β) (depth : Depth)
    (segment address marker : UInt16) :
    let line := (d.line bus depth segment address marker).1
    ∃ shown, (shown = placeholder ∨ shown = (d.decoded bus depth segment address).text) ∧
      line.Shows d.column address shown
        (Bus.readAll bus depth.enter (fetchAddresses segment address d.instructionBytes)).1
        line.length := by
  intro line
  rcases layout_shows d.column address marker (d.decoded bus depth segment address)
    (Bus.readAll bus depth.enter (fetchAddresses segment address d.instructionBytes)).1 with
    ⟨k, -, -, hcut⟩ | ⟨-, hwhole⟩
  · exact ⟨placeholder, Or.inl rfl, hcut.length.symm ▸ hcut⟩
  · exact ⟨_, Or.inr rfl, hwhole.length.symm ▸ hwhole⟩

theorem line_consulted (d : Disassembler δ) (bus : β) (depth : Depth)
    (segment address marker : UInt16) :
    let recorded := d.consulted.line (Recorder.ofBus bus) depth segment address marker
    let addresses := fetchAddresses segment address d.instructionBytes
    recorded.1 = (d.line bus depth segment address marker).1 ∧
      recorded.2.1.decoder.questions = [(address, (Bus.readAll bus depth.enter addresses).1)] ∧
      recorded.2.2.1.reads.toList = addresses.map (fun a => ⟨a, depth.enter⟩) ∧
      recorded.2.2.1.portReads = #[] := by
  intro recorded addresses
  have hread := Recorder.readAll_ofBus bus depth.enter addresses
  simp only [recorded, Disassembler.consulted, Disassembler.line, Bus.readScoped]
  rw [hread]
  exact ⟨rfl, rfl, rfl, rfl⟩

end V30Probe.Listing
