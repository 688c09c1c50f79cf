import V30Probe.Text.Lemmas
import V30Probe.Proofs.Branch.RingLog

/-! Rows of text hold all that the entries hold. An address is written with a fixed width and can be
read back, so a row tells which transition it was, and the rows of a ring tell its entries. -/

namespace V30Probe

/-- Four upper-case digits that stand for a word. -/
structure Hex.SpellsWord (n : UInt16) (cs : List Char) : Prop where
  length : cs.length = 4
  upper : cs ⊆ upperDigits
  value : value? cs = some n.toNat

/-- A word has one spelling. -/
theorem Hex.spellsWord_iff {n : UInt16} {cs : List Char} :
    SpellsWord n cs ↔ cs = digits .upper 4 n.toNat := by
  constructor
  · intro h
    rw [← h.length]
    exact (digits_eq_of_value? h.upper h.value).symm
  · rintro rfl
    have hn : n.toNat % 16 ^ 4 = n.toNat := Nat.mod_eq_of_lt n.toNat_lt
    have hv := value?_digits .upper 4 n.toNat
    rw [hn] at hv
    exact ⟨length_digits .upper 4 n.toNat, digits_subset_upperDigits 4 n.toNat, hv⟩

namespace FarAddress

variable {a : FarAddress} {text : String}

/-- Nine characters that stand for an address: the digits of its segment, a colon, and those of its
offset. -/
def WrittenAs (a : FarAddress) (text : String) : Prop :=
  text.length = 9 ∧ ∃ segment offset, text.toList = segment ++ ':' :: offset ∧
    Hex.SpellsWord a.segment segment ∧ Hex.SpellsWord a.offset offset

/-- Reads an address from its digits. -/
def read? (text : String) : Option FarAddress := do
  let segment ← Hex.value? (text.toList.take 4)
  let offset ← Hex.value? (text.toList.drop 5)
  return ⟨UInt16.ofNat segment, UInt16.ofNat offset⟩

theorem toList_text (a : FarAddress) :
    a.text.toList =
      Hex.digits .upper 4 a.segment.toNat ++ ':' :: Hex.digits .upper 4 a.offset.toNat := by
  simp [text, Hex.fixed]

theorem length_text (a : FarAddress) : a.text.length = 9 := by
  simp [← String.length_toList, toList_text, Hex.length_digits]

theorem writtenAs_iff : a.WrittenAs text ↔ text = a.text := by
  constructor
  · rintro ⟨-, segment, offset, htext, hs, ho⟩
    rw [Hex.spellsWord_iff] at hs ho
    subst hs ho
    exact String.toList_injective (htext.trans a.toList_text.symm)
  · rintro rfl
    exact ⟨a.length_text, _, _, a.toList_text, Hex.spellsWord_iff.mpr rfl,
      Hex.spellsWord_iff.mpr rfl⟩

/-- An address is read back from its text. -/
theorem read?_text (a : FarAddress) : read? a.text = some a := by
  obtain ⟨-, segment, offset, htext, hs, ho⟩ := writtenAs_iff.mpr (rfl : a.text = a.text)
  have htake : a.text.toList.take 4 = segment := by
    rw [htext, ← hs.length, List.take_left]
  have hdrop : a.text.toList.drop 5 = offset := by
    rw [htext, List.append_cons, List.drop_left']
    simp [hs.length]
  simp [read?, htake, hdrop, hs.value, ho.value]

end FarAddress

namespace Branch

/-- The row of an entry, whether that is valid or not. -/
def Entry.row (e : Entry) : Row :=
  Run.row ⟨e.transition, e.count⟩

/-- Reads an entry from its row. -/
def Row.entry? (row : Row) : Option Entry := do
  let source ← FarAddress.read? row.source
  let target ← FarAddress.read? row.target
  return ⟨⟨source, target, row.code == interruptCode⟩, row.count, true⟩

/-- A row tells all of its entry but whether that is valid. -/
theorem Entry.entry?_row (e : Entry) : e.row.entry? = some { e with valid := true } := by
  have hcode : ((if e.transition.interrupt then interruptCode else "") == interruptCode) =
      e.transition.interrupt := by
    cases e.transition.interrupt <;> rfl
  simp [Row.entry?, row, Run.row, FarAddress.read?_text, hcode]

theorem Entry.row_eq_row_iff (e e' : Entry) :
    e.row = e'.row ↔
      e.transition.source = e'.transition.source ∧ e.transition.target = e'.transition.target ∧
        e.transition.interrupt = e'.transition.interrupt ∧ e.count = e'.count := by
  obtain ⟨⟨source, target, interrupt⟩, count, valid⟩ := e
  obtain ⟨⟨source', target', interrupt'⟩, count', valid'⟩ := e'
  constructor
  · intro h
    have hread := congrArg Row.entry? h
    simpa [entry?_row, and_assoc] using hread
  · rintro ⟨rfl, rfl, rfl, rfl⟩
    rfl

namespace Ring

theorem rows_eq_map_shown (r : Ring) : r.rows = r.shown.map Entry.row := by
  rw [shown_eq_map_runs, rows, List.map_map]
  rfl

theorem valid_of_mem_shown {r : Ring} {e : Entry} (h : e ∈ r.shown) : e.valid :=
  (List.mem_filter.mp h).2

/-- The entries are read back from the rows, in the same order. -/
theorem mapM_entry?_rows (r : Ring) : r.rows.mapM Row.entry? = some r.shown := by
  have hvalid : ∀ e ∈ r.shown, { e with valid := true } = e := by
    rintro ⟨t, n, valid⟩ he
    obtain rfl : valid = true := valid_of_mem_shown he
    rfl
  have hread : Row.entry? ∘ Entry.row = fun e => some { e with valid := true } :=
    funext Entry.entry?_row
  calc r.rows.mapM Row.entry?
      = r.shown.mapM fun e => some { e with valid := true } := by
        rw [rows_eq_map_shown, List.mapM_map, hread]
    _ = some (r.shown.map fun e => { e with valid := true }) := List.mapM_pure
    _ = some r.shown := by rw [List.map_congr_left hvalid, List.map_id']

theorem rows_eq_rows_iff (r r' : Ring) : r.rows = r'.rows ↔ r.shown = r'.shown := by
  constructor
  · intro h
    rw [← Option.some_inj, ← mapM_entry?_rows, h, mapM_entry?_rows]
  · intro h
    rw [rows_eq_map_shown, h, rows_eq_map_shown]

end Ring

/-- Rows lose nothing. Each address in the row of an entry is written with four upper-case digits, a
colon and four more, which stand for its segment and its offset, and in no other way. The row can be
read back, so that it determines the transition and the count. The rows of a ring are those of its
valid entries, oldest first, and determine them. -/
theorem rows_determine_entries :
    (∀ (e : Entry) (text : String),
      (text = e.row.source ↔ e.transition.source.WrittenAs text) ∧
        (text = e.row.target ↔ e.transition.target.WrittenAs text)) ∧
    (∀ e : Entry, e.row.entry? = some { e with valid := true }) ∧
    (∀ e e' : Entry, e.row = e'.row ↔
      e.transition.source = e'.transition.source ∧ e.transition.target = e'.transition.target ∧
        e.transition.interrupt = e'.transition.interrupt ∧ e.count = e'.count) ∧
    ∀ r : Ring, r.rows = r.shown.map Entry.row ∧ r.rows.length = r.shown.length ∧
      r.rows.mapM Row.entry? = some r.shown ∧
      ∀ r' : Ring, r.rows = r'.rows ↔ r.shown = r'.shown := by
  refine ⟨fun e text => ?addresses, Entry.entry?_row, Entry.row_eq_row_iff, fun r => ?rows⟩
  case addresses => exact ⟨FarAddress.writtenAs_iff.symm, FarAddress.writtenAs_iff.symm⟩
  case rows =>
    have hlength : r.rows.length = r.shown.length := by
      rw [r.rows_eq_map_shown, List.length_map]
    exact ⟨r.rows_eq_map_shown, hlength, r.mapM_entry?_rows, r.rows_eq_rows_iff⟩

end Branch
end V30Probe
