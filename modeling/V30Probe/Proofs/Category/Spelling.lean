import V30Probe.Proofs.Text.Trim

/-! Which texts name a category: a name or an alias in letters of either case, with blanks around
it, and no other text. -/

namespace V30Probe.Category

open V30Probe.Blank (isBlank)

/-- The names of a category beside its own. -/
def aliases : Category → List String
  | .portRead => ["io-read"]
  | .portWrite => ["io-write"]
  | _ => []

/-- The text is a name of the category in letters of either case, with blanks around it. -/
def Spells (text : String) (c : Category) : Prop :=
  ∃ before core after, text.toList = before ++ core ++ after ∧
    (∀ x ∈ before, isBlank x) ∧ (∀ x ∈ after, isBlank x) ∧
    String.ofList (core.map Char.toLower) ∈ c.name :: c.aliases

/-- The characters that names are made of. -/
def nameCharacters : List Char :=
  '-' :: ['a', 'c', 'd', 'e', 'i', 'o', 'p', 'r', 't', 'u', 'w', 'x']

section Spellings

variable {name text : String} {c : Category}

theorem lookup_spellings_iff : spellings.lookup name = some c ↔ name ∈ c.name :: c.aliases := by
  constructor
  · intro h
    obtain ⟨before, after, hlist, -⟩ := List.lookup_eq_some_iff.mp h
    have hmem : (name, c) ∈ spellings := hlist ▸ by simp
    have hall : ∀ s ∈ spellings, s.1 ∈ s.2.name :: s.2.aliases := by decide
    exact hall (name, c) hmem
  · have hall : ∀ s ∈ c.name :: c.aliases, spellings.lookup s = some c := by
      cases c <;> decide
    exact hall name

/-- Names are written in lower-case letters and hyphens. -/
theorem mem_nameCharacters (h : spellings.lookup name = some c) {x : Char} (hx : x ∈ name.toList) :
    x ∈ nameCharacters := by
  have hall : ∀ s ∈ c.name :: c.aliases, s.toList.all (nameCharacters.contains ·) := by
    cases c <;> decide
  have hname := hall name (lookup_spellings_iff.mp h)
  exact List.contains_iff_mem.mp (List.all_eq_true.mp hname x hx)

theorem read_eq_ok_iff_lookup : read text = .ok c ↔ spellings.lookup (normalize text) = some c := by
  rw [read]
  cases spellings.lookup (normalize text) <;> simp

theorem toOption_read (text : String) :
    (read text).toOption = spellings.lookup (normalize text) := by
  rw [read]
  cases spellings.lookup (normalize text) <;> rfl

theorem toList_normalize (text : String) :
    (normalize text).toList = Blank.trim (text.toList.map Char.toLower) := by
  rw [normalize, String.toList_ofList, Blank.trim_map_toLower]

theorem toLower_mem_nameCharacters (h : read text = .ok c) {x : Char}
    (hx : x ∈ Blank.trim text.toList) : x.toLower ∈ nameCharacters := by
  apply mem_nameCharacters (read_eq_ok_iff_lookup.mp h)
  rw [normalize, String.toList_ofList]
  exact List.mem_map_of_mem hx

theorem isBlank_of_toLower_mem {x : Char} (h : x.toLower ∈ nameCharacters) : isBlank x = false := by
  have hall : nameCharacters.all (!isBlank ·) := by decide
  rw [← Blank.isBlank_toLower]
  simpa using List.all_eq_true.mp hall _ h

theorem toNat_lt_of_toLower_mem {x : Char} (h : x.toLower ∈ nameCharacters) : x.toNat < 128 := by
  have hall : nameCharacters.all (·.toNat < 128) := by decide
  by_cases hupper : x.isUpper
  · have hle : x.toNat ≤ 90 := (Blank.toNat_of_isUpper hupper).2
    omega
  · rw [Blank.toLower_of_not_isUpper hupper] at h
    simpa using List.all_eq_true.mp hall x h

/-- A text names a category just if it is a spelling of one of its names. -/
theorem read_eq_ok_iff : read text = .ok c ↔ Spells text c := by
  rw [read_eq_ok_iff_lookup]
  constructor
  · intro h
    obtain ⟨before, after, hlist, hbefore, hafter⟩ := Blank.exists_eq_append_trim text.toList
    exact ⟨before, _, after, hlist, hbefore, hafter, lookup_spellings_iff.mp h⟩
  · rintro ⟨before, core, after, hlist, hbefore, hafter, hname⟩
    have hlookup := lookup_spellings_iff.mpr hname
    -- names hold no blanks, so that the core is all that is left of the text
    have hcore : ∀ x ∈ core, isBlank x = false := by
      intro x hx
      apply isBlank_of_toLower_mem
      apply mem_nameCharacters hlookup
      rw [String.toList_ofList]
      exact List.mem_map_of_mem hx
    rw [normalize, hlist, Blank.trim_append_blank hafter, Blank.trim_blank_append hbefore,
      Blank.trim_eq_self hcore]
    exact hlookup

theorem read_eq_error_iff {e : CategoryError} :
    read text = .error e ↔ e = .unknownName text ∧ ∀ c, ¬ Spells text c := by
  have hok : (∀ c, ¬ Spells text c) ↔ spellings.lookup (normalize text) = none := by
    simp only [← read_eq_ok_iff, read_eq_ok_iff_lookup, Option.eq_none_iff_forall_ne_some, ne_eq]
  rw [hok, read]
  cases spellings.lookup (normalize text) <;> simp [eq_comm]

theorem toOption_read_append {before after : List Char} (hbefore : ∀ x ∈ before, isBlank x)
    (hafter : ∀ x ∈ after, isBlank x) :
    (read (String.ofList before ++ text ++ String.ofList after)).toOption = (read text).toOption := by
  rw [toOption_read, toOption_read, normalize, String.toList_append, String.toList_append,
    String.toList_ofList, String.toList_ofList, Blank.trim_append_blank hafter,
    Blank.trim_blank_append hbefore, normalize]

theorem toOption_read_congr {other : String}
    (h : other.toList.map Char.toLower = text.toList.map Char.toLower) :
    (read other).toOption = (read text).toOption := by
  have hnormal : normalize other = normalize text := by
    apply String.toList_injective
    rw [toList_normalize, toList_normalize, h]
  rw [toOption_read, toOption_read, hnormal]

theorem read_eq_error_of_mem {x : Char} (hx : x ∈ Blank.trim text.toList)
    (h : x.toLower ∉ nameCharacters) : read text = .error (.unknownName text) := by
  refine read_eq_error_iff.mpr ⟨rfl, ?_⟩
  intro c hc
  exact h (toLower_mem_nameCharacters (read_eq_ok_iff.mpr hc) hx)

end Spellings

/-- A text is read as a category just if it is one of its names, in letters of either case and with
blanks around it. Any other text is reported as it stands. So blanks around a text and the case of
its letters do not matter, and a text is refused that has a blank inside or a character beyond
ASCII. -/
theorem names_are_read_loosely (text : String) :
    (∀ c, read text = .ok c ↔ Spells text c) ∧
    (∀ e, read text = .error e ↔ e = .unknownName text ∧ ∀ c, ¬ Spells text c) ∧
    (∀ before after, (∀ x ∈ before, isBlank x) → (∀ x ∈ after, isBlank x) →
      (read (String.ofList before ++ text ++ String.ofList after)).toOption =
        (read text).toOption) ∧
    (∀ other : String, other.toList.map Char.toLower = text.toList.map Char.toLower →
      (read other).toOption = (read text).toOption) ∧
    (∀ before x after, text.toList = before ++ x :: after → isBlank x →
      (∃ y ∈ before, isBlank y = false) → (∃ y ∈ after, isBlank y = false) →
        read text = .error (.unknownName text)) ∧
    (∀ x ∈ text.toList, isBlank x = false → 128 ≤ x.toNat →
      read text = .error (.unknownName text)) ∧
    ∀ c before core after, text.toList = before ++ core ++ after → (∀ x ∈ before, isBlank x) →
      (∀ x ∈ after, isBlank x) → core.map Char.toLower = c.name.toList → read text = .ok c := by
  refine ⟨fun c => read_eq_ok_iff, fun e => read_eq_error_iff,
    fun before after hbefore hafter => toOption_read_append hbefore hafter,
    fun other h => toOption_read_congr h, ?inner, ?beyond, ?padded⟩
  case inner =>
    intro before x after htext hx hbefore hafter
    have hmem : x ∈ Blank.trim text.toList := htext ▸ Blank.mem_trim_of_between hbefore hafter
    apply read_eq_error_of_mem hmem
    intro hname
    exact absurd hx (by simp [isBlank_of_toLower_mem hname])
  case beyond =>
    intro x hx hb hascii
    apply read_eq_error_of_mem (Blank.mem_trim hx hb)
    intro hname
    exact absurd (toNat_lt_of_toLower_mem hname) (Nat.not_lt_of_le hascii)
  case padded =>
    intro c before core after htext hbefore hafter hcore
    refine read_eq_ok_iff.mpr ⟨before, core, after, htext, hbefore, hafter, ?_⟩
    rw [hcore, String.ofList_toList]
    exact List.mem_cons_self

/-- An ideographic space in front, capitals and a line feed behind; a blank for the hyphen; and a
letter of full width. -/
theorem padded_names_are_read :
    read "\u3000 Io-READ\n" = .ok .portRead ∧
      (read "\u3000 Io-READ\n").toOption = (read "Io-READ").toOption ∧
      (read "Io-READ").toOption = (read "io-read").toOption ∧
      read " PORT write" = .error (.unknownName " PORT write") ∧
      read "\uFF50c" = .error (.unknownName "\uFF50c") ∧
      read "\tAux-Write\u2028" = .ok .auxWrite := by
  obtain ⟨hok, -⟩ := names_are_read_loosely "\u3000 Io-READ\n"
  obtain ⟨-, -, hblank, -⟩ := names_are_read_loosely "Io-READ"
  obtain ⟨-, -, -, hcase, -⟩ := names_are_read_loosely "io-read"
  obtain ⟨-, -, -, -, hinner, -⟩ := names_are_read_loosely " PORT write"
  obtain ⟨-, -, -, -, -, hbeyond, -⟩ := names_are_read_loosely "\uFF50c"
  obtain ⟨-, -, -, -, -, -, hpadded⟩ := names_are_read_loosely "\tAux-Write\u2028"
  refine ⟨?_, ?_, ?_, ?_, ?_, ?_⟩
  · exact (hok .portRead).mpr ⟨['\u3000', ' '], "Io-READ".toList, ['\n'], by decide,
      List.all_eq_true.mp (by decide), List.all_eq_true.mp (by decide), by decide⟩
  · exact hblank ['\u3000', ' '] ['\n'] (List.all_eq_true.mp (by decide))
      (List.all_eq_true.mp (by decide))
  · exact hcase "Io-READ" (by decide)
  · exact hinner " PORT".toList ' ' "write".toList (by decide) (by decide)
      ⟨'P', by decide, by decide⟩ ⟨'w', by decide, by decide⟩
  · exact hbeyond '\uFF50' (by decide) (by decide) (by decide)
  · exact hpadded .auxWrite ['\t'] "Aux-Write".toList ['\u2028'] (by decide)
      (List.all_eq_true.mp (by decide)) (List.all_eq_true.mp (by decide)) (by decide)

end V30Probe.Category
