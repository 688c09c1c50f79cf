import Mathlib.Data.List.DropRight
import V30Probe.Category.Reader

/-! Text without the blanks at its ends: what is taken off, and what stays. -/

namespace V30Probe.Blank

variable {cs before after : List Char} {x : Char}

theorem dropWhile_append_of_exists {xs : List Char} (h : ∃ x ∈ xs, isBlank x = false)
    (ys : List Char) : (xs ++ ys).dropWhile isBlank = xs.dropWhile isBlank ++ ys := by
  have hne : xs.dropWhile isBlank ≠ [] := by
    intro hnil
    obtain ⟨x, hx, hb⟩ := h
    have hall := List.dropWhile_eq_nil_iff.mp hnil x hx
    rw [hb] at hall
    exact absurd hall Bool.false_ne_true
  rw [List.dropWhile_append, if_neg (by simpa using hne)]

theorem trim_blank_append (h : ∀ x ∈ before, isBlank x) : trim (before ++ cs) = trim cs := by
  rw [trim, trim, List.dropWhile_append_of_pos h]

theorem trim_append_blank (h : ∀ x ∈ after, isBlank x) : trim (cs ++ after) = trim cs := by
  by_cases hcs : ∃ x ∈ cs, isBlank x = false
  · have hafter : ∀ x ∈ after.reverse, isBlank x := by simpa using h
    rw [trim, trim, dropWhile_append_of_exists hcs, List.reverse_append,
      List.dropWhile_append_of_pos hafter]
  · have hall : ∀ x ∈ cs, isBlank x := by simpa using hcs
    have hall' : ∀ x ∈ cs ++ after, isBlank x := by
      intro x hx
      exact (List.mem_append.mp hx).elim (hall x) (h x)
    rw [trim, trim, List.dropWhile_eq_nil_iff.mpr hall, List.dropWhile_eq_nil_iff.mpr hall']

theorem trim_eq_self (h : ∀ x ∈ cs, isBlank x = false) : trim cs = cs := by
  have hself : ∀ xs : List Char, (∀ x ∈ xs, isBlank x = false) → xs.dropWhile isBlank = xs := by
    intro xs hxs
    rw [List.dropWhile_eq_self_iff]
    intro hl
    simp [hxs _ (List.getElem_mem hl)]
  rw [trim, hself cs h, hself cs.reverse (by simpa using h), List.reverse_reverse]

/-- Only blanks are taken off. -/
theorem exists_eq_append_trim (cs : List Char) :
    ∃ before after, cs = before ++ trim cs ++ after ∧ (∀ x ∈ before, isBlank x) ∧
      ∀ x ∈ after, isBlank x := by
  refine ⟨cs.takeWhile isBlank, (cs.dropWhile isBlank).rtakeWhile isBlank, ?_, ?_, ?_⟩
  · have hright : trim cs ++ (cs.dropWhile isBlank).rtakeWhile isBlank = cs.dropWhile isBlank :=
      List.rdropWhile_append_rtakeWhile
    rw [List.append_assoc, hright, List.takeWhile_append_dropWhile]
  · intro x hx
    exact List.mem_takeWhile_imp hx
  · intro x hx
    exact List.mem_rtakeWhile_imp hx

theorem mem_trim (hx : x ∈ cs) (hb : isBlank x = false) : x ∈ trim cs := by
  obtain ⟨before, after, h, hbefore, hafter⟩ := exists_eq_append_trim cs
  rw [h, List.mem_append, List.mem_append] at hx
  rcases hx with (hx | hx) | hx
  · exact absurd (hbefore x hx) (by simp [hb])
  · exact hx
  · exact absurd (hafter x hx) (by simp [hb])

/-- What stands between characters that are not blank stays. -/
theorem mem_trim_of_between (hbefore : ∃ x ∈ before, isBlank x = false)
    (hafter : ∃ x ∈ after, isBlank x = false) : x ∈ trim (before ++ x :: after) := by
  have hafter' : ∃ y ∈ after.reverse, isBlank y = false := by simpa using hafter
  rw [trim, dropWhile_append_of_exists hbefore, List.reverse_append, List.reverse_cons,
    List.append_assoc, dropWhile_append_of_exists hafter']
  simp

theorem isBlank_of_printable {c : Char} (hlow : 0x21 ≤ c.toNat) (hhigh : c.toNat ≤ 0x7E) :
    isBlank c = false := by
  simp only [isBlank, ranges, List.any_cons, List.any_nil, Bool.or_eq_false_iff,
    Bool.and_eq_false_iff, decide_eq_false_iff_not, and_true]
  omega

theorem toNat_of_isUpper {c : Char} (h : c.isUpper) : 65 ≤ c.toNat ∧ c.toNat ≤ 90 := by
  obtain ⟨hlow, hhigh⟩ : 'A'.val ≤ c.val ∧ c.val ≤ 'Z'.val := of_decide_eq_true h
  exact ⟨UInt32.le_iff_toNat_le.mp hlow, UInt32.le_iff_toNat_le.mp hhigh⟩

theorem toNat_toLower_of_isUpper {c : Char} (h : c.isUpper) : c.toLower.toNat = c.toNat + 32 := by
  have hlt : c.val.toNat + 32 < 2 ^ 32 := by
    have hle : c.val.toNat ≤ 90 := (toNat_of_isUpper h).2
    omega
  have hval : c.toLower = ⟨c.val + 32, _⟩ := dif_pos (of_decide_eq_true h)
  rw [hval]
  exact (UInt32.toNat_add c.val 32).trans (Nat.mod_eq_of_lt hlt)

theorem toLower_of_not_isUpper {c : Char} (h : ¬ c.isUpper) : c.toLower = c :=
  dif_neg fun hupper => h (decide_eq_true hupper)

/-- The case of a letter has no bearing on where text begins and ends. -/
theorem isBlank_toLower (c : Char) : isBlank c.toLower = isBlank c := by
  by_cases h : c.isUpper
  · obtain ⟨hlow, hhigh⟩ := toNat_of_isUpper h
    have hlower : c.toLower.toNat = c.toNat + 32 := toNat_toLower_of_isUpper h
    rw [isBlank_of_printable (c := c) (by omega) (by omega),
      isBlank_of_printable (c := c.toLower) (by omega) (by omega)]
  · rw [toLower_of_not_isUpper h]

theorem trim_map_toLower (cs : List Char) :
    trim (cs.map Char.toLower) = (trim cs).map Char.toLower := by
  have hsame : isBlank ∘ Char.toLower = isBlank := funext isBlank_toLower
  simp only [trim, List.dropWhile_map, hsame, ← List.map_reverse]

end V30Probe.Blank
