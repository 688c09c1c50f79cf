import Mathlib.Algebra.Ring.Nat
import Mathlib.Data.List.Induction
import V30Probe.Text

/-! Reading hexadecimal digits back gives the number, as far as it fits in them. Upper-case digits
are determined by their number and the number that they stand for. -/

namespace V30Probe.Hex

/-- The sixteen digits, with upper-case letters. -/
def upperDigits : List Char :=
  ['0', '1', '2', '3', '4', '5', '6', '7', '8', '9', 'A', 'B', 'C', 'D', 'E', 'F']

theorem value?_concat (cs : List Char) (c : Char) :
    value? (cs ++ [c]) = (value? cs).bind fun n => (digitValue? c).map (16 * n + ·) := by
  simp [value?, List.foldlM_append]

/-- Reading undoes writing, up to the digits that did not fit. -/
theorem value?_digits (letters : Letters) (w n : Nat) :
    value? (digits letters w n) = some (n % 16 ^ w) := by
  induction w generalizing n with
  | zero => simp [digits, value?, Nat.mod_one]
  | succ w ih =>
    have hw : digitValue? (digit letters (n % 16)) = some (n % 16) :=
      digitValue?_digit letters (Nat.mod_lt n (by decide))
    rw [digits, value?_concat, ih, hw, Nat.pow_succ', Nat.mod_mul]
    simp only [Option.bind_some, Option.map_some, Option.some.injEq]
    omega

theorem upperDigits_eq : upperDigits = (List.range 16).map (digit .upper) := rfl

theorem mem_upperDigits_iff {c : Char} : c ∈ upperDigits ↔ ∃ n < 16, digit .upper n = c := by
  simp only [upperDigits_eq, List.mem_map, List.mem_range]

theorem digits_subset_upperDigits (w n : Nat) : digits .upper w n ⊆ upperDigits := by
  induction w generalizing n with
  | zero => exact List.nil_subset _
  | succ w ih =>
    have hlast : digit .upper (n % 16) ∈ upperDigits :=
      mem_upperDigits_iff.mpr ⟨n % 16, Nat.mod_lt n (by decide), rfl⟩
    rw [digits, List.append_subset, List.cons_subset]
    exact ⟨ih (n / 16), hlast, List.nil_subset _⟩

/-- Upper-case digits are those that are written for the number that is read from them. -/
theorem digits_eq_of_value? {cs : List Char} {n : Nat} (hc : cs ⊆ upperDigits)
    (hn : value? cs = some n) : digits .upper cs.length n = cs := by
  induction cs using List.reverseRecOn generalizing n with
  | nil => rfl
  | append_singleton cs c ih =>
    obtain ⟨hcs, hlast⟩ := List.append_subset.mp hc
    obtain ⟨d, hd, hdigit⟩ := mem_upperDigits_iff.mp (hlast (List.mem_singleton_self c))
    have hvalue : digitValue? c = some d := hdigit ▸ digitValue?_digit .upper hd
    rw [value?_concat, Option.bind_eq_some_iff] at hn
    obtain ⟨m, hm, hn⟩ := hn
    obtain rfl : 16 * m + d = n := by simpa [hvalue] using hn
    have hdiv : (16 * m + d) / 16 = m := by omega
    have hmod : (16 * m + d) % 16 = d := by omega
    rw [List.length_append, List.length_singleton, digits, hdiv, hmod, ih hcs hm, hdigit]

end V30Probe.Hex
