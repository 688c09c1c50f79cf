import Mathlib.Algebra.Order.Ring.Nat
import Mathlib.Data.List.Forall2
import V30Probe.Breakpoint

/-! Which addresses a breakpoint catches. Ports are told apart by their low eight bits, and their
ranges are taken in them; other addresses are told apart by all their bits. -/

namespace V30Probe

/-- How many addresses of the category can be told apart. -/
def Category.places (c : Category) : Nat :=
  if c.isPort then 256 else 2 ^ 32

namespace Breakpoint

variable {b b' : Breakpoint} {c : Category} {a a' : UInt32}

/-- Both bounds are the same, as far as addresses can be told apart. -/
structure SameBounds (places : Nat) (b b' : Breakpoint) : Prop where
  low : b.low.toNat % places = b'.low.toNat % places
  high : b.high.toNat % places = b'.high.toNat % places

/-- Of the address and of both bounds only the place counts. -/
theorem catches_iff (b : Breakpoint) (c : Category) (a : UInt32) :
    b.catches c a ↔ b.low.toNat % c.places ≤ a.toNat % c.places ∧
      a.toNat % c.places ≤ b.high.toNat % c.places := by
  rw [catches, Category.places]
  cases c.isPort with
  | true => exact b.coversPort_iff a
  | false =>
    have hlow : b.low.toNat % 2 ^ 32 = b.low.toNat := Nat.mod_eq_of_lt b.low.toNat_lt
    have ha : a.toNat % 2 ^ 32 = a.toNat := Nat.mod_eq_of_lt a.toNat_lt
    have hhigh : b.high.toNat % 2 ^ 32 = b.high.toNat := Nat.mod_eq_of_lt b.high.toNat_lt
    simp only [Bool.false_eq_true, if_false, hlow, ha, hhigh]
    exact b.covers_iff a

theorem catches_congr (hb : SameBounds c.places b b')
    (ha : a.toNat % c.places = a'.toNat % c.places) : b.catches c a = b'.catches c a' := by
  rw [Bool.eq_iff_iff, catches_iff, catches_iff, hb.low, hb.high, ha]

/-- The low bound is at a place behind that of the high one, whichever is the larger number. -/
theorem not_catches_of_lt (h : b.high.toNat % c.places < b.low.toNat % c.places) (a : UInt32) :
    b.catches c a = false := by
  apply eq_false_of_ne_true
  intro hcatch
  obtain ⟨hlow, hhigh⟩ := (b.catches_iff c a).mp hcatch
  omega

/-- A range that stays within one round of the places catches just what has the place of one of its
numbers. -/
theorem catches_iff_of_div_eq
    (hround : b.low.toNat / c.places = b.high.toNat / c.places) (a : UInt32) :
    b.catches c a ↔
      ∃ m, b.low.toNat ≤ m ∧ m ≤ b.high.toNat ∧ a.toNat % c.places = m % c.places := by
  have hlow := Nat.div_add_mod b.low.toNat c.places
  have hhigh := Nat.div_add_mod b.high.toNat c.places
  rw [← hround] at hhigh
  rw [catches_iff]
  constructor
  · rintro ⟨hla, hah⟩
    -- the number at the place of the address, in the round of the bounds
    refine ⟨c.places * (b.low.toNat / c.places) + a.toNat % c.places, ?_, ?_, ?_⟩
    · omega
    · omega
    · rw [Nat.mul_add_mod, Nat.mod_mod]
  · rintro ⟨m, hlm, hmh, hplace⟩
    have hm := Nat.div_add_mod m c.places
    have hle : b.low.toNat / c.places ≤ m / c.places := Nat.div_le_div_right hlm
    have hge : m / c.places ≤ b.low.toNat / c.places := by
      rw [hround]
      exact Nat.div_le_div_right hmh
    rw [Nat.le_antisymm hge hle] at hm
    rw [hplace]
    omega

/-- A breakpoint at one address catches the others at its place, and no more. -/
theorem catches_single_iff (logical : Bool) :
    catches ⟨a, a, logical⟩ c a' ↔ a'.toNat % c.places = a.toNat % c.places := by
  rw [catches_iff]
  constructor
  · rintro ⟨hlow, hhigh⟩
    exact Nat.le_antisymm hhigh hlow
  · intro hplace
    exact ⟨Nat.le_of_eq hplace.symm, Nat.le_of_eq hplace⟩

end Breakpoint

namespace BreakpointTable

variable {t u : BreakpointTable} {c : Category} {a a' : UInt32}

theorem hits_iff (t : BreakpointTable) (c : Category) (a : UInt32) :
    t.hits c a ↔ ∃ b ∈ t.list c, b.catches c a :=
  List.any_eq_true

/-- Neither the address nor a bound counts for more than its place. -/
theorem hits_congr
    (h : List.Forall₂ (Breakpoint.SameBounds c.places) (t.list c) (u.list c))
    (ha : a.toNat % c.places = a'.toNat % c.places) : t.hits c a = u.hits c a' := by
  rw [hits, hits]
  generalize t.list c = bs, u.list c = bs' at h
  induction h with
  | nil => rfl
  | cons hb _ ih => rw [List.any_cons, List.any_cons, ih, Breakpoint.catches_congr hb ha]

/-- Some table tells any two places apart. -/
theorem exists_hits_of_place_ne (h : a'.toNat % c.places ≠ a.toNat % c.places) :
    ∃ t : BreakpointTable, t.hits c a ∧ t.hits c a' = false := by
  refine ⟨empty.add c ⟨a, a, false⟩, ?_, ?_⟩
  · rw [hits_iff, list_add, if_pos rfl]
    exact ⟨⟨a, a, false⟩, by simp, (Breakpoint.catches_single_iff false).mpr rfl⟩
  · apply eq_false_of_ne_true
    rw [hits_iff, list_add, if_pos rfl]
    rintro ⟨b, hb, hcatch⟩
    obtain rfl : b = ⟨a, a, false⟩ := by simpa using hb
    exact h ((Breakpoint.catches_single_iff false).mp hcatch)

end BreakpointTable

/-- Ports: a table answers the same when a port or a bound is exchanged for one with the same low
eight bits. A range within one round of 256 catches just the ports that are congruent to one of its
numbers, and one whose low bound has the larger low eight bits catches none.

All other addresses: a range catches just the numbers from its low to its high bound, so none if
these are the wrong way round, and any two addresses are told apart by some table. -/
theorem ports_are_told_apart_modulo_256 :
    (∀ c : Category, c = .portRead ∨ c = .portWrite →
      (∀ (t u : BreakpointTable) (a a' : UInt32),
        List.Forall₂ (Breakpoint.SameBounds 256) (t.list c) (u.list c) →
          a.toNat % 256 = a'.toNat % 256 → t.hits c a = u.hits c a') ∧
      ∀ b : Breakpoint,
        (b.low.toNat / 256 = b.high.toNat / 256 → ∀ a, b.catches c a ↔
          ∃ m, b.low.toNat ≤ m ∧ m ≤ b.high.toNat ∧ a.toNat % 256 = m % 256) ∧
        (b.high.toNat % 256 < b.low.toNat % 256 → ∀ a, b.catches c a = false)) ∧
    (∀ c : Category, c ≠ .portRead → c ≠ .portWrite →
      (∀ (b : Breakpoint) (a : UInt32),
        b.catches c a ↔ b.low.toNat ≤ a.toNat ∧ a.toNat ≤ b.high.toNat) ∧
      (∀ b : Breakpoint, b.high < b.low → ∀ a, b.catches c a = false) ∧
      ∀ a a' : UInt32, a ≠ a' → ∃ t : BreakpointTable, t.hits c a ∧ t.hits c a' = false) ∧
    ∀ (t : BreakpointTable) (c : Category) (a : UInt32),
      t.hits c a ↔ ∃ b ∈ t.list c, b.catches c a := by
  refine ⟨?ports, ?others, BreakpointTable.hits_iff⟩
  case ports =>
    intro c hport
    have hplaces : c.places = 256 := if_pos (Category.isPort_iff.mpr hport)
    rw [← hplaces]
    refine ⟨?_, ?_⟩
    · intro t u a a' hbounds ha
      exact BreakpointTable.hits_congr hbounds ha
    · intro b
      refine ⟨?_, ?_⟩
      · intro hround a
        exact Breakpoint.catches_iff_of_div_eq hround a
      · intro hlt a
        exact Breakpoint.not_catches_of_lt hlt a
  case others =>
    intro c hread hwrite
    have hother : c.isPort = false :=
      eq_false_of_ne_true fun h => (Category.isPort_iff.mp h).elim hread hwrite
    have hcovers : ∀ (b : Breakpoint) (a : UInt32),
        b.catches c a ↔ b.low.toNat ≤ a.toNat ∧ a.toNat ≤ b.high.toNat := by
      intro b a
      rw [Breakpoint.catches, hother]
      exact b.covers_iff a
    refine ⟨hcovers, ?_, ?_⟩
    · intro b hlt a
      apply eq_false_of_ne_true
      rw [hcovers]
      rw [UInt32.lt_iff_toNat_lt] at hlt
      omega
    · intro a a' hne
      apply BreakpointTable.exists_hits_of_place_ne
      have hplaces : c.places = 2 ^ 32 := if_neg (ne_true_of_eq_false hother)
      rw [hplaces, Nat.mod_eq_of_lt a'.toNat_lt, Nat.mod_eq_of_lt a.toNat_lt]
      intro he
      exact hne (UInt32.toNat_inj.mp he).symm

/-- A range of ports within one round, one over its end, and the same range as addresses of
instructions. -/
theorem ports_of_range_over_end :
    let within : Breakpoint := ⟨0x1F0, 0x1F5, true⟩
    let across : Breakpoint := ⟨0x1F0, 0x205, false⟩
    let t := BreakpointTable.empty.add .portWrite within
    let u := BreakpointTable.empty.add .portWrite ⟨0x5F0, 0x2F5, false⟩
    (List.Forall₂ (Breakpoint.SameBounds 256) (t.list .portWrite) (u.list .portWrite) ∧
      t.hits .portWrite 0x7F3 = u.hits .portWrite 0xF3) ∧
    (within.low.toNat / 256 = within.high.toNat / 256 ∧ within.catches .portWrite 0x7F3) ∧
    (across.high.toNat % 256 < across.low.toNat % 256 ∧ across.catches .portWrite 0x200 = false) ∧
    across.catches .pc 0x200 ∧
    ∃ t : BreakpointTable, t.hits .pc 0x200 ∧ t.hits .pc 0x100 = false := by
  intro within across t u
  obtain ⟨hports, hothers, -⟩ := ports_are_told_apart_modulo_256
  obtain ⟨hsame, hranges⟩ := hports .portWrite (Or.inr rfl)
  obtain ⟨hcovers, -, hapart⟩ := hothers .pc (by decide) (by decide)
  have hbounds :
      List.Forall₂ (Breakpoint.SameBounds 256) (t.list .portWrite) (u.list .portWrite) :=
    .cons ⟨by decide, by decide⟩ .nil
  have hround : within.low.toNat / 256 = within.high.toNat / 256 := by decide
  have hlt : across.high.toNat % 256 < across.low.toNat % 256 := by decide
  refine ⟨⟨hbounds, hsame t u _ _ hbounds (by decide)⟩, ⟨hround, ?_⟩, ⟨hlt, ?_⟩, ?_, ?_⟩
  · exact ((hranges within).1 hround 0x7F3).mpr ⟨0x1F3, by decide, by decide, by decide⟩
  · exact (hranges across).2 hlt 0x200
  · exact (hcovers across 0x200).mpr (by decide)
  · exact hapart 0x200 0x100 (by decide)

end V30Probe
