import Mathlib.Data.List.DropRight
import Mathlib.Data.List.Infix

/-! Histories, oldest first: what one says about its past, and how one more step changes that. -/

namespace V30Probe.History

variable {α γ : Type} {R P : List α → α → Prop}

/-- The steps after the last reset. -/
def since (reset : α → Bool) (xs : List α) : List α :=
  xs.rtakeWhile fun x => !reset x

/-- The value that was set last. -/
def latest (set? : α → Option γ) (xs : List α) : Option γ :=
  (xs.filterMap set?).getLast?

/-- Each step, with the steps before it. -/
def moments (xs : List α) : List (List α × α) :=
  xs.inits.zip xs

/-- Some step was a `P`, and no step after it was an `R`. Whether a step is one may depend on the
steps before it. -/
def Once (R P : List α → α → Prop) (xs : List α) : Prop :=
  ∃ before x after, xs = before ++ x :: after ∧ P before x ∧
    ∀ mid y rest, after = mid ++ y :: rest → ¬ R (before ++ x :: mid) y

theorem since_concat (reset : α → Bool) (xs : List α) (x : α) :
    since reset (xs ++ [x]) = if reset x then [] else since reset xs ++ [x] := by
  rw [since, List.rtakeWhile_concat]
  cases reset x <;> rfl

/-- Of what is picked from the steps after the last reset, one more step adds its own or leaves
nothing. -/
theorem filterMap_since_concat (reset : α → Bool) (pick? : α → Option γ) (xs : List α) (x : α) :
    (since reset (xs ++ [x])).filterMap pick? =
      if reset x then [] else (since reset xs).filterMap pick? ++ (pick? x).toList := by
  rw [since_concat]
  cases reset x with
  | true => rfl
  | false => cases h : pick? x <;> simp [h]

@[simp]
theorem latest_nil (set? : α → Option γ) : latest set? [] = none := rfl

theorem latest_concat (set? : α → Option γ) (xs : List α) (x : α) :
    latest set? (xs ++ [x]) = (set? x).or (latest set? xs) := by
  cases h : set? x <;> simp [latest, h]

theorem moments_concat (xs : List α) (x : α) : moments (xs ++ [x]) = moments xs ++ [(xs, x)] := by
  apply List.ext_getElem
  · simp [moments]
  · intro i hi hi'
    have hle : i ≤ xs.length := by
      simp [moments] at hi
      omega
    have hin : i < xs.inits.length := by simpa using Nat.lt_succ_of_le hle
    rcases Nat.lt_or_eq_of_le hle with hlt | rfl
    · simp [moments, hlt, List.getElem_append_left hin]
    · simp [moments, List.getElem_append_left hin]

@[simp]
theorem not_once_nil : ¬ Once R P [] := by
  rintro ⟨before, x, after, h, -⟩
  simp at h

/-- The last step either is a `P` itself or lets the past stand. -/
theorem once_concat (xs : List α) (x : α) :
    Once R P (xs ++ [x]) ↔ P xs x ∨ (¬ R xs x ∧ Once R P xs) := by
  constructor
  · rintro ⟨before, y, after, h, hP, hR⟩
    rcases List.eq_nil_or_concat' after with rfl | ⟨after, z, rfl⟩
    · obtain ⟨rfl, hx⟩ := List.append_inj' h rfl
      obtain rfl : x = y := by simpa using hx
      exact Or.inl hP
    · rw [← List.cons_append, ← List.append_assoc] at h
      obtain ⟨rfl, hx⟩ := List.append_inj' h rfl
      obtain rfl : x = z := by simpa using hx
      refine Or.inr ⟨hR after x [] rfl, before, y, after, rfl, hP, ?_⟩
      rintro mid w rest rfl
      exact hR mid w (rest ++ [x]) (by simp)
  · rintro (hP | ⟨hx, before, y, after, rfl, hP, hR⟩)
    · exact ⟨xs, x, [], rfl, hP, by simp⟩
    · refine ⟨before, y, after ++ [x], by simp, hP, ?_⟩
      intro mid w rest h
      rcases List.eq_nil_or_concat' rest with rfl | ⟨rest, v, rfl⟩
      · obtain ⟨rfl, hw⟩ := List.append_inj' h rfl
        obtain rfl : x = w := by simpa using hw
        exact hx
      · rw [← List.cons_append, ← List.append_assoc] at h
        exact hR mid w rest (List.append_inj' h rfl).1

/-- A history is tested step by step, the newest first. -/
def decidableOnceReverse [∀ l a, Decidable (R l a)] [∀ l a, Decidable (P l a)] :
    (ys : List α) → Decidable (Once R P ys.reverse)
  | [] => .isFalse not_once_nil
  | y :: ys =>
    have := decidableOnceReverse ys
    decidable_of_iff _ ((once_concat ys.reverse y).symm.trans (by rw [List.reverse_cons]))

instance [∀ l a, Decidable (R l a)] [∀ l a, Decidable (P l a)] (xs : List α) :
    Decidable (Once R P xs) :=
  have := decidableOnceReverse (R := R) (P := P) xs.reverse
  decidable_of_iff (Once R P xs.reverse.reverse) (by rw [List.reverse_reverse])

end V30Probe.History
