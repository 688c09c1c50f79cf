import V30Probe.Branch.Run
import Mathlib.Data.List.Chain

/-! Run-length encodings with a bound on the runs: every list of transitions has exactly one. -/

namespace V30Probe.Branch.Runs

variable {rs : List Run} {ts : List Transition} {r : Run} {t : Transition}

/-- The runs spell out the transitions, and each is as long as it can be: one is followed by
another of the same transition only if it is full. -/
structure Encodes (rs : List Run) (ts : List Transition) : Prop where
  expand : expand rs = ts
  count_pos : ∀ r ∈ rs, 1 ≤ r.count
  count_le : ∀ r ∈ rs, r.count ≤ countCeiling
  maximal : rs.IsChain fun r r' => r.transition = r'.transition → r.count = countCeiling

@[simp]
theorem expand_nil : expand [] = [] := rfl

theorem expand_concat (rs : List Run) (r : Run) :
    expand (rs ++ [r]) = expand rs ++ List.replicate r.count r.transition := by
  simp [expand]

/-- One more transition lengthens the last run, if that takes it. -/
theorem ofList_concat_longer (h : ofList ts = rs ++ [r]) (ha : r.absorbs t) :
    ofList (ts ++ [t]) = rs ++ [r.longer] := by
  have hn : newestFirst ts = r :: rs.reverse := by
    rw [← List.reverse_inj, ← ofList, h]
    simp
  simp [ofList, newestFirst_concat, hn, push, ha]

/-- Otherwise it starts a run. -/
theorem ofList_concat_single (h : ∀ r ∈ (ofList ts).getLast?, ¬ r.absorbs t) :
    ofList (ts ++ [t]) = ofList ts ++ [.single t] := by
  rw [ofList, List.getLast?_reverse] at h
  rw [ofList, ofList, newestFirst_concat]
  cases hn : newestFirst ts with
  | nil => rfl
  | cons r rs =>
    have ha : ¬ r.absorbs t := h r (by simp [hn])
    simp [push, ha]

theorem maximal_concat_iff :
    ((rs ++ [r]).IsChain fun a b => a.transition = b.transition → a.count = countCeiling) ↔
      (rs.IsChain fun a b => a.transition = b.transition → a.count = countCeiling) ∧
        ∀ a ∈ rs.getLast?, a.transition = r.transition → a.count = countCeiling := by
  rw [List.isChain_append]
  simp

/-- The encoding without its last run is an encoding of what comes before that run. -/
theorem Encodes.init (h : Encodes (rs ++ [r]) ts) : Encodes rs (Runs.expand rs) where
  expand := rfl
  count_pos a ha := h.count_pos a (List.mem_append_left _ ha)
  count_le a ha := h.count_le a (List.mem_append_left _ ha)
  maximal := (maximal_concat_iff.mp h.maximal).1

/-- The last run matters to the encoding by its transition and its count alone. -/
theorem Encodes.replace_last (h : Encodes (rs ++ [r]) ts) {q : Run}
    (ht : q.transition = r.transition) (hpos : 1 ≤ q.count) (hle : q.count ≤ countCeiling) :
    Encodes (rs ++ [q]) (Runs.expand rs ++ List.replicate q.count r.transition) where
  expand := by rw [expand_concat, ht]
  count_pos a ha := by
    rcases List.mem_append.mp ha with ha | ha
    · exact h.count_pos a (List.mem_append_left _ ha)
    · rwa [List.mem_singleton.mp ha]
  count_le a ha := by
    rcases List.mem_append.mp ha with ha | ha
    · exact h.count_le a (List.mem_append_left _ ha)
    · rwa [List.mem_singleton.mp ha]
  maximal := by
    have hm := maximal_concat_iff.mp h.maximal
    apply maximal_concat_iff.mpr
    rw [ht]
    exact hm

theorem Encodes.append_single (h : Encodes rs ts) (hlast : ∀ r ∈ rs.getLast?, ¬ r.absorbs t) :
    Encodes (rs ++ [.single t]) (ts ++ [t]) where
  expand := by rw [expand_concat, h.expand]; rfl
  count_pos a ha := by
    rcases List.mem_append.mp ha with ha | ha
    · exact h.count_pos a ha
    · simp [List.mem_singleton.mp ha, Run.single]
  count_le a ha := by
    rcases List.mem_append.mp ha with ha | ha
    · exact h.count_le a ha
    · simp [List.mem_singleton.mp ha, Run.single, countCeiling]
  maximal := by
    apply maximal_concat_iff.mpr
    refine ⟨h.maximal, ?_⟩
    intro a ha he
    have hle := h.count_le a (List.mem_of_getLast? ha)
    have hn : ¬ (a.transition = t ∧ a.count < countCeiling) := by
      rw [← a.absorbs_iff t]
      exact hlast a ha
    by_contra hne
    exact hn ⟨he, by omega⟩

theorem encodes_ofList (ts : List Transition) : Encodes (ofList ts) ts := by
  induction ts using List.reverseRecOn with
  | nil => constructor <;> simp [ofList, newestFirst]
  | append_singleton ts t ih =>
    by_cases h : ∃ r ∈ (ofList ts).getLast?, r.absorbs t
    · obtain ⟨r, hr, ha⟩ := h
      obtain ⟨rs, hrs⟩ := List.getLast?_eq_some_iff.mp hr
      rw [ofList_concat_longer hrs ha]
      rw [hrs] at ih
      rw [Run.absorbs_iff] at ha
      have hl := ih.replace_last (q := r.longer) rfl (Nat.succ_pos r.count) ha.2
      have he : expand rs ++ List.replicate r.longer.count r.transition = ts ++ [t] := by
        rw [← ih.expand, expand_concat, Run.longer, List.replicate_succ', ha.1, List.append_assoc]
      rwa [he] at hl
    · have hlast : ∀ r ∈ (ofList ts).getLast?, ¬ r.absorbs t := by
        intro r hr ha
        exact h ⟨r, hr, ha⟩
      rw [ofList_concat_single hlast]
      exact ih.append_single hlast

/-- There is no other encoding: the count of the last run tells how the last transition came in. -/
theorem Encodes.eq_ofList (h : Encodes rs ts) : rs = ofList ts := by
  induction ts using List.reverseRecOn generalizing rs with
  | nil =>
    rcases List.eq_nil_or_concat' rs with rfl | ⟨rs, r, rfl⟩
    · rfl
    · have hpos := h.count_pos r (by simp)
      have he := h.expand
      simp [expand_concat] at he
      omega
  | append_singleton ts t ih =>
    rcases List.eq_nil_or_concat' rs with rfl | ⟨rs, ⟨u, n⟩, rfl⟩
    · exact absurd h.expand (by simp)
    have hpos := h.count_pos ⟨u, n⟩ (by simp)
    have hle := h.count_le ⟨u, n⟩ (by simp)
    obtain ⟨n, rfl⟩ : ∃ m, n = m + 1 := ⟨n - 1, by simp at hpos; omega⟩
    obtain ⟨hts, rfl⟩ : Runs.expand rs ++ List.replicate n u = ts ∧ u = t := by
      have he := h.expand
      rw [expand_concat, List.replicate_succ', ← List.append_assoc] at he
      simpa using List.append_inj' he rfl
    cases n with
    | zero =>
      have hi : rs = ofList ts := ih (by simpa [← hts] using h.init)
      have hm := (maximal_concat_iff.mp h.maximal).2
      rw [ofList_concat_single, ← hi]
      · rfl
      · rw [← hi]
        intro a hlast ha
        rw [Run.absorbs_iff] at ha
        exact Nat.ne_of_lt ha.2 (hm a hlast ha.1)
    | succ n =>
      have hi : rs ++ [⟨u, n + 1⟩] = ofList ts := by
        apply ih
        rw [← hts]
        exact h.replace_last rfl (Nat.succ_pos n) (Nat.le_of_succ_le hle)
      rw [ofList_concat_longer hi.symm]
      · rfl
      · exact (Run.absorbs_iff _ _).mpr ⟨rfl, hle⟩

end V30Probe.Branch.Runs
