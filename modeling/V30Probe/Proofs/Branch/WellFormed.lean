import V30Probe.Proofs.Branch.Slots

/-! The shape that the slots of a ring keep to, whatever is done to it. There is no slot of that shape
that a ring cannot reach. -/

/-- A list of which just the first places are empty is made of these and of its values. -/
theorem List.eq_replicate_none_append_some {α : Type} {l : List (Option α)} {m : Nat}
    (hm : m ≤ l.length) (h : ∀ i v, l[i]? = some v → (v.isSome ↔ m ≤ i)) :
    l = List.replicate m none ++ l.reduceOption.map some := by
  induction l generalizing m with
  | nil => simpa using hm
  | cons v l ih =>
    have hv := h 0 v rfl
    have hl := fun i v => h (i + 1) v
    cases m with
    | zero =>
      obtain ⟨x, rfl⟩ := Option.isSome_iff_exists.mp (hv.mpr le_rfl)
      have hrest := ih (Nat.zero_le _) (by simpa using hl)
      simpa using hrest
    | succ m =>
      obtain rfl : v = none := by simpa using hv
      have hrest := ih (Nat.le_of_succ_le_succ hm) (by simpa using hl)
      simpa [List.replicate_succ] using hrest

namespace V30Probe.Branch

namespace Entry

/-- What is in a slot that shows the entry. -/
def toSlot (e : Entry) : Option Run :=
  if e.valid then some ⟨e.transition, e.count⟩ else none

theorem ofSlot_toSlot {e : Entry} (h : ¬ e.valid → e = blank) : ofSlot e.toSlot = e := by
  obtain ⟨t, n, valid⟩ := e
  cases valid with
  | false => exact (h (by simp)).symm
  | true => rfl

end Entry

namespace Slots

/-- The shape of the slots. They are filled in turn from the first one, and the empty ones are blank.
An older entry is followed by one of the same transition only if it is full. -/
structure WellFormed (s : Slots) : Prop where
  writeIndex_lt : s.writeIndex < s.capacity
  filled : (∀ e ∈ s.entries, e.valid) ∨
    ∀ i e, s.entries[i]? = some e → (e.valid ↔ i < s.writeIndex)
  blank : ∀ e ∈ s.entries, ¬ e.valid → e = Entry.blank
  count : ∀ e ∈ s.entries, e.valid → 1 ≤ e.count ∧ e.count ≤ countCeiling
  apart : ∃ es, s.shown? = some es ∧ es.IsChain fun older newer =>
    older.transition = newer.transition → older.count = countCeiling

/-- The runs in the slots. -/
def ring (s : Slots) : Ring := ⟨s.entries.map Entry.toSlot, s.writeIndex, s.enabled⟩

end Slots

/-- Another run may go before all others if it is full. -/
theorem Runs.Encodes.cons_full {rs : List Run} {ts : List Transition} (h : Encodes rs ts)
    (t : Transition) :
    Encodes (⟨t, countCeiling⟩ :: rs) (List.replicate countCeiling t ++ ts) where
  expand := by rw [← h.expand]; rfl
  count_pos := List.forall_mem_cons.mpr ⟨(by decide : 1 ≤ countCeiling), h.count_pos⟩
  count_le := List.forall_mem_cons.mpr ⟨le_rfl, h.count_le⟩
  maximal := List.isChain_cons.mpr ⟨fun _ _ _ => rfl, h.maximal⟩

theorem Runs.Encodes.exists_replicate_append {rs : List Run} {ts : List Transition}
    (h : Encodes rs ts) (n : Nat) (t : Transition) :
    ∃ ts, Encodes (List.replicate n ⟨t, countCeiling⟩ ++ rs) ts := by
  induction n with
  | zero => exact ⟨ts, h⟩
  | succ n ih =>
    obtain ⟨ts, hts⟩ := ih
    exact ⟨_, hts.cons_full t⟩

namespace Ring

variable {r r' : Ring} {rs : List Run} {ts : List Transition} {i : Nat}

/-! ### What is reached is well formed -/

/-- Some place of the tape, in any full round, lies in a given slot. -/
theorem exists_place (r : Ring) (m : Nat) (hi : i < r.capacity) :
    ∃ k, m ≤ k ∧ k < m + r.capacity ∧ k % r.capacity = i := by
  have hplace : i ∈ (Finset.Ico m (m + r.capacity)).image (· % r.capacity) := by
    rw [Nat.image_Ico_mod]
    exact Finset.mem_range.mpr hi
  obtain ⟨k, hround, hk⟩ := Finset.mem_image.mp hplace
  obtain ⟨hlow, hhigh⟩ := Finset.mem_Ico.mp hround
  exact ⟨k, hlow, hhigh, hk⟩

/-- A slot holds what was written last in its place, in the round before the next write. -/
theorem Keeps.slot_eq (h : r.Keeps rs) (hi : i < r.capacity) :
    ∃ k, rs.length ≤ k ∧ k < rs.length + r.capacity ∧ k % r.capacity = i ∧
      r.slot i = if k < r.capacity then none else rs[k - r.capacity]? := by
  obtain ⟨k, hk, hk', rfl⟩ := r.exists_place rs.length hi
  exact ⟨k, hk, hk', rfl, by rw [h.slot k hk hk', join_getElem?_tape]⟩

/-- A slot is taken if the log has gone around the ring, or has come as far as the slot. -/
theorem Keeps.isSome_slot_iff (h : r.Keeps rs) (hi : i < r.capacity) :
    (r.slot i).isSome ↔ r.capacity ≤ rs.length ∨ i < rs.length := by
  obtain ⟨k, hk, hk', hki, hs⟩ := h.slot_eq hi
  by_cases hlt : k < r.capacity
  · have hempty : ¬ (r.slot i).isSome := by simp [hs, hlt]
    rw [Nat.mod_eq_of_lt hlt] at hki
    exact iff_of_false hempty (by omega)
  · have htaken : (r.slot i).isSome := by
      have hrun : k - r.capacity < rs.length := by omega
      simp [hs, hlt, hrun]
    refine iff_of_true htaken ?_
    by_cases hfull : r.capacity ≤ rs.length
    · exact Or.inl hfull
    · rw [Nat.mod_eq_sub_mod (by omega), Nat.mod_eq_of_lt (by omega)] at hki
      omega

/-- Until there are as many runs as slots, the slots behind the write index are empty. -/
theorem Keeps.filled (h : r.Keeps rs) :
    (∀ i < r.capacity, (r.slot i).isSome) ∨
      ∀ i < r.capacity, ((r.slot i).isSome ↔ i < r.writeIndex) := by
  by_cases hfull : r.capacity ≤ rs.length
  · exact Or.inl fun i hi => (h.isSome_slot_iff hi).mpr (Or.inl hfull)
  · have hw : r.writeIndex = rs.length := by
      rw [h.writeIndex, Nat.mod_eq_of_lt (by omega)]
    refine Or.inr fun i hi => ?_
    rw [h.isSome_slot_iff hi, hw]
    exact or_iff_right hfull

theorem Keeps.mem_of_slot {run : Run} (h : r.Keeps rs) (hi : i < r.capacity)
    (hs : r.slot i = some run) : run ∈ rs := by
  obtain ⟨k, -, -, -, hk⟩ := h.slot_eq hi
  rw [hk] at hs
  split at hs
  · cases hs
  · exact List.mem_of_getElem? hs

theorem getElem?_layout_eq_some_iff {e : Entry} :
    r.layout.entries[i]? = some e ↔ i < r.capacity ∧ Entry.ofSlot (r.slot i) = e := by
  by_cases hi : i < r.capacity
  · simp [getElem?_layout hi, hi]
  · have hnone : r.layout.entries[i]? = none := by
      rw [Array.getElem?_eq_none_iff, ← Slots.capacity, capacity_layout]
      omega
    simp [hnone, hi]

theorem mem_layout_iff {e : Entry} :
    e ∈ r.layout.entries ↔ ∃ i < r.capacity, Entry.ofSlot (r.slot i) = e := by
  rw [Array.mem_iff_getElem?]
  exact exists_congr fun i => getElem?_layout_eq_some_iff

theorem filled_layout_iff :
    ((∀ e ∈ r.layout.entries, e.valid) ∨
      ∀ i e, r.layout.entries[i]? = some e → (e.valid ↔ i < r.layout.writeIndex)) ↔
    ((∀ i < r.capacity, (r.slot i).isSome) ∨
      ∀ i < r.capacity, ((r.slot i).isSome ↔ i < r.writeIndex)) := by
  have hall : (∀ e ∈ r.layout.entries, e.valid) ↔ ∀ i < r.capacity, (r.slot i).isSome := by
    simp [mem_layout_iff]
  have hfirst : (∀ i e, r.layout.entries[i]? = some e → (e.valid ↔ i < r.layout.writeIndex)) ↔
      ∀ i < r.capacity, ((r.slot i).isSome ↔ i < r.writeIndex) := by
    simp [getElem?_layout_eq_some_iff]
  exact or_congr hall hfirst

theorem Keeps.wellFormed (h : r.Keeps rs) (he : Runs.Encodes rs ts) : r.layout.WellFormed where
  writeIndex_lt := by
    rw [capacity_layout]
    exact h.writeIndex_lt
  filled := filled_layout_iff.mpr h.filled
  blank e he hvalid := by
    obtain ⟨i, -, rfl⟩ := mem_layout_iff.mp he
    cases hs : r.slot i with
    | none => rfl
    | some run => exact absurd rfl (hs ▸ hvalid)
  count e hmem hvalid := by
    obtain ⟨i, hi, rfl⟩ := mem_layout_iff.mp hmem
    cases hs : r.slot i with
    | none => simp [hs] at hvalid
    | some run =>
      have hrun := h.mem_of_slot hi hs
      exact ⟨he.count_pos run hrun, he.count_le run hrun⟩
  apart := by
    refine ⟨r.shown, shown?_layout h.capacity_pos, ?_⟩
    rw [shown_eq_map_runs, h.runs, List.isChain_map]
    exact he.maximal.suffix (List.drop_suffix _ _)

/-! ### What is well formed is reached -/

/-- A ring keeps a log if its slots are the end of the tape, once around from the write index. -/
theorem keeps_of_window (hpos : 0 < r.capacity) (hw : r.writeIndex = rs.length % r.capacity)
    (h : r.window = (tape r.capacity rs).drop rs.length) : r.Keeps rs where
  capacity_pos := hpos
  writeIndex := hw
  slot k hk hk' := by
    have hround : (k - rs.length + r.writeIndex) % r.capacity = k % r.capacity := by
      rw [hw, Nat.add_mod_mod, Nat.sub_add_cancel hk]
    have hlt : k - rs.length < r.capacity := by omega
    have hplace : r.window[k - rs.length]? = some (r.slot (k % r.capacity)) :=
      getElem?_window_eq_some_iff.mpr ⟨hlt, by rw [hround]⟩
    rw [h, List.getElem?_drop, Nat.add_sub_cancel' hk] at hplace
    rw [hplace, Option.join_some]

theorem writeIndex_lt_of_wellFormed (h : r.layout.WellFormed) : r.writeIndex < r.capacity := by
  simpa using h.writeIndex_lt

/-- Once around the ring, the empty slots come first. There are none, or as many as are left behind
the write index. -/
theorem exists_window_eq (h : r.layout.WellFormed) :
    ∃ m, (m = 0 ∨ m + r.writeIndex = r.capacity) ∧
      r.window = List.replicate m none ++ r.runs.map some := by
  have hw := writeIndex_lt_of_wellFormed h
  have hlt : ∀ i, (i + r.writeIndex) % r.capacity < r.capacity :=
    fun i => Nat.mod_lt _ (Nat.zero_lt_of_lt hw)
  rw [← reduceOption_window]
  rcases filled_layout_iff.mp h.filled with hall | hfirst
  · refine ⟨0, Or.inl rfl, List.eq_replicate_none_append_some (Nat.zero_le _) ?_⟩
    intro i v hi
    obtain ⟨-, rfl⟩ := getElem?_window_eq_some_iff.mp hi
    simpa using hall _ (hlt i)
  · refine ⟨r.capacity - r.writeIndex, Or.inr (by omega),
      List.eq_replicate_none_append_some ?_ ?_⟩
    · rw [length_window]
      omega
    · intro i v hi
      obtain ⟨hi, rfl⟩ := getElem?_window_eq_some_iff.mp hi
      rw [hfirst _ (hlt i)]
      by_cases hround : i + r.writeIndex < r.capacity
      · rw [Nat.mod_eq_of_lt hround]
        omega
      · rw [Nat.mod_eq_sub_mod (by omega), Nat.mod_eq_of_lt (by omega)]
        omega

/-- The runs in well-formed slots are an encoding of what they stand for. -/
theorem encodes_runs (h : r.layout.WellFormed) : Runs.Encodes r.runs (Runs.expand r.runs) := by
  have hpos : 0 < r.capacity := Nat.zero_lt_of_lt (writeIndex_lt_of_wellFormed h)
  have hcount : ∀ run ∈ r.runs, 1 ≤ run.count ∧ run.count ≤ countCeiling := by
    intro run hrun
    obtain ⟨i, -, hi⟩ := List.mem_filterMap.mp hrun
    have hmem : Entry.ofSlot (some run) ∈ r.layout.entries :=
      mem_layout_iff.mpr ⟨_, Nat.mod_lt _ hpos, congrArg Entry.ofSlot hi⟩
    exact h.count _ hmem rfl
  obtain ⟨es, hes, hapart⟩ := h.apart
  obtain rfl : r.shown = es := by simpa [shown?_layout hpos] using hes
  rw [shown_eq_map_runs, List.isChain_map] at hapart
  exact ⟨rfl, fun run hrun => (hcount run hrun).1, fun run hrun => (hcount run hrun).2, hapart⟩

/-- Well-formed slots are the end of a log. -/
theorem exists_keeps (h : r.layout.WellFormed) : ∃ rs ts, Runs.Encodes rs ts ∧ r.Keeps rs := by
  have hw := writeIndex_lt_of_wellFormed h
  have hpos : 0 < r.capacity := Nat.zero_lt_of_lt hw
  have henc := encodes_runs h
  obtain ⟨m, hm, hwindow⟩ := exists_window_eq h
  have hcapacity : r.capacity = m + r.runs.length := by
    simpa [length_window] using congrArg List.length hwindow
  rcases hm with rfl | hm
  · -- all slots are taken: as many runs went before as the write index says, and they can be full
    have hlength : r.capacity = r.runs.length := by omega
    obtain ⟨ts, hts⟩ := henc.exists_replicate_append r.writeIndex ⟨⟨0, 0⟩, ⟨0, 0⟩, false⟩
    refine ⟨_, ts, hts, keeps_of_window hpos ?_ ?_⟩
    · rw [List.length_append, List.length_replicate, ← hlength, Nat.add_mod_right,
        Nat.mod_eq_of_lt hw]
    · rw [hwindow, tape, List.map_append, ← List.append_assoc, List.drop_left']
      · rfl
      · simp
        omega
  · -- the runs are all that there have ever been
    have hlength : r.runs.length = r.writeIndex := by omega
    have hempty : r.capacity = r.runs.length + m := by omega
    refine ⟨r.runs, _, henc, keeps_of_window hpos ?_ ?_⟩
    · rw [hlength, Nat.mod_eq_of_lt hw]
    · rw [hwindow, tape, hempty, List.replicate_add, List.append_assoc, List.drop_left']
      exact List.length_replicate

/-- Rings of the same size that keep the same log are the same, but for the switch. -/
theorem Keeps.unique (h : r.Keeps rs) (h' : r'.Keeps rs) (hc : r.capacity = r'.capacity)
    (he : r.enabled = r'.enabled) : r = r' := by
  have hslot : ∀ i < r.capacity, r.slot i = r'.slot i := by
    intro i hi
    obtain ⟨k, hk, hk', rfl⟩ := r.exists_place rs.length hi
    rw [h.slot k hk hk', hc, h'.slot k hk (hc ▸ hk')]
  have hslots : r.slots = r'.slots := by
    refine Array.ext hc fun i hi hi' => ?_
    simpa [Ring.slot, hi, hi'] using hslot i hi
  have hw : r.writeIndex = r'.writeIndex := by
    rw [h.writeIndex, h'.writeIndex, hc]
  cases r
  cases r'
  rw [mk.injEq]
  exact ⟨hslots, hw, he⟩

/-- Switching once, and recording from then on. -/
def recording (on : Bool) (ts : List Transition) : List RingStep :=
  .setEnabled on :: ts.map .record

theorem recording_concat (on : Bool) (ts : List Transition) (t : Transition) :
    recording on (ts ++ [t]) = recording on ts ++ [.record t] := by
  simp [recording]

theorem recorded_recording (on : Bool) (ts : List Transition) :
    recorded (recording on ts) = ts := by
  induction ts using List.reverseRecOn with
  | nil => cases on <;> rfl
  | append_singleton ts t ih =>
    rw [recording_concat, recorded_concat, ih]
    rfl

theorem enabled_run_recording (r : Ring) (on : Bool) (ts : List Transition) :
    (r.run (recording on ts)).enabled = on := by
  induction ts using List.reverseRecOn with
  | nil => exact r.enabled_setEnabled on
  | append_singleton ts t ih =>
    rw [recording_concat, run_concat, step, enabled_record, ih]

theorem Keeps.exists_run_eq {n : Nat} (h : r.Keeps rs) (he : Runs.Encodes rs ts)
    (hn : r.capacity = max n 1) : ∃ steps, (ofCapacity n).run steps = r := by
  refine ⟨recording r.enabled ts, ?_⟩
  have hcapacity : ((ofCapacity n).run (recording r.enabled ts)).capacity = r.capacity := by
    rw [capacity_run, capacity_ofCapacity, hn]
  have hk := keeps_run n (recording r.enabled ts)
  rw [recorded_recording, ← he.eq_ofList] at hk
  exact hk.unique h hcapacity (enabled_run_recording _ _ ts)

theorem layout_ring {s : Slots} (h : ∀ e ∈ s.entries, ¬ e.valid → e = Entry.blank) :
    s.ring.layout = s := by
  have he : s.entries.map (fun e => Entry.ofSlot e.toSlot) = s.entries := by
    rw [Array.map_congr_left fun e he => Entry.ofSlot_toSlot (h e he), Array.map_id']
  simp [layout, Slots.ring, Function.comp_def, he]

end Ring

namespace Slots

/-- Whatever is done to the slots of a ring, no check fails: not so far, not when the next transition
is recorded and not when the entries are shown, and all that comes out is what the ring has. The slots
that can be reached are just those of the same number that are well formed. -/
theorem reached_iff_wellFormed (n : Nat) :
    (∀ steps,
      let ring := (Ring.ofCapacity n).run steps
      (ofCapacity n).run? steps = some ring.layout ∧
        (∀ t, ring.layout.record? t = some (ring.record t).layout) ∧
        ring.layout.shown? = some ring.shown) ∧
    ∀ s : Slots, (∃ steps, (ofCapacity n).run? steps = some s) ↔
      s.capacity = max n 1 ∧ s.WellFormed := by
  have hcapacity : ∀ steps, ((Ring.ofCapacity n).run steps).capacity = max n 1 :=
    fun steps => (Ring.capacity_run _ steps).trans (Ring.capacity_ofCapacity n)
  refine ⟨fun steps => ?run, fun s => ⟨?reached, ?shape⟩⟩
  case run =>
    intro ring
    have hk := Ring.keeps_run n steps
    exact ⟨Ring.run?_layout n steps, Ring.record?_layout hk.writeIndex_lt,
      Ring.shown?_layout hk.capacity_pos⟩
  case reached =>
    rintro ⟨steps, hs⟩
    rw [Ring.run?_layout] at hs
    obtain rfl := Option.some.inj hs
    exact ⟨(Ring.capacity_layout _).trans (hcapacity steps),
      (Ring.keeps_run n steps).wellFormed (Runs.encodes_ofList _)⟩
  case shape =>
    rintro ⟨hc, hs⟩
    have hlayout : s.ring.layout = s := Ring.layout_ring hs.blank
    rw [← hlayout] at hs hc ⊢
    rw [Ring.capacity_layout] at hc
    obtain ⟨rs, ts, he, hk⟩ := Ring.exists_keeps hs
    obtain ⟨steps, hsteps⟩ := hk.exists_run_eq he hc
    exact ⟨steps, by rw [Ring.run?_layout, hsteps]⟩

end Slots
end V30Probe.Branch
