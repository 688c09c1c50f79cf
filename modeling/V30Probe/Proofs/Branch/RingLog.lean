import Mathlib.Data.List.DropRight
import Mathlib.Data.List.ReduceOption
import Mathlib.Order.Interval.Finset.Nat
import V30Probe.Branch.Ring
import V30Probe.Proofs.Branch.Encoding
import V30Probe.Proofs.History

/-! The ring as a window on an unbounded log: it shows the newest runs of all that was recorded. -/

namespace V30Probe.Branch

/-- What can be done to a ring. -/
inductive RingStep where
  | record (transition : Transition)
  | clear
  | setEnabled (on : Bool)
  deriving DecidableEq, Repr

namespace RingStep

/-- Whether the ring forgets all runs. -/
def resets : RingStep → Bool
  | .record _ => false
  | .clear => true
  | .setEnabled on => !on

def recorded? : RingStep → Option Transition
  | .record t => some t
  | _ => none

end RingStep

/-- The transitions that were recorded since the ring last forgot all runs. -/
def recorded (steps : List RingStep) : List Transition :=
  (History.since RingStep.resets steps).filterMap RingStep.recorded?

theorem recorded_concat (steps : List RingStep) (a : RingStep) :
    recorded (steps ++ [a]) = if a.resets then [] else recorded steps ++ a.recorded?.toList :=
  History.filterMap_since_concat _ _ steps a

namespace Ring

variable {r : Ring} {rs : List Run} {ts : List Transition} {t : Transition}

def step (r : Ring) : RingStep → Ring
  | .record t => r.record t
  | .clear => r.clear
  | .setEnabled on => r.setEnabled on

def run (r : Ring) (steps : List RingStep) : Ring :=
  steps.foldl step r

/-- Recording does not look at the switch. -/
theorem record_enabled (r : Ring) (on : Bool) (t : Transition) :
    Ring.record { r with enabled := on } t = { r.record t with enabled := on } := by
  have hslot : ∀ i, slot { r with enabled := on } i = r.slot i := fun _ => rfl
  have hindex : newestIndex { r with enabled := on } = r.newestIndex := rfl
  rw [Ring.record, Ring.record, hslot, hindex]
  cases r.slot r.newestIndex with
  | none => rfl
  | some run =>
    by_cases ha : run.absorbs t
    · simp only [ha, if_true]
    · simp only [ha]
      rfl

/-- What the valid slots show, from the write index once around the ring. -/
def shown (r : Ring) : List Entry :=
  ((List.range r.capacity).map fun i =>
    Entry.ofSlot (r.slot ((i + r.writeIndex) % r.capacity))).filter Entry.valid

/-- What the slots hold, from the write index once around the ring. -/
def window (r : Ring) : List (Option Run) :=
  (List.range r.capacity).map fun i => r.slot ((i + r.writeIndex) % r.capacity)

/-- All that was ever written to the slots: at first every one is empty, then runs follow. -/
def tape (n : Nat) (rs : List Run) : List (Option Run) :=
  List.replicate n none ++ rs.map some

/-- The ring holds the end of the tape, each place of it in the slot with the same remainder. -/
structure Keeps (r : Ring) (rs : List Run) : Prop where
  capacity_pos : 0 < r.capacity
  writeIndex : r.writeIndex = rs.length % r.capacity
  slot : ∀ k, rs.length ≤ k → k < rs.length + r.capacity →
    r.slot (k % r.capacity) = (tape r.capacity rs)[k]?.join

@[simp]
theorem run_nil (r : Ring) : r.run [] = r := rfl

theorem run_concat (r : Ring) (steps : List RingStep) (a : RingStep) :
    r.run (steps ++ [a]) = (r.run steps).step a := by
  simp [run]

@[simp]
theorem capacity_step (r : Ring) (a : RingStep) : (r.step a).capacity = r.capacity := by
  cases a <;> simp [step]

theorem capacity_run (r : Ring) (steps : List RingStep) : (r.run steps).capacity = r.capacity := by
  induction steps using List.reverseRecOn with
  | nil => rfl
  | append_singleton steps a ih => rw [run_concat, capacity_step, ih]

@[simp]
theorem length_tape (n : Nat) (rs : List Run) : (tape n rs).length = n + rs.length := by
  simp [tape]

theorem tape_concat (n : Nat) (rs : List Run) (run : Run) :
    tape n (rs ++ [run]) = tape n rs ++ [some run] := by
  simp [tape]

theorem join_getElem?_tape (n k : Nat) (rs : List Run) :
    (tape n rs)[k]?.join = if k < n then none else rs[k - n]? := by
  by_cases h : k < n
  · rw [if_pos h, tape, List.getElem?_append_left (by simpa using h), List.getElem?_replicate,
      if_pos h, Option.join_some]
  · rw [if_neg h, tape, List.getElem?_append_right (by simpa using h), List.length_replicate,
      List.getElem?_map]
    cases rs[k - n]? <;> rfl

theorem join_getElem?_tape_nil (n k : Nat) : (tape n [])[k]?.join = none := by
  rw [join_getElem?_tape]
  exact ite_self none

/-- A slot that is written holds what was written; the others stay. -/
theorem slot_set (r : Ring) (i j : Nat) (v : Option Run) (hi : i < r.capacity) :
    slot { r with slots := r.slots.setIfInBounds i v } j = if i = j then v else r.slot j := by
  have hs : i < r.slots.size := hi
  by_cases h : i = j
  · subst h
    simp [slot, hs]
  · simp [slot, h]

theorem Keeps.writeIndex_lt (h : r.Keeps rs) : r.writeIndex < r.capacity := by
  rw [h.writeIndex]
  exact Nat.mod_lt _ h.capacity_pos

theorem Keeps.newestIndex (h : Keeps r rs) :
    r.newestIndex = (rs.length + r.capacity - 1) % r.capacity := by
  have hc := h.capacity_pos
  rw [Ring.newestIndex, h.writeIndex, Nat.add_sub_assoc hc, Nat.mod_add_mod, Nat.add_sub_assoc hc]

/-- The slot before the write index holds the newest run. -/
theorem Keeps.slot_newestIndex (h : Keeps r rs) : r.slot r.newestIndex = rs.getLast? := by
  have hc := h.capacity_pos
  rw [h.newestIndex, h.slot _ (by omega) (by omega)]
  rcases List.eq_nil_or_concat' rs with rfl | ⟨rs, run, rfl⟩
  · rw [join_getElem?_tape_nil]
    rfl
  · have hl : (rs ++ [run]).length + r.capacity - 1 = (tape r.capacity rs).length := by
      simp
      omega
    rw [tape_concat, hl]
    simp

/-- An empty ring that has been rewound holds the empty log. -/
theorem keeps_nil {n : Nat} (hpos : 0 < r.capacity) (hw : r.writeIndex = 0)
    (hs : r.slots = Array.replicate n none) : r.Keeps [] where
  capacity_pos := hpos
  writeIndex := by simpa using hw
  slot k _ _ := by
    have hslot : r.slot (k % r.capacity) = none := by
      rw [slot, hs, Array.getElem?_replicate]
      split <;> rfl
    rw [hslot, join_getElem?_tape_nil]

theorem keeps_ofCapacity (n : Nat) : (ofCapacity n).Keeps [] :=
  keeps_nil (by rw [capacity_ofCapacity]; omega) rfl rfl

theorem Keeps.clear (h : Keeps r rs) : r.clear.Keeps [] :=
  keeps_nil (by rw [capacity_clear]; exact h.capacity_pos) rfl rfl

/-- An empty log leaves the ring as it was made, but for the switch. -/
theorem Keeps.pristine (h : Keeps r []) :
    r.writeIndex = 0 ∧ r.entries = List.replicate r.capacity Entry.blank := by
  refine ⟨by simpa using h.writeIndex, List.eq_replicate_iff.mpr ⟨?_, ?_⟩⟩
  · simp [entries, capacity]
  · intro e he
    obtain ⟨v, hv, rfl⟩ := List.mem_map.mp he
    obtain ⟨i, hi, rfl⟩ := List.mem_iff_getElem.mp hv
    have hlt : i < r.capacity := by simpa [capacity] using hi
    have hs := h.slot i (Nat.zero_le i) (by simpa using hlt)
    rw [Nat.mod_eq_of_lt hlt, join_getElem?_tape_nil] at hs
    have hi' : i < r.slots.size := hlt
    have hnone : r.slots[i] = none := by
      rwa [Ring.slot, Array.getElem?_eq_getElem hi'] at hs
    simp [hnone, Entry.ofSlot]

/-- A new run goes where the oldest place of the tape was, which leaves the window. -/
theorem Keeps.append (h : Keeps r rs) (t : Transition) :
    (r.append t).Keeps (rs ++ [.single t]) where
  capacity_pos := by rw [capacity_append]; exact h.capacity_pos
  writeIndex := by
    rw [capacity_append, Ring.append, h.writeIndex, Nat.mod_add_mod, List.length_append]
    rfl
  slot k hk hk' := by
    have hw := h.writeIndex_lt
    rw [capacity_append] at hk' ⊢
    rw [List.length_append, List.length_singleton] at hk hk'
    have hs := slot_set r r.writeIndex (k % r.capacity) (some (.single t)) hw
    have hset : (r.append t).slot (k % r.capacity) =
        if r.writeIndex = k % r.capacity then some (.single t) else r.slot (k % r.capacity) := hs
    rw [hset, tape_concat]
    by_cases hlast : k = rs.length + r.capacity
    · have hl : k = (tape r.capacity rs).length := by rw [length_tape]; omega
      have hi : r.writeIndex = k % r.capacity := by rw [h.writeIndex, hlast, Nat.add_mod_right]
      rw [if_pos hi, hl, List.getElem?_concat_length]
      rfl
    · have hl : k < (tape r.capacity rs).length := by rw [length_tape]; omega
      have hi : r.writeIndex ≠ k % r.capacity := by
        intro he
        -- places of the tape that are less than one round apart lie in different slots
        have hplace : rs.length = k := Nat.mod_injOn_Ico rs.length r.capacity
          (Finset.mem_coe.mpr (Finset.mem_Ico.mpr (by omega)))
          (Finset.mem_coe.mpr (Finset.mem_Ico.mpr (by omega))) (h.writeIndex.symm.trans he)
        omega
      rw [if_neg hi, List.getElem?_append_left hl, h.slot k (by omega) (by omega)]

/-- A longer run stays in its slot, which is the newest. -/
theorem Keeps.longer {run : Run} (h : Keeps r (rs ++ [run])) :
    Keeps { r with slots := r.slots.setIfInBounds r.newestIndex (some run.longer) }
      (rs ++ [run.longer]) where
  capacity_pos := by simpa [capacity] using h.capacity_pos
  writeIndex := by simpa [capacity] using h.writeIndex
  slot k hk hk' := by
    have hc : capacity { r with slots := r.slots.setIfInBounds r.newestIndex (some run.longer) } =
        r.capacity := by simp [capacity]
    have hpos := h.capacity_pos
    have hn : r.newestIndex < r.capacity := h.newestIndex ▸ Nat.mod_lt _ hpos
    rw [hc] at hk' ⊢
    rw [slot_set r _ _ _ hn, h.newestIndex, tape_concat]
    rw [List.length_append, List.length_singleton] at hk hk' ⊢
    by_cases hlast : k = rs.length + r.capacity
    · have hl : k = (tape r.capacity rs).length := by rw [length_tape]; omega
      have hi : (rs.length + 1 + r.capacity - 1) % r.capacity = k % r.capacity := by
        congr 1
        omega
      rw [if_pos hi, hl, List.getElem?_concat_length]
      rfl
    · have hl : k < (tape r.capacity rs).length := by rw [length_tape]; omega
      have hi : (rs.length + 1 + r.capacity - 1) % r.capacity ≠ k % r.capacity := by
        intro he
        have hplace : rs.length + 1 + r.capacity - 1 = k :=
          Nat.mod_injOn_Ico (rs.length + 1) r.capacity
            (Finset.mem_coe.mpr (Finset.mem_Ico.mpr (by omega)))
            (Finset.mem_coe.mpr (Finset.mem_Ico.mpr (by omega))) he
        omega
      have ho := h.slot k (by simpa using hk) (by simpa using hk')
      rw [if_neg hi, ho, tape_concat, List.getElem?_append_left hl, List.getElem?_append_left hl]

theorem Keeps.record (h : Keeps r (Runs.ofList ts)) (t : Transition) :
    (r.record t).Keeps (Runs.ofList (ts ++ [t])) := by
  rw [Ring.record, h.slot_newestIndex]
  cases hlast : (Runs.ofList ts).getLast? with
  | none =>
    rw [Runs.ofList_concat_single (by simp [hlast])]
    exact h.append t
  | some run =>
    by_cases ha : run.absorbs t
    · obtain ⟨rs, hrs⟩ := List.getLast?_eq_some_iff.mp hlast
      simp only [ha, if_true]
      rw [Runs.ofList_concat_longer hrs ha]
      rw [hrs] at h
      exact h.longer
    · simp only [ha]
      rw [Runs.ofList_concat_single (by simpa [hlast] using ha)]
      exact h.append t

theorem Keeps.setEnabled (h : Keeps r rs) (on : Bool) :
    (r.setEnabled on).Keeps (if on then rs else []) := by
  cases on with
  | false => exact ⟨h.clear.capacity_pos, h.clear.writeIndex, h.clear.slot⟩
  | true => exact ⟨h.capacity_pos, h.writeIndex, h.slot⟩

theorem keeps_step {steps : List RingStep} (h : Keeps r (Runs.ofList (recorded steps)))
    (a : RingStep) : (r.step a).Keeps (Runs.ofList (recorded (steps ++ [a]))) := by
  have hr := recorded_concat steps a
  cases a with
  | record t => exact hr ▸ h.record t
  | clear => exact hr ▸ h.clear
  | setEnabled on =>
    cases on with
    | false => exact hr ▸ h.setEnabled false
    | true =>
      have he : recorded (steps ++ [.setEnabled true]) = recorded steps :=
        hr.trans (List.append_nil _)
      rw [he]
      exact h.setEnabled true

theorem keeps_run (n : Nat) (steps : List RingStep) :
    ((ofCapacity n).run steps).Keeps (Runs.ofList (recorded steps)) := by
  induction steps using List.reverseRecOn with
  | nil => exact keeps_ofCapacity n
  | append_singleton steps a ih =>
    rw [run_concat]
    exact keeps_step ih a

theorem length_window (r : Ring) : r.window.length = r.capacity := by
  simp [window]

theorem getElem?_window_eq_some_iff {i : Nat} {v : Option Run} :
    r.window[i]? = some v ↔ i < r.capacity ∧ r.slot ((i + r.writeIndex) % r.capacity) = v := by
  by_cases hi : i < r.capacity <;> simp [window, hi]

theorem reduceOption_window (r : Ring) : r.window.reduceOption = r.runs := by
  rw [window, List.reduceOption, List.filterMap_map, runs]
  rfl

/-- Once around the ring from the write index lies the end of the tape. -/
theorem Keeps.window_eq (h : r.Keeps rs) : r.window = (tape r.capacity rs).drop rs.length := by
  apply List.ext_getElem
  · simp [length_window]
  · intro i hi hi'
    rw [length_window] at hi
    have hl : rs.length + i < (tape r.capacity rs).length := by rw [length_tape]; omega
    have hs := h.slot (i + rs.length) (by omega) (by omega)
    simp only [window, List.getElem_map, List.getElem_range, List.getElem_drop]
    rw [h.writeIndex, Nat.add_mod_mod, hs, Nat.add_comm, List.getElem?_eq_getElem hl,
      Option.join_some]

/-- Once around the ring from the write index lie the last runs of the log. -/
theorem Keeps.runs (h : r.Keeps rs) : r.runs = rs.rtake r.capacity := by
  rw [← reduceOption_window, h.window_eq]
  simp [tape, List.drop_append, List.rtake, ← List.map_drop, List.reduceOption]

theorem filter_valid_map_ofSlot (f : Nat → Option Run) (is : List Nat) :
    (is.map fun i => Entry.ofSlot (f i)).filter Entry.valid =
      (is.filterMap f).map fun run => Entry.ofSlot (some run) := by
  induction is with
  | nil => rfl
  | cons i is ih =>
    cases h : f i with
    | none => simpa [h, Entry.ofSlot, Entry.blank] using ih
    | some run => simpa [h, Entry.ofSlot] using ih

theorem shown_eq_map_runs (r : Ring) : r.shown = r.runs.map fun run => Entry.ofSlot (some run) :=
  filter_valid_map_ofSlot _ _

/-- After any steps the ring shows the end of the run-length encoding of what was recorded since it
last forgot all runs: as many runs as it has slots, or all of them if there are fewer. Recording
does not look at the switch, and switching on changes nothing else. -/
theorem shown_run_eq_last_runs (n : Nat) (steps : List RingStep) :
    let ring := (ofCapacity n).run steps
    let size := max n 1
    ∃ rs, Runs.Encodes rs (recorded steps) ∧
      (∀ rs', Runs.Encodes rs' (recorded steps) → rs' = rs) ∧
      ring.shown = (rs.rtake (min size rs.length)).map
        (fun run => ⟨run.transition, run.count, true⟩) ∧
      ring.writeIndex = rs.length % size ∧
      ring.capacity = size ∧
      (∀ on t, Ring.record { ring with enabled := on } t = { ring.record t with enabled := on }) ∧
      ring.setEnabled true = { ring with enabled := true } := by
  intro ring size
  have hk : ring.Keeps (Runs.ofList (recorded steps)) := keeps_run n steps
  have hcap : ring.capacity = size := (capacity_run _ steps).trans (capacity_ofCapacity n)
  refine ⟨Runs.ofList (recorded steps), Runs.encodes_ofList _, fun _ h => h.eq_ofList, ?_, ?_, hcap,
    fun on t => record_enabled ring on t, rfl⟩
  · have hmin : ∀ rs : List Run, rs.rtake size = rs.rtake (min size rs.length) := by
      intro rs
      rw [List.rtake, List.rtake]
      congr 1
      omega
    rw [shown_eq_map_runs, hk.runs, hcap, hmin]
    rfl
  · rw [hk.writeIndex, hcap]

end Ring
end V30Probe.Branch
