import V30Probe.Proofs.Branch.RingLog

/-! The slots of a ring as they lie in memory, with a flag and all fields in each of them. No index is
ever out of range in them, and what they show is what the ring shows. -/

namespace V30Probe.Branch

namespace Entry

/-- Whether the next transition only adds to the count. -/
def absorbs (e : Entry) (t : Transition) : Bool :=
  e.valid && e.transition == t && e.count < countCeiling

def longer (e : Entry) : Entry := { e with count := e.count + 1 }

@[simp]
theorem valid_ofSlot (v : Option Run) : (ofSlot v).valid = v.isSome := by
  cases v <;> rfl

theorem absorbs_ofSlot (run : Run) (t : Transition) :
    (ofSlot (some run)).absorbs t = run.absorbs t := rfl

end Entry

/-- A ring with all fields of all its slots. What is done to it is checked step by step: where an
index is out of range, a difference is below zero or a remainder is by zero, there is no result. -/
structure Slots where
  entries : Array Entry
  writeIndex : Nat
  enabled : Bool
  deriving DecidableEq, Repr

namespace Slots

def capacity (s : Slots) : Nat := s.entries.size

def ofCapacity (n : Nat) : Slots := ⟨Array.replicate (max n 1) Entry.blank, 0, false⟩

def clear (s : Slots) : Slots :=
  { s with entries := Array.replicate s.capacity Entry.blank, writeIndex := 0 }

def setEnabled (s : Slots) (on : Bool) : Slots :=
  if on then { s with enabled := true } else { s.clear with enabled := false }

def difference? (m n : Nat) : Option Nat :=
  if n ≤ m then some (m - n) else none

def remainder? (m n : Nat) : Option Nat :=
  if n = 0 then none else some (m % n)

def write? (s : Slots) (i : Nat) (e : Entry) : Option Slots :=
  if i < s.capacity then some { s with entries := s.entries.setIfInBounds i e } else none

def record? (s : Slots) (t : Transition) : Option Slots := do
  let before ← difference? (s.writeIndex + s.capacity) 1
  let newest ← remainder? before s.capacity
  let previous ← s.entries[newest]?
  if previous.absorbs t then
    s.write? newest previous.longer
  else
    let written ← s.write? s.writeIndex ⟨t, 1, true⟩
    let next ← remainder? (s.writeIndex + 1) s.capacity
    return { written with writeIndex := next }

/-- The valid slots, from the write index once around the ring. -/
def shown? (s : Slots) : Option (List Entry) := do
  let around ← (List.range s.capacity).mapM fun i => do
    let place ← remainder? (i + s.writeIndex) s.capacity
    s.entries[place]?
  return around.filter Entry.valid

def step? (s : Slots) : RingStep → Option Slots
  | .record t => s.record? t
  | .clear => some s.clear
  | .setEnabled on => some (s.setEnabled on)

def run? (s : Slots) (steps : List RingStep) : Option Slots :=
  steps.foldlM step? s

theorem run?_concat (s : Slots) (steps : List RingStep) (a : RingStep) :
    s.run? (steps ++ [a]) = (s.run? steps).bind fun s => s.step? a := by
  simp [run?, List.foldlM_append]

theorem remainder?_of_pos {m n : Nat} (h : 0 < n) : remainder? m n = some (m % n) :=
  if_neg (by omega)

theorem difference?_of_le {m n : Nat} (h : n ≤ m) : difference? m n = some (m - n) :=
  if_pos h

end Slots

namespace Ring

variable {r : Ring} {i : Nat}

/-- The slots of a ring, with what they show. -/
def layout (r : Ring) : Slots := ⟨r.slots.map Entry.ofSlot, r.writeIndex, r.enabled⟩

@[simp]
theorem capacity_layout (r : Ring) : r.layout.capacity = r.capacity :=
  Array.size_map

@[simp]
theorem writeIndex_layout (r : Ring) : r.layout.writeIndex = r.writeIndex := rfl

theorem layout_ofCapacity (n : Nat) : (ofCapacity n).layout = Slots.ofCapacity n := by
  simp [layout, ofCapacity, Slots.ofCapacity, Entry.ofSlot]

theorem layout_clear (r : Ring) : r.clear.layout = r.layout.clear := by
  simp [layout, clear, Slots.clear, Slots.capacity, capacity, Entry.ofSlot]

theorem layout_setEnabled (r : Ring) (on : Bool) :
    (r.setEnabled on).layout = r.layout.setEnabled on := by
  cases on with
  | true => rfl
  | false =>
    have hc := r.layout_clear
    simp only [setEnabled, Slots.setEnabled, ← hc]
    rfl

theorem getElem?_layout (hi : i < r.capacity) :
    r.layout.entries[i]? = some (Entry.ofSlot (r.slot i)) := by
  have hi' : i < r.slots.size := hi
  simp [layout, slot, hi']

theorem write?_layout (hi : i < r.capacity) (v : Option Run) :
    r.layout.write? i (Entry.ofSlot v) =
      some (layout { r with slots := r.slots.setIfInBounds i v }) := by
  rw [Slots.write?, capacity_layout, if_pos hi]
  simp [layout, Array.map_setIfInBounds]

/-- A run of its own is written at the write index, which then moves on. -/
theorem append_layout (h : r.writeIndex < r.capacity) (t : Transition) :
    (do
      let written ← r.layout.write? r.layout.writeIndex ⟨t, 1, true⟩
      let next ← Slots.remainder? (r.layout.writeIndex + 1) r.layout.capacity
      return { written with writeIndex := next }) = some (r.append t).layout := by
  have hwrite := write?_layout h (some (.single t))
  have hnext : Slots.remainder? (r.layout.writeIndex + 1) r.layout.capacity =
      some ((r.writeIndex + 1) % r.capacity) := by
    rw [capacity_layout]
    exact Slots.remainder?_of_pos (Nat.zero_lt_of_lt h)
  have hsingle : Entry.ofSlot (some (.single t)) = ⟨t, 1, true⟩ := rfl
  rw [hnext, writeIndex_layout, ← hsingle, hwrite]
  rfl

/-- No check fails when a ring records, as long as the write index is in range. -/
theorem record?_layout (h : r.writeIndex < r.capacity) (t : Transition) :
    r.layout.record? t = some (r.record t).layout := by
  have hpos : 0 < r.capacity := Nat.zero_lt_of_lt h
  have hnewest : r.newestIndex < r.capacity := Nat.mod_lt _ hpos
  have hbefore : Slots.difference? (r.layout.writeIndex + r.capacity) 1 =
      some (r.writeIndex + r.capacity - 1) := Slots.difference?_of_le (by omega)
  have hplace : Slots.remainder? (r.writeIndex + r.capacity - 1) r.capacity =
      some r.newestIndex := Slots.remainder?_of_pos hpos
  have happend := append_layout h t
  simp only [Slots.record?, capacity_layout, hbefore, hplace, getElem?_layout hnewest,
    Option.bind_eq_bind, Option.bind_some] at happend ⊢
  rw [happend, Ring.record]
  cases r.slot r.newestIndex with
  | none => rfl
  | some run =>
    by_cases ha : run.absorbs t
    · simp only [Entry.absorbs_ofSlot, ha, if_true]
      exact write?_layout hnewest (some run.longer)
    · simp only [Entry.absorbs_ofSlot, ha]
      rfl

/-- Nor does one fail when the entries are gone through. -/
theorem shown?_layout (h : 0 < r.capacity) : r.layout.shown? = some r.shown := by
  have hread : (fun i => do
      let place ← Slots.remainder? (i + r.layout.writeIndex) r.capacity
      r.layout.entries[place]?) =
        fun i => pure (Entry.ofSlot (r.slot ((i + r.writeIndex) % r.capacity))) := by
    funext i
    rw [Slots.remainder?_of_pos h]
    exact getElem?_layout (Nat.mod_lt _ h)
  rw [Slots.shown?, capacity_layout, hread, List.mapM_pure]
  rfl

theorem step?_layout (h : r.writeIndex < r.capacity) (a : RingStep) :
    r.layout.step? a = some (r.step a).layout := by
  cases a with
  | record t => exact record?_layout h t
  | clear => exact congrArg some r.layout_clear.symm
  | setEnabled on => exact congrArg some (r.layout_setEnabled on).symm

theorem run?_layout (n : Nat) (steps : List RingStep) :
    (Slots.ofCapacity n).run? steps = some ((ofCapacity n).run steps).layout := by
  induction steps using List.reverseRecOn with
  | nil => rw [run_nil, layout_ofCapacity]; rfl
  | append_singleton steps a ih =>
    rw [Slots.run?_concat, ih, run_concat]
    exact step?_layout (keeps_run n steps).writeIndex_lt a

end Ring
end V30Probe.Branch
