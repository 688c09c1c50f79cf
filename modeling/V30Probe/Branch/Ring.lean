import V30Probe.Branch.Run

/-! The newest runs of taken branches, kept in a ring of slots. -/

namespace V30Probe.Branch

/-- Slots that are filled in turn; once all are filled, each new run takes the place of the oldest. -/
structure Ring where
  slots : Array (Option Run)
  /-- The slot that the next run of its own goes to. -/
  writeIndex : Nat
  enabled : Bool
  deriving DecidableEq, Repr

/-- What a slot shows. An empty one shows zeros. -/
structure Entry where
  transition : Transition
  count : Nat
  valid : Bool
  deriving DecidableEq, Repr

namespace Entry

def blank : Entry := ⟨⟨⟨0, 0⟩, ⟨0, 0⟩, false⟩, 0, false⟩

def ofSlot : Option Run → Entry
  | none => blank
  | some r => ⟨r.transition, r.count, true⟩

def addressText (a : FarAddress) : String :=
  Record.closed "FarAddress"
    [("segment", toString a.segment.toNat), ("offset", toString a.offset.toNat)]

def text (e : Entry) : String :=
  Record.closed "BranchTraceEntry"
    [("from", addressText e.transition.source), ("to", addressText e.transition.target),
     ("interrupt", Record.flag e.transition.interrupt), ("count", toString e.count),
     ("valid", Record.flag e.valid)]

end Entry

namespace Ring

def defaultCapacity : Nat := 32

/-- An empty ring that is switched off. There is always at least one slot. -/
def ofCapacity (capacity : Nat) : Ring :=
  ⟨Array.replicate (max capacity 1) none, 0, false⟩

def capacity (r : Ring) : Nat := r.slots.size

def slot (r : Ring) (i : Nat) : Option Run :=
  (r.slots[i]?).join

/-- The slot written before the one at the write index. -/
def newestIndex (r : Ring) : Nat :=
  (r.writeIndex + r.capacity - 1) % r.capacity

def clear (r : Ring) : Ring :=
  { r with slots := Array.replicate r.capacity none, writeIndex := 0 }

/-- Switching off forgets all runs; switching on keeps them. -/
def setEnabled (r : Ring) (on : Bool) : Ring :=
  if on then { r with enabled := true } else { r.clear with enabled := false }

/-- Starts a run of its own. -/
def append (r : Ring) (t : Transition) : Ring :=
  { r with
    slots := r.slots.setIfInBounds r.writeIndex (some (.single t))
    writeIndex := (r.writeIndex + 1) % r.capacity }

/-- Notes one transition: the newest run grows if it can, and otherwise a new one starts. -/
def record (r : Ring) (t : Transition) : Ring :=
  match r.slot r.newestIndex with
  | none => r.append t
  | some run =>
    if run.absorbs t then
      { r with slots := r.slots.setIfInBounds r.newestIndex (some run.longer) }
    else r.append t

/-- The runs in the ring, oldest first. -/
def runs (r : Ring) : List Run :=
  (List.range r.capacity).filterMap fun i => r.slot ((i + r.writeIndex) % r.capacity)

def rows (r : Ring) : List Row :=
  r.runs.map Run.row

/-- What the slots show, in the order they lie. -/
def entries (r : Ring) : List Entry :=
  r.slots.toList.map Entry.ofSlot

def text (r : Ring) : String :=
  Record.closed "BranchTrace"
    [("entries", Record.list (r.entries.map Entry.text)), ("write_index", toString r.writeIndex),
     ("enabled", Record.flag r.enabled)]

@[simp]
theorem capacity_append (r : Ring) (t : Transition) : (r.append t).capacity = r.capacity := by
  simp [append, capacity]

@[simp]
theorem capacity_clear (r : Ring) : r.clear.capacity = r.capacity := by
  simp [clear, capacity]

@[simp]
theorem capacity_setEnabled (r : Ring) (on : Bool) : (r.setEnabled on).capacity = r.capacity := by
  cases on
  · exact capacity_clear r
  · rfl

@[simp]
theorem capacity_record (r : Ring) (t : Transition) : (r.record t).capacity = r.capacity := by
  rw [record]
  split
  · exact capacity_append r t
  · split
    · simp [capacity]
    · exact capacity_append r t

@[simp]
theorem enabled_setEnabled (r : Ring) (on : Bool) : (r.setEnabled on).enabled = on := by
  cases on <;> rfl

@[simp]
theorem enabled_record (r : Ring) (t : Transition) : (r.record t).enabled = r.enabled := by
  rw [record]
  split
  · rfl
  · split <;> rfl

theorem capacity_ofCapacity (n : Nat) : (ofCapacity n).capacity = max n 1 := by
  simp [ofCapacity, capacity]

end Ring
end V30Probe.Branch
