import V30Probe.Proofs.Breakpoint.History

/-! What the history of a session says about its state: breakpoints in force, the callback, tracing,
and the two latches. Every operation keeps state and history in step. -/

namespace V30Probe

variable {κ δ β ρ σ : Type}

/-- The categories that an event is an access of, each with the address. -/
def Event.accesses : Event → List (Category × UInt32)
  | .memoryRead a => [(.memoryRead, a), (.auxRead, a)]
  | .memoryWrite a _ => [(.memoryWrite, a), (.auxWrite, a)]
  | .portRead port => [(.portRead, port)]
  | .portWrite port _ => [(.portWrite, port)]
  | .instruction _ | .branch _ => []

namespace Operation

def callbackSet? : Operation κ → Option (Option κ × Bool)
  | .change (.setCallback k continuous) => some (k, continuous)
  | _ => none

def tracingSet? : Operation κ → Option Bool
  | .change (.setTracing on) => some on
  | _ => none

end Operation

namespace History

variable {ops before : List (Operation κ)} {op : Operation κ} {c : Category} {a pc : UInt32}

/-- The breakpoints added to a category after it was last cleared. -/
def inForce (c : Category) (ops : List (Operation κ)) : List Breakpoint :=
  BreakpointTable.inForce c (ops.filterMap Operation.tableStep?)

/-- Something was added to the category after it was last cleared. -/
def Populated (c : Category) (ops : List (Operation κ)) : Prop :=
  inForce c ops ≠ []

/-- The callback of the latest registration, which may be none. -/
def registered (ops : List (Operation κ)) : Option κ :=
  (latest Operation.callbackSet? ops).bind Prod.fst

/-- Whether the latest registration asked for every instruction. -/
def askedContinuous (ops : List (Operation κ)) : Bool :=
  ((latest Operation.callbackSet? ops).map Prod.snd).getD false

def tracing (ops : List (Operation κ)) : Bool :=
  (latest Operation.tracingSet? ops).getD false

/-- A breakpoint in force watches the address. -/
def Covered (c : Category) (a : UInt32) (ops : List (Operation κ)) : Prop :=
  ∃ b ∈ inForce c ops, b.catches c a

/-- The operation is an access that a breakpoint in force watches. -/
def Trips (before : List (Operation κ)) : Operation κ → Prop
  | .event e => ∃ x ∈ e.accesses, Covered x.1 x.2 before
  | _ => False

/-- An access tripped a breakpoint after the last instruction ended. -/
def Struck (ops : List (Operation κ)) : Prop :=
  Once (fun _ op => op.isBoundary) Trips ops

/-- The instruction that ends at `pc` is a hit. -/
def Hit (pc : UInt32) (ops : List (Operation κ)) : Prop :=
  Covered .pc pc ops ∨ Struck ops

def HitBoundary (before : List (Operation κ)) : Operation κ → Prop
  | .event (.instruction pc) => Hit pc before
  | _ => False

/-- Every instruction is reported: the latest registration asked for it, or a hit came since. -/
def Latched (ops : List (Operation κ)) : Prop :=
  askedContinuous ops ∨ Once (fun _ op => op.callbackSet?.isSome) HitBoundary ops

instance : Decidable (Populated c ops) :=
  inferInstanceAs (Decidable (inForce c ops ≠ []))

instance : Decidable (Covered c a ops) :=
  inferInstanceAs (Decidable (∃ b ∈ _, _))

instance decidableTrips (before : List (Operation κ)) :
    (op : Operation κ) → Decidable (Trips before op)
  | .event e => inferInstanceAs (Decidable (∃ x ∈ e.accesses, Covered x.1 x.2 before))
  | .change _ | .inspect _ | .enterScope | .leaveScope | .write .. | .writePort .. => .isFalse id

instance : Decidable (Struck ops) :=
  inferInstanceAs (Decidable (Once _ _ ops))

instance : Decidable (Hit pc ops) :=
  inferInstanceAs (Decidable (_ ∨ _))

instance decidableHitBoundary (before : List (Operation κ)) :
    (op : Operation κ) → Decidable (HitBoundary before op)
  | .event (.instruction pc) => inferInstanceAs (Decidable (Hit pc before))
  | .event (.memoryRead _) | .event (.memoryWrite ..) | .event (.portRead _)
  | .event (.portWrite ..) | .event (.branch _) => .isFalse id
  | .change _ | .inspect _ | .enterScope | .leaveScope | .write .. | .writePort .. => .isFalse id

instance : Decidable (Latched ops) :=
  inferInstanceAs (Decidable (_ ∨ _))

theorem inForce_concat (c : Category) (ops : List (Operation κ)) (op : Operation κ) :
    inForce c (ops ++ [op]) =
      BreakpointTable.inForce c (ops.filterMap Operation.tableStep? ++ op.tableStep?.toList) := by
  rw [inForce, List.filterMap_append]
  cases h : op.tableStep? <;> simp [h]

theorem registered_concat (ops : List (Operation κ)) (op : Operation κ) :
    registered (ops ++ [op]) = (op.callbackSet?.map Prod.fst).getD (registered ops) := by
  rw [registered, latest_concat]
  cases op.callbackSet? <;> rfl

theorem tracing_concat (ops : List (Operation κ)) (op : Operation κ) :
    tracing (ops ++ [op]) = op.tracingSet?.getD (tracing ops) := by
  rw [tracing, latest_concat]
  cases op.tracingSet? <;> rfl

theorem struck_concat (ops : List (Operation κ)) (op : Operation κ) :
    Struck (ops ++ [op]) ↔ Trips ops op ∨ (¬ op.isBoundary ∧ Struck ops) :=
  once_concat ops op

theorem latched_concat_of_callbackSet {k : Option κ} {continuous : Bool} :
    Latched (ops ++ [.change (.setCallback k continuous)]) ↔ continuous := by
  simp [Latched, askedContinuous, latest_concat, once_concat, Operation.callbackSet?, HitBoundary]

theorem latched_concat (h : op.callbackSet? = none) :
    Latched (ops ++ [op]) ↔ HitBoundary ops op ∨ Latched ops := by
  simp only [Latched, askedContinuous, latest_concat, once_concat, h, Option.none_or,
    Option.isSome_none]
  tauto

end History
end V30Probe
