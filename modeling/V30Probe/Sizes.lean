import V30Probe.Branch.Ring

/-! The sizes a session is made with, and the bounds they have to keep. -/

namespace V30Probe

structure Sizes where
  /-- Slots of the branch ring. -/
  traceCapacity : Nat := Branch.Ring.defaultCapacity
  /-- Bytes fetched for one instruction. -/
  instructionBytes : Nat := 256
  /-- The column where the bytes of a listing begin. -/
  column : Nat := 40
  deriving DecidableEq, Repr

/-- One of the sizes. -/
inductive SizeField where
  | traceCapacity
  | instructionBytes
  | column
  deriving DecidableEq, Repr

namespace SizeField

def all : List SizeField := [.traceCapacity, .instructionBytes, .column]

def name : SizeField → String
  | .traceCapacity => "branch trace capacity"
  | .instructionBytes => "maximum instruction length"
  | .column => "disassembly column"

/-- The largest value allowed. -/
def limit : SizeField → Nat
  | .traceCapacity => 65536
  | .instructionBytes => 65536
  | .column => 1024

end SizeField

inductive SizeError where
  | zero (field : SizeField)
  | tooLarge (field : SizeField) (value : Nat)
  deriving DecidableEq, Repr

def SizeError.message : SizeError → String
  | .zero field => field.name ++ " must be non-zero"
  | .tooLarge field value =>
    field.name ++ " " ++ toString value ++ " exceeds the limit of " ++ toString field.limit

namespace Sizes

def get (s : Sizes) : SizeField → Nat
  | .traceCapacity => s.traceCapacity
  | .instructionBytes => s.instructionBytes
  | .column => s.column

def checkField (s : Sizes) (field : SizeField) : Except SizeError Unit :=
  if s.get field = 0 then .error (.zero field)
  else if field.limit < s.get field then .error (.tooLarge field (s.get field))
  else .ok ()

/-- Every size is positive and within its limit; the first that is not is reported. -/
def check (s : Sizes) : Except SizeError Unit :=
  SizeField.all.forM s.checkField

theorem checkField_eq_ok_iff (s : Sizes) (field : SizeField) :
    s.checkField field = .ok () ↔ 1 ≤ s.get field ∧ s.get field ≤ field.limit := by
  rw [checkField]
  split
  · simp_all
  · split
    · simp; omega
    · simp; omega

theorem checkField_eq_error_iff (s : Sizes) (field : SizeField) {e : SizeError} :
    s.checkField field = .error e ↔
      (s.get field = 0 ∧ e = .zero field) ∨
        (field.limit < s.get field ∧ e = .tooLarge field (s.get field)) := by
  by_cases hzero : s.get field = 0
  · simp [checkField, hzero, eq_comm]
  · by_cases hlimit : field.limit < s.get field
    · simp [checkField, hzero, hlimit, eq_comm]
    · simp [checkField, hzero, hlimit]

theorem forM_checkField_cons (s : Sizes) (field : SizeField) (fields : List SizeField) :
    (field :: fields).forM s.checkField =
      (s.checkField field >>= fun _ => fields.forM s.checkField) := rfl

theorem forM_checkField_eq_ok_iff (s : Sizes) (fields : List SizeField) :
    fields.forM s.checkField = .ok () ↔ ∀ field ∈ fields, s.checkField field = .ok () := by
  induction fields with
  | nil => simp [pure, Except.pure]
  | cons field fields ih =>
    rw [forM_checkField_cons, List.forall_mem_cons, ← ih]
    cases s.checkField field <;> simp [bind, Except.bind]

/-- The error is that of the first field that is not valid; the fields behind it do not matter. -/
theorem forM_checkField_eq_error_iff (s : Sizes) (fields : List SizeField) {e : SizeError} :
    fields.forM s.checkField = .error e ↔ ∃ before field after,
      fields = before ++ field :: after ∧ (∀ g ∈ before, s.checkField g = .ok ()) ∧
        s.checkField field = .error e := by
  induction fields with
  | nil => simp [pure, Except.pure]
  | cons field fields ih =>
    rw [forM_checkField_cons]
    cases hfield : s.checkField field with
    | error e' =>
      simp only [bind, Except.bind, Except.error.injEq]
      constructor
      · rintro rfl
        exact ⟨[], field, fields, rfl, by simp, hfield⟩
      · rintro ⟨before, g, after, hlist, hbefore, hg⟩
        rcases before with _ | ⟨first, before⟩
        · obtain ⟨rfl, -⟩ := List.cons.inj hlist
          rw [hfield] at hg
          exact Except.error.inj hg
        · obtain ⟨rfl, -⟩ := List.cons.inj hlist
          have hfirst := hbefore field List.mem_cons_self
          rw [hfield] at hfirst
          cases hfirst
    | ok u =>
      simp only [bind, Except.bind, ih]
      constructor
      · rintro ⟨before, g, after, rfl, hbefore, hg⟩
        exact ⟨field :: before, g, after, rfl, List.forall_mem_cons.mpr ⟨hfield, hbefore⟩, hg⟩
      · rintro ⟨before, g, after, hlist, hbefore, hg⟩
        rcases before with _ | ⟨first, before⟩
        · obtain ⟨rfl, -⟩ := List.cons.inj hlist
          rw [hfield] at hg
          cases hg
        · obtain ⟨rfl, rfl⟩ := List.cons.inj hlist
          exact ⟨before, g, after, rfl, (List.forall_mem_cons.mp hbefore).2, hg⟩

theorem check_eq_ok_iff (s : Sizes) :
    s.check = .ok () ↔ ∀ field, 1 ≤ s.get field ∧ s.get field ≤ field.limit := by
  have hall : ∀ field, field ∈ SizeField.all := by
    intro field
    cases field <;> decide
  simp only [check, forM_checkField_eq_ok_iff, checkField_eq_ok_iff, hall, true_imp_iff]

theorem check_eq_ok_iff_bounds (sizes : Sizes) :
    sizes.check = .ok () ↔
      (1 ≤ sizes.traceCapacity ∧ sizes.traceCapacity ≤ 65536) ∧
        (1 ≤ sizes.instructionBytes ∧ sizes.instructionBytes ≤ 65536) ∧
          1 ≤ sizes.column ∧ sizes.column ≤ 1024 := by
  rw [check_eq_ok_iff]
  constructor
  · intro h
    exact ⟨h .traceCapacity, h .instructionBytes, h .column⟩
  · rintro ⟨hcapacity, hbytes, hcolumn⟩ field
    cases field with
    | traceCapacity => exact hcapacity
    | instructionBytes => exact hbytes
    | column => exact hcolumn

end Sizes
end V30Probe
