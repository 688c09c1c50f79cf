import Mathlib.Data.List.Basic
import V30Probe.Log

/-! The lines of the log that tell of a wiring: no other line looks like one of them, and the wiring
can be read back. -/

namespace V30Probe

namespace Record

variable {a b : Bool} {s t : String}

theorem append_inj_right {u v : String} (h : u ++ s = v ++ t) (hl : u.length = v.length) :
    s = t := by
  have hlist : u.toList ++ s.toList = v.toList ++ t.toList := by
    rw [← String.toList_append, ← String.toList_append, h]
  have hlength : u.toList.length = v.toList.length := by
    rw [String.length_toList, String.length_toList, hl]
  exact String.toList_injective (List.append_inj_right hlist hlength)

theorem flag_append_inj : flag a ++ s = flag b ++ t ↔ a = b ∧ s = t := by
  constructor
  · intro h
    have hl := congrArg String.toList h
    rw [String.toList_append, String.toList_append] at hl
    cases a <;> cases b <;> simp_all [flag]
  · rintro ⟨rfl, rfl⟩
    rfl

/-- Under the same labels the flags can be read back, whatever follows. -/
theorem fields_flags_append_inj {ι : Type} {name : ι → String} {f g : ι → Bool} (i : ι)
    (labels : List ι) :
    fields ((i :: labels).map fun j => (name j, flag (f j))) ++ s =
        fields ((i :: labels).map fun j => (name j, flag (g j))) ++ t ↔
      (∀ j ∈ i :: labels, f j = g j) ∧ s = t := by
  induction labels generalizing i with
  | nil => simp [fields, String.append_assoc, flag_append_inj]
  | cons k labels ih =>
    have hk := ih k
    simp only [fields, List.map_cons, String.append_assoc, List.forall_mem_cons, and_assoc] at hk
    simp only [fields, List.map_cons, String.intercalate_cons_cons, String.append_assoc,
      String.append_right_inj, flag_append_inj, hk, List.forall_mem_cons, and_assoc]

end Record

namespace Wiring

variable {w v : Wiring} {s t : String}

theorem ext_has (h : ∀ slot ∈ Slot.all, w.has slot = v.has slot) : w = v := by
  cases w
  cases v
  simpa [Slot.all, has] using h

theorem text_append_inj : w.text ++ s = v.text ++ t ↔ w = v ∧ s = t := by
  constructor
  · intro h
    simp only [text, Record.closed, String.append_assoc, String.append_right_inj] at h
    obtain ⟨hw, hs⟩ := (Record.fields_flags_append_inj _ _).mp h
    exact ⟨ext_has hw, by simpa using hs⟩
  · rintro ⟨rfl, rfl⟩
    rfl

theorem installedCount_le (w : Wiring) : w.installedCount ≤ 6 :=
  List.length_filter_le _ _

theorem installedCount_eq (w : Wiring) :
    w.installedCount = w.instruction.toNat + w.memoryRead.toNat + w.memoryWrite.toNat +
      w.portRead.toNat + w.portWrite.toNat + w.branchTrace.toNat := by
  obtain ⟨_ | _, _ | _, _ | _, _ | _, _ | _, _ | _⟩ := w <;> rfl

theorem toString_installedCount_length (w : Wiring) :
    (toString w.installedCount).length = 1 := by
  have hdigit : ∀ n < 7, (toString n).length = 1 := by decide
  exact hdigit _ (Nat.lt_succ_of_le w.installedCount_le)

end Wiring

namespace LogEvent

variable {e : LogEvent} {w v : Wiring}

/-- The wiring that an event tells of. -/
def wiring? : LogEvent → Option Wiring
  | .rewired wiring => some wiring
  | _ => none

theorem wiring?_eq_some_iff : e.wiring? = some w ↔ e = .rewired w := by
  cases e <;> simp [wiring?]

theorem message_rewired (w : Wiring) :
    (rewired w).message = "hook wiring changed: " ++ (toString w.installedCount ++
      (" slot(s) installed (" ++ (w.text ++ ")"))) := by
  simp only [← String.append_assoc]
  rfl

theorem message_rewired_inj : (rewired w).message = (rewired v).message ↔ w = v := by
  constructor
  · intro h
    have hcount : (toString w.installedCount).length = (toString v.installedCount).length := by
      rw [w.toString_installedCount_length, v.toString_installedCount_length]
    rw [message_rewired, message_rewired, String.append_right_inj] at h
    -- the counts are of one digit each, so the texts of the wirings begin at the same place
    have htext := Record.append_inj_right h hcount
    rw [String.append_right_inj] at htext
    exact (Wiring.text_append_inj.mp htext).1
  · rintro rfl
    rfl

theorem message_eq_message_rewired_iff :
    e.message = (rewired w).message ↔ e = .rewired w := by
  constructor
  · intro h
    have hstart := congrArg (fun text => text.toList.head?) h
    cases e with
    | rewired v => rw [message_rewired_inj.mp h]
    | _ =>
      unfold message at hstart
      simp at hstart
  · rintro rfl
    rfl

theorem line_rewired (w : Wiring) :
    (rewired w).line = "DEBUG hook wiring changed: " ++ (toString w.installedCount ++
      (" slot(s) installed (" ++ (w.text ++ ")"))) := by
  have hdebug : (rewired w).line = "DEBUG" ++ " " ++ (rewired w).message := rfl
  rw [hdebug, message_rewired, ← String.append_assoc]
  congr 1

theorem severity_eq_of_line_eq {d : LogEvent} (h : e.line = d.line) : e.severity = d.severity := by
  have hstart := congrArg (fun text => text.toList.head?) h
  unfold line at hstart
  cases he : e.severity <;> cases hd : d.severity <;> simp_all [Severity.label]

/-- A line of the log tells of a wiring just if it is the line of that wiring. -/
theorem line_eq_line_rewired_iff : e.line = (rewired w).line ↔ e.wiring? = some w := by
  rw [wiring?_eq_some_iff]
  constructor
  · intro h
    rw [line, line, severity_eq_of_line_eq h, String.append_right_inj] at h
    exact message_eq_message_rewired_iff.mp h
  · rintro rfl
    rfl

end LogEvent
end V30Probe
