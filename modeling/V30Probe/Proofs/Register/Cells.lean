import Mathlib.Data.List.Nodup
import V30Probe.Proofs.History
import V30Probe.Register.Group

/-! Register tables as cells: a number reads back what was last set under it, and nothing else. -/

namespace V30Probe.Register

variable {α σ : Type} {number : α → UInt32} {cell : α → Cell σ} {kept : UInt32 → UInt32}
  {content : σ → α → UInt32}

/-- The value that an access sets under a number. -/
def Access.setting? (n : UInt32) : Access → Option UInt32
  | .set m value => if m = n then some value else none
  | _ => none

/-- Writing one cell leaves the others, and keeps in it what fits of the value. -/
def Cell.Separate [DecidableEq α] (cell : α → Cell σ) (kept : UInt32 → UInt32) : Prop :=
  ∀ s r value q, (cell q).read ((cell r).write s value) =
    if r = q then kept value else (cell q).read s

namespace Group

variable {g : Group σ}

/-- The rows that stand for registers, in the order of the table. -/
def listed (g : Group σ) : List Row :=
  g.rows.filter fun row => !row.isSeparator

/-- The state after some accesses. -/
def run (g : Group σ) (s : σ) (accesses : List Access) : σ :=
  accesses.foldl (fun s a => (g.perform s a).2.1) s

theorem run_concat (g : Group σ) (s : σ) (accesses : List Access) (a : Access) :
    g.run s (accesses ++ [a]) = (g.perform (g.run s accesses) a).2.1 := by
  simp [run]

/-- The table leads from the number of each register to its cell, and from no other number to any;
and it lists each register once. -/
structure Routes (g : Group σ) (number : α → UInt32) (cell : α → Cell σ) : Prop where
  injective : Function.Injective number
  known : ∀ r, g.cell? (number r) = some (cell r)
  unknown : ∀ n, (∀ r, number r ≠ n) → g.cell? n = none
  nodup : (g.listed.map Row.id).Nodup
  mem_listed : ∀ n, n ∈ g.listed.map Row.id ↔ ∃ r, number r = n

/-- What a front end can rely on. `content` is what the state holds for a register, and `kept` what
is left of a value that is set. -/
structure Holds (g : Group σ) (number : α → UInt32) (content : σ → α → UInt32)
    (kept : UInt32 → UInt32) : Prop where
  get : ∀ s accesses r, g.get (g.run s accesses) (number r) =
    (((History.latest (Access.setting? (number r)) accesses).map kept).getD (content s r), [])
  set : ∀ s r value, (g.set s (number r) value).2 = []
  get_unknown : ∀ s n, (∀ r, number r ≠ n) → g.get s n = (0, [.unknownRead g.name n])
  set_unknown : ∀ s n value, (∀ r, number r ≠ n) →
    g.set s n value = (s, [.unknownWrite g.name n])
  warns : ∀ s a, ∀ e ∈ (g.perform s a).2.2, e.severity = .warn
  values : ∀ s, g.values s = (g.listed.map fun row => (row, (g.get s row.id).1), [])
  nodup : (g.listed.map Row.id).Nodup
  mem_listed : ∀ n, n ∈ g.listed.map Row.id ↔ ∃ r, number r = n

theorem severity_get (g : Group σ) (s : σ) (n : UInt32) :
    ∀ e ∈ (g.get s n).2, e.severity = .warn := by
  intro e he
  rw [get] at he
  split at he
  · cases he
  · obtain rfl := List.mem_singleton.mp he
    rfl

/-- Whatever the access, all it logs are warnings. -/
theorem severity_perform (g : Group σ) (s : σ) (a : Access) :
    ∀ e ∈ (g.perform s a).2.2, e.severity = .warn := by
  cases a with
  | get n => exact g.severity_get s n
  | set n value =>
    intro e he
    simp only [perform, set] at he
    split at he
    · cases he
    · obtain rfl := List.mem_singleton.mp he
      rfl
  | values =>
    intro e he
    obtain ⟨reading, hreading, he⟩ := List.mem_flatMap.mp he
    obtain ⟨row, -, rfl⟩ := List.mem_map.mp hreading
    exact g.severity_get s row.id e he

namespace Routes

/-- A table that looks a number up among the registers, and whose rows go through all of them. -/
theorem of_search {search : UInt32 → Option α} {order : List α}
    (hcell : ∀ n, g.cell? n = (search n).map cell)
    (hsearch : ∀ n r, search n = some r ↔ number r = n)
    (hlisted : g.listed.map Row.id = order.map number) (hnodup : order.Nodup)
    (hall : ∀ r, r ∈ order) : g.Routes number cell := by
  have hinjective : Function.Injective number := by
    intro r q h
    have hr : search (number q) = some r := (hsearch (number q) r).mpr h
    have hq : search (number q) = some q := (hsearch (number q) q).mpr rfl
    exact Option.some.inj (hr.symm.trans hq)
  refine ⟨hinjective, ?known, ?unknown, ?nodup, ?mem_listed⟩
  case known =>
    intro r
    rw [hcell, (hsearch (number r) r).mpr rfl]
    rfl
  case unknown =>
    intro n hn
    have hnone : search n = none := by
      apply Option.eq_none_iff_forall_ne_some.mpr
      intro r hr
      exact hn r ((hsearch n r).mp hr)
    rw [hcell, hnone]
    rfl
  case nodup =>
    rw [hlisted]
    exact List.Nodup.map hinjective hnodup
  case mem_listed =>
    intro n
    simp [hlisted, hall]

theorem get_known (hg : g.Routes number cell) (s : σ) (r : α) :
    g.get s (number r) = ((cell r).read s, []) := by
  rw [Group.get, hg.known r]

theorem set_known (hg : g.Routes number cell) (s : σ) (r : α) (value : UInt32) :
    g.set s (number r) value = ((cell r).write s value, []) := by
  rw [Group.set, hg.known r]

theorem get_unknown (hg : g.Routes number cell) (s : σ) {n : UInt32} (hn : ∀ r, number r ≠ n) :
    g.get s n = (0, [.unknownRead g.name n]) := by
  rw [Group.get, hg.unknown n hn]

theorem set_unknown (hg : g.Routes number cell) (s : σ) {n : UInt32} (value : UInt32)
    (hn : ∀ r, number r ≠ n) : g.set s n value = (s, [.unknownWrite g.name n]) := by
  rw [Group.set, hg.unknown n hn]

/-- A row that stands for a register is read without a warning. -/
theorem values_eq (hg : g.Routes number cell) (s : σ) :
    g.values s = (g.listed.map fun row => (row, (g.get s row.id).1), []) := by
  have hlog : ∀ row ∈ g.listed, (g.get s row.id).2 = [] := by
    intro row hrow
    obtain ⟨r, hr⟩ := (hg.mem_listed row.id).mp (List.mem_map_of_mem hrow)
    rw [← hr, hg.get_known]
  apply Prod.ext
  · simp [values, listed, Function.comp_def]
  · simpa [values, listed, List.flatMap_map] using hlog

variable [DecidableEq α]

/-- One access does to the cell of a register what it sets under the register's number. -/
theorem read_perform (hg : g.Routes number cell) (hc : Cell.Separate cell kept) (s : σ) (a : Access)
    (r : α) : (cell r).read (g.perform s a).2.1 =
      ((a.setting? (number r)).map kept).getD ((cell r).read s) := by
  cases a with
  | get n => rfl
  | values => rfl
  | set n value =>
    change (cell r).read (g.set s n value).1 = _
    rw [Access.setting?]
    by_cases hn : ∃ q, number q = n
    · obtain ⟨q, rfl⟩ := hn
      rw [hg.set_known, hc s q value r]
      by_cases hq : q = r
      · rw [if_pos hq, if_pos (congrArg number hq)]
        rfl
      · have hnumber : number q ≠ number r := by
          intro h
          exact hq (hg.injective h)
        rw [if_neg hq, if_neg hnumber]
        rfl
    · have hunknown : ∀ q, number q ≠ n := by
        intro q hq
        exact hn ⟨q, hq⟩
      rw [hg.set_unknown s value hunknown, if_neg (hunknown r).symm]
      rfl

theorem read_run (hg : g.Routes number cell) (hc : Cell.Separate cell kept) (s : σ)
    (accesses : List Access) (r : α) : (cell r).read (g.run s accesses) =
      ((History.latest (Access.setting? (number r)) accesses).map kept).getD ((cell r).read s) := by
  induction accesses using List.reverseRecOn with
  | nil => rfl
  | append_singleton accesses a ih =>
    rw [run_concat, hg.read_perform hc, ih, History.latest_concat]
    cases a.setting? (number r) <;> rfl

theorem holds (hg : g.Routes number cell) (hc : Cell.Separate cell kept)
    (hcontent : ∀ s r, (cell r).read s = content s r) : g.Holds number content kept where
  get s accesses r := by
    rw [hg.get_known, hg.read_run hc, hcontent]
  set s r value := by
    rw [hg.set_known]
  get_unknown s n hn := hg.get_unknown s hn
  set_unknown s n value hn := hg.set_unknown s value hn
  warns := g.severity_perform
  values := hg.values_eq
  nodup := hg.nodup
  mem_listed := hg.mem_listed

end Routes
end Group
end V30Probe.Register
