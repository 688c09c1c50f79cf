import V30Probe.Proofs.Session.Tracks

/-! What the two latches of a session bear on, and what an event does that no slot is installed
for. -/

namespace V30Probe

variable {κ δ β ρ σ : Type}

/-- What is called at the end of an instruction, by the latches before it. -/
def reports (callback : Option κ) (pc : UInt32) (continuous hit : Bool) :
    List (κ × UInt32 × Bool) :=
  if continuous || hit then callback.toList.map fun k => (k, pc, hit) else []

section Reports

variable {callback : Option κ} {pc : UInt32} {c c' hit hit' : Bool}

theorem reports_length_le (hc : callback.isSome → c → c') (hh : hit → hit') :
    (reports callback pc c hit).length ≤ (reports callback pc c' hit').length := by
  cases callback with
  | none => simp [reports]
  | some k =>
    have hc' : c → c' := hc rfl
    cases c <;> cases hit <;> simp_all [reports]

theorem reports_congr (hc : callback.isSome → c' = c) (hh : callback.isSome → hit' = hit) :
    reports callback pc c' hit' = reports callback pc c hit := by
  cases callback with
  | none => simp [reports]
  | some k => rw [hc rfl, hh rfl]

/-- A call with a hit is not made up for by later calls, if those are no more. -/
theorem reports_append_ne {xs ys : List (κ × UInt32 × Bool)} (hk : callback.isSome)
    (hl : ys.length ≤ xs.length) :
    reports callback pc c' true ++ xs ≠ reports callback pc c false ++ ys := by
  obtain ⟨k, rfl⟩ := Option.isSome_iff_exists.mp hk
  intro h
  cases c with
  | true => simp [reports] at h
  | false =>
    have hlen := congrArg List.length h
    simp [reports] at hlen
    omega

end Reports

namespace Session

variable {s : Session κ δ} {e : Event}

/-- The hit that a session reports if an instruction ends at `pc`. -/
def hitAt (s : Session κ δ) (pc : UInt32) : Bool :=
  s.pending || s.breakpoints.hits .pc pc

theorem calls_boundary_eq_reports (s : Session κ δ) (pc : UInt32) :
    Action.calls (s.boundary pc).2 = reports s.callback pc s.continuous (s.hitAt pc) :=
  s.calls_boundary pc

/-- The same session with other latches. -/
def withLatches (s : Session κ δ) (pending continuous : Bool) : Session κ δ :=
  { s with pending, continuous }

theorem hits_of_not_hasAny {t : BreakpointTable} {c : Category} (h : t.hasAny c = false)
    (a : UInt32) : t.hits c a = false := by
  have hl : t.list c = [] := by simpa [BreakpointTable.hasAny] using h
  rw [BreakpointTable.hits, hl]
  rfl

/-- No breakpoint watches an access whose slot is not installed. -/
theorem no_hit_of_slot_off (hw : s.wiring = s.needed) (hoff : s.wiring.has e.slot = false) :
    ∀ x ∈ e.accesses, s.breakpoints.hits x.1 x.2 = false := by
  intro x hx
  apply hits_of_not_hasAny
  rw [hw] at hoff
  cases e <;>
    simp_all [Event.accesses, Event.slot, Wiring.has, needed, Wiring.derive] <;>
    rcases hx with rfl | rfl <;> simp_all

theorem watch_eq_self {categories : List Category} {a : UInt32}
    (h : ∀ c ∈ categories, s.breakpoints.hits c a = false) : s.watch categories a = s := by
  have hn : (categories.any fun c => s.breakpoints.hits c a) = false := by simpa using h
  rw [watch, hn, Bool.or_false]

/-- An event whose slot is not installed does nothing to the session, unless it ends an
instruction. -/
theorem event_of_slot_off (hw : s.wiring = s.needed) (hoff : s.wiring.has e.slot = false)
    (he : e.slot ≠ .instruction) : (s.event e).1 = s := by
  have hn := no_hit_of_slot_off hw hoff
  cases e with
  | memoryRead a =>
    exact watch_eq_self fun c hc => hn (c, a) (by simpa [Event.accesses] using hc)
  | memoryWrite a value =>
    exact watch_eq_self fun c hc => hn (c, a) (by simpa [Event.accesses] using hc)
  | portRead port =>
    exact watch_eq_self fun c hc => hn (c, port) (by simpa [Event.accesses] using hc)
  | portWrite port value =>
    exact watch_eq_self fun c hc => hn (c, port) (by simpa [Event.accesses] using hc)
  | instruction pc => exact absurd rfl he
  | branch x =>
    have hx : s.branches.enabled = false := by
      rw [hw] at hoff
      exact hoff
    simp [event, note, hx]

/-- Events but the end of an instruction do not look at the latches. -/
theorem event_withLatches (s : Session κ δ) (he : e.slot ≠ .instruction) (p c : Bool) :
    ((s.withLatches p c).event e).1 =
      (s.event e).1.withLatches (p || e.accesses.any fun x => s.breakpoints.hits x.1 x.2) c := by
  cases e with
  | instruction pc => exact absurd rfl he
  | branch x =>
    by_cases hx : s.branches.enabled <;> simp [event, note, withLatches, Event.accesses, hx]
  | _ => rfl

theorem change_withLatches (s : Session κ δ) (x : Change κ) (p c : Bool) :
    (s.withLatches p c).change x =
      ((s.change x).1.withLatches p
        (((Operation.callbackSet? (.change x)).map Prod.snd).getD c), (s.change x).2) := by
  cases x <;> rfl

end Session

namespace Host

/-- The same host with other latches in its session. -/
def withLatches (h : Host κ δ β ρ σ) (pending continuous : Bool) : Host κ δ β ρ σ :=
  { h with session := h.session.withLatches pending continuous }

variable [Listing.Decoder δ] [Bus β] [Register.CpuRegisters ρ] [Register.SystemRegisters σ]
  (h : Host κ δ β ρ σ) (p c : Bool)

theorem inspect_withLatches (i : Inspection) :
    (h.withLatches p c).inspect i = ((h.inspect i).1.withLatches p c, (h.inspect i).2) := by
  cases i with
  | forceInterrupt level =>
    simp only [inspect]
    split <;> rfl
  | _ => rfl

theorem perform_withLatches_of_quiet {op : Operation κ} (hq : op.isQuiet) :
    (h.withLatches p c).perform op = ((h.perform op).1.withLatches p c, (h.perform op).2) := by
  cases op with
  | change x => simp [Operation.isQuiet] at hq
  | event e => simp [Operation.isQuiet] at hq
  | inspect i => exact h.inspect_withLatches p c i
  | _ => rfl

theorem perform_withLatches_change (x : Change κ) :
    (h.withLatches p c).perform (.change x) =
      ((h.perform (.change x)).1.withLatches p
        (((Operation.callbackSet? (.change x)).map Prod.snd).getD c),
        (h.perform (.change x)).2) := by
  have hs : (h.withLatches p c).session = h.session.withLatches p c := rfl
  rw [perform_change, hs, Session.change_withLatches]
  rfl

theorem perform_withLatches_event {e : Event} (he : e.slot ≠ .instruction) :
    (h.withLatches p c).perform (.event e) =
      ((h.perform (.event e)).1.withLatches
        (p || e.accesses.any fun x => h.session.breakpoints.hits x.1 x.2) c,
        (h.perform (.event e)).2) := by
  have hs : (h.withLatches p c).session = h.session.withLatches p c := rfl
  rw [perform_event, perform_event, hs, Session.event_withLatches _ he, Session.event_snd _ he,
    Session.event_snd _ he]
  rfl

theorem continuous_perform {op : Operation κ} (hb : op.isBoundary = false) :
    (h.perform op).1.session.continuous =
      (op.callbackSet?.map Prod.snd).getD h.session.continuous := by
  cases op with
  | change x => cases x <;> rfl
  | event e =>
    cases e with
    | instruction pc => simp [Operation.isBoundary] at hb
    | branch x =>
      simp only [perform, Session.event, Session.note]
      split <;> rfl
    | _ => rfl
  | inspect i =>
    obtain ⟨depth, disassembler, hi⟩ := h.session_inspect i
    rw [perform, hi]
    rfl
  | _ => rfl

theorem wiring_perform {op : Operation κ} (hop : op.isChange = false) :
    (h.perform op).1.session.wiring = h.session.wiring := by
  cases op with
  | change x => simp [Operation.isChange] at hop
  | event e =>
    obtain ⟨branches, continuous, pending, he⟩ := h.session.event_fst e
    rw [perform_event, he]
  | inspect i =>
    obtain ⟨depth, disassembler, hi⟩ := h.session_inspect i
    rw [perform, hi]
  | _ => rfl

end Host
end V30Probe
