import V30Probe.Proofs.Session.Trace
import V30Probe.Proofs.Host.Depth
import V30Probe.Proofs.Listing.Layout

/-! Sizes are checked once, before a session starts. A session that starts keeps within them however
long it runs; one that does not start has done nothing. -/

namespace V30Probe

variable {κ δ β ρ σ : Type}

namespace Host

variable [Listing.Decoder δ] [Bus β] [Register.CpuRegisters ρ] [Register.SystemRegisters σ]
  {h : Host κ δ β ρ σ} {sizes : Sizes}

/-- Of a disassembler the decoder changes at most. -/
theorem disassembler_perform (h : Host κ δ β ρ σ) (op : Operation κ) :
    ∃ decoder, (h.perform op).1.session.disassembler = { h.session.disassembler with decoder } := by
  cases op with
  | change c => cases c <;> exact ⟨_, rfl⟩
  | event e =>
    obtain ⟨branches, continuous, pending, he⟩ := h.session.event_fst e
    rw [perform_event, he]
    exact ⟨_, rfl⟩
  | inspect i =>
    cases i with
    | forceInterrupt level =>
      simp only [perform, inspect]
      split <;> exact ⟨_, rfl⟩
    | _ => exact ⟨_, rfl⟩
  | _ => exact ⟨_, rfl⟩

theorem disassembler_run (h : Host κ δ β ρ σ) (ops : List (Operation κ)) :
    ∃ decoder, (h.run ops).1.session.disassembler = { h.session.disassembler with decoder } := by
  induction ops using List.reverseRecOn with
  | nil => exact ⟨h.session.disassembler.decoder, rfl⟩
  | append_singleton ops op ih =>
    obtain ⟨before, hbefore⟩ := ih
    obtain ⟨decoder, hafter⟩ := (h.run ops).1.disassembler_perform op
    refine ⟨decoder, ?_⟩
    rw [run_concat_fst, hafter, hbefore]

theorem Fresh.disassembler (hf : h.Fresh sizes) (ops : List (Operation κ)) :
    ∃ decoder, (h.run ops).1.session.disassembler =
      ⟨decoder, sizes.instructionBytes, sizes.column⟩ := by
  obtain ⟨first, hs⟩ := hf.session_eq
  obtain ⟨decoder, hd⟩ := h.disassembler_run ops
  rw [hs] at hd
  exact ⟨decoder, hd⟩

/-- No more rows are shown than there are slots. -/
theorem Fresh.length_rows_le (hf : h.Fresh sizes) (ops : List (Operation κ)) :
    (h.run ops).1.session.branches.rows.length ≤ sizes.traceCapacity := by
  rw [hf.rows, List.length_map, List.rtake, List.length_drop]
  omega

/-- The line for the instruction at an offset in the program segment. -/
def listed (h : Host κ δ β ρ σ) (address marker : UInt16) : Listing.Line :=
  (h.session.disassembler.line h.bus h.session.depth (Register.CpuRegisters.get h.cpu .ps) address
    marker).1

/-- The text that the decoder has for that instruction. -/
def mnemonic (h : Host κ δ β ρ σ) (address : UInt16) : String :=
  (h.session.disassembler.decoded h.bus h.session.depth (Register.CpuRegisters.get h.cpu .ps)
    address).text

theorem sighting_disassemble (h : Host κ δ β ρ σ) (address marker : UInt16) :
    h.sighting (.inspect (.disassemble address marker)) =
      ⟨.line (h.listed address marker),
        (Listing.fetchAddresses (Register.CpuRegisters.get h.cpu .ps) address
          h.session.disassembler.instructionBytes).map (⟨·, h.session.depth.enter⟩), []⟩ :=
  h.sighting_of_readScoped _ _ rfl

/-- What a front end sees of a session of some sizes is within bounds, whatever the decoder says. -/
structure WithinBounds (sizes : Sizes) (h : Host κ δ β ρ σ) : Prop where
  rows : ∃ rows, (h.perform (.inspect .branches)).2.reply = .rows rows ∧
    rows.length ≤ sizes.traceCapacity
  reads : ∀ address marker,
    let seen := h.sighting (.inspect (.disassemble address marker))
    seen.reply = .line (h.listed address marker) ∧ seen.memory.length = sizes.instructionBytes ∧
      seen.ports = []
  length : ∀ address marker, (h.listed address marker).length ≤ sizes.instructionBytes
  /-- The line begins with what is shown of the instruction, and that decides how long it may be. -/
  text : ∀ address marker, ∃ shown,
    (shown = Listing.placeholder ∨ shown = h.mnemonic address) ∧
      shown.toList <+: (h.listed address marker).text.toList ∧
      (h.listed address marker).text.length ≤ max 1024 shown.length + 3 * 65536

theorem withinBounds_of_disassembler {decoder : δ} (hv : sizes.check = .ok ())
    (hd : h.session.disassembler = ⟨decoder, sizes.instructionBytes, sizes.column⟩)
    (hrows : h.session.branches.rows.length ≤ sizes.traceCapacity) : h.WithinBounds sizes := by
  obtain ⟨-, ⟨-, hbytes⟩, -, hcolumn⟩ := sizes.check_eq_ok_iff_bounds.mp hv
  have hset : h.session.disassembler.instructionBytes = sizes.instructionBytes := by rw [hd]
  have hat : h.session.disassembler.column = sizes.column := by rw [hd]
  have hlength : ∀ address marker,
      (h.listed address marker).length ≤ sizes.instructionBytes := by
    intro address marker
    have hle := h.session.disassembler.length_line_le h.bus h.session.depth
      (Register.CpuRegisters.get h.cpu .ps) address marker (hset.trans_le hbytes)
    exact hle.trans_eq hset
  refine ⟨⟨_, rfl, hrows⟩, ?reads, hlength, ?text⟩
  case reads =>
    intro address marker seen
    have hseen : seen = _ := h.sighting_disassemble address marker
    refine ⟨congrArg Sighting.reply hseen, ?_, congrArg Sighting.ports hseen⟩
    rw [hseen, List.length_map, Listing.length_fetchAddresses, hset]
  case text =>
    intro address marker
    obtain ⟨shown, hshown, hline⟩ := h.session.disassembler.line_shows h.bus
      h.session.depth (Register.CpuRegisters.get h.cpu .ps) address marker
    have hlong : (h.listed address marker).text.length =
        max sizes.column shown.length + 3 * (h.listed address marker).length := by
      rw [← hat]
      exact hline.length_text
    have hle := hlength address marker
    refine ⟨shown, hshown, hline.begins, ?_⟩
    omega

theorem Fresh.withinBounds (hf : h.Fresh sizes) (ops : List (Operation κ)) :
    (h.run ops).1.WithinBounds sizes := by
  obtain ⟨decoder, hd⟩ := hf.disassembler ops
  exact withinBounds_of_disassembler hf.check hd (hf.length_rows_le ops)

end Host

variable [Listing.Decoder δ] [Bus β] [Register.CpuRegisters ρ] [Register.SystemRegisters σ]

/-- All that the surroundings are made to do, from the start of a session to its end. With sizes
that are refused there is no session that could go on or end. -/
def life (sizes : Sizes) (decoder : δ) (bus : β) (cpu : ρ) (system : σ)
    (ops : List (Operation κ)) : List (Action κ) :=
  match Session.create sizes decoder with
  | (.ok s, started) =>
    let host : Host κ δ β ρ σ := ⟨s, bus, cpu, system⟩
    started ++ host.effects ops ++ (host.run ops).1.session.finish
  | (.error _, actions) => actions

/-- A session starts just if its three sizes are within their limits. Otherwise the first that is not
is reported, and nothing is ever installed. A session that starts keeps within these bounds for as
long as it runs. -/
theorem valid_sizes_bound_every_run (sizes : Sizes) (decoder : δ) (bus : β) (cpu : ρ)
    (system : σ) :
    let start : Except SizeError (Session κ δ × List (Action κ)) := Session.start sizes decoder
    let valid := fun field => 1 ≤ sizes.get field ∧ sizes.get field ≤ field.limit
    ((∃ s started, start = .ok (s, started)) ↔
      (1 ≤ sizes.traceCapacity ∧ sizes.traceCapacity ≤ 65536) ∧
        (1 ≤ sizes.instructionBytes ∧ sizes.instructionBytes ≤ 65536) ∧
          1 ≤ sizes.column ∧ sizes.column ≤ 1024) ∧
    (∀ e, start = .error e ↔ ∃ before field after,
      [.traceCapacity, .instructionBytes, .column] = before ++ field :: after ∧
        (∀ g ∈ before, valid g) ∧
        ((sizes.get field = 0 ∧ e = .zero field) ∨
          (field.limit < sizes.get field ∧ e = .tooLarge field (sizes.get field)))) ∧
    (∀ ops : List (Operation κ), (∃ e, start = .error e) ↔
      Action.installs (life sizes decoder bus cpu system ops) = []) ∧
    ∀ s started, start = .ok (s, started) → ∀ ops,
      ((Host.mk s bus cpu system).run ops).1.WithinBounds sizes := by
  intro start valid
  refine ⟨?_, fun e => ?_, fun ops => ?_, fun s started hs ops => ?_⟩
  · rw [← sizes.check_eq_ok_iff_bounds]
    exact Session.exists_start_iff sizes decoder
  · rw [Session.start_eq_error_iff, Sizes.check, Sizes.forM_checkField_eq_error_iff]
    simp only [Sizes.checkField_eq_ok_iff, Sizes.checkField_eq_error_iff]
    rfl
  · cases hs : start with
    | ok x =>
      obtain ⟨s, started⟩ := x
      obtain rfl := Session.start_actions hs
      simp [life, Session.create_eq_of_start hs, Action.installs, Action.install?]
    | error e =>
      have hcheck := Session.start_eq_error_iff.mp hs
      simp [life, Session.create_eq_of_error hcheck, Action.installs]
  · have hf : (Host.mk s bus cpu system).Fresh sizes := ⟨decoder, started, hs⟩
    exact hf.withinBounds ops

/-- A session of two slots has recorded three branches, and the decoder asks for more bytes than the
five that are fetched. Sizes of which two are wrong do not start one. -/
theorem bounds_of_small_session :
    let sizes : Sizes := ⟨2, 5, 10⟩
    let wrong : Sizes := ⟨65536, 65537, 0⟩
    let decoder : Listing.Uniform := ⟨7⟩
    let s : Session Nat Listing.Uniform := (Session.setUp sizes decoder).rewire.1
    let branch := fun n : UInt16 => Operation.event (κ := Nat) (.branch ⟨⟨0, n⟩, ⟨0, 0⟩, false⟩)
    let ops := [.change (.setTracing true), branch 1, branch 2, branch 3]
    let after := ((Host.mk s Idle.rest Idle.rest Idle.rest).run ops).1
    Session.start sizes decoder = .ok (s, [.install .detached]) ∧ after.WithinBounds sizes ∧
      after.session.branches.rows.length = 2 ∧ (after.listed 0 6).length = 5 ∧
      (Session.start wrong decoder : Except SizeError (Session Nat Listing.Uniform × _)) =
        .error (.tooLarge .instructionBytes 65537) ∧
      Action.installs (life wrong decoder Idle.rest Idle.rest Idle.rest ops) = [] := by
  intro sizes wrong decoder s branch ops after
  obtain ⟨-, -, -, hbounds⟩ :=
    valid_sizes_bound_every_run (κ := Nat) sizes decoder Idle.rest Idle.rest Idle.rest
  obtain ⟨-, herror, hnothing, -⟩ :=
    valid_sizes_bound_every_run (κ := Nat) wrong decoder Idle.rest Idle.rest Idle.rest
  have hs : Session.start sizes decoder = .ok (s, [.install .detached]) := rfl
  have hrefused := (herror (.tooLarge .instructionBytes 65537)).mpr
    ⟨[.traceCapacity], .instructionBytes, [.column], rfl, by decide, Or.inr ⟨by decide, rfl⟩⟩
  exact ⟨hs, hbounds s _ hs ops, by decide, by decide, hrefused,
    (hnothing ops).mp ⟨_, hrefused⟩⟩

end V30Probe
