import V30Probe.Proofs.Session.Installs
import V30Probe.Proofs.Session.Latches

/-! What is installed last is enough: no hit goes through a slot that is off, and an event whose
slot is off would find nothing to do. -/

namespace V30Probe

variable {κ δ β ρ σ : Type}

/-- The slot through which the interpreter reports what a breakpoint of the category watches. -/
def Category.slot : Category → Slot
  | .memoryRead | .auxRead => .memoryRead
  | .memoryWrite | .auxWrite => .memoryWrite
  | .pc => .instruction
  | .portRead => .portRead
  | .portWrite => .portWrite

namespace Wiring

variable {t : BreakpointTable} {c : Category} {callback tracing : Bool}

theorem derive_instruction_of_hasAny (h : t.hasAny c) :
    (derive t callback tracing).instruction := by
  have he : !t.isEmpty := t.not_isEmpty_iff.mpr ⟨c, h⟩
  simp [derive, he]

/-- A category with a breakpoint has its slot. -/
theorem derive_has_slot_of_hasAny (h : t.hasAny c) :
    (derive t callback tracing).has c.slot := by
  cases c with
  | pc => exact derive_instruction_of_hasAny h
  | _ => simp [derive, has, Category.slot, h]

end Wiring

namespace Session

variable {s : Session κ δ} {c : Category} {a : UInt32}

/-- An address that a breakpoint watches has the slot that reports it, and the one that reports
hits. -/
theorem slots_on_of_hits (hw : s.wiring = s.needed) (hh : s.breakpoints.hits c a) :
    s.wiring.has c.slot ∧ s.wiring.instruction := by
  have hany : s.breakpoints.hasAny c := by
    by_contra hn
    have hno := hits_of_not_hasAny (eq_false_of_ne_true hn) a
    exact absurd (hno.symm.trans hh) Bool.false_ne_true
  rw [hw]
  exact ⟨Wiring.derive_has_slot_of_hasAny hany, Wiring.derive_instruction_of_hasAny hany⟩

end Session

variable [Listing.Decoder δ] [Bus β] [Register.CpuRegisters ρ] [Register.SystemRegisters σ]

namespace Host

/-- An event whose slot is off is an access to the bus and nothing else. -/
theorem perform_event_of_slot_off (h : Host κ δ β ρ σ) (hw : h.session.wiring = h.session.needed)
    {e : Event} (he : e.slot ≠ .instruction) (hoff : h.session.wiring.has e.slot = false) :
    h.perform (.event e) =
      ({ h with bus := (e.access h.bus h.session.depth).2 },
        ⟨(e.access h.bus h.session.depth).1.elim .none .byte, []⟩) := by
  rw [perform_event, Session.event_of_slot_off hw hoff he, Session.event_snd _ he]

/-- What was installed last, by these operations or before them, is what the session is wired
for. -/
theorem getLast?_installs_effects (h : Host κ δ β ρ σ) (ops : List (Operation κ)) :
    (Action.installs (h.effects ops)).getLast?.getD h.session.wiring =
      (h.run ops).1.session.wiring := by
  induction ops using List.reverseRecOn with
  | nil => rfl
  | append_singleton ops op ih =>
    rw [effects_concat, Action.installs_append, installs_perform, run_concat_fst]
    cases hop : op.isChange with
    | true => simp
    | false => simpa [wiring_perform _ hop] using ih

end Host

/-- After any operations the wiring that was installed last has the slot of every address that some
breakpoint watches, and the slot that reports hits. A read whose slot is off in it brings the byte
of the bus and leaves the bus as the read does, and all else as it is. A write or a branch whose slot
is off leaves everything as it is. -/
theorem last_install_misses_no_hit {sizes : Sizes} {decoder : δ} {s : Session κ δ}
    {started : List (Action κ)} (hs : Session.start sizes decoder = .ok (s, started)) (bus : β)
    (cpu : ρ) (system : σ) (ops : List (Operation κ)) :
    let host : Host κ δ β ρ σ := ⟨s, bus, cpu, system⟩
    let h := (host.run ops).1
    let read := Bus.read h.bus h.session.depth
    let readPort := Bus.readPort h.bus h.session.depth
    ∃ w, (Action.installs (started ++ host.effects ops)).getLast? = some w ∧
      (∀ c a, h.session.breakpoints.hits c a → w.has c.slot ∧ w.instruction) ∧
      (w.memoryRead = false → ∀ a, h.perform (.event (.memoryRead a)) =
        (⟨h.session, (read a).2, h.cpu, h.system⟩, ⟨.byte (read a).1, []⟩)) ∧
      (w.portRead = false → ∀ port, h.perform (.event (.portRead port)) =
        (⟨h.session, (readPort port).2, h.cpu, h.system⟩, ⟨.byte (readPort port).1, []⟩)) ∧
      (w.memoryWrite = false → ∀ a value,
        h.perform (.event (.memoryWrite a value)) = (h, ⟨.none, []⟩)) ∧
      (w.portWrite = false → ∀ port value,
        h.perform (.event (.portWrite port value)) = (h, ⟨.none, []⟩)) ∧
      (w.branchTrace = false → ∀ t, h.perform (.event (.branch t)) = (h, ⟨.none, []⟩)) := by
  intro host h read readPort
  have hw : h.session.wiring = h.session.needed :=
    (tracks_run_start hs bus cpu system ops).wiring
  have hfirst : host.session.wiring = .detached := Session.wiring_of_start hs
  have hlast : (Action.installs (started ++ host.effects ops)).getLast? =
      some h.session.wiring := by
    have hrun := host.getLast?_installs_effects ops
    rw [hfirst] at hrun
    rw [Action.installs_append, Session.start_actions hs, ← hrun]
    exact List.getLast?_cons
  have hother {e : Event} := h.perform_event_of_slot_off (e := e) hw
  refine ⟨h.session.wiring, hlast, fun c a hh => Session.slots_on_of_hits hw hh, ?_, ?_, ?_, ?_, ?_⟩
  · intro hoff a
    exact hother (by simp [Event.slot]) hoff
  · intro hoff port
    exact hother (by simp [Event.slot]) hoff
  · intro hoff a value
    exact hother (by simp [Event.slot]) hoff
  · intro hoff port value
    exact hother (by simp [Event.slot]) hoff
  · intro hoff t
    exact hother (by simp [Event.slot]) hoff

/-- A port breakpoint whose bounds differ from the port in their high bits has its slot installed,
while reads go past the session to the bytes of memory and of the queue. -/
theorem last_install_of_port_breakpoint :
    let host : Host Nat Idle Feed Idle Idle :=
      ⟨Idle.session, ⟨fun a => a.toUInt8, [7, 8]⟩, .rest, .rest⟩
    let ops : List (Operation Nat) :=
      [.change (.add .memoryRead ⟨16, 31, false⟩),
        .change (.add .portWrite ⟨0x1F0, 0x2FF, false⟩), .change (.clear .memoryRead)]
    let h := (host.run ops).1
    Session.start {} Idle.rest = .ok (Idle.session, [.install .detached]) ∧
      h.session.breakpoints.hits .portWrite 0x7F5 ∧
      ∃ w, (Action.installs ([.install .detached] ++ host.effects ops)).getLast? = some w ∧
        w.portWrite ∧ w.instruction ∧ w.memoryRead = false ∧ w.portRead = false ∧
        h.perform (.event (.memoryRead 20)) = (h, ⟨.byte 20, []⟩) ∧
        h.perform (.event (.portRead 3)) = ({ h with bus.queue := [8] }, ⟨.byte 7, []⟩) := by
  intro host ops h
  have hhit : h.session.breakpoints.hits .portWrite 0x7F5 := by decide
  obtain ⟨w, hlast, hon, hread, hport, -⟩ :=
    last_install_misses_no_hit Idle.start_eq host.bus Idle.rest Idle.rest ops
  obtain rfl : ⟨true, false, false, false, true, false⟩ = w := Option.some.inj hlast
  obtain ⟨hwrite, hinstruction⟩ := hon .portWrite 0x7F5 hhit
  exact ⟨Idle.start_eq, hhit, _, hlast, hwrite, hinstruction, rfl, rfl, hread rfl 20, hport rfl 3⟩

end V30Probe
