import Mathlib.Logic.Function.Basic
import V30Probe.Proofs.Register.Cells
import V30Probe.Register.Cpu
import V30Probe.Register.System

/-! The tables of processor and system over a machine that stores each register by itself. -/

namespace V30Probe.Register

variable {ρ σ : Type} [CpuRegisters ρ] [SystemRegisters σ]

/-- Each register of the processor is stored by itself. -/
def CpuRegisters.Separate (ρ : Type) [CpuRegisters ρ] : Prop :=
  ∀ (s : ρ) r value q, get (set s r value) q = if r = q then value else get s q

/-- Each register of the system is stored by itself. -/
def SystemRegisters.Separate (σ : Type) [SystemRegisters σ] : Prop :=
  ∀ (s : σ) r value q, get (set s r value) q = if r = q then value else get s q

/-! ### Numbers -/

theorem CpuRegister.id_get_all (i : Fin all.length) : (all.get i).id.toNat = i + 1 := by
  revert i
  decide

theorem MemoryRegister.id_get_all (i : Fin all.length) : (all.get i).id.toNat = i := by
  revert i
  decide

theorem InterruptRegister.id_get_all (i : Fin all.length) :
    (all.get i).id.toNat = 0x8000 + i := by
  revert i
  decide

theorem CpuRegister.exists_id_iff (n : UInt32) :
    (∃ r, CpuRegister.id r = n) ↔ 1 ≤ n.toNat ∧ n.toNat ≤ 14 := by
  constructor
  · rintro ⟨r, rfl⟩
    cases r <;> decide
  · rintro ⟨hlow, hhigh⟩
    have hlt : n.toNat - 1 < all.length := by
      change n.toNat - 1 < 14
      omega
    refine ⟨all.get ⟨n.toNat - 1, hlt⟩, UInt32.toNat_inj.mp ?_⟩
    rw [id_get_all]
    exact Nat.sub_add_cancel hlow

/-- The marked numbers start at the mark, and each of the other bits is read. -/
theorem SystemRegister.exists_id_iff (n : UInt32) :
    (∃ r, SystemRegister.id r = n) ↔
      n.toNat ≤ 4 ∨ 0x8000 ≤ n.toNat ∧ n.toNat ≤ 0x8003 := by
  constructor
  · rintro ⟨r, rfl⟩
    rcases r with r | r <;> cases r <;> decide
  · rintro (h | ⟨hlow, hhigh⟩)
    · have hlt : n.toNat < MemoryRegister.all.length := Nat.lt_succ_of_le h
      refine ⟨.memory (MemoryRegister.all.get ⟨n.toNat, hlt⟩), UInt32.toNat_inj.mp ?_⟩
      exact MemoryRegister.id_get_all _
    · have hlt : n.toNat - 0x8000 < InterruptRegister.all.length := by
        change n.toNat - 0x8000 < 4
        omega
      refine ⟨.interrupt (InterruptRegister.all.get ⟨n.toNat - 0x8000, hlt⟩),
        UInt32.toNat_inj.mp ?_⟩
      rw [id, InterruptRegister.id_get_all]
      exact Nat.add_sub_cancel' hlow

/-! ### Cells -/

theorem routes_cpuGroup : cpuGroup.Routes CpuRegister.id (cpuCell (ρ := ρ)) := by
  let order : List CpuRegister :=
    [.pc, .flags, .aw, .bw, .cw, .dw, .ix, .iy, .bp, .sp, .ps, .ss, .ds0, .ds1]
  have hall : ∀ r, r ∈ order := by
    intro r
    cases r <;> decide
  exact .of_search (fun _ => rfl) (fun _ _ => CpuRegister.ofId?_eq_some_iff)
    (show _ = order.map CpuRegister.id from rfl) (by decide) hall

theorem routes_systemGroup : systemGroup.Routes SystemRegister.id (systemCell (σ := σ)) := by
  let order : List SystemRegister :=
    [.memory .bank1Select, .memory .bank2Select, .memory .bank3Select, .memory .romBankBase,
      .memory .flashSelect, .interrupt .asserted, .interrupt .status, .interrupt .enable,
      .interrupt .vectorBase]
  have hall : ∀ r, r ∈ order := by
    intro r
    rcases r with r | r <;> cases r <;> decide
  exact .of_search (fun _ => rfl) (fun _ _ => SystemRegister.ofId?_eq_some_iff)
    (show _ = order.map SystemRegister.id from rfl) (by decide) hall

/-- Sixteen bits of a value are kept. -/
theorem separate_cpuCell (h : CpuRegisters.Separate ρ) :
    Cell.Separate (cpuCell (ρ := ρ)) fun value => value % 0x10000 := by
  intro s r value q
  change (CpuRegisters.get (CpuRegisters.set s r value.toUInt16) q).toUInt32 = _
  rw [h, apply_ite UInt16.toUInt32, UInt32.toUInt32_toUInt16]
  rfl

theorem separate_systemCell (h : SystemRegisters.Separate σ) :
    Cell.Separate (systemCell (σ := σ)) fun value => value :=
  h

/-- Over a machine that stores its registers separately, each table is a set of independent cells.
The numbers of the processor's registers are 1 to 14 and keep sixteen bits; those of the system's
are 0 to 4 and, marked, 0 to 3, and keep all. Any other number reads as zero, writes nothing and
is warned of. -/
theorem tables_are_cells (hρ : CpuRegisters.Separate ρ) (hσ : SystemRegisters.Separate σ) :
    (cpuGroup.Holds CpuRegister.id (fun (s : ρ) r => (CpuRegisters.get s r).toUInt32)
        (fun value => value % 0x10000) ∧
      ∀ n, (∃ r, CpuRegister.id r = n) ↔ 1 ≤ n.toNat ∧ n.toNat ≤ 14) ∧
    (systemGroup.Holds SystemRegister.id (fun (s : σ) r => SystemRegisters.get s r)
        (fun value => value) ∧
      ∀ n, (∃ r, SystemRegister.id r = n) ↔
        n.toNat ≤ 4 ∨ 0x8000 ≤ n.toNat ∧ n.toNat ≤ 0x8003) := by
  refine ⟨⟨?cpu, CpuRegister.exists_id_iff⟩, ?system, SystemRegister.exists_id_iff⟩
  case cpu =>
    exact routes_cpuGroup.holds (separate_cpuCell hρ) fun _ _ => rfl
  case system =>
    exact routes_systemGroup.holds (separate_systemCell hσ) fun _ _ => rfl

/-- A machine that is nothing but its registers. A forced interrupt is asserted. -/
structure Bare where
  cpu : CpuRegister → UInt16
  system : SystemRegister → UInt32

namespace Bare

instance : CpuRegisters Bare where
  get s := s.cpu
  set s r value := { s with cpu := Function.update s.cpu r value }

instance : SystemRegisters Bare where
  get s := s.system
  set s r value := { s with system := Function.update s.system r value }
  forceInterrupt s level :=
    let asserted := s.system (.interrupt .asserted) ||| 1 <<< UInt32.ofNat level
    { s with system := Function.update s.system (.interrupt .asserted) asserted }

theorem cpu_separate : CpuRegisters.Separate Bare := by
  intro s r value q
  change Function.update s.cpu r value q = _
  rw [Function.update_apply]
  exact if_congr eq_comm rfl rfl

theorem system_separate : SystemRegisters.Separate Bare := by
  intro s r value q
  change Function.update s.system r value q = _
  rw [Function.update_apply]
  exact if_congr eq_comm rfl rfl

end Bare

/-- A value of more than sixteen bits, a number set twice, numbers that differ in the mark only,
and numbers with a further bit. -/
theorem tables_of_bare_registers :
    let s : Bare := ⟨fun _ => 7, fun _ => 9⟩
    let cpuAccesses : List Access :=
      [.set 3 0x12345, .set 0x8003 1, .set 14 5, .get 3, .set 0x13 2, .values, .set 14 0xFFFFF]
    let systemAccesses : List Access :=
      [.set 2 0x89ABCDEF, .set 0x8002 4, .set 0x18002 5, .values, .set 0x8004 6, .set 0 1]
    CpuRegisters.Separate Bare ∧ SystemRegisters.Separate Bare ∧
      cpuGroup.get (cpuGroup.run s cpuAccesses) 3 = (0x2345, []) ∧
      cpuGroup.get (cpuGroup.run s cpuAccesses) 14 = (0xFFFF, []) ∧
      cpuGroup.get (cpuGroup.run s cpuAccesses) 4 = (7, []) ∧
      systemGroup.get (systemGroup.run s systemAccesses) 2 = (0x89ABCDEF, []) ∧
      systemGroup.get (systemGroup.run s systemAccesses) 0x8002 = (4, []) ∧
      systemGroup.get (systemGroup.run s systemAccesses) 0x18002 =
        (0, [.unknownRead "Misc" 0x18002]) ∧
      systemGroup.set s 0x18002 5 = (s, [.unknownWrite "Misc" 0x18002]) := by
  intro s cpuAccesses systemAccesses
  obtain ⟨⟨hcpu, -⟩, hsystem, hnumber⟩ := tables_are_cells Bare.cpu_separate Bare.system_separate
  have hunknown : ∀ r, SystemRegister.id r ≠ 0x18002 := by
    intro r hr
    have hrange := (hnumber 0x18002).mp ⟨r, hr⟩
    revert hrange
    decide
  refine ⟨Bare.cpu_separate, Bare.system_separate, ?_, ?_, ?_, ?_, ?_, ?_, ?_⟩
  · exact hcpu.get s cpuAccesses .cw
  · exact hcpu.get s cpuAccesses .ds0
  · exact hcpu.get s cpuAccesses .dw
  · exact hsystem.get s systemAccesses (.memory .bank2Select)
  · exact hsystem.get s systemAccesses (.interrupt .enable)
  · exact hsystem.get_unknown _ 0x18002 hunknown
  · exact hsystem.set_unknown s 0x18002 5 hunknown

end V30Probe.Register
