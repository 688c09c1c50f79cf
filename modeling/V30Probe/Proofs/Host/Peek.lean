import Mathlib.Data.Nat.Digits.Lemmas
import V30Probe.Proofs.Host.Depth
import V30Probe.Proofs.Register.Tables

/-! Words that the debugger reads: the lowest byte first, from addresses that wrap at twenty bits,
whichever way an address is written. -/

namespace V30Probe

/-! ### Words of bytes -/

theorem ofDigits_bytes_lt (bytes : List UInt8) :
    Nat.ofDigits 256 (bytes.map UInt8.toNat) < 256 ^ bytes.length := by
  have hdigit : ∀ n ∈ bytes.map UInt8.toNat, n < 256 := by
    intro n hn
    obtain ⟨b, -, rfl⟩ := List.mem_map.mp hn
    exact b.toNat_lt
  simpa using Nat.ofDigits_lt_base_pow_length (by decide) hdigit

theorem toNat_shiftLeft_byte (b : UInt8) {i : Nat} (h : i < 4) :
    (b.toUInt32 <<< (8 * UInt32.ofNat i)).toNat = 2 ^ (8 * i) * b.toNat := by
  have hb := b.toNat_lt
  have hcount : (8 * UInt32.ofNat i).toNat = 8 * i := by
    rw [UInt32.toNat_mul, UInt32.toNat_ofNat']
    simp only [UInt32.reduceToNat]
    omega
  have hplace : 2 ^ (8 * i) * 256 ≤ 2 ^ 32 := by
    rw [← Nat.pow_add 2 (8 * i) 8]
    exact Nat.pow_le_pow_right (by decide) (by omega)
  have hfits : 2 ^ (8 * i) * b.toNat < 2 ^ 32 :=
    Nat.lt_of_lt_of_le (Nat.mul_lt_mul_of_pos_left hb (Nat.two_pow_pos _)) hplace
  rw [UInt32.toNat_shiftLeft, hcount, Nat.mod_eq_of_lt (by omega : 8 * i < 32), Nat.shiftLeft_eq,
    UInt8.toNat_toUInt32, Nat.mul_comm, Nat.mod_eq_of_lt hfits]

/-- Bytes that are shifted to their places do not overlap, so that joining them adds them up. -/
theorem toNat_joinBytes {bytes : List UInt8} (h : bytes.length ≤ 4) :
    (joinBytes bytes).toNat = Nat.ofDigits 256 (bytes.map UInt8.toNat) := by
  induction bytes using List.reverseRecOn with
  | nil => rfl
  | append_singleton bytes b ih =>
    rw [List.length_append, List.length_singleton] at h
    have hpow : 256 ^ bytes.length = 2 ^ (8 * bytes.length) := (Nat.pow_mul 2 8 bytes.length).symm
    have hlow := ofDigits_bytes_lt bytes
    rw [hpow] at hlow
    rw [joinBytes_concat, UInt32.toNat_or, ih (by omega), toNat_shiftLeft_byte b (by omega),
      Nat.or_comm, ← Nat.two_pow_add_eq_or_of_lt hlow, List.map_append, Nat.ofDigits_append,
      List.length_map, hpow, Nat.add_comm]
    simp

/-! ### Addresses of bytes -/

section Addresses

variable {space : Space} {address : UInt32}

theorem peekAddresses_congr {a b : UInt32} (h : a.toNat % physicalBytes = b.toNat % physicalBytes)
    (size : UInt32) : peekAddresses space a size = peekAddresses space b size := by
  rw [peekAddresses_eq, peekAddresses_eq]
  apply List.map_congr_left
  intro i _
  congr 1
  rw [physicalBytes] at h ⊢
  omega

/-- No word is longer than four bytes. -/
theorem peekAddresses_of_four_le {size : UInt32} (h : 4 ≤ size.toNat) :
    peekAddresses space address size = peekAddresses space address 4 := by
  have hmin : min size.toNat 4 = min (4 : UInt32).toNat 4 := Nat.min_eq_right h
  rw [peekAddresses, hmin, peekAddresses]

theorem peekAddresses_four :
    peekAddresses space address 4 =
      peekAddresses space address 2 ++ peekAddresses space (address + 2) 2 := by
  have h2 : address + 2 = address + 2 + 0 := (UInt32.add_zero _).symm
  have h3 : address + 3 = address + 2 + 1 := (UInt32.add_assoc address 2 1).symm
  change [space.resolve (address + 0), space.resolve (address + 1), space.resolve (address + 2),
    space.resolve (address + 3)] = [space.resolve (address + 0), space.resolve (address + 1),
      space.resolve (address + 2 + 0), space.resolve (address + 2 + 1)]
  rw [← h2, ← h3]

/-- An offset in a segment is the physical address that it leads to. -/
theorem peekAddresses_segment (base : UInt16) (address size : UInt32) :
    peekAddresses (.segment base) address size =
      peekAddresses .flat (physical base address) size := by
  rw [peekAddresses_eq, peekAddresses_eq]
  apply List.map_congr_left
  intro i _
  rw [physical_toNat, Space.base, Space.base, physicalBytes]
  congr 1
  omega

end Addresses

namespace Host

variable {κ δ β ρ σ : Type}

section Words

variable [Bus β] [Register.CpuRegisters ρ] (h : Host κ δ β ρ σ)

/-- How the debugger takes an address: a logical one is an offset in the stack segment. -/
def peekSpace (logical : Bool) : Space :=
  if logical then .segment (Register.CpuRegisters.get h.cpu .ss) else .flat

/-- The word at an address. -/
def peeked (address size : UInt32) (logical : Bool) : UInt32 :=
  (peek h.bus h.session.depth (h.peekSpace logical) address size).1

theorem peeked_eq_joinBytes (address size : UInt32) (logical : Bool) :
    h.peeked address size logical = joinBytes (Bus.readAll h.bus h.session.depth.enter
      (peekAddresses (h.peekSpace logical) address size)).1 := rfl

theorem toNat_peeked (address size : UInt32) (logical : Bool) :
    (h.peeked address size logical).toNat = Nat.ofDigits 256 ((Bus.readAll h.bus
      h.session.depth.enter (peekAddresses (h.peekSpace logical) address size)).1.map
        UInt8.toNat) := by
  rw [peeked_eq_joinBytes, toNat_joinBytes]
  rw [Bus.length_readAll, length_peekAddresses]
  exact Nat.min_le_right _ _

/-- A word of four bytes is made of its halves. -/
theorem toNat_peeked_four (hs : Bus.Steady β) (address : UInt32) (logical : Bool) :
    (h.peeked address 4 logical).toNat =
      (h.peeked address 2 logical).toNat + 65536 * (h.peeked (address + 2) 2 logical).toNat := by
  have hactive := h.session.depth.isActive_enter
  simp only [toNat_peeked, hs.readAll_eq_map _ hactive, peekAddresses_four, List.map_append,
    Nat.ofDigits_append, List.length_map, length_peekAddresses]
  rfl

/-- The bus may have changed with what was read from it, but not what a peek reads. -/
theorem peeked_of_readAll (hs : Bus.Steady β) (addresses : List UInt32) (address size : UInt32)
    (logical : Bool) :
    let bus := (Bus.readAll h.bus h.session.depth.enter addresses).2
    (Host.mk h.session bus h.cpu h.system).peeked address size logical =
      h.peeked address size logical := by
  intro bus
  have hactive := h.session.depth.isActive_enter
  have hsame : ∀ a, (Bus.read bus h.session.depth.enter a).1 =
      (Bus.read h.bus h.session.depth.enter a).1 := hs.read_readAll h.bus hactive addresses
  simp only [peeked_eq_joinBytes, hs.readAll_eq_map _ hactive, hsame]
  rfl

end Words

variable [Listing.Decoder δ] [Bus β] [Register.CpuRegisters ρ] [Register.SystemRegisters σ]
  (h : Host κ δ β ρ σ)

/-- The debugger reads a word from some addresses, inside a scope of its own. -/
def readWord (addresses : List UInt32) : Host κ δ β ρ σ × Outcome κ :=
  let (bytes, bus, depth) := Bus.readScoped h.bus h.session.depth addresses
  (⟨{ h.session with depth }, bus, h.cpu, h.system⟩, ⟨.word (joinBytes bytes), []⟩)

/-- The addresses are all that matters for what a peek does. -/
theorem inspect_peek (address size : UInt32) (logical : Bool) :
    h.inspect (.peek address size logical) =
      h.readWord (peekAddresses (h.peekSpace logical) address size) := rfl

theorem sighting_peek (address size : UInt32) (logical : Bool) :
    h.sighting (.inspect (.peek address size logical)) =
      ⟨.word (h.peeked address size logical),
        (peekAddresses (h.peekSpace logical) address size).map (⟨·, h.session.depth.enter⟩), []⟩ :=
  h.sighting_of_readScoped _ _ rfl

/-- Also at the ceiling the second peek is as deep as the first. -/
theorem peeked_inspect_peek (hs : Bus.Steady β) (a n : UInt32) (l : Bool) (address size : UInt32)
    (logical : Bool) :
    (h.inspect (.peek a n l)).1.peeked address size logical = h.peeked address size logical := by
  rw [inspect_peek, readWord, Bus.readScoped, peeked_eq_joinBytes]
  simp only [Depth.enter_leave_enter]
  exact h.peeked_of_readAll hs _ address size logical

/-- What a front end can rely on when it peeks. -/
structure PeeksWords (h : Host κ δ β ρ σ) : Prop where
  /-- The bytes are read one after the other, one scope deeper and at twenty bits. -/
  reads : ∀ address size logical,
    let base := if logical then 16 * (Register.CpuRegisters.get h.cpu .ss).toNat else 0
    let addresses := (List.range (min size.toNat 4)).map fun i =>
      UInt32.ofNat ((base + address.toNat + i) % 2 ^ 20)
    let bytes := (Bus.readAll h.bus h.session.depth.enter addresses).1
    h.sighting (.inspect (.peek address size logical)) =
        ⟨.word (h.peeked address size logical), addresses.map (⟨·, h.session.depth.enter⟩), []⟩ ∧
      (h.peeked address size logical).toNat =
        ((bytes.map UInt8.toNat).mapIdx fun i n => n * 256 ^ i).sum
  halves : Bus.Steady β → ∀ address logical,
    (h.peeked address 4 logical).toNat =
      (h.peeked address 2 logical).toNat + 65536 * (h.peeked (address + 2) 2 logical).toNat
  wraps : ∀ a b size logical, a.toNat % 2 ^ 20 = b.toNat % 2 ^ 20 →
    h.inspect (.peek a size logical) = h.inspect (.peek b size logical)
  long : ∀ address size logical, 4 ≤ size.toNat →
    h.inspect (.peek address size logical) = h.inspect (.peek address 4 logical)
  logical : ∀ address size, h.inspect (.peek address size true) =
    h.inspect (.peek (physical (Register.CpuRegisters.get h.cpu .ss) address) size false)
  flat : ∀ address size (cpu : ρ) (system : σ),
    (Host.mk h.session h.bus cpu system).inspect (.peek address size false) =
      let (g, outcome) := h.inspect (.peek address size false)
      ({ g with cpu, system }, outcome)
  /-- One peek after another reads what it would have read first. -/
  again : Bus.Steady β → ∀ a n l address size logical,
    (h.inspect (.peek a n l)).1.peeked address size logical = h.peeked address size logical

end Host
end V30Probe
