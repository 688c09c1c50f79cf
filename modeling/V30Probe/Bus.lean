import V30Probe.Address
import V30Probe.Depth

/-! The bus of the emulated machine: bytes of memory and of ports, and the words that the debugger
reads from memory for itself. -/

namespace V30Probe

/-- A bus answers and changes with every access. It sees the debug depth, so that a read by the
debugger can be kept from disturbing the machine. -/
class Bus (β : Type) where
  read : β → Depth → UInt32 → UInt8 × β
  write : β → Depth → UInt32 → UInt8 → β
  readPort : β → Depth → UInt32 → UInt8 × β
  writePort : β → Depth → UInt32 → UInt8 → β

namespace Bus

variable {β : Type} [Bus β]

/-- Reads one more byte behind those that were read before. -/
def readNext (depth : Depth) : Array UInt8 × β → UInt32 → Array UInt8 × β
  | (bytes, bus), address =>
    let (byte, bus) := read bus depth address
    (bytes.push byte, bus)

/-- Reads the bytes at some addresses, one after the other. -/
def readAll (bus : β) (depth : Depth) (addresses : List UInt32) : List UInt8 × β :=
  let (bytes, bus) := addresses.foldl (readNext depth) (#[], bus)
  (bytes.toList, bus)

/-- Reads by the debugger: they happen one scope deeper, and the scope is closed behind the last. -/
def readScoped (bus : β) (depth : Depth) (addresses : List UInt32) : List UInt8 × β × Depth :=
  let inside := depth.enter
  let (bytes, bus) := readAll bus inside addresses
  (bytes, bus, inside.leave)

theorem readNext_mk (depth : Depth) (bytes : Array UInt8) (bus : β) (a : UInt32) :
    readNext depth (bytes, bus) a = (bytes.push (read bus depth a).1, (read bus depth a).2) := rfl

theorem foldl_readNext (depth : Depth) (bytes : Array UInt8) (bus : β) (addresses : List UInt32) :
    addresses.foldl (readNext depth) (bytes, bus) =
      (bytes ++ (readAll bus depth addresses).1, (readAll bus depth addresses).2) := by
  induction addresses generalizing bytes bus with
  | nil => simp [readAll]
  | cons a as ih =>
    rw [readAll, List.foldl_cons, List.foldl_cons, readNext_mk, readNext_mk, ih, ih]
    simp

@[simp]
theorem readAll_nil (bus : β) (depth : Depth) : readAll bus depth [] = ([], bus) := rfl

@[simp]
theorem readAll_cons (bus : β) (depth : Depth) (a : UInt32) (as : List UInt32) :
    readAll bus depth (a :: as) =
      ((read bus depth a).1 :: (readAll (read bus depth a).2 depth as).1,
       (readAll (read bus depth a).2 depth as).2) := by
  rw [readAll, List.foldl_cons, readNext_mk, foldl_readNext]
  simp

theorem length_readAll (bus : β) (depth : Depth) (addresses : List UInt32) :
    (readAll bus depth addresses).1.length = addresses.length := by
  induction addresses generalizing bus with
  | nil => rfl
  | cons a as ih => simp [ih]

end Bus

/-- The word whose bytes these are, the lowest first. -/
def joinBytes (bytes : List UInt8) : UInt32 :=
  bytes.zipIdx.foldl (fun word (byte, i) => word ||| byte.toUInt32 <<< (8 * UInt32.ofNat i)) 0

/-- The physical addresses of a word; it has at most four bytes. -/
def peekAddresses (space : Space) (offset size : UInt32) : List UInt32 :=
  (List.range (min size.toNat 4)).map fun i => space.resolve (offset + UInt32.ofNat i)

/-- The word at an offset, read inside a debug scope. -/
def peek {β : Type} [Bus β] (bus : β) (depth : Depth) (space : Space) (offset size : UInt32) :
    UInt32 × β × Depth :=
  let (bytes, bus, depth) := Bus.readScoped bus depth (peekAddresses space offset size)
  (joinBytes bytes, bus, depth)

theorem joinBytes_concat (bytes : List UInt8) (byte : UInt8) :
    joinBytes (bytes ++ [byte]) =
      joinBytes bytes ||| byte.toUInt32 <<< (8 * UInt32.ofNat bytes.length) := by
  simp [joinBytes, List.zipIdx_append]

theorem length_peekAddresses (space : Space) (offset size : UInt32) :
    (peekAddresses space offset size).length = min size.toNat 4 := by
  simp [peekAddresses]

/-- The bytes of a word follow one another, and wrap at twenty bits only. -/
theorem peekAddresses_eq (space : Space) (offset size : UInt32) :
    peekAddresses space offset size = (List.range (min size.toNat 4)).map fun i =>
      UInt32.ofNat ((space.base + offset.toNat + i) % physicalBytes) := by
  apply List.map_congr_left
  intro i hi
  have hlt : i < 4 := Nat.lt_of_lt_of_le (List.mem_range.mp hi) (Nat.min_le_right _ _)
  apply UInt32.toNat_inj.mp
  rw [Space.resolve_toNat, UInt32.toNat_add, UInt32.toNat_ofNat', UInt32.toNat_ofNat',
    physicalBytes]
  omega

end V30Probe
