import V30Probe.Bus

/-! A bus that remembers how it was read. -/

namespace V30Probe

/-- One read: the address or the port, and the debug depth at that moment. -/
structure Reading where
  address : UInt32
  depth : Depth
  deriving DecidableEq, Repr

/-- A bus with the reads that went through it, oldest first. -/
structure Recorder (β : Type) where
  bus : β
  reads : Array Reading
  portReads : Array Reading

namespace Recorder

variable {β : Type}

def ofBus (bus : β) : Recorder β := ⟨bus, #[], #[]⟩

/-- Forgets the reads so far. -/
def reset (r : Recorder β) : Recorder β := ofBus r.bus

instance [Bus β] : Bus (Recorder β) where
  read
    | ⟨bus, reads, portReads⟩, depth, address =>
      let (byte, bus) := Bus.read bus depth address
      (byte, ⟨bus, reads.push ⟨address, depth⟩, portReads⟩)
  write
    | ⟨bus, reads, portReads⟩, depth, address, value =>
      ⟨Bus.write bus depth address value, reads, portReads⟩
  readPort
    | ⟨bus, reads, portReads⟩, depth, address =>
      let (byte, bus) := Bus.readPort bus depth address
      (byte, ⟨bus, reads, portReads.push ⟨address, depth⟩⟩)
  writePort
    | ⟨bus, reads, portReads⟩, depth, address, value =>
      ⟨Bus.writePort bus depth address value, reads, portReads⟩

/-- A recorder answers as its bus does, and remembers each read. -/
theorem readAll [Bus β] (r : Recorder β) (depth : Depth) (addresses : List UInt32) :
    Bus.readAll r depth addresses =
      ((Bus.readAll r.bus depth addresses).1,
       ⟨(Bus.readAll r.bus depth addresses).2,
        r.reads ++ (addresses.map fun a => ⟨a, depth⟩).toArray, r.portReads⟩) := by
  induction addresses generalizing r with
  | nil => simp
  | cons a as ih =>
    rw [Bus.readAll_cons, Bus.readAll_cons, ih]
    simp [Bus.read]

theorem readAll_ofBus [Bus β] (bus : β) (depth : Depth) (addresses : List UInt32) :
    Bus.readAll (ofBus bus) depth addresses =
      ((Bus.readAll bus depth addresses).1,
       ⟨(Bus.readAll bus depth addresses).2, (addresses.map fun a => ⟨a, depth⟩).toArray, #[]⟩) := by
  rw [readAll, ofBus, Array.empty_append]

end Recorder
end V30Probe
