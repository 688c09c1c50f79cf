import V30Probe.Host

/-! Buses that a debugger can read without a trace, and what its looks leave behind. Two small
machines serve as instances: one at rest, and one with a queue at its ports. -/

namespace V30Probe

variable {κ δ β ρ σ : Type}

/-- Reads inside a debug scope leave the bus as it is. -/
structure Bus.Quiet (β : Type) [Bus β] : Prop where
  read : ∀ (bus : β) (d : Depth) (a : UInt32), d.isActive → (Bus.read bus d a).2 = bus
  readPort : ∀ (bus : β) (d : Depth) (port : UInt32), d.isActive → (Bus.readPort bus d port).2 = bus

/-- Reads inside a debug scope do not change what is read in it afterwards. The bus may change in
other ways, and count them. -/
def Bus.Steady (β : Type) [Bus β] : Prop :=
  ∀ (bus : β) (d : Depth) (a b : UInt32), d.isActive →
    (Bus.read (Bus.read bus d a).2 d b).1 = (Bus.read bus d b).1

namespace Bus

variable [Bus β]

theorem Quiet.steady (hq : Quiet β) : Steady β := by
  intro bus d a b hd
  rw [hq.read bus d a hd]

/-- The bytes that are read are those that would be read first. -/
theorem Steady.readAll_eq_map (hs : Steady β) (bus : β) {d : Depth} (hd : d.isActive)
    (addresses : List UInt32) :
    (readAll bus d addresses).1 = addresses.map fun a => (read bus d a).1 := by
  induction addresses generalizing bus with
  | nil => rfl
  | cons a as ih =>
    have hkeep : as.map (fun b => (read (read bus d a).2 d b).1) =
        as.map fun b => (read bus d b).1 :=
      List.map_congr_left fun b _ => hs bus d a b hd
    rw [readAll_cons, ih, hkeep, List.map_cons]

theorem Steady.read_readAll (hs : Steady β) (bus : β) {d : Depth} (hd : d.isActive)
    (addresses : List UInt32) (b : UInt32) :
    (read (readAll bus d addresses).2 d b).1 = (read bus d b).1 := by
  induction addresses generalizing bus with
  | nil => rfl
  | cons a as ih => rw [readAll_cons, ih, hs bus d a b hd]

theorem Quiet.readAll (hq : Quiet β) (bus : β) {d : Depth} (hd : d.isActive)
    (addresses : List UInt32) : (readAll bus d addresses).2 = bus := by
  induction addresses with
  | nil => rfl
  | cons a as ih => rw [readAll_cons, hq.read bus d a hd, ih]

theorem Quiet.readScoped (hq : Quiet β) (bus : β) (d : Depth) (addresses : List UInt32) :
    (readScoped bus d addresses).2.1 = bus :=
  hq.readAll bus d.isActive_enter addresses

end Bus

/-- Whether the look reads memory, inside a scope of its own. -/
def Inspection.opensScope : Inspection → Bool
  | .peek .. | .disassemble .. => true
  | _ => false

namespace Host

variable [Listing.Decoder δ] [Bus β] [Register.CpuRegisters ρ] [Register.SystemRegisters σ]

theorem bus_inspect (hq : Bus.Quiet β) (h : Host κ δ β ρ σ) (i : Inspection) :
    (h.inspect i).1.bus = h.bus := by
  cases i with
  | peek a size logical => exact hq.readScoped h.bus h.session.depth _
  | disassemble a marker => exact hq.readScoped h.bus h.session.depth _
  | forceInterrupt level =>
    rw [inspect]
    split <;> rfl
  | _ => rfl

theorem depth_inspect (h : Host κ δ β ρ σ) (i : Inspection) :
    (h.inspect i).1.session.depth =
      if i.opensScope then h.session.depth.enter.leave else h.session.depth := by
  cases i with
  | forceInterrupt level =>
    rw [inspect]
    split <;> rfl
  | _ => rfl

end Host

/-- A machine at rest: every byte and every register reads as zero, and no instruction is known. -/
inductive Idle where
  | rest
  deriving DecidableEq, Repr

namespace Idle

instance : Bus Idle where
  read bus _ _ := (0, bus)
  write bus _ _ _ := bus
  readPort bus _ _ := (0, bus)
  writePort bus _ _ _ := bus

instance : Listing.Decoder Idle where
  decode d _ _ := (⟨"", 0⟩, d)
  switchDialect d := d

instance : Register.CpuRegisters Idle where
  get _ _ := 0
  set cpu _ _ := cpu

instance : Register.SystemRegisters Idle where
  get _ _ := 0
  set system _ _ := system
  forceInterrupt system _ := system

/-- A session of default sizes that has just started. -/
def session : Session Nat Idle :=
  (Session.setUp {} .rest).rewire.1

def host : Host Nat Idle Idle Idle Idle :=
  ⟨session, .rest, .rest, .rest⟩

theorem start_eq : Session.start {} .rest = .ok (session, [.install .detached]) := rfl

end Idle

/-- Memory that stays as it is written, and a queue at the ports from which each read by the program
takes a byte. -/
structure Feed where
  memory : UInt32 → UInt8
  queue : List UInt8

namespace Feed

instance : Bus Feed where
  read bus _ a := (bus.memory a, bus)
  write bus _ a value := { bus with memory := fun b => if b = a then value else bus.memory b }
  readPort bus d port :=
    match bus.queue with
    | [] => ((~~~port).toUInt8, bus)
    | byte :: rest => (byte, if d.isActive then bus else { bus with queue := rest })
  writePort bus _ _ value := { bus with queue := bus.queue ++ [value] }

/-- Whatever is in memory and in the queue. -/
theorem quiet : Bus.Quiet Feed where
  read _ _ _ _ := rfl
  readPort bus d port hd := by
    obtain ⟨memory, queue⟩ := bus
    cases queue with
    | nil => rfl
    | cons byte rest => exact if_pos hd

end Feed
end V30Probe
