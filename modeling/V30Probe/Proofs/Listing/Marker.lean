import V30Probe.Proofs.Bus.Quiet
import Mathlib.Algebra.BigOperators.Group.List.Basic
import Mathlib.Algebra.Order.Ring.Nat

/-! A listing that goes on from line to line lands on its marker: no instruction carries the cursor
over it, also where offsets wrap. -/

namespace V30Probe.Listing

/-- How many bytes lie ahead until the marker comes, at least one and at most a whole segment. -/
def gap (address marker : UInt16) : Nat :=
  (marker - address - 1).toNat + 1

section Gap

variable {address marker : UInt16} {i length : Nat}

theorem gap_pos (address marker : UInt16) : 1 ≤ gap address marker :=
  Nat.le_add_left 1 _

theorem gap_le (address marker : UInt16) : gap address marker ≤ 65536 :=
  (marker - address - 1).toNat_lt

/-- The one number from 1 to 65536 that leads from the address to the marker, modulo 65536. -/
theorem eq_gap_iff :
    i = gap address marker ↔
      1 ≤ i ∧ i ≤ 65536 ∧ (address.toNat + i) % 65536 = marker.toNat := by
  have ha := address.toNat_lt
  have hm := marker.toNat_lt
  simp only [gap, UInt16.toNat_sub, UInt16.reduceToNat]
  omega

/-- Within one round of the segment the marker lies at one offset only. -/
theorem add_ofNat_eq_iff (h1 : 1 ≤ i) (hi : i ≤ 65536) :
    address + UInt16.ofNat i = marker ↔ i = gap address marker := by
  rw [eq_gap_iff, ← UInt16.toNat_inj, UInt16.toNat_add, UInt16.toNat_ofNat']
  omega

theorem add_gap : address + UInt16.ofNat (gap address marker) = marker :=
  (add_ofNat_eq_iff (gap_pos _ _) (gap_le _ _)).mpr rfl

/-- Short of the marker the cursor comes nearer by what it advances. -/
theorem gap_add (hi : i < gap address marker) :
    gap (address + UInt16.ofNat i) marker = gap address marker - i := by
  obtain ⟨-, hle, hm⟩ := eq_gap_iff.mp (rfl : gap address marker = gap address marker)
  symm
  rw [eq_gap_iff, UInt16.toNat_add, UInt16.toNat_ofNat']
  omega

/-- An instruction of at most a segment is cut just if it is longer than the way to the marker. -/
theorem cut?_eq_ite (hl : length ≤ 65536) :
    cut? address marker length =
      if gap address marker < length then some (gap address marker) else none := by
  split
  · rename_i hlt
    refine cut?_eq_some_iff.mpr ⟨gap_pos _ _, hlt, add_gap, ?_⟩
    intro i h1 hi he
    have hig := (add_ofNat_eq_iff h1 (by omega)).mp he
    omega
  · rename_i hge
    apply Option.eq_none_iff_forall_ne_some.mpr
    intro k hk
    obtain ⟨h1, hlt, he, -⟩ := cut?_eq_some_iff.mp hk
    have hkg := (add_ofNat_eq_iff h1 (by omega)).mp he
    omega

end Gap

section Layout

variable {column : Nat} {address marker : UInt16} {decoded : Decoded} {bytes : List UInt8}

/-- A line takes what the decoder says, as far as it was fetched and the marker is not passed. -/
theorem length_layout (hb : bytes.length ≤ 65536) :
    (Line.layout column address marker decoded bytes).length =
      min (min decoded.length bytes.length) (gap address marker) := by
  have hw : min decoded.length bytes.length ≤ 65536 := by omega
  by_cases hcut : gap address marker < min decoded.length bytes.length
  · simp only [Line.layout, cut?_eq_ite hw, if_pos hcut]
    omega
  · simp only [Line.layout, cut?_eq_ite hw, if_neg hcut]
    omega

end Layout

/-- One line of a listing, where it begins, and what the decoder said of it. -/
structure Entry where
  address : UInt16
  decoded : Decoded
  line : Line
  deriving DecidableEq, Repr

/-- The instruction reaches over the marker, with those of its bytes that were fetched. -/
def Entry.IsCut (fetched : Nat) (marker : UInt16) (e : Entry) : Prop :=
  (cut? e.address marker (min e.decoded.length fetched)).isSome

/-- The lines of a listing up to the first that ends at the marker. They cover the whole way to it,
and only the last may be cut. -/
structure Lands (marker : UInt16) (fetched distance : Nat) (before : List Entry) (last : Entry) :
    Prop where
  next_last : last.line.next = marker
  next_before : ∀ e ∈ before, e.line.next ≠ marker
  not_cut : ∀ e ∈ before, ¬ e.IsCut fetched marker
  length_pos : ∀ e ∈ before ++ [last], 1 ≤ e.line.length
  sum_length : ((before ++ [last]).map fun e => e.line.length).sum = distance

section Lands

variable {marker : UInt16} {fetched distance : Nat} {before : List Entry} {e last : Entry}

theorem lands_nil (fetched : Nat) (last : Entry) (hn : last.line.next = marker)
    (hl : 1 ≤ last.line.length) : Lands marker fetched last.line.length [] last :=
  ⟨hn, by simp, by simp, by simpa using hl, by simp⟩

theorem Lands.cons (h : Lands marker fetched distance before last) (hn : e.line.next ≠ marker)
    (hc : ¬ e.IsCut fetched marker) (hl : 1 ≤ e.line.length) :
    Lands marker fetched (e.line.length + distance) (e :: before) last where
  next_last := h.next_last
  next_before := List.forall_mem_cons.mpr ⟨hn, h.next_before⟩
  not_cut := List.forall_mem_cons.mpr ⟨hc, h.not_cut⟩
  length_pos := List.forall_mem_cons.mpr ⟨hl, h.length_pos⟩
  sum_length := by rw [List.cons_append, List.map_cons, List.sum_cons, h.sum_length]

/-- Each line takes at least one byte of the way. -/
theorem Lands.length_le (h : Lands marker fetched distance before last) :
    before.length + 1 ≤ distance := by
  have hle := List.length_le_sum_of_one_le ((before ++ [last]).map fun e => e.line.length)
    (List.forall_mem_map.mpr h.length_pos)
  rw [h.sum_length] at hle
  simpa using hle

end Lands

namespace Disassembler

variable {δ β : Type} [Decoder δ] [Bus β]

/-- What the decoder says of the instruction at an offset. -/
def decoded (d : Disassembler δ) (bus : β) (depth : Depth) (segment address : UInt16) : Decoded :=
  let (bytes, _, _) := Bus.readScoped bus depth (fetchAddresses segment address d.instructionBytes)
  (Decoder.decode d.decoder address bytes).1

/-- How many bytes the instruction at an offset has, as far as they are fetched. -/
def reach (d : Disassembler δ) (bus : β) (depth : Depth) (segment address : UInt16) : Nat :=
  min (d.decoded bus depth segment address).length d.instructionBytes

def entry (d : Disassembler δ) (bus : β) (depth : Depth) (segment address marker : UInt16) :
    Entry :=
  ⟨address, d.decoded bus depth segment address, (d.line bus depth segment address marker).1⟩

/-- Some lines in turn. Each begins where the one before it ends. -/
def listing (segment marker : UInt16) : Nat → Disassembler δ → β → Depth → UInt16 → List Entry
  | 0, _, _, _, _ => []
  | n + 1, d, bus, depth, address =>
    let (line, d', bus', depth') := d.line bus depth segment address marker
    d.entry bus depth segment address marker :: listing segment marker n d' bus' depth' line.next

section Line

variable (d : Disassembler δ) (bus : β) (depth : Depth) (segment address marker : UInt16)

theorem listing_succ (n : Nat) :
    listing segment marker (n + 1) d bus depth address =
      d.entry bus depth segment address marker ::
        listing segment marker n (d.line bus depth segment address marker).2.1
          (d.line bus depth segment address marker).2.2.1
          (d.line bus depth segment address marker).2.2.2
          (d.line bus depth segment address marker).1.next := rfl

theorem line_eq_layout :
    (d.line bus depth segment address marker).1 =
      .layout d.column address marker (d.decoded bus depth segment address)
        (Bus.readAll bus depth.enter (fetchAddresses segment address d.instructionBytes)).1 := rfl

theorem next_line :
    (d.line bus depth segment address marker).1.next =
      address + UInt16.ofNat (d.line bus depth segment address marker).1.length := rfl

theorem length_line (hB : d.instructionBytes ≤ 65536) :
    (d.line bus depth segment address marker).1.length =
      min (d.reach bus depth segment address) (gap address marker) := by
  have hbytes : (Bus.readAll bus depth.enter
      (fetchAddresses segment address d.instructionBytes)).1.length = d.instructionBytes := by
    rw [Bus.length_readAll, length_fetchAddresses]
  rw [line_eq_layout, length_layout (by omega), hbytes, reach]

theorem length_line_le (hB : d.instructionBytes ≤ 65536) :
    (d.line bus depth segment address marker).1.length ≤ d.instructionBytes := by
  rw [length_line d bus depth segment address marker hB, reach]
  omega

/-- The marker lies on no byte of a line but perhaps the first. -/
theorem add_ofNat_ne_marker (hB : d.instructionBytes ≤ 65536) {i : Nat} (h1 : 1 ≤ i)
    (hi : i < (d.line bus depth segment address marker).1.length) :
    address + UInt16.ofNat i ≠ marker := by
  have hle := d.length_line_le bus depth segment address marker hB
  have hround : i ≤ 65536 := by omega
  rw [length_line d bus depth segment address marker hB] at hi
  rw [Ne, add_ofNat_eq_iff h1 hround]
  omega

theorem isCut_entry_iff (hB : d.instructionBytes ≤ 65536) :
    (d.entry bus depth segment address marker).IsCut d.instructionBytes marker ↔
      gap address marker < d.reach bus depth segment address := by
  have hw : min (d.decoded bus depth segment address).length d.instructionBytes ≤ 65536 := by
    omega
  simp only [Entry.IsCut, entry, cut?_eq_ite hw, reach]
  split <;> simp_all

end Line

variable {d : Disassembler δ} {bus : β} {depth : Depth} {segment address marker : UInt16} {n : Nat}

theorem length_line_of_lt (hB : d.instructionBytes ≤ 65536)
    (hg : d.reach bus depth segment address < gap address marker) :
    (d.line bus depth segment address marker).1.length = d.reach bus depth segment address := by
  rw [length_line d bus depth segment address marker hB, Nat.min_eq_left (Nat.le_of_lt hg)]

/-- Behind an instruction that falls short of the marker the rest of the way is left. -/
theorem gap_next_of_lt (hB : d.instructionBytes ≤ 65536)
    (hg : d.reach bus depth segment address < gap address marker) :
    gap (d.line bus depth segment address marker).1.next marker =
      gap address marker - d.reach bus depth segment address := by
  rw [next_line, length_line_of_lt hB hg, gap_add hg]

/-- An instruction that reaches the marker ends its line there. -/
theorem lands_of_gap_le (hB : d.instructionBytes ≤ 65536)
    (hg : gap address marker ≤ d.reach bus depth segment address) :
    Lands marker d.instructionBytes (gap address marker) []
      (d.entry bus depth segment address marker) := by
  have hlen := d.length_line bus depth segment address marker hB
  rw [Nat.min_eq_right hg] at hlen
  have hnext := d.next_line bus depth segment address marker
  rw [hlen, add_gap] at hnext
  have hl := lands_nil d.instructionBytes (d.entry bus depth segment address marker) hnext
    ((gap_pos address marker).trans_eq hlen.symm)
  rwa [entry, hlen] at hl

/-- An instruction that falls short of the marker is listed whole, ahead of the lines that land. -/
theorem lands_of_lt_gap {before : List Entry} {last : Entry} (hB : d.instructionBytes ≤ 65536)
    (hpos : 1 ≤ d.reach bus depth segment address)
    (hg : d.reach bus depth segment address < gap address marker)
    (h : Lands marker d.instructionBytes
      (gap (d.line bus depth segment address marker).1.next marker) before last) :
    Lands marker d.instructionBytes (gap address marker)
      (d.entry bus depth segment address marker :: before) last := by
  have hle := gap_le address marker
  have hlen : (d.line bus depth segment address marker).1.length =
      d.reach bus depth segment address := length_line_of_lt hB hg
  have hne : (d.line bus depth segment address marker).1.next ≠ marker := by
    rw [next_line, hlen, Ne, add_ofNat_eq_iff hpos (by omega)]
    omega
  have hcut : ¬ (d.entry bus depth segment address marker).IsCut d.instructionBytes marker := by
    rw [isCut_entry_iff d bus depth segment address marker hB]
    omega
  have hcons := h.cons (e := d.entry bus depth segment address marker) hne hcut
    (hpos.trans_eq hlen.symm)
  have hsum : (d.entry bus depth segment address marker).line.length +
      gap (d.line bus depth segment address marker).1.next marker = gap address marker := by
    rw [gap_next_of_lt hB hg, entry, hlen]
    omega
  rwa [hsum] at hcons

/-- With lines enough for the way to the marker, a listing lands on it. -/
theorem exists_lands (hb : 1 ≤ d.instructionBytes) (hB : d.instructionBytes ≤ 65536)
    (hn : gap address marker ≤ n)
    (hd : ∀ e ∈ listing segment marker n d bus depth address, 1 ≤ e.decoded.length) :
    ∃ before last,
      listing segment marker (before.length + 1) d bus depth address = before ++ [last] ∧
        Lands marker d.instructionBytes (gap address marker) before last := by
  induction n generalizing d bus depth address with
  | zero => exact absurd hn (Nat.not_le_of_lt (gap_pos _ _))
  | succ n ih =>
    rw [listing_succ] at hd
    obtain ⟨hfirst, hrest⟩ := List.forall_mem_cons.mp hd
    have hpos : 1 ≤ d.reach bus depth segment address := Nat.le_min.mpr ⟨hfirst, hb⟩
    rcases Nat.lt_or_ge (d.reach bus depth segment address) (gap address marker)
      with hshort | hreach
    · -- one line less, and the way is shorter by at least a byte
      have hless := gap_next_of_lt hB hshort
      obtain ⟨before, last, hlist, hlands⟩ :=
        ih (d := (d.line bus depth segment address marker).2.1) hb hB (by omega) hrest
      refine ⟨d.entry bus depth segment address marker :: before, last, ?_, ?_⟩
      · rw [List.length_cons, listing_succ, hlist, List.cons_append]
      · exact lands_of_lt_gap hB hpos hshort hlands
    · exact ⟨[], d.entry bus depth segment address marker, rfl, lands_of_gap_le hB hreach⟩

end Disassembler

/-- If the decoder finds at least one byte in each instruction, some line of a listing ends at the
marker, with no more lines than there are bytes on the way. The lines up to the first that does take
just these bytes, each at least one, and only the last of them may be cut. -/
theorem listing_lands_on_marker {δ β : Type} [Decoder δ] [Bus β] (d : Disassembler δ)
    (hb : 1 ≤ d.instructionBytes) (hB : d.instructionBytes ≤ 65536) (bus : β) (depth : Depth)
    (segment start marker : UInt16)
    (hd : ∀ e ∈ Disassembler.listing segment marker (gap start marker) d bus depth start,
      1 ≤ e.decoded.length) :
    ∃ before last,
      Disassembler.listing segment marker (before.length + 1) d bus depth start = before ++ [last] ∧
        before.length + 1 ≤ gap start marker ∧
        Lands marker d.instructionBytes (gap start marker) before last := by
  obtain ⟨before, last, hlist, hlands⟩ := Disassembler.exists_lands hb hB (Nat.le_refl _) hd
  exact ⟨before, last, hlist, hlands.length_le, hlands⟩

/-- Every instruction has the same number of bytes. -/
structure Uniform where
  length : Nat

instance : Decoder Uniform where
  decode d _ _ := (⟨"op", d.length⟩, d)
  switchDialect d := d

/-- Three-byte instructions from offset FFFD on, with the marker at 2: the second line is cut. -/
theorem listing_lands_behind_wrap :
    let d : Disassembler Uniform := ⟨⟨3⟩, 8, 40⟩
    let lines := fun n => Disassembler.listing 0x1000 2 n d Idle.rest .zero 0xFFFD
    gap 0xFFFD 2 = 5 ∧ 1 ≤ d.instructionBytes ∧ d.instructionBytes ≤ 65536 ∧
      (∀ e ∈ lines (gap 0xFFFD 2), 1 ≤ e.decoded.length) ∧
      (∃ before last, lines (before.length + 1) = before ++ [last] ∧
        before.length + 1 ≤ gap 0xFFFD 2 ∧ Lands 2 d.instructionBytes (gap 0xFFFD 2) before last) ∧
      (lines 2).map (fun e => (e.address, e.line.length, e.line.next)) =
        [(0xFFFD, 3, 0), (0, 2, 2)] := by
  intro d lines
  have hb : 1 ≤ d.instructionBytes := by decide
  have hB : d.instructionBytes ≤ 65536 := by decide
  have hd : ∀ e ∈ lines (gap 0xFFFD 2), 1 ≤ e.decoded.length := by decide
  exact ⟨by decide, hb, hB, hd, listing_lands_on_marker d hb hB _ _ _ _ _ hd, by decide⟩

end V30Probe.Listing
