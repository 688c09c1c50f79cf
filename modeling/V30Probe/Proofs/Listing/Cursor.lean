import V30Probe.Proofs.Listing.Layout

/-! Where the bytes of a line come from, seen from the cursor. The cursor and the marker count
offsets that wrap at the end of the segment; the bytes are fetched from addresses that go on
there. -/

namespace V30Probe.Listing

/-- The segment that is 64 KiB behind a segment; memory is a circle of twenty bits. -/
def segmentBehind (segment : UInt16) : UInt16 := segment + 0x1000

section Place

variable {segment address : UInt16} {i count : Nat}

theorem toNat_physical_offset (segment offset : UInt16) :
    (physical segment offset.toUInt32).toNat =
      (16 * segment.toNat + offset.toNat) % physicalBytes := by
  rw [physical_toNat, UInt16.toNat_toUInt32]

theorem toNat_physical_behind (segment offset : UInt16) :
    (physical (segmentBehind segment) offset.toUInt32).toNat =
      (16 * segment.toNat + 65536 + offset.toNat) % physicalBytes := by
  have hparagraphs : (0x1000 : UInt16).toNat = 4096 := rfl
  rw [toNat_physical_offset, segmentBehind, UInt16.toNat_add, hparagraphs, physicalBytes]
  omega

/-- One offset in the two segments is two places in memory. -/
theorem physical_behind_ne (segment offset : UInt16) :
    physical (segmentBehind segment) offset.toUInt32 ≠ physical segment offset.toUInt32 := by
  intro h
  have hplace := congrArg UInt32.toNat h
  rw [toNat_physical_behind, toNat_physical_offset, physicalBytes] at hplace
  omega

/-- Up to the end of the segment a byte is fetched from the place of its cursor, and past it from
the same offset one segment further on. -/
theorem fetchAddresses_getElem? (hi : i < count) (hcount : count ≤ 65536) :
    (fetchAddresses segment address count)[i]? =
      some (physical (if address.toNat + i < 65536 then segment else segmentBehind segment)
        (address + UInt16.ofNat i).toUInt32) := by
  have haddress := address.toNat_lt
  have hsize : count ≤ UInt32.size := hcount.trans (by decide)
  rw [fetchAddresses_eq hsize, List.getElem?_map, List.getElem?_range hi, Option.map_some]
  congr 1
  apply UInt32.toNat_inj.mp
  rw [UInt32.toNat_ofNat']
  split
  · rw [toNat_physical_offset, toNat_add_ofNat, physicalBytes]
    omega
  · rw [toNat_physical_behind, toNat_add_ofNat, physicalBytes]
    omega

end Place

namespace Disassembler

variable {δ β : Type} [Decoder δ] [Bus β]

/-- The bytes that are fetched for the line at an offset. -/
def fetched (d : Disassembler δ) (bus : β) (depth : Depth) (segment address : UInt16) :
    List UInt8 :=
  (Bus.readScoped bus depth (fetchAddresses segment address d.instructionBytes)).1

variable (d : Disassembler δ) (bus : β) (depth : Depth) (segment address marker : UInt16)

/-- What a line shows behind its text are the first of the bytes that were fetched for it. -/
theorem readCells?_line :
    readCells? ((d.line bus depth segment address marker).1.text.toList.rtake
        (3 * (d.line bus depth segment address marker).1.length)) =
      some ((d.fetched bus depth segment address).take
        (d.line bus depth segment address marker).1.length) := by
  obtain ⟨shown, -, hline⟩ := d.line_shows bus depth segment address marker
  exact hline.bytes

variable {d bus depth segment address marker}

omit [Decoder δ] in
/-- On a bus that keeps what the debugger reads, every fetched byte is the one at its address. -/
theorem fetched_getElem? (hs : Bus.Steady β) (hB : d.instructionBytes ≤ 65536) {i : Nat}
    (hi : i < d.instructionBytes) :
    (d.fetched bus depth segment address)[i]? =
      some (Bus.read bus depth.enter
        (physical (if address.toNat + i < 65536 then segment else segmentBehind segment)
          (address + UInt16.ofNat i).toUInt32)).1 := by
  have hread : d.fetched bus depth segment address =
      (fetchAddresses segment address d.instructionBytes).map
        fun a => (Bus.read bus depth.enter a).1 :=
    hs.readAll_eq_map bus depth.isActive_enter _
  rw [hread, List.getElem?_map, fetchAddresses_getElem? hi hB, Option.map_some]

/-- After a line, the byte that a further line would begin with at some cursor. -/
theorem head?_fetched_line (hs : Bus.Steady β) (hb : 1 ≤ d.instructionBytes)
    (hB : d.instructionBytes ≤ 65536) (segment' offset : UInt16) :
    let r := d.line bus depth segment address marker
    (r.2.1.fetched r.2.2.1 r.2.2.2 segment' offset).head? =
      some (Bus.read bus depth.enter (physical segment' offset.toUInt32)).1 := by
  intro r
  have hdepth : r.2.2.2.enter = depth.enter := depth.enter_leave_enter
  have hbus : (Bus.read r.2.2.1 depth.enter (physical segment' offset.toUInt32)).1 =
      (Bus.read bus depth.enter (physical segment' offset.toUInt32)).1 :=
    hs.read_readAll bus depth.isActive_enter _ _
  have hfirst : (r.2.1.fetched r.2.2.1 r.2.2.2 segment' offset)[0]? = _ :=
    fetched_getElem? hs hB hb
  have hlt : offset.toNat + 0 < 65536 := offset.toNat_lt
  have hsame : offset + UInt16.ofNat 0 = offset := UInt16.add_zero offset
  rw [if_pos hlt, hsame, hdepth, hbus] at hfirst
  rw [List.head?_eq_getElem?, hfirst]

end Disassembler

/-- The bytes of a line can be read back from its text, as many as its length says. The cursor of
each is an offset that wraps: the next line begins at the cursor behind the last of them, and the
marker is at none but perhaps the first. Yet a byte past the end of the segment is not the one that
a line would begin with at its cursor, but the one at that offset in the segment 64 KiB behind: the
two agree just if the segment does not end before, or if the same byte lies at both places. -/
theorem bytes_agree_with_cursor_iff {δ β : Type} [Decoder δ] [Bus β] (hs : Bus.Steady β)
    (d : Disassembler δ) (hB : d.instructionBytes ≤ 65536) (bus : β) (depth : Depth)
    (segment address marker : UInt16) :
    let r := d.line bus depth segment address marker
    let line := r.1
    let cursor := fun i => address + UInt16.ofNat i
    let first := fun segment offset => (r.2.1.fetched r.2.2.1 r.2.2.2 segment offset).head?
    ∃ bytes, readCells? (line.text.toList.rtake (3 * line.length)) = some bytes ∧
      bytes.length = line.length ∧ line.next = cursor line.length ∧
      (∀ i, 1 ≤ i → i < line.length → cursor i ≠ marker) ∧
      ∀ i < line.length,
        (cursor i).toNat = (address.toNat + i) % 65536 ∧
        physical (segmentBehind segment) (cursor i).toUInt32 ≠
          physical segment (cursor i).toUInt32 ∧
        bytes[i]? = first (if address.toNat + i < 65536 then segment else segmentBehind segment)
          (cursor i) ∧
        (bytes[i]? = first segment (cursor i) ↔
          address.toNat + i < 65536 ∨
            first (segmentBehind segment) (cursor i) = first segment (cursor i)) := by
  intro r line cursor first
  have hle : line.length ≤ d.instructionBytes := d.length_line_le bus depth segment address marker hB
  have hfetched : (d.fetched bus depth segment address).length = d.instructionBytes := by
    rw [Disassembler.fetched, Bus.readScoped, Bus.length_readAll, length_fetchAddresses]
  refine ⟨_, d.readCells?_line bus depth segment address marker, ?_, rfl, ?_, ?_⟩
  · rw [List.length_take, hfetched]
    exact Nat.min_eq_left hle
  · intro i h1 hi
    exact d.add_ofNat_ne_marker bus depth segment address marker hB h1 hi
  · intro i hi
    have hbyte : ((d.fetched bus depth segment address).take line.length)[i]? =
        first (if address.toNat + i < 65536 then segment else segmentBehind segment)
          (cursor i) := by
      have hid : i < d.instructionBytes := Nat.lt_of_lt_of_le hi hle
      rw [List.getElem?_take_of_lt hi, Disassembler.fetched_getElem? hs hB hid]
      exact (Disassembler.head?_fetched_line hs (Nat.one_le_of_lt hid) hB _ _).symm
    refine ⟨toNat_add_ofNat address i, physical_behind_ne segment _, hbyte, ?_⟩
    rw [hbyte]
    by_cases hend : address.toNat + i < 65536
    · rw [if_pos hend]
      exact iff_of_true rfl (Or.inl hend)
    · rw [if_neg hend]
      exact (or_iff_right hend).symm

/-- Three bytes from offset FFFD on, up to the end of the segment, are the ones at their cursors. -/
theorem bytes_agree_before_end :
    let d : Disassembler Uniform := ⟨⟨3⟩, 4, 10⟩
    let bus : Feed := ⟨fun a => (a >>> 12).toUInt8 + a.toUInt8, []⟩
    let r := d.line bus .zero 0x1000 0xFFFD 7
    Bus.Steady Feed ∧ d.instructionBytes ≤ 65536 ∧
      r.1.text = "op         1c 1d 1e" ∧ r.1.next = 0 ∧
      ∃ bytes, readCells? (r.1.text.toList.rtake 9) = some bytes ∧
        bytes[2]? = (r.2.1.fetched r.2.2.1 r.2.2.2 0x1000 0xFFFF).head? := by
  intro d bus r
  have hs : Bus.Steady Feed := Feed.quiet.steady
  have hB : d.instructionBytes ≤ 65536 := by decide
  obtain ⟨bytes, hread, -, -, -, hall⟩ :=
    bytes_agree_with_cursor_iff hs d hB bus .zero 0x1000 0xFFFD 7
  obtain ⟨-, -, -, hagree⟩ := hall 2 (by decide)
  exact ⟨hs, hB, by decide, by decide, bytes, hread, hagree.mpr (Or.inl (by decide))⟩

/-- An instruction of two bytes at the last offset of a segment. Its second byte is shown from behind
the segment, and a line at its cursor begins with another. -/
theorem bytes_leave_segment :
    let d : Disassembler Uniform := ⟨⟨2⟩, 2, 40⟩
    let bus : Feed := ⟨fun a => if a = 0 then 0x11 else if a = 0x10000 then 0x22 else 0x90, []⟩
    let r := d.line bus .zero 0 0xFFFF 0x1234
    readCells? (r.1.text.toList.rtake (3 * r.1.length)) = some [0x90, 0x22] ∧ r.1.next = 1 ∧
      (r.2.1.fetched r.2.2.1 r.2.2.2 0 0).head? = some 0x11 := by
  decide

end V30Probe.Listing
