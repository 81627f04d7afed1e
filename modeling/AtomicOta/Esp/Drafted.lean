import AtomicOta.Esp.Follow
import AtomicOta.Esp.Levels
import AtomicOta.Esp.RoundTrip

/-!
# What an accepted table was made of

The way back from a memory to a draft. Nothing is thrown away when a segment table is read:
from the segments and the bytes behind their headers, the header and the bytes before the
checksum byte, a draft can be put together whose layout is what the memory holds
(`AtomicOta.Esp.readTable_drafted`), up to the checksum byte. It is acceptable, so that
`AtomicOta.Esp.readTable_draft` leads back to the table.

The walk is followed once more, with the blocks that were read so far as the invariant
(`AtomicOta.Esp.Walk.Reads`). The eight bytes of a segment header are those of a block because
a word is made of its bytes, and the data is whatever the memory holds.
-/

namespace AtomicOta.Esp

open Fallible

/-! ### Places -/

/-- The bytes of blocks, with the first segment header at `start`, end where they should. -/
theorem laidOut_place {start : ℕ} (bs : List Block)
    (hfit : start + (bs.flatMap Block.bytes).length < 2 ^ 32) :
    LaidOut start (place start bs) (start + (bs.flatMap Block.bytes).length) := by
  induction bs generalizing start with
  | nil => rfl
  | cons b bs ih =>
    have hblock := b.length_bytes
    rw [List.flatMap_cons, List.length_append] at hfit ⊢
    have hoffset : (b.segment start).dataOffset.toNat = start + 8 := toNat_ofNat_of_lt (by omega)
    have hlen : (b.segment start).len.toNat = b.data.length := toNat_ofNat_of_lt (by omega)
    refine ⟨hoffset, ?_⟩
    rw [hoffset, hlen, show start + 8 + b.data.length = start + b.bytes.length by omega,
      ← Nat.add_assoc]
    exact ih (by omega)

/-- Segments end in one place only. -/
theorem LaidOut.unique {segs : List Segment} {start stop stop' : ℕ} (h : LaidOut start segs stop)
    (h' : LaidOut start segs stop') : stop = stop' := by
  induction segs generalizing start with
  | nil => exact Eq.trans (Eq.symm h) h'
  | cons seg segs ih => exact ih h.2 h'.2

@[simp] theorem length_place (start : ℕ) (bs : List Block) :
    (place start bs).length = bs.length := by
  induction bs generalizing start with
  | nil => rfl
  | cons b bs ih => rw [place, List.length_cons, ih, List.length_cons]

theorem place_append (start : ℕ) (bs : List Block) (b : Block) :
    place start (bs ++ [b]) =
      place start bs ++ [b.segment (start + (bs.flatMap Block.bytes).length)] := by
  induction bs generalizing start with
  | nil => rfl
  | cons c bs ih =>
    rw [List.cons_append, place, ih, place, List.cons_append, List.flatMap_cons,
      List.length_append, Nat.add_assoc]

/-! ### The walk -/

variable {ρ : Type} {reader : Reader ρ} {mem : ℕ → UInt8} {map : MemoryMap}
variable {partOffset partSize partEnd entry : UInt32} {start i : ℕ}

/-- **What the walk has read**: the segments are those of blocks that the memory holds. -/
structure Walk.Reads (mem : ℕ → UInt8) (start : ℕ) (w : Walk) (bs : List Block) : Prop where
  segments : w.segments = place start bs
  cursor : w.cursor.toNat = start + (bs.flatMap Block.bytes).length
  stored : window mem start (bs.flatMap Block.bytes).length = bs.flatMap Block.bytes

/-- The block whose segment header is at `a`, as the memory holds it. -/
def blockAt (mem : ℕ → UInt8) (a : ℕ) : Block where
  load := wordAt (window mem a 8) 0
  data := window mem (a + 8) (wordAt (window mem a 8) 4).toNat

theorem length_blockAt (mem : ℕ → UInt8) (a : ℕ) :
    (blockAt mem a).data.length = (wordAt (window mem a 8) 4).toNat :=
  length_window

/-- The bytes of that block are in the memory. -/
theorem bytes_blockAt (mem : ℕ → UInt8) (a : ℕ) :
    (blockAt mem a).bytes = window mem a (blockAt mem a).bytes.length := by
  have hheader : (blockAt mem a).header = window mem a 8 := by
    rw [Block.header, length_blockAt, UInt32.ofNat_toNat]
    exact congrArg₂ _ (toLeBytes_fromLeBytes ..) (toLeBytes_fromLeBytes ..)
  rw [Block.length_bytes, length_blockAt, window_add, Block.bytes, hheader]
  rfl

/-- **One turn of the walk** reads one more block. -/
theorem Walk.Reads.step {w w' : Walk} {bs : List Block} (hw : w.Reads mem start bs)
    (h : Walk.step .abort map partEnd entry i w (window mem w.cursor.toNat 8) = .ok w') :
    w'.Reads mem start (bs ++ [blockAt mem w.cursor.toNat]) := by
  set b := blockAt mem w.cursor.toNat with hb
  obtain ⟨dataOffset, hoffset, h⟩ := bind_eq_ok h
  have hlen : b.data.length = (wordAt (window mem w.cursor.toNat 8) 4).toNat := length_blockAt ..
  have hat : dataOffset.toNat = w.cursor.toNat + 8 := toNat_of_add_abort hoffset
  have hseg : b.segment w.cursor.toNat =
      ⟨wordAt (window mem w.cursor.toNat 8) 0, wordAt (window mem w.cursor.toNat 8) 4,
        dataOffset⟩ := by
    rw [Block.segment, hlen, UInt32.ofNat_toNat, ← eq_ofNat hat]
    rfl
  cases hsum : checkedAdd dataOffset (wordAt (window mem w.cursor.toNat 8) 4) with
  | none => simp [hsum] at h
  | some dataEnd =>
    simp only [hsum] at h
    split_ifs at h
    obtain ⟨entryOk, -, h⟩ := bind_eq_ok h
    cases h
    have hbytes := b.length_bytes
    refine ⟨?_, ?_, ?_⟩
    · rw [place_append, ← hw.cursor, hseg, ← hw.segments]
    · rw [List.flatMap_append, List.length_append, ← Nat.add_assoc, ← hw.cursor,
        List.flatMap_singleton]
      have hend := checkedAdd_some hsum
      dsimp only
      omega
    · rw [List.flatMap_append, List.length_append, window_add, hw.stored, ← hw.cursor,
        List.flatMap_singleton, ← bytes_blockAt]

/-- The walk over `n` headers reads `n` blocks. -/
theorem walk_reads (h : reader.Holds (fun _ _ => True) mem) (n : ℕ) {w : Walk} {bs : List Block}
    (hw : w.Reads mem start bs) :
    Ends (walk .abort reader map partEnd entry n i w) fun w' =>
      ∃ bs' : List Block, w'.Reads mem start bs' ∧ bs'.length = bs.length + n := by
  induction n generalizing i w bs with
  | zero => exact Ends.pure ⟨bs, hw, rfl⟩
  | succ n ih =>
    refine Ends.bind (h.readExact_succeeds True.intro).ends ?_
    rintro raw rfl
    refine Ends.bind (Ends.lift fun next hnext => hw.step hnext) ?_
    rintro next hnext
    refine (ih hnext).mono ?_
    rintro w' ⟨bs', hw', hlength⟩
    exact ⟨bs', hw', by rw [hlength, List.length_append, List.length_singleton, Nat.add_assoc,
      Nat.add_comm 1]⟩

/-! ### The table -/

/-- What a table was read from: a header, and the blocks behind it. -/
structure Table.Reads (mem : ℕ → UInt8) (map : MemoryMap) (partOffset : UInt32) (t : Table)
    (bs : List Block) : Prop where
  header : parseHeader map (window mem partOffset.toNat 24) =
    .ok ⟨t.image.entry, bs.length, t.image.hashAppended⟩
  count : t.image.count = bs.length
  segments : t.image.segments = place (partOffset.toNat + 24) bs
  lt : partOffset.toNat + 24 + (bs.flatMap Block.bytes).length < 2 ^ 32
  stored : window mem (partOffset.toNat + 24) (bs.flatMap Block.bytes).length =
    bs.flatMap Block.bytes

/-- A table is read from a header and blocks. -/
theorem readTable_reads (h : reader.Holds (fun _ _ => True) mem) :
    Ends (readTable .abort reader partOffset partSize map) fun t =>
      ∃ bs : List Block, t.Reads mem map partOffset bs := by
  unfold readTable
  cases hsum : checkedAdd partOffset partSize with
  | none => exact Ends.throw
  | some partEnd =>
    refine Ends.bind (h.readExact_succeeds True.intro).ends ?_
    rintro raw rfl
    refine Ends.bind (Ends.lift fun header hheader => hheader) fun header hheader => ?_
    refine Ends.bind (Ends.lift fun cursor hcursor => toNat_of_add_abort hcursor) ?_
    rintro cursor hcursor
    have hstart : Walk.Reads mem (partOffset.toNat + 24)
        { segments := [], cursor, entryOk := false } [] := ⟨rfl, hcursor, rfl⟩
    refine Ends.bind (walk_reads h header.count hstart) ?_
    rintro w ⟨bs, hw, hlength⟩
    rw [List.length_nil, Nat.zero_add] at hlength
    split_ifs
    · exact Ends.throw
    · refine Ends.bind Ends.trivial fun t _ => Ends.pure ⟨bs, ?_, hlength.symm,
        hw.segments, hw.cursor ▸ w.cursor.toNat_lt, hw.stored⟩
      rw [hlength]
      exact hheader

/-- What is known of the segments of a table. -/
structure Table.Legal (map : MemoryMap) (t : Table) : Prop where
  count_pos : 1 ≤ t.image.count
  count_le : t.image.count ≤ 16
  legal : ∀ seg ∈ t.image.segments, seg.Loaded → seg.Legal .abort map
  entry : ∃ seg ∈ t.image.segments, seg.Loaded ∧ seg.Runs map t.image.entry

theorem readTable_legal :
    Ends (readTable .abort reader partOffset partSize map) (Table.Legal map) := by
  refine readTable_ends fun partEnd header w t _ hpos hmax hw _ hentry _ => ?_
  exact { count_pos := hpos, count_le := hmax, legal := hw.legal, entry := hw.entryOk hentry }

/-! ### The draft -/

/-- The bytes of a list of known length, one by one. -/
theorem eq_map_byteAt (raw : List UInt8) : raw = (List.range raw.length).map (byteAt raw) := by
  refine List.ext_getElem (by simp) fun j hj _ => ?_
  simp [byteAt, hj]

/-- What a header that is accepted says. -/
theorem parseHeader_eq_ok {raw : List UInt8} {header : Header}
    (h : parseHeader map raw = .ok header) :
    byteAt raw 0 = imageMagic ∧ fromLeBytes16 (byteAt raw 12) (byteAt raw 13) = map.chipId ∧
      header = ⟨wordAt raw 4, (byteAt raw 1).toNat, byteAt raw 23 == 1⟩ := by
  unfold parseHeader at h
  split_ifs at h with hmagic hcount hchip
  cases h
  exact ⟨not_not.mp hmagic, not_not.mp hchip, rfl⟩

/-- What the memory holds behind a table that has been read, as a draft. -/
def Table.draft (mem : ℕ → UInt8) (map : MemoryMap) (partOffset : UInt32) (t : Table)
    (bs : List Block) (hpos : 1 ≤ bs.length) (hmax : bs.length ≤ 16) : Draft where
  entry := t.image.entry
  chipId := map.chipId
  hashByte := byteAt (window mem partOffset.toNat 24) 23
  spare := byteAt (window mem partOffset.toNat 24)
  blocks := bs
  padding := window mem (partOffset.toNat + (24 + (bs.flatMap Block.bytes).length))
    (15 - (24 + (bs.flatMap Block.bytes).length) % 16)
  blocks_pos := hpos
  blocks_le := hmax
  length_padding := length_window

/-- Everything in a draft before its checksum byte. -/
def Draft.body (d : Draft) : List UInt8 := d.header ++ d.blocks.flatMap Block.bytes ++ d.padding

theorem Draft.length_body (d : Draft) : d.body.length + 1 = d.checked.length := by
  rw [checked, List.length_append, List.length_singleton, body]

/-- The table that is read from a draft. -/
def Draft.table (d : Draft) (sha256 : List UInt8 → Digest) (partOffset : UInt32) : Table where
  image := d.image sha256 partOffset
  checksumAt := UInt32.ofNat (partOffset.toNat + d.checked.length - 1)

section Draft

variable {t : Table} {bs : List Block} {hpos : 1 ≤ bs.length} {hmax : bs.length ≤ 16}

/-- The header of that draft is in the memory. -/
theorem Table.Reads.header_draft (h : t.Reads mem map partOffset bs) :
    (t.draft mem map partOffset bs hpos hmax).header = window mem partOffset.toNat 24 := by
  obtain ⟨hmagic, hchip, hheader⟩ := parseHeader_eq_ok h.header
  rw [Header.mk.injEq] at hheader
  obtain ⟨hentry, hcount, -⟩ := hheader
  set raw := window mem partOffset.toNat 24 with hraw
  have hlength : raw.length = 24 := length_window
  have hcountByte : UInt8.ofNat bs.length = byteAt raw 1 := by rw [hcount, UInt8.ofNat_toNat]
  have hentryBytes : toLeBytes t.image.entry =
      [byteAt raw 4, byteAt raw 5, byteAt raw 6, byteAt raw 7] := by
    rw [hentry]
    exact toLeBytes_fromLeBytes ..
  have hchipBytes : toLeBytes16 map.chipId = [byteAt raw 12, byteAt raw 13] := by
    rw [← hchip]
    exact toLeBytes16_fromLeBytes16 ..
  rw [eq_map_byteAt raw, hlength]
  simp only [Draft.header, Table.draft, hcountByte, hentryBytes, hchipBytes, ← hmagic]
  rfl

/-- So is everything up to the checksum byte. -/
theorem Table.Reads.body_draft (h : t.Reads mem map partOffset bs) :
    window mem partOffset.toNat (t.draft mem map partOffset bs hpos hmax).body.length =
      (t.draft mem map partOffset bs hpos hmax).body := by
  set d := t.draft mem map partOffset bs hpos hmax with hd
  have hblocks : d.blocks = bs := rfl
  have hpadding : window mem (partOffset.toNat + (24 + (bs.flatMap Block.bytes).length))
      d.padding.length = d.padding := by
    rw [d.length_padding]
    rfl
  rw [Draft.body, List.length_append, List.length_append, Draft.length_header, window_add,
    window_add, hblocks, h.stored, hpadding, h.header_draft]

variable {sha256 : List UInt8 → Digest}

/-- That draft is laid out where the table says. -/
theorem Table.Reads.table_draft (h : t.Reads mem map partOffset bs)
    (hplaced : t.Placed partOffset partSize) :
    partOffset.toNat + ((t.draft mem map partOffset bs hpos hmax).bytes sha256).length =
        t.image.stop.toNat ∧
      (t.draft mem map partOffset bs hpos hmax).table sha256 partOffset = t := by
  set d := t.draft mem map partOffset bs hpos hmax with hd
  have hblocks : d.blocks = bs := rfl
  have hlength : (d.bytes sha256).length = _ := d.length_bytes
  have hchecked := d.length_checked
  rw [hblocks] at hchecked
  have hstop := hplaced.stop
  have hlt := t.image.stop.toNat_lt
  obtain ⟨-, -, hheader⟩ := parseHeader_eq_ok h.header
  rw [Header.mk.injEq] at hheader
  have happended : d.hashAppended = t.image.hashAppended := hheader.2.2.symm
  rw [happended] at hlength
  obtain ⟨cursor, hlaid, hat⟩ := hplaced.laidOut
  rw [h.segments] at hlaid
  have hle := hlaid.le
  -- the blocks end where the segments do
  have hcursor : cursor = partOffset.toNat + 24 + (bs.flatMap Block.bytes).length :=
    hlaid.unique (laidOut_place bs h.lt)
  have hchecksum : partOffset.toNat + d.checked.length - 1 = t.checksumAt.toNat := by omega
  have hend : partOffset.toNat + (d.bytes sha256).length = t.image.stop.toNat := by omega
  refine ⟨hend, ?_⟩
  have himage : d.image sha256 partOffset = t.image := by
    rw [Draft.image, happended, hend, UInt32.ofNat_toNat, Draft.segments, hblocks, ← h.segments,
      ← h.count]
    rfl
  rw [Draft.table, himage, hchecksum, UInt32.ofNat_toNat]

/-- **A table that has been read is that of an acceptable draft**, and the memory holds it up to
the checksum byte. -/
theorem readTable_drafted (hreader : reader.Holds (fun _ _ => True) mem)
    (sha256 : List UInt8 → Digest) {s s' : ρ}
    (hrun : readTable .abort reader partOffset partSize map s = .ok (t, s')) :
    ∃ d : Draft, d.Acceptable .abort sha256 map partOffset partSize ∧
      d.table sha256 partOffset = t ∧
      window mem partOffset.toNat d.body.length = d.body := by
  obtain ⟨bs, hreads⟩ := readTable_reads hreader s t s' hrun
  have hlegal := readTable_legal s t s' hrun
  have hplaced := readTable_placed s t s' hrun
  have hpos : 1 ≤ bs.length := hreads.count ▸ hlegal.count_pos
  have hmax : bs.length ≤ 16 := hreads.count ▸ hlegal.count_le
  set d := t.draft mem map partOffset bs hpos hmax
  obtain ⟨hend, htable⟩ : partOffset.toNat + (d.bytes sha256).length = t.image.stop.toNat ∧
      d.table sha256 partOffset = t := hreads.table_draft hplaced
  have hsegs : d.segments partOffset = t.image.segments := hreads.segments.symm
  refine ⟨d, ?_, htable, hreads.body_draft⟩
  obtain ⟨seg, hseg, hloaded, hruns⟩ := hlegal.entry
  exact {
    chipId := rfl
    partition_lt := readTable_partition hrun
    fits := by
      have hinside := hplaced.inside
      omega
    placed := by
      rw [hsegs]
      exact hlegal.legal
    entry := by
      rw [hsegs]
      exact ⟨seg, hseg, hloaded, hruns.1, hruns.mem (hlegal.legal seg hseg hloaded)⟩ }

end Draft

end AtomicOta.Esp
