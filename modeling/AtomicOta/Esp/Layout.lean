import AtomicOta.Esp.Reading

/-!
# Well-formed images

`AtomicOta.Esp.Draft` is what an image is made of – segments, an entry point, and the bytes
nobody looks at – and `AtomicOta.Esp.Draft.bytes` lays it out as documented: the header, the
segments, padding, the checksum byte and the hash if any.

An image laid out this way whose segments are legal is accepted and read back as it was
made: `AtomicOta.Esp.validate_draft`. The walk is followed with the bytes split at the
cursor into what has been read and what has not, so that the induction is on the blocks that
are left, and the residue modulo 16 appears once, in `AtomicOta.Esp.trailer_of_fits`.
-/

namespace AtomicOta.Esp

open Fallible

/-! ### Drafts -/

/-- A segment with its data. -/
structure Block where
  load : UInt32
  data : List UInt8

/-- The eight bytes before the data. -/
def Block.header (b : Block) : List UInt8 :=
  toLeBytes b.load ++ toLeBytes (UInt32.ofNat b.data.length)

/-- The segment header and the data. -/
def Block.bytes (b : Block) : List UInt8 := b.header ++ b.data

/-- What an image is made of. -/
structure Draft where
  entry : UInt32
  chipId : UInt16
  /-- The last byte of the header: 1 if a hash is appended. -/
  hashByte : UInt8
  /-- The bytes of the header that are not looked at, by their offset. -/
  spare : ℕ → UInt8
  blocks : List Block
  padding : List UInt8
  blocks_pos : 1 ≤ blocks.length
  blocks_le : blocks.length ≤ 16
  /-- The padding ends before the last byte of a 16-byte block. -/
  length_padding : padding.length = 15 - (24 + (blocks.flatMap Block.bytes).length) % 16

namespace Draft

variable (d : Draft)

def hashAppended : Bool := d.hashByte == 1

/-- The 24 bytes of the header. -/
def header : List UInt8 :=
  [imageMagic, UInt8.ofNat d.blocks.length, d.spare 2, d.spare 3] ++ toLeBytes d.entry ++
    [d.spare 8, d.spare 9, d.spare 10, d.spare 11] ++ toLeBytes16 d.chipId ++
    [d.spare 14, d.spare 15, d.spare 16, d.spare 17, d.spare 18, d.spare 19, d.spare 20,
      d.spare 21, d.spare 22, d.hashByte]

/-- The XOR of the data of every segment. -/
def checksum : UInt8 := (d.blocks.flatMap Block.data).foldl (· ^^^ ·) checksumSeed

/-- Everything up to the checksum byte. -/
def checked : List UInt8 :=
  d.header ++ d.blocks.flatMap Block.bytes ++ d.padding ++ [d.checksum]

/-- **The layout of an image.** -/
def bytes (sha256 : List UInt8 → Digest) : List UInt8 :=
  d.checked ++ if d.hashAppended then List.ofFn (sha256 d.checked) else []

end Draft

/-- The segment of a block whose header is at `start`. -/
def Block.segment (b : Block) (start : ℕ) : Segment :=
  { load := b.load
    len := UInt32.ofNat b.data.length
    dataOffset := UInt32.ofNat (start + 8) }

/-- The segments of the blocks, with the first segment header at `start`. -/
def place (start : ℕ) : List Block → List Segment
  | [] => []
  | b :: bs => b.segment start :: place (start + b.bytes.length) bs

namespace Draft

variable (d : Draft)

/-- The segments of the image at `partOffset`. -/
def segments (partOffset : UInt32) : List Segment := place (partOffset.toNat + 24) d.blocks

/-- The image to be read back. -/
def image (sha256 : List UInt8 → Digest) (partOffset : UInt32) : Image :=
  { entry := d.entry
    segments := d.segments partOffset
    count := d.blocks.length
    hashAppended := d.hashAppended
    stop := UInt32.ofNat (partOffset.toNat + (d.bytes sha256).length) }

end Draft

/-! ### Lengths -/

theorem Block.length_bytes (b : Block) : b.bytes.length = 8 + b.data.length :=
  List.length_append

/-- The bytes of blocks split at the first of them: before its data, around it, and behind
it. -/
theorem Block.split {b : Block} {bs : List Block} {bytes pre post : List UInt8}
    (h : bytes = pre ++ (b :: bs).flatMap Block.bytes ++ post) :
    bytes = pre ++ b.header ++ (b.data ++ bs.flatMap Block.bytes ++ post) ∧
      bytes = (pre ++ b.header) ++ b.data ++ (bs.flatMap Block.bytes ++ post) ∧
        bytes = (pre ++ b.bytes) ++ bs.flatMap Block.bytes ++ post := by
  rw [List.flatMap_cons, Block.bytes] at h
  refine ⟨?_, ?_, ?_⟩ <;> rw [h] <;> simp only [Block.bytes, List.append_assoc]

namespace Draft

variable {d : Draft} {sha256 : List UInt8 → Digest}

@[simp] theorem length_header : d.header.length = 24 := rfl

/-- The checksum byte is the last of a 16-byte block. -/
theorem length_checked : d.checked.length = 24 + (d.blocks.flatMap Block.bytes).length +
    (15 - (24 + (d.blocks.flatMap Block.bytes).length) % 16) + 1 := by
  simp only [checked, List.length_append, length_header, d.length_padding, List.length_singleton]

theorem length_bytes : (d.bytes sha256).length =
    d.checked.length + if d.hashAppended then 32 else 0 := by
  rw [bytes, List.length_append]
  split_ifs with h
  · rw [List.length_ofFn]
  · rfl

end Draft

/-! ### The header -/

theorem parseHeader_header {map : MemoryMap} {d : Draft} (hchip : d.chipId = map.chipId) :
    parseHeader map d.header =
      .ok { entry := d.entry, count := d.blocks.length, hashAppended := d.hashAppended } := by
  have hmax := d.blocks_le
  have hpos := d.blocks_pos
  have hcount : (UInt8.ofNat d.blocks.length).toNat = d.blocks.length :=
    UInt8.toNat_ofNat_of_lt' (show d.blocks.length < 2 ^ 8 by omega)
  have hzero : UInt8.ofNat d.blocks.length ≠ 0 := by
    intro h0
    rw [h0] at hcount
    exact absurd hcount (by simp; omega)
  have hchip' : fromLeBytes16 (byteAt d.header 12) (byteAt d.header 13) = map.chipId :=
    (fromLeBytes16_toUInt8 d.chipId).trans hchip
  have hentry : wordAt d.header 4 = d.entry := fromLeBytes_toUInt8 d.entry
  have hbyte : byteAt d.header 1 = UInt8.ofNat d.blocks.length := rfl
  have hlast : (byteAt d.header 23 == 1) = d.hashAppended := rfl
  have hmagic : byteAt d.header 0 = imageMagic := rfl
  unfold parseHeader
  rw [hmagic, hbyte, hchip', hentry, hlast, hcount]
  rw [if_neg (by simp), if_neg (not_or.mpr ⟨hzero, Nat.not_lt.mpr hmax⟩), if_neg (by simp)]

/-! ### The walk -/

variable {ρ : Type} {o : Overflow} {reader : Reader ρ} {map : MemoryMap}
variable {partOffset partSize partEnd entry : UInt32} {start : ℕ} {bytes pre post : List UInt8}

theorem admitSegment_of_legal {i : ℕ} {seg : Segment} (entryOk : Bool)
    (hlegal : seg.Loaded → seg.Legal o map) :
    admitSegment o map entry i entryOk seg =
      .ok (entryOk || decide (seg.Loaded ∧ seg.Runs map entry)) := by
  unfold admitSegment
  split_ifs with hloaded
  · simp [(hlegal hloaded).checkSegment, hloaded, bind, Except.bind]
  · simp [hloaded]

/-- Whether one of the segments holds the entry point. -/
def anyRuns (map : MemoryMap) (entry : UInt32) (segs : List Segment) : Bool :=
  segs.any fun seg => decide (seg.Loaded ∧ seg.Runs map entry)

/-- One turn of the walk, past the header of a block. -/
theorem Walk.step_block {i : ℕ} {w : Walk} (b : Block) (hcursor : w.cursor.toNat = start)
    (hfit : start + b.bytes.length ≤ partEnd.toNat)
    (hlegal : (b.segment start).Loaded → (b.segment start).Legal o map) :
    Walk.step o map partEnd entry i w b.header =
      .ok { segments := w.segments ++ [b.segment start]
            cursor := UInt32.ofNat (start + b.bytes.length)
            entryOk := w.entryOk || anyRuns map entry [b.segment start] } := by
  have hend := partEnd.toNat_lt
  rw [Block.length_bytes] at hfit ⊢
  have hload : wordAt b.header 0 = b.load := fromLeBytes_toUInt8 b.load
  have hlen : wordAt b.header 4 = UInt32.ofNat b.data.length := fromLeBytes_toUInt8 _
  have hoffset : add o w.cursor segmentHeaderLen = .ok (UInt32.ofNat (start + 8)) := by
    rw [eq_ofNat hcursor]
    exact add_ofNat (n := 8) (by omega)
  have hin : ¬ partEnd < UInt32.ofNat (start + 8 + b.data.length) := by
    rw [UInt32.lt_iff_toNat_lt, toNat_ofNat_of_lt (by omega)]
    omega
  have hadmit : admitSegment o map entry i w.entryOk (b.segment start) = _ :=
    admitSegment_of_legal w.entryOk hlegal
  unfold Walk.step
  rw [hoffset, hload, hlen]
  simp only [bind, Except.bind, checkedAdd_ofNat (show start + 8 + b.data.length < 2 ^ 32 by omega),
    if_neg hin]
  rw [← Block.segment, hadmit]
  simp only [anyRuns, List.any_cons, List.any_nil, Bool.or_false, Nat.add_assoc]

/-- **The walk** over the blocks that are left. -/
theorem walk_blocks (h : reader.Serves start bytes) (bs : List Block) {i : ℕ} {w : Walk}
    (hbytes : bytes = pre ++ bs.flatMap Block.bytes ++ post)
    (hcursor : w.cursor.toNat = start + pre.length)
    (hfit : start + bytes.length ≤ partEnd.toNat)
    (hlegal : ∀ seg ∈ place (start + pre.length) bs, seg.Loaded → seg.Legal o map) :
    Succeeds (walk o reader map partEnd entry bs.length i w) fun w' => w' =
      { segments := w.segments ++ place (start + pre.length) bs,
        cursor := UInt32.ofNat (start + pre.length + (bs.flatMap Block.bytes).length),
        entryOk := w.entryOk || anyRuns map entry (place (start + pre.length) bs) } := by
  induction bs generalizing pre i w with
  | nil =>
    refine Succeeds.pure ?_
    simp [place, anyRuns, ← eq_ofNat hcursor]
  | cons b bs ih =>
    obtain ⟨hhead, -, hrest⟩ := Block.split hbytes
    have hlength := length_of_eq_append hrest
    have hnext : start + pre.length + b.bytes.length = start + (pre ++ b.bytes).length := by
      rw [List.length_append, Nat.add_assoc]
    have hend := partEnd.toNat_lt
    refine Succeeds.bind (h.readExact_append hhead hcursor) ?_
    rintro raw rfl
    refine Succeeds.bind (Succeeds.lift (P := (· = _))
      (Walk.step_block b hcursor (by omega) (hlegal _ List.mem_cons_self)) rfl) ?_
    rintro next rfl
    refine (ih hrest ?_ ?_).mono ?_
    · rw [toNat_ofNat_of_lt (by omega), hnext]
    · rw [← hnext]
      exact fun seg hseg => hlegal seg (List.mem_cons_of_mem _ hseg)
    · rintro w' rfl
      rw [← hnext]
      simp [place, anyRuns, Bool.or_assoc, Nat.add_assoc]

/-! ### The trailer -/

/-- The trailer behind `n` bytes of an image at `start`, where it has an address. -/
theorem trailer_of_fits (start n : ℕ) (hashAppended : Bool)
    (hfit : start + n + (15 - n % 16) + 1 + (if hashAppended then 32 else 0) < 2 ^ 32) :
    trailer o (UInt32.ofNat start) partEnd (UInt32.ofNat (start + n)) hashAppended =
      if partEnd < UInt32.ofNat (start + n + (15 - n % 16) + 1 +
          if hashAppended then 32 else 0) then
        .error (.error .truncated)
      else
        .ok { checksumAt := UInt32.ofNat (start + n + (15 - n % 16))
              stop := UInt32.ofNat (start + n + (15 - n % 16) + 1 +
                if hashAppended then 32 else 0) } := by
  have hmod : UInt32.ofNat n % 16 = UInt32.ofNat (n % 16) := by
    refine eq_ofNat ?_
    rw [UInt32.toNat_mod, toNat_ofNat_of_lt (by omega)]
    rfl
  have hhash : (if hashAppended then hashLen else 0) =
      UInt32.ofNat (if hashAppended then 32 else 0) := by
    cases hashAppended <;> rfl
  have hpadding : sub o 15 (UInt32.ofNat (n % 16)) = .ok (UInt32.ofNat (15 - n % 16)) :=
    sub_ofNat (m := 15) (by omega) (by omega)
  have hone : add o (UInt32.ofNat (start + n + (15 - n % 16))) 1 =
      .ok (UInt32.ofNat (start + n + (15 - n % 16) + 1)) :=
    add_ofNat (n := 1) (by omega)
  unfold trailer
  simp only [bind, Except.bind, sub_ofNat (o := o) (show start ≤ start + n by omega) (by omega),
    Nat.add_sub_cancel_left, add_ofNat (o := o) (show start + n < 2 ^ 32 by omega), hmod, hpadding,
    add_ofNat (o := o) (show start + n + (15 - n % 16) < 2 ^ 32 by omega), hone, hhash,
    add_ofNat (o := o) hfit]

/-- The trailer of an image that ends in the partition. -/
theorem trailer_eq (start n : ℕ) (hashAppended : Bool)
    (hfit : start + n + (15 - n % 16) + 1 + (if hashAppended then 32 else 0) ≤ partEnd.toNat) :
    trailer o (UInt32.ofNat start) partEnd (UInt32.ofNat (start + n)) hashAppended =
      .ok { checksumAt := UInt32.ofNat (start + n + (15 - n % 16))
            stop := UInt32.ofNat (start + n + (15 - n % 16) + 1 +
              if hashAppended then 32 else 0) } := by
  have hlt := hfit.trans_lt partEnd.toNat_lt
  rw [trailer_of_fits start n hashAppended hlt, if_neg]
  rw [UInt32.lt_iff_toNat_lt, toNat_ofNat_of_lt hlt]
  exact Nat.not_lt.mpr hfit

end AtomicOta.Esp
