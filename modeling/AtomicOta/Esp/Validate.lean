import AtomicOta.Error
import AtomicOta.Esp.Segment

/-!
# Validating an image

What the bootloader asks of an image before it loads it: the header,
`AtomicOta.Esp.parseHeader`, the walk over the segment headers, `AtomicOta.Esp.walk`, the
two loops over the bytes, `AtomicOta.Esp.pieces`, and `AtomicOta.Esp.validate`, which puts
them in order.

* A read is a step of the reader, `AtomicOta.Esp.Reader`, which has a state of its own and
  answers with as many bytes as it was asked for, or fails.
* SHA-256 is opaque; the hasher is the bytes it has absorbed.
* What is read is kept apart from what is decided of it, so that the decisions are
  functions of bytes.
-/

namespace AtomicOta.Esp

/-! ### Images -/

abbrev maxSegments : ℕ := 16
abbrev headerLen : UInt32 := 24
abbrev segmentHeaderLen : UInt32 := 8
abbrev imageMagic : UInt8 := 0xE9
abbrev checksumSeed : UInt8 := 0xEF
abbrev hashLen : UInt32 := 32

/-- How much of the image is read to decide. -/
inductive Verify where
  /-- Header and segment table only. -/
  | structural
  /-- Plus the XOR checksum over the data of every segment. -/
  | checksum
  /-- Plus the appended SHA-256. -/
  | full
  deriving DecidableEq, Repr

structure Image where
  entry : UInt32
  segments : List Segment
  count : ℕ
  hashAppended : Bool
  /-- Absolute flash offset one past the image. -/
  stop : UInt32
  deriving DecidableEq, Repr

/-- The fields of the header that are looked at. -/
structure Header where
  entry : UInt32
  count : ℕ
  hashAppended : Bool
  deriving DecidableEq, Repr

def byteAt (raw : List UInt8) (i : ℕ) : UInt8 := raw.getD i 0

/-- The little-endian word at offset `i`. -/
def wordAt (raw : List UInt8) (i : ℕ) : UInt32 :=
  fromLeBytes (byteAt raw i) (byteAt raw (i + 1)) (byteAt raw (i + 2)) (byteAt raw (i + 3))

/-- What `validate` makes of the header. -/
def parseHeader (map : MemoryMap) (raw : List UInt8) : Except Fault Header :=
  if byteAt raw 0 ≠ imageMagic then .error (.error (.badMagic (byteAt raw 0)))
  else if byteAt raw 1 = 0 ∨ maxSegments < (byteAt raw 1).toNat then
    .error (.error (.badSegmentCount (byteAt raw 1)))
  else if fromLeBytes16 (byteAt raw 12) (byteAt raw 13) ≠ map.chipId then
    .error (.error (.badChip (fromLeBytes16 (byteAt raw 12) (byteAt raw 13))))
  else .ok { entry := wordAt raw 4, count := (byteAt raw 1).toNat,
             hashAppended := byteAt raw 23 == 1 }

/-- Whether the entry point is inside an executable segment. -/
def Segment.Runs (map : MemoryMap) (entry : UInt32) (seg : Segment) : Prop :=
  (seg.load ∈ map.irom ∨ seg.load ∈ map.iram) ∧
    seg.load ≤ entry ∧ entry < saturatingAdd seg.load seg.len

instance (map : MemoryMap) (entry : UInt32) (seg : Segment) : Decidable (seg.Runs map entry) :=
  inferInstanceAs (Decidable (_ ∧ _))

/-- Where the walk over the segment headers stands. -/
structure Walk where
  /-- The segments read so far, in file order. -/
  segments : List Segment
  cursor : UInt32
  entryOk : Bool

/-- What is decided of one segment. An empty segment is not loaded, and neither is one
with load address 0, which is padding of the file layout. -/
def admitSegment (o : Overflow) (map : MemoryMap) (entry : UInt32) (i : ℕ) (entryOk : Bool)
    (seg : Segment) : Except Fault Bool :=
  if seg.Loaded then do
    checkSegment o map i seg
    .ok (entryOk || decide (seg.Runs map entry))
  else .ok entryOk

/-- The walk past the segment header `raw`, the header of segment `i`. -/
def Walk.step (o : Overflow) (map : MemoryMap) (partEnd entry : UInt32) (i : ℕ) (w : Walk)
    (raw : List UInt8) : Except Fault Walk := do
  let dataOffset ← add o w.cursor segmentHeaderLen
  let seg : Segment := { load := wordAt raw 0, len := wordAt raw 4, dataOffset }
  match checkedAdd dataOffset seg.len with
  | none => .error (.error (.segmentOutsidePartition i))
  | some dataEnd =>
    if partEnd < dataEnd then .error (.error (.segmentOutsidePartition i))
    else do
      let entryOk ← admitSegment o map entry i w.entryOk seg
      .ok { segments := w.segments ++ [seg], cursor := dataEnd, entryOk }

/-- Where the checksum byte is, and where the image ends. -/
structure Trailer where
  checksumAt : UInt32
  stop : UInt32

/-- Padding up to the last byte of a 16-byte block, relative to the image start, then the
checksum, then the hash if any. -/
def trailer (o : Overflow) (partOffset partEnd cursor : UInt32) (hashAppended : Bool) :
    Except Fault Trailer := do
  let rel ← sub o cursor partOffset
  let used ← add o partOffset rel
  let padding ← sub o 15 (rel % 16)
  let checksumAt ← add o used padding
  let checked ← add o checksumAt 1
  let stop ← add o checked (if hashAppended then hashLen else 0)
  if partEnd < stop then .error (.error .truncated) else .ok { checksumAt, stop }

/-! ### Reading -/

/-- The end of the next piece of at most 256 bytes, on the way from `a` to `b`. -/
theorem toNat_piece {a b : UInt32} (h : a < b) :
    (a + min (b - a) 256).toNat = a.toNat + min (b.toNat - a.toNat) 256 := by
  have hlt := UInt32.lt_iff_toNat_lt.mp h
  have hmin : (min (b - a) 256).toNat = min (b.toNat - a.toNat) 256 := by
    rw [toNat_min, toNat_sub_of_le' hlt.le]
    rfl
  have hb := b.toNat_lt
  rw [toNat_add_of_lt (by omega), hmin]

/-- Where the bytes come from: each read is given the offset and the length of the buffer,
and fills it or fails. -/
structure Reader (ρ : Type) where
  read : UInt32 → ℕ → ρ → Option (List UInt8) × ρ
  length_read : ∀ offset n s bytes s', read offset n s = (some bytes, s') → bytes.length = n

/-- A buffer as a reader: what is not in it cannot be read. -/
def Reader.ofBytes (bytes : List UInt8) : Reader Unit where
  read offset n s :=
    (if offset.toNat + n ≤ bytes.length then some ((bytes.drop offset.toNat).take n) else none, s)
  length_read offset n s buf s' h := by
    split_ifs at h with hin
    · cases h
      rw [List.length_take, List.length_drop]
      omega
    · cases h

section Reading

variable {ρ : Type} (o : Overflow) (reader : Reader ρ)

/-- `read_exact`. -/
def readExact (offset : UInt32) (n : ℕ) : StateT ρ (Except Fault) (List UInt8) := fun s =>
  match reader.read offset n s with
  | (some bytes, s') => .ok (bytes, s')
  | (none, _) => .error (.error .read)

/-- The walk over the `n` segment headers from segment `i` on. -/
def walk (map : MemoryMap) (partEnd entry : UInt32) :
    ℕ → ℕ → Walk → StateT ρ (Except Fault) Walk
  | 0, _, w => pure w
  | n + 1, i, w => do
    let raw ← readExact reader w.cursor segmentHeaderLen.toNat
    let next ← Walk.step o map partEnd entry i w raw
    walk map partEnd entry n (i + 1) next

/-- A loop over the offsets from `pos` to `stop` in pieces of at most 256 bytes, each given
to `body` with its offset and length. -/
def pieces {β : Type} (stop : UInt32) (body : UInt32 → ℕ → β → StateT ρ (Except Fault) β)
    (pos : UInt32) (acc : β) : StateT ρ (Except Fault) β :=
  if _hlt : pos < stop then
    match _hleft : sub o stop pos with
    | .error e => throw e
    | .ok left => do
      let acc ← body pos (min left 256).toNat acc
      match _hnext : add o pos (min left 256) with
      | .error e => throw e
      | .ok next => pieces stop body next acc
  else pure acc
termination_by stop.toNat - pos.toNat
decreasing_by
  rw [add_ok _hnext, sub_ok _hleft, toNat_piece _hlt]
  have := UInt32.lt_iff_toNat_lt.mp _hlt
  omega

/-- The XOR of the data of one segment, on top of `xor`. -/
def xorSegment (xor : UInt8) (seg : Segment) : StateT ρ (Except Fault) UInt8 :=
  pieces o seg.len (fun done n xor => do
    let offset ← add o seg.dataOffset done
    let buf ← readExact reader offset n
    pure (buf.foldl (· ^^^ ·) xor)) 0 xor

/-- The bytes from `pos` to `stop`, as the hasher absorbs them. -/
def absorb (pos stop : UInt32) : StateT ρ (Except Fault) (List UInt8) :=
  pieces o stop (fun offset n absorbed => do
    let buf ← readExact reader offset n
    pure (absorbed ++ buf)) pos []

/-- The XOR checksum, on every level but the first. -/
def verifyChecksum (verify : Verify) (segments : List Segment) (checksumAt : UInt32) :
    StateT ρ (Except Fault) Unit :=
  if verify = .structural then pure ()
  else do
    let expected ← readExact reader checksumAt 1
    let xor ← segments.foldlM (xorSegment o reader) checksumSeed
    if xor ≠ byteAt expected 0 then throw (.error .badChecksum) else pure ()

/-- The appended hash, on the last level. -/
def verifyHash (sha256 : List UInt8 → Digest) (verify : Verify) (hashAppended : Bool)
    (partOffset checksumAt : UInt32) : StateT ρ (Except Fault) Unit :=
  if verify ≠ .full then pure ()
  else if !hashAppended then throw (.error .hashMissing)
  else do
    let checked ← add o checksumAt 1
    let absorbed ← absorb o reader partOffset checked
    let stored ← readExact reader checked hashLen.toNat
    if List.ofFn (sha256 absorbed) ≠ stored then throw (.error .badHash) else pure ()

/-- An image whose header and segment table are in order. -/
structure Table where
  image : Image
  checksumAt : UInt32

/-- `validate` up to the end of the image: everything but the checks of the data. -/
def readTable (partOffset partSize : UInt32) (map : MemoryMap) :
    StateT ρ (Except Fault) Table :=
  match checkedAdd partOffset partSize with
  | none => throw (.error .truncated)
  | some partEnd => do
    let raw ← readExact reader partOffset headerLen.toNat
    let header ← parseHeader map raw
    let cursor ← add o partOffset headerLen
    let w ← walk o reader map partEnd header.entry header.count 0
      { segments := [], cursor, entryOk := false }
    if !w.entryOk then throw (.error .badEntry)
    else do
      let t ← trailer o partOffset partEnd w.cursor header.hashAppended
      pure { image := { entry := header.entry, segments := w.segments, count := header.count,
                        hashAppended := header.hashAppended, stop := t.stop },
             checksumAt := t.checksumAt }

/-- `validate`, of the image at `partOffset` in a partition of `partSize` bytes. -/
def validate (sha256 : List UInt8 → Digest) (partOffset partSize : UInt32) (map : MemoryMap)
    (verify : Verify) : StateT ρ (Except Fault) Image := do
  let t ← readTable o reader partOffset partSize map
  verifyChecksum o reader verify t.image.segments t.checksumAt
  verifyHash o reader sha256 verify t.image.hashAppended partOffset t.checksumAt
  pure t.image

end Reading

end AtomicOta.Esp
