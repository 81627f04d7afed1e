import AtomicOta.Word
import Mathlib.Data.Fintype.Pi
import Mathlib.Data.Fintype.Basic

/-!
# The `otadata` entry

The 32-byte entry at the start of each of the two `otadata` sectors: its fields,
the checksum over them, and the two functions that write and read it,
`AtomicOta.Otadata.Entry.encode` and `AtomicOta.Otadata.decode`.

The layout is the one of the source, at its own offsets:

| offset | field | content |
|---|---|---|
| 0 | `ota_seq` | the sequence number |
| 4 | magic | `EWBT` |
| 8 | format version | 1 |
| 12 | `ext_crc` | the checksum of sequence, state, magic and version |
| 16 | reserved | erased |
| 20 | commit word | programmed last, by a command of its own |
| 24 | `ota_state` | the state |
| 28 | `idf_crc` | the checksum of the sequence |

A fixed-size byte array is a function on `Fin 32`, a slice passed to the checksum
a list. Everything here computes.
-/

namespace AtomicOta

namespace Otadata

/-- Size of one `otadata` entry. -/
abbrev entrySize : ℕ := 32

/-- The entry lives at the start of each of the two `otadata` sectors. -/
abbrev sectorCount : ℕ := 2

/-- There is a first sector. -/
instance neZero_sectorCount : @NeZero ℕ Zero.ofOfNat0 sectorCount := Nat.instNeZeroSucc

/-- One of the two sectors. -/
abbrev Sector : Type := Fin sectorCount

/-- One entry as stored. -/
abbrev Raw : Type := Fin entrySize → UInt8

/-- A fully erased entry. -/
def blank : Raw := fun _ => 0xFF

namespace State

/-! ### The values of `ota_state` -/

abbrev new : UInt32 := 0
abbrev pendingVerify : UInt32 := 1
abbrev valid : UInt32 := 2
abbrev invalid : UInt32 := 3
abbrev aborted : UInt32 := 4

end State

/-- `b"EWBT"`. -/
def magic : List UInt8 := [0x45, 0x57, 0x42, 0x54]

abbrev formatVersion : UInt32 := 1

/-- The commit word. -/
abbrev commit : UInt32 := 0x5AC3A53C

abbrev offSeq : ℕ := 0
abbrev offMagic : ℕ := 4
abbrev offVersion : ℕ := 8
abbrev offExtCrc : ℕ := 12
abbrev offReserved : ℕ := 16
abbrev offCommit : ℕ := 20
abbrev offState : ℕ := 24
abbrev offIdfCrc : ℕ := 28

/-! ### The checksum -/

/-- One round of the inner loop: a masked shift-and-XOR of the reflected
register. -/
def crcBit (crc : UInt32) : UInt32 := (crc >>> 1) ^^^ (0xEDB88320 &&& (0 - (crc &&& 1)))

/-- One byte: XORed into the low end of the register, then eight rounds. -/
def crcByte (crc : UInt32) (byte : UInt8) : UInt32 := crcBit^[8] (crc ^^^ byte.toUInt32)

/-- CRC-32 continued from `init`. -/
def crc32Le (init : UInt32) (data : List UInt8) : UInt32 := ~~~(data.foldl crcByte (~~~init))

/-! ### Bytes and words of a stored entry -/

/-- `raw[i]`. -/
def byteAt (raw : Raw) (i : ℕ) : UInt8 := raw (Fin.ofNat entrySize i)

/-- `raw[off..off + len]`. -/
def slice (raw : Raw) (off len : ℕ) : List UInt8 :=
  (List.range len).map fun i => byteAt raw (off + i)

/-- `raw[off..off + bytes.len()].copy_from_slice(bytes)`. -/
def splice (raw : Raw) (off : ℕ) (bytes : List UInt8) : Raw := fun i =>
  if off ≤ (i : ℕ) ∧ (i : ℕ) < off + bytes.length then bytes.getD ((i : ℕ) - off) 0 else raw i

/-- The little-endian word at an offset. -/
def word (raw : Raw) (off : ℕ) : UInt32 :=
  fromLeBytes (byteAt raw off) (byteAt raw (off + 1)) (byteAt raw (off + 2)) (byteAt raw (off + 3))

/-! ### Entries -/

/-- A logical entry: which slot it selects and what is known about that image. -/
structure Entry where
  seq : UInt32
  state : UInt32
  deriving DecidableEq, Repr

/-- The `idf_crc` field: the checksum of the sequence number alone. -/
def idfCrc (seq : UInt32) : UInt32 := crc32Le u32Max (toLeBytes seq)

namespace Entry

/-- The `ext_crc` field: the checksum of sequence, state, magic and version. -/
def extCrc (e : Entry) : UInt32 :=
  crc32Le u32Max (toLeBytes e.seq ++ toLeBytes e.state ++ magic ++ toLeBytes formatVersion)

/-- What the first program command writes: everything except the commit word,
whose four bytes stay `0xFF`. -/
def body (e : Entry) : Raw :=
  let raw := blank
  let raw := splice raw offSeq (toLeBytes e.seq)
  let raw := splice raw offMagic magic
  let raw := splice raw offVersion (toLeBytes formatVersion)
  let raw := splice raw offExtCrc (toLeBytes e.extCrc)
  let raw := splice raw offState (toLeBytes e.state)
  splice raw offIdfCrc (toLeBytes (idfCrc e.seq))

/-- The entry as it reads once committed. -/
def encode (e : Entry) : Raw := splice e.body offCommit (toLeBytes commit)

/-- One of the five states an entry may be in. -/
def Known (state : UInt32) : Prop :=
  state = State.new ∨ state = State.pendingVerify ∨ state = State.valid ∨
    state = State.invalid ∨ state = State.aborted

instance (state : UInt32) : Decidable (Known state) := by
  unfold Known
  infer_instance

/-- An entry the reader is willing to accept. -/
structure Admissible (e : Entry) : Prop where
  seq_ne_zero : e.seq ≠ 0
  seq_ne_max : e.seq ≠ u32Max
  known : Known e.state

theorem admissible_iff (e : Entry) :
    e.Admissible ↔ e.seq ≠ 0 ∧ e.seq ≠ u32Max ∧ Known e.state :=
  ⟨fun h => ⟨h.1, h.2, h.3⟩, fun h => ⟨h.1, h.2.1, h.2.2⟩⟩

instance (e : Entry) : Decidable e.Admissible := decidable_of_iff' _ e.admissible_iff

end Entry

/-- What a sector holds. -/
inductive Decoded where
  /-- Fully erased. -/
  | blank
  /-- Anything that is not a complete, exact entry. -/
  | corrupt
  | ok (e : Entry)
  deriving DecidableEq, Repr

/-- Accepts an entry only if every field is exact. -/
def decode (raw : Raw) : Decoded :=
  if raw = blank then
    .blank
  else
    let entry : Entry := { seq := word raw offSeq, state := word raw offState }
    if entry.seq ≠ 0
        ∧ entry.seq ≠ u32Max
        ∧ Entry.Known entry.state
        ∧ slice raw offMagic 4 = magic
        ∧ word raw offVersion = formatVersion
        ∧ word raw offExtCrc = entry.extCrc
        ∧ word raw offReserved = u32Max
        ∧ word raw offCommit = commit
        ∧ word raw offIdfCrc = idfCrc entry.seq then
      .ok entry
    else
      .corrupt

end Otadata

end AtomicOta
