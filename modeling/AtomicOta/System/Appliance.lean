import AtomicOta.System.Bootloader
import AtomicOta.Transaction.Finish

/-!
# The appliance

Everything an update goes through, in one machine (`AtomicOta.System.appliance`): the flash of
the boot chain and the transaction store of `AtomicOta.Transaction.station`, together with the
memory that the images are in, which the agent writes through a session of
`AtomicOta.Artifact.WriteSession` and the bootloader validates.

The agent's program is that of the station, except that nothing is staged but what has been
uploaded:

| mode | does | then |
|---|---|---|
| idle | clears the store, and begins a session for a spare slot | uploading |
| uploading | appends | uploading |
| uploading | finishes, and stages what was committed | idle |
| uploading | fails to finish, or gives up | idle |

What is the caller's to see to is the discipline of the uploads. A slot is spare if the boot chain
does not fall back to it (`AtomicOta.System.Spare`); a session is begun for a spare slot, while no
activation is recorded, and its artifact has to fit the partition. The image that runs may be in a
spare slot: it was rejected then.

The power may go at any moment. A write to a partition that is cut leaves anything from the
durable offset on, and an erase of an entry whatever the medium of the bootloader leaves of it
(`AtomicOta.System.ApplianceOp.Torn`); a session does not survive.
-/

namespace AtomicOta.System

open Artifact Esp Otadata Transaction

/-! ### Backends -/

/-- **One way of writing to a partition**: it touches nothing before the durable offset and
nothing outside the partition, and the bytes it reports are there. -/
structure Bootloader.Lands (B : Bootloader) (slot : UInt8) {ε : Type}
    (put : ℕ → List UInt8 → Memory → Except ε ℕ × Memory) : Prop where
  frame : ∀ durable pending mem i, ¬(B.InSlot slot i ∧ (B.start slot).toNat + durable ≤ i) →
    (put durable pending mem).2 i = mem i
  stored : ∀ durable pending mem k, k ≤ pending.length →
    (put durable pending mem).1 = .ok (durable + k) →
      window (put durable pending mem).2 ((B.start slot).toNat + durable) k = pending.take k

/-- A backend of a slot. It may fail, and report what it likes. -/
structure Bootloader.Backs (B : Bootloader) (slot : UInt8) {ε : Type}
    (S : ArtifactStorage Memory ε) : Prop where
  write : B.Lands slot S.write
  finish : B.Lands slot S.finish

/-! ### The device -/

section Appliance

variable (TxId ArtifactId : Type)

/-- A device: the flash of the boot chain, the transaction store and the memory. -/
structure Appliance where
  station : Station TxId ArtifactId
  memory : Memory

/-- A command: one of the station's, or one that fills a partition from an offset on. -/
inductive ApplianceOp where
  | station (op : StationOp TxId ArtifactId)
  | fill (slot : UInt8) (offset : ℕ) (content : Memory)

variable {TxId ArtifactId}

/-- The memory, with another content in a partition from an offset on. -/
def Bootloader.refill (B : Bootloader) (slot : UInt8) (offset : ℕ) (content mem : Memory) :
    Memory := fun i =>
  if B.InSlot slot i ∧ (B.start slot).toNat + offset ≤ i then content i else mem i

namespace ApplianceOp

/-- The complete effect of a command. -/
def apply (B : Bootloader) :
    ApplianceOp TxId ArtifactId → Appliance TxId ArtifactId → Appliance TxId ArtifactId
  | .station op, a => { a with station := stationDevice.apply op a.station }
  | .fill slot offset content, a => { a with memory := B.refill slot offset content a.memory }

/-- What a command that is cut may leave: of an entry, what the medium may leave of it, and of a
partition that was being filled, anything. -/
inductive Torn (B : Bootloader) : ApplianceOp TxId ArtifactId → Appliance TxId ArtifactId →
    Appliance TxId ArtifactId → Prop
  | flash {c : Cmd} {a : Appliance TxId ArtifactId} {chip : Chip}
    (h : B.medium.device.Torn c a.station.chip chip) :
    Torn B (.station (.flash c)) a { a with station := { a.station with chip } }
  | publish {r : Option (SlotRecord TxId ArtifactId)} {a : Appliance TxId ArtifactId}
    {st : Station TxId ArtifactId} (h : stationDevice.Torn (.publish r) a.station st) :
    Torn B (.station (.publish r)) a { a with station := st }
  | fill (slot : UInt8) (offset : ℕ) (content left : Memory) (a : Appliance TxId ArtifactId) :
    Torn B (.fill slot offset content) a { a with memory := B.refill slot offset left a.memory }

end ApplianceOp

/-- The device. -/
def applianceDevice (B : Bootloader) :
    Crash.Device (Appliance TxId ArtifactId) (ApplianceOp TxId ArtifactId) where
  apply := ApplianceOp.apply B
  Torn := ApplianceOp.Torn B

/-! ### The agent -/

/-- What the agent is at. -/
inductive Mode where
  | agent (phase : Phase)
  | uploading (image : Running) (slot : UInt8) (session : WriteSession)

/-- **A slot that may be written**: it is not the one that the boot chain falls back to. -/
structure Spare (B : Bootloader) (a : Appliance TxId ArtifactId) (slot : UInt8) : Prop where
  lt : slot < B.slotCount
  ne_fallback : ∀ p e, IsHighest .valid (view a.station.chip.flash) p e →
    slotOf e.seq B.slotCount ≠ slot

/-- The jobs. -/
inductive ApplianceStart [DecidableEq TxId] (B : Bootloader) :
    Mode → Appliance TxId ArtifactId → List (ApplianceOp TxId ArtifactId) → Mode → Prop
  /-- What the station does, but for its staging; a boot judges the images in the memory. -/
  | station {m m' : Phase} (a : Appliance TxId ArtifactId) {ops : List (StationOp TxId ArtifactId)}
    (h : StationStart B.slotCount (fun _ ok => ok = B.imageOk a.memory) m a.station ops m')
    (hstage : ∀ image, m = .idle image → m' ≠ .idle image) :
    ApplianceStart B (.agent m) a (ops.map .station) (.agent m')
  | begin (image : Running) (a : Appliance TxId ArtifactId) (slot : UInt8) (total : ℕ)
    (expectedDigest : Digest) (hstore : ∀ r, a.station.store = some r → r.state = .staged)
    (hspare : Spare B a slot) (htotal : total ≤ (B.size slot).toNat) :
    ApplianceStart B (.agent (.idle image)) a [.station (.publish none)]
      (.uploading image slot (.start total expectedDigest))
  | append (image : Running) (a : Appliance TxId ArtifactId) (slot : UInt8) (w : WriteSession)
    (data : List UInt8) {ε : Type} (S : ArtifactStorage Memory ε) (hS : B.Backs slot S) :
    ApplianceStart B (.uploading image slot w) a
      [.fill slot w.durable (w.append S data a.memory).2.2]
      (.uploading image slot (w.append S data a.memory).2.1)
  /-- What was committed is staged, under the identities of the caller. -/
  | finish (image : Running) (a : Appliance TxId ArtifactId) (slot : UInt8) (w : WriteSession)
    (id : TxId) (artifactId : ArtifactId) {ε : Type} (S : ArtifactStorage Memory ε)
    (hS : B.Backs slot S) {c : Committed} (h : (w.finish S B.sha256 a.memory).1 = .ok c) :
    ApplianceStart B (.uploading image slot w) a
      [.fill slot w.durable (w.finish S B.sha256 a.memory).2,
        .station (.publish (some (.staged id ⟨artifactId, c.size, c.digest, slot⟩)))]
      (.agent (.idle image))
  | fail (image : Running) (a : Appliance TxId ArtifactId) (slot : UInt8) (w : WriteSession)
    {ε : Type} (S : ArtifactStorage Memory ε) (hS : B.Backs slot S) {e : Error ε}
    (h : (w.finish S B.sha256 a.memory).1 = .error e) :
    ApplianceStart B (.uploading image slot w) a
      [.fill slot w.durable (w.finish S B.sha256 a.memory).2] (.agent (.idle image))
  | abandon (image : Running) (a : Appliance TxId ArtifactId) (slot : UInt8) (w : WriteSession) :
    ApplianceStart B (.uploading image slot w) a [] (.agent (.idle image))

/-- The machine. -/
def appliance [DecidableEq TxId] (B : Bootloader) :
    Crash.Machine (Appliance TxId ArtifactId) (ApplianceOp TxId ArtifactId) Mode where
  device := applianceDevice B
  Start := ApplianceStart B
  off := .agent .off

/-- A device as it leaves the factory: a blank flash, nothing staged, and a memory. -/
def Appliance.factory (mem : Memory) : Appliance TxId ArtifactId := ⟨.blank, mem⟩

/-- A configuration that a device can get to: it left the factory with an image in slot 0. -/
def Reachable [DecidableEq TxId] (B : Bootloader)
    (c : Crash.Config (Appliance TxId ArtifactId) (ApplianceOp TxId ArtifactId) Mode) : Prop :=
  ∃ mem, B.Bootable mem 0 ∧ (appliance B).Reaches ⟨.factory mem, [], .agent .off⟩ c

/-! ### Backends and sessions -/

variable {B : Bootloader} {slot : UInt8} {mem : Memory}

theorem refill_of_not_mem {offset : ℕ} {content : Memory} {i : ℕ}
    (h : ¬(B.InSlot slot i ∧ (B.start slot).toNat + offset ≤ i)) :
    B.refill slot offset content mem i = mem i :=
  if_neg h

/-- A memory filled with itself. -/
theorem refill_self {offset : ℕ} : B.refill slot offset mem mem = mem := by
  funext i
  exact ite_self _

/-- Filling a partition leaves the others alone. -/
theorem refill_of_other {offset : ℕ} {content : Memory} {t : UInt8} {i : ℕ} (hi : B.InSlot t i)
    (hslot : slot < B.slotCount) (ht : t < B.slotCount) (hne : slot ≠ t) :
    B.refill slot offset content mem i = mem i :=
  refill_of_not_mem fun h => hne (h.1.unique hi hslot ht)

/-- What a backend leaves is a filling. -/
theorem Bootloader.Lands.refill_eq {ε : Type} {put : ℕ → List UInt8 → Memory → Except ε ℕ × Memory}
    (h : B.Lands slot put) (durable : ℕ) (pending : List UInt8) :
    B.refill slot durable (put durable pending mem).2 mem = (put durable pending mem).2 := by
  funext i
  by_cases hi : B.InSlot slot i ∧ (B.start slot).toNat + durable ≤ i
  · exact if_pos hi
  · rw [refill_of_not_mem hi, h.frame _ _ _ _ hi]

end Appliance

end AtomicOta.System
