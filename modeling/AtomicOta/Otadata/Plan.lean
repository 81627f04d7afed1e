import AtomicOta.Otadata.Flash
import Mathlib.Data.List.Sort

/-!
# The boot decision and the agent's writes

The four functions that look at the two sectors: `AtomicOta.Otadata.planBoot`, which
says what the bootloader must write and boot, and the agent's
`AtomicOta.Otadata.activate`, `AtomicOta.Otadata.confirm` and `AtomicOta.Otadata.reject`. They
only *decide*; the flash is `AtomicOta.Otadata.Flash`'s.

The caller's `image_ok` is a closure, with a state of its own, and the decision is
`AtomicOta.Otadata.planBootWith` for one in any monad. A closure may answer the same slot
differently from one call to the next; `AtomicOta.Otadata.planBoot` is the decision for one
that is given by its answers: `imageOk k slot` is the answer to the `k`-th call of one boot
decision, if that call is about `slot`. A fixed verdict is one that ignores `k`.
-/

namespace AtomicOta

namespace Otadata

/-- How much an entry's state can be believed. -/
inductive Trust where
  /-- Confirmed by a running image, or the first-boot seed. -/
  | valid
  /-- Booted once and not yet confirmed. -/
  | pending
  /-- Rejected. -/
  | dead
  /-- A candidate that has never run. -/
  | unproven
  deriving DecidableEq, Repr

/-- `Trust::of`. -/
def Trust.of (state : UInt32) : Trust :=
  if state = State.valid then .valid
  else if state = State.pendingVerify then .pending
  else if state = State.new then .unproven
  else .dead

inductive Class where
  | blank
  | corrupt
  | ok (seq : UInt32) (trust : Trust)
  deriving DecidableEq, Repr

def classify (raw : Raw) : Class :=
  match decode raw with
  | .blank => .blank
  | .corrupt => .corrupt
  | .ok e => .ok e.seq (Trust.of e.state)

/-- Which slot a sequence number selects. -/
def slotOf (seq : UInt32) (slotCount : UInt8) : UInt8 :=
  ((seq - 1) % slotCount.toUInt32).toUInt8

/-- Why the bootloader stopped instead of booting. -/
inductive Halt where
  /-- First boot and the slot-0 image is not bootable either. -/
  | noImage
  /-- Entries exist but every one is rejected or points at an unbootable image. -/
  | noUsableEntry
  deriving DecidableEq, Repr

inductive Boot where
  /-- Boot this slot, after applying the plan's writes. -/
  | slot (slot : UInt8) (sector : Sector) (seq : UInt32)
  | halt (h : Halt)
  deriving DecidableEq, Repr

/-- What the bootloader must do this boot: apply `writes` in order, then
`boot`. -/
structure Plan where
  boot : Boot
  writes : List Write
  deriving DecidableEq, Repr

/-- The answers of `image_ok` during one boot decision, by call and slot. -/
abbrev ImageOk : Type := ℕ → UInt8 → Bool

/-! ### The boot decision -/

/-- An entry that may be booted. -/
structure Candidate where
  sector : Sector
  seq : UInt32
  trust : Trust
  deriving DecidableEq, Repr

/-- What the first loop of `plan_boot` accumulates. -/
structure Scan where
  writes : List Write
  candidates : Sector → Option Candidate
  rejectedAny : Bool

/-- The body of the first loop: a pending entry is aborted, a valid or unproven
one is a candidate. -/
def scanSector (acc : Scan) (sector : Sector) (c : Class) : Scan :=
  match c with
  | .ok seq .pending =>
    { acc with writes := acc.writes ++ [⟨sector, ⟨seq, State.aborted⟩⟩], rejectedAny := true }
  | .ok _ .dead => { acc with rejectedAny := true }
  | .ok seq .valid =>
    { acc with candidates := Function.update acc.candidates sector (some ⟨sector, seq, .valid⟩) }
  | .ok seq .unproven =>
    { acc with candidates := Function.update acc.candidates sector (some ⟨sector, seq, .unproven⟩) }
  | .blank => acc
  | .corrupt => acc

/-- The first loop. -/
def scan (cls : Sector → Class) : Scan :=
  (List.finRange sectorCount).foldl (fun acc sector => scanSector acc sector (cls sector))
    ⟨[], fun _ => none, false⟩

/-- The key of the sort, `Reverse(Option<u32>)`: `a` goes no later than `b`. -/
def keyLe (a b : Option Candidate) : Bool :=
  match a, b with
  | _, none => true
  | none, some _ => false
  | some a, some b => b.seq ≤ a.seq

/-- The candidates, highest sequence first. The sort of the source does not say
what becomes of equal keys; on two elements it is an insertion, which leaves them in place. -/
def order (candidates : Sector → Option Candidate) : List Candidate :=
  (List.insertionSort (fun a b => keyLe a b = true) [candidates 0, candidates 1]).reduceOption

section Closure

variable {m : Type → Type} [Monad m]

/-- The second loop: `inl` is its early return, `inr` the writes and the flag it
leaves when no candidate is bootable. -/
def bootFirst (slotCount : UInt8) (imageOk : UInt8 → m Bool) :
    List Candidate → List Write → Bool → m (Plan ⊕ (List Write × Bool))
  | [], writes, rejectedAny => pure (.inr (writes, rejectedAny))
  | c :: cs, writes, _ => do
    let slot := slotOf c.seq slotCount
    let ok ← imageOk slot
    if ok = false then
      bootFirst slotCount imageOk cs (writes ++ [⟨c.sector, ⟨c.seq, State.invalid⟩⟩]) true
    else if c.trust = .unproven then
      pure (.inl ⟨.slot slot c.sector c.seq,
        writes ++ [⟨c.sector, ⟨c.seq, State.pendingVerify⟩⟩]⟩)
    else
      pure (.inl ⟨.slot slot c.sector c.seq, writes⟩)

/-- Whether a class says that no entry was ever accepted there. -/
def Class.isNone : Class → Bool
  | .blank => true
  | .corrupt => true
  | .ok _ _ => false

/-- `plan_boot`, with the caller's closure. -/
def planBootWith (otadata : Flash) (slotCount : UInt8) (imageOk : UInt8 → m Bool) : m Plan := do
  let cls := fun sector => classify (otadata sector)
  let s := scan cls
  match ← bootFirst slotCount imageOk (order s.candidates) s.writes s.rejectedAny with
  | .inl plan => pure plan
  | .inr (writes, rejectedAny) =>
    if !rejectedAny && (List.finRange sectorCount).all fun sector => (cls sector).isNone then
      let ok ← imageOk 0
      if ok then
        pure ⟨.slot 0 0 1, writes ++ [⟨0, ⟨1, State.valid⟩⟩]⟩
      else
        pure ⟨.halt .noImage, writes⟩
    else
      pure ⟨.halt .noUsableEntry, writes⟩

end Closure

/-- The closure that gives the answers of a boot decision, and counts its calls. -/
def counting (imageOk : ImageOk) (slot : UInt8) : StateM ℕ Bool := fun k =>
  (imageOk k slot, k + 1)

/-- The bootloader's decision, from the two `otadata` entries. -/
def planBoot (otadata : Flash) (slotCount : UInt8) (imageOk : ImageOk) : Plan :=
  (planBootWith otadata slotCount (counting imageOk) 0).1

/-! ### The agent -/

/-- Why `activate` refused. -/
inductive ActivateError where
  /-- There is no known-good image to fall back to. -/
  | noValidBase
  /-- The sequence number space is exhausted. -/
  | sequenceExhausted
  deriving DecidableEq, Repr

/-- One turn of the two loops that look for the entry of the highest sequence
among those that can be believed so much: the first of two equal ones stays. -/
def keepBest (t : Trust) (best : Option (Sector × UInt32)) (sector : Sector) :
    Class → Option (Sector × UInt32)
  | .ok seq trust =>
    if trust = t ∧ best.all (fun b => b.2 < seq) = true then some (sector, seq) else best
  | _ => best

def bestOf (t : Trust) (cls : Sector → Class) : Option (Sector × UInt32) :=
  (List.finRange sectorCount).foldl (fun best sector => keepBest t best sector (cls sector)) none

/-- The highest sequence present. -/
def maxSeq (cls : Sector → Class) : UInt32 :=
  (List.finRange sectorCount).foldl
    (fun acc sector => match cls sector with
      | .ok seq _ => max acc seq
      | _ => acc) 0

/-- The search of `activate`: the first sequence from `seq` on that selects the
target. -/
def searchSeq (slotCount target : UInt8) (seq : UInt32) : Except ActivateError UInt32 :=
  if slotOf seq slotCount = target then .ok seq
  else
    match _h : checkedAdd seq 1 with
    | none => .error .sequenceExhausted
    | some next => searchSeq slotCount target next
termination_by 2 ^ 32 - seq.toNat
decreasing_by
  unfold checkedAdd at _h
  split_ifs at _h with hlt
  cases _h
  have hone : (1 : UInt32).toNat = 1 := rfl
  rw [UInt32.toNat_add, hone, Nat.mod_eq_of_lt (by omega)]
  omega

/-- The agent's `activate`: point the boot at the target slot, as `New`, in the
sector that does not hold the last valid entry. -/
def activate (otadata : Flash) (slotCount target : UInt8) : Except ActivateError Write :=
  let cls := fun sector => classify (otadata sector)
  match bestOf .valid cls with
  | none => .error .noValidBase
  | some (protectedSector, _) =>
    match checkedAdd (maxSeq cls) 1 with
    | none => .error .sequenceExhausted
    | some seq =>
      match searchSeq slotCount target seq with
      | .error e => .error e
      | .ok seq => .ok ⟨1 - protectedSector, ⟨seq, State.new⟩⟩

/-- The pending entry of the highest sequence. -/
def pending (otadata : Flash) : Option (Sector × UInt32) :=
  bestOf .pending fun sector => classify (otadata sector)

/-- The agent confirming the image it runs: the pending entry becomes valid. -/
def confirm (otadata : Flash) : Option Write :=
  (pending otadata).map fun (sector, seq) => ⟨sector, ⟨seq, State.valid⟩⟩

/-- The agent rejecting the image it runs: the pending entry becomes invalid. -/
def reject (otadata : Flash) : Option Write :=
  (pending otadata).map fun (sector, seq) => ⟨sector, ⟨seq, State.invalid⟩⟩

end Otadata

end AtomicOta
