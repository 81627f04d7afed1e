import AtomicOta.Otadata.Chain
import AtomicOta.Transaction.Record

/-!
# The transaction above the boot chain

The two persistent records of a device together: the `otadata` flash of
`AtomicOta.Otadata.Chain`, written command by command, and the transaction store of
`AtomicOta.Transaction.Record`, which publishes in one piece. They are written by separate
steps, and the power may go inside either and between any two.

The machine (`AtomicOta.Transaction.station`) is the agent's program. What it does next is
its phase.

| phase | does | then |
|---|---|---|
| off | boots | booted, or off |
| booted | reconciles | what the answer says |
| awaiting | confirms, or rejects | finishing, or clearing |
| unaccounted | rejects | idle |
| finishing, clearing | clears the store | idle |
| idle | stages a transaction into another slot, or records its activation | idle, or activating |
| activating | asks the boot chain for it | idle |

The history of the flash is forgotten each time an activation is recorded, so that it is
the history *since* then: an activation or a confirmation found there is this
transaction's.
-/

namespace AtomicOta.Transaction

open Otadata

section Station

variable (TxId ArtifactId : Type)

/-- A record whose target is a slot. -/
abbrev SlotRecord : Type := TransactionRecord TxId ArtifactId UInt8

/-- A device: the flash of the boot chain, with its history since an activation was last
recorded, and the transaction store. -/
structure Station where
  chip : Chip
  store : Option (SlotRecord TxId ArtifactId)

/-- A command of the agent or the bootloader. -/
inductive StationOp where
  | flash (c : Cmd)
  | publish (r : Option (SlotRecord TxId ArtifactId))

/-- The store: publishing never fails, and takes effect in one piece. -/
def memory : TransactionMetadata (Option (SlotRecord TxId ArtifactId)) Empty
    (SlotRecord TxId ArtifactId) where
  load s := (.ok s, s)
  commit r _ := (.ok (), r)

variable {TxId ArtifactId}

/-- The slot a record of one artifact is for. -/
def TransactionRecord.target {Target : Type} (r : TransactionRecord TxId ArtifactId Target) :
    Option Target :=
  r.artifacts.head?.map fun a => a.target

/-- The store holds an activation of a slot. -/
def Station.Activating (st : Station TxId ArtifactId) (slot : UInt8) : Prop :=
  ∃ r, st.store = some r ∧ r.state = .activating ∧ r.target = some slot

namespace StationOp

/-- The complete effect of a command. -/
def apply : StationOp TxId ArtifactId → Station TxId ArtifactId → Station TxId ArtifactId
  | .flash c, st => { st with chip := chipDevice.apply c st.chip }
  | .publish r, st =>
    if r.any (fun r => r.state = .activating) then ⟨⟨st.chip.flash, []⟩, r⟩ else ⟨st.chip, r⟩

/-- What a command that is cut may leave: the store publishes in one piece. -/
inductive Torn : StationOp TxId ArtifactId → Station TxId ArtifactId → Station TxId ArtifactId →
    Prop
  | flash {c : Cmd} {st : Station TxId ArtifactId} {chip : Chip}
    (h : chipDevice.Torn c st.chip chip) : Torn (.flash c) st { st with chip }
  | unpublished (r : Option (SlotRecord TxId ArtifactId)) (st : Station TxId ArtifactId) :
    Torn (.publish r) st st
  | published (r : Option (SlotRecord TxId ArtifactId)) (st : Station TxId ArtifactId) :
    Torn (.publish r) st (StationOp.apply (.publish r) st)

end StationOp

/-- The device. -/
def stationDevice : Crash.Device (Station TxId ArtifactId) (StationOp TxId ArtifactId) where
  apply := StationOp.apply
  Torn := StationOp.Torn

/-- The commands of writes. -/
def flashJob (rs : List Request) : List (StationOp TxId ArtifactId) :=
  (commands rs).map .flash

/-! ### The agent -/

/-- What the agent does next. -/
inductive Phase where
  | off
  | booted (image : Running)
  | awaiting (image : Running)
  | unaccounted (image : Running)
  | finishing (image : Running)
  | clearing (image : Running)
  | idle (image : Running)
  | activating (image : Running)
  deriving DecidableEq, Repr

/-- The phase after a boot decision is carried out. -/
def Phase.ofBoot (b : Boot) : Phase := b.running.elim .off .booted

/-- The phase after an answer. -/
def Phase.ofAction (image : Running) : Action → Phase
  | .nothing => .idle image
  | .awaitConfirmation => .awaiting image
  | .rollbackUnaccounted => .unaccounted image
  | .finishInterruptedActivation => .finishing image
  | .clearStale => .clearing image
  | .keepStaged => .idle image

/-- What the boot chain reports: whether the entry just booted is pending or valid now. -/
def Station.outcome (st : Station TxId ArtifactId) (image : Running) : BackendOutcome :=
  match decode (st.chip.flash image.sector) with
  | .ok e =>
    if e = ⟨image.seq, State.pendingVerify⟩ then .pendingConfirmation
    else if e = ⟨image.seq, State.valid⟩ then .confirmed
    else .other
  | _ => .other

/-- What the agent decides after a boot. -/
def Station.answer (st : Station TxId ArtifactId) (image : Running) : Action :=
  reconcile (st.store.map (·.state)) (st.outcome image)
    (some (st.store.any fun r => r.target = some image.slot))

/-- The jobs. What is assumed of the answers about images at a boot is a parameter. -/
inductive StationStart [DecidableEq TxId] (n : UInt8)
    (mayBoot : Station TxId ArtifactId → ImageOk → Prop) :
    Phase → Station TxId ArtifactId → List (StationOp TxId ArtifactId) → Phase → Prop
  | boot (m : Phase) (st : Station TxId ArtifactId) (ok : ImageOk) (hok : mayBoot st ok) :
    StationStart n mayBoot m st (flashJob (issue .boot (planBoot st.chip.flash n ok).writes))
      (.ofBoot (planBoot st.chip.flash n ok).boot)
  | reconcile (image : Running) (st : Station TxId ArtifactId) :
    StationStart n mayBoot (.booted image) st [] (.ofAction image (st.answer image))
  | confirm (image : Running) (st : Station TxId ArtifactId) :
    StationStart n mayBoot (.awaiting image) st
      (flashJob (issue (.confirm (some image)) (Otadata.confirm st.chip.flash).toList))
      (.finishing image)
  | reject (image : Running) (st : Station TxId ArtifactId) :
    StationStart n mayBoot (.awaiting image) st
      (flashJob (issue .reject (Otadata.reject st.chip.flash).toList)) (.clearing image)
  | rollback (image : Running) (st : Station TxId ArtifactId) :
    StationStart n mayBoot (.unaccounted image) st
      (flashJob (issue .reject (Otadata.reject st.chip.flash).toList)) (.idle image)
  | finish (image : Running) (st : Station TxId ArtifactId) :
    StationStart n mayBoot (.finishing image) st
      [.publish (finish (memory TxId ArtifactId) st.store).2] (.idle image)
  | clear (image : Running) (st : Station TxId ArtifactId) :
    StationStart n mayBoot (.clearing image) st
      [.publish (clearStale (memory TxId ArtifactId) st.store).2] (.idle image)
  /-- The artifact goes into another slot than the running one. -/
  | stage (image : Running) (st : Station TxId ArtifactId) (id : TxId)
    (artifact : ArtifactRecord ArtifactId UInt8) (h : artifact.target ≠ image.slot) :
    StationStart n mayBoot (.idle image) st [.publish (some (.staged id artifact))] (.idle image)
  /-- The intent to activate is recorded. -/
  | activate (image : Running) (st : Station TxId ArtifactId) (expectedId : TxId)
    {record : SlotRecord TxId ArtifactId}
    (h : (activate (memory TxId ArtifactId) expectedId st.store).1 = .ok record) :
    StationStart n mayBoot (.idle image) st
      [.publish (activate (memory TxId ArtifactId) expectedId st.store).2] (.activating image)
  /-- Then the boot chain is asked for it. -/
  | switch (image : Running) (st : Station TxId ArtifactId) {slot : UInt8} {w : Write}
    (hslot : st.Activating slot) (h : Otadata.activate st.chip.flash n slot = .ok w) :
    StationStart n mayBoot (.activating image) st (flashJob (issue .activate [w])) (.idle image)
  /-- If it refuses, the record is put back for a later attempt. -/
  | revert (image : Running) (st : Station TxId ArtifactId) {slot : UInt8} {e : ActivateError}
    (hslot : st.Activating slot) (h : Otadata.activate st.chip.flash n slot = .error e) :
    StationStart n mayBoot (.activating image) st
      [.publish (st.store.map fun r => r.withState .staged)] (.idle image)

/-- The agent's program on the device. -/
def station [DecidableEq TxId] (n : UInt8) (mayBoot : Station TxId ArtifactId → ImageOk → Prop) :
    Crash.Machine (Station TxId ArtifactId) (StationOp TxId ArtifactId) Phase where
  device := stationDevice
  Start := StationStart n mayBoot
  off := .off

/-- A blank flash and nothing staged. -/
def Station.blank : Station TxId ArtifactId := ⟨Chip.blank, none⟩

/-! ### Jobs on the flash -/

section Jobs

variable {st : Station TxId ArtifactId} {rs : List Request}

/-- Writes leave the store alone. -/
theorem run_flashJob (rs : List Request) (st : Station TxId ArtifactId) :
    stationDevice.run (flashJob rs) st = ⟨chipDevice.run (commands rs) st.chip, st.store⟩ := by
  unfold flashJob
  generalize commands rs = cs
  induction cs generalizing st with
  | nil => rfl
  | cons c cs ih => exact ih _

/-- What holds at every moment of a job on the ledger holds at every moment of its
commands. -/
theorem safe_flashJob {C : Ledger → Prop} (hs : Sound Set.univ st.chip.flash)
    (h : ledgerDevice.Safe (fun _ _ => True) C rs st.chip.read) :
    stationDevice.Safe (fun _ _ => True)
      (fun st => Sound Set.univ st.chip.flash ∧ C st.chip.read) (flashJob rs) st := by
  have hchip : chipDevice.Safe (fun _ _ => True)
      (fun s => Sound Set.univ s.flash ∧ C s.read) (commands rs) st.chip :=
    safe_commands (G := fun _ _ => True) (fun _ _ => Set.mem_univ _) hs h
  -- the store stands still, so every cut of the device is a cut of the flash
  have htorn : ∀ (c : Cmd) (s : Chip) (st' : Station TxId ArtifactId),
      stationDevice.Torn (.flash c) ⟨s, st.store⟩ st' →
      ∃ s', chipDevice.Torn c s s' ∧ (⟨s', st.store⟩ : Station TxId ArtifactId) = st' := by
    intro c s st' ht
    cases ht with
    | flash h => exact ⟨_, h, rfl⟩
  exact hchip.map (E := stationDevice) (π := fun s => ⟨s, st.store⟩) (g := .flash)
    (C := fun st => Sound Set.univ st.chip.flash ∧ C st.chip.read) (fun _ _ => rfl) htorn

end Jobs

end Station

end AtomicOta.Transaction
