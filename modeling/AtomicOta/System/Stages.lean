import AtomicOta.Otadata.Search
import AtomicOta.System.Job

/-!
# The stages of an update

What one job after another makes of a device that is in order, taken to its end. A device rests
(`AtomicOta.System.Rests`) while nothing is open beside the entry to fall back to, is armed
(`AtomicOta.System.Armed`) while an entry that has never run waits there, and tries an image
(`AtomicOta.System.Trial`) once a boot has started it:

| stage | leads to | theorem |
|---|---|---|
| the power goes, and the image to fall back to comes up | rest | `AtomicOta.System.reaches_rest` |
| what was left over is settled | rest | `AtomicOta.System.Rests.settles` |
| an image is uploaded and staged | rest | `AtomicOta.System.Rests.uploads` |
| its activation is recorded | rest | `AtomicOta.System.Rests.records` |
| the boot chain is asked for its slot | armed | `AtomicOta.System.Rests.switches` |
| the power goes, and the image comes up | trial | `AtomicOta.System.Armed.boots` |
| it is confirmed | another entry to fall back to | `AtomicOta.System.Trial.confirms` |
| the transaction is over | nothing recorded | `AtomicOta.System.Trial.adopts` |

Two boots are enough for the first one: an image on trial that is cut has had its only attempt.
What the stages need of the sequence numbers is room for one more cycle of the slots
(`AtomicOta.System.Headroom`).

Each stage says what the device is after it, so a run can be put together and looked at: that is
done at the end of the file for the two slots of `AtomicOta.System.twoSlots`.
-/

namespace AtomicOta.System

open Artifact Esp Otadata Transaction

section Stages

variable {TxId ArtifactId : Type} {B : Bootloader} {a : Appliance TxId ArtifactId} {v : Write}

/-! ### What the stages leave -/

/-- A device with updates of its flash carried out. -/
def Appliance.wrote (a : Appliance TxId ArtifactId) (rs : List Request) :
    Appliance TxId ArtifactId :=
  ⟨⟨chipDevice.run (commands rs) a.station.chip, a.station.store⟩, a.memory⟩

/-- A device once its boot is over. -/
def booted (B : Bootloader) (a : Appliance TxId ArtifactId) : Appliance TxId ArtifactId :=
  a.wrote (issue .boot (plan B a).writes)

/-- A device with nothing recorded. -/
def Appliance.cleared (a : Appliance TxId ArtifactId) : Appliance TxId ArtifactId :=
  ⟨⟨a.station.chip, none⟩, a.memory⟩

/-- A device with an artifact in a slot, and staged. -/
def Appliance.uploaded (a : Appliance TxId ArtifactId) (B : Bootloader) (slot : UInt8)
    (D : List UInt8) (id : TxId) (artifactId : ArtifactId) : Appliance TxId ArtifactId :=
  ⟨⟨a.station.chip, some (.staged id ⟨artifactId, D.length, B.sha256 D, slot⟩)⟩,
    overlay a.memory (B.start slot).toNat D⟩

/-- A device with an activation recorded. -/
def Appliance.recorded (a : Appliance TxId ArtifactId) (id : TxId)
    (artifact : ArtifactRecord ArtifactId UInt8) : Appliance TxId ArtifactId :=
  ⟨⟨⟨a.station.chip.flash, []⟩, some ⟨id, .activating, [artifact]⟩⟩, a.memory⟩

/-- A device with the image that runs confirmed. -/
def Appliance.confirmed (a : Appliance TxId ArtifactId) (image : Running) :
    Appliance TxId ArtifactId :=
  a.wrote (issue (.confirm (some image)) [⟨image.sector, ⟨image.seq, State.valid⟩⟩])

theorem read_wrote (a : Appliance TxId ArtifactId) (rs : List Request) :
    (a.wrote rs).read = ledgerDevice.run rs a.read :=
  read_run rs a.station.chip

/-- Room above the sequence numbers for one more cycle of the slots. -/
def Headroom (n : UInt8) (b : Book) : Prop :=
  ∀ s e, b s = some e → e.seq.toNat + n.toNat < 2 ^ 32 - 1

/-- The image of an entry. -/
def imageOf (n : UInt8) (v : Write) : Running := ⟨slotOf v.entry.seq n, v.sector, v.entry.seq⟩

/-- **A device at rest**: nothing is open beside the entry to fall back to. -/
structure Rests (B : Bootloader) (v : Write) (a : Appliance TxId ArtifactId) : Prop where
  sound : B.medium.Sound a.station.chip.flash
  core : Core B v a.station.store a.memory a.read
  quiet : Quiet v a.read.book
  headroom : Headroom B.slotCount a.read.book

/-- The image to fall back to, while nothing can be started or confirmed in its place. -/
structure Alone (n : UInt8) (f : Flash) (image : Running) : Prop where
  slot : image.slot = fallbackSlot f n
  valid : view f image.sector = some ⟨image.seq, State.valid⟩
  quiet : ∀ s e, view f s = some e → ¬e.Open

/-! ### Boots -/

/-- **A boot, from any moment on**: the power goes, and comes back. -/
theorem reaches_boot [DecidableEq TxId]
    (c : Crash.Config (Appliance TxId ArtifactId) (ApplianceOp TxId ArtifactId) Mode) :
    (appliance B).Reaches c
      ⟨booted B c.state, [], .agent (.ofBoot (plan B c.state).boot)⟩ := by
  obtain ⟨a, ops, m⟩ := c
  have hstart : ApplianceStart B (.agent .off) a
      ((flashJob (issue .boot (plan B a).writes)).map .station)
      (.agent (.ofBoot (plan B a).boot)) :=
    .station a (.boot .off a.station _ rfl) (fun _ hoff => by cases hoff)
  have hrun := Crash.Machine.reaches_done (M := appliance B) hstart
  have hbooted : (appliance B).device.run
      ((flashJob (issue .boot (plan B a).writes)).map .station) a = booted B a :=
    run_station_flash _ a
  rw [hbooted] at hrun
  exact .head (.cut a ops m) hrun

theorem read_booted : (booted B a).read = ledgerDevice.run (issue .boot (plan B a).writes) a.read :=
  read_wrote a _

/-- A boot beside the entry to fall back to. -/
theorem Core.reboot (hv : Core B v a.station.store a.memory a.read) :
    Core B v (booted B a).station.store (booted B a).memory (booted B a).read ∧
      Boots v B.slotCount (B.imageOk a.memory) a.read.book (booted B a).read.book
        (plan B a).boot := by
  have hp := decides_plan B a
  have hbeside := hv.guarded.beside_of_decides hv.imageOk hp
  rw [read_booted]
  exact ⟨(hv.safe (fun r hr => hbeside r.write (mem_issue.mp hr).1)
    (hv.asks_of_decides hp)).run.1, hv.guarded.boots hv.imageOk hp⟩

/-- While nothing is open beside it, a boot is for the entry to fall back to. -/
theorem Core.plan_boot (hv : Core B v a.station.store a.memory a.read)
    (hquiet : Quiet v a.read.book) :
    (plan B a).boot = .slot (slotOf v.entry.seq B.slotCount) v.sector v.entry.seq := by
  cases hv.reboot.2 with
  | fallback hboot _ => exact hboot
  | trial e he ht _ _ _ => exact absurd (.inr ht) (hquiet e he)

/-- A boot takes no new sequence number, unless it is the first. -/
theorem Core.headroom_booted (hv : Core B v a.station.store a.memory a.read)
    (h : Headroom B.slotCount a.read.book) : Headroom B.slotCount (booted B a).read.book := by
  have hp := decides_plan B a
  have hpairwise := issue_pairwise (o := .boot) hp.pairwise
  intro s e he
  rw [read_booted] at he
  by_cases hs : ∃ r ∈ issue .boot (plan B a).writes, r.write.sector = s
  · obtain ⟨r, hr, rfl⟩ := hs
    rw [book_run_of_mem hpairwise hr, admitted_eq_some] at he
    obtain ⟨-, rfl⟩ := he
    cases hp.reason (mem_issue.mp hr).1 with
    | abort e' he' _ hwe => exact hwe ▸ h _ e' he'
    | invalid e' he' _ _ hwe => exact hwe ▸ h _ e' he'
    | mark e' he' _ _ hwe => exact hwe ▸ h _ e' he'
    | seed hnone _ _ => exact absurd hv.guarded.entry (ne_some_of_none hnone)
  · rw [book_run_of_ne fun r hr hsector => hs ⟨r, hr, hsector⟩] at he
    exact h s e he

section Rest

variable [DecidableEq TxId]
  {c : Crash.Config (Appliance TxId ArtifactId) (ApplianceOp TxId ArtifactId) Mode}

/-- The first boot seeds slot 0. -/
theorem Fresh.reaches_rest (hs : B.medium.Sound c.state.station.chip.flash)
    (h : Fresh B c.state.station.store c.state.memory c.state.read) :
    (appliance B).Reaches c ⟨booted B c.state, [], .agent (.booted ⟨0, 0, 1⟩)⟩ ∧
      Rests B ⟨0, ⟨1, State.valid⟩⟩ (booted B c.state) := by
  have hreach := reaches_boot (B := B) c
  rcases decides_of_none (decides_plan B c.state) h.blank with ⟨hplan, -⟩ | ⟨-, hno⟩
  · obtain ⟨hcore, hquiet⟩ := h.seed
    have hread : (booted B c.state).read = c.state.read.commit seedRequest := by
      rw [read_booted, hplan]
      rfl
    rw [hplan] at hreach
    refine ⟨hreach, hs.run _, ?_, ?_, ?_⟩
    · rw [hread]
      exact hcore
    · rw [hread]
      exact hquiet
    · rintro s e he
      rw [hread] at he
      rcases Ledger.book_commit_cases he with ⟨-, he⟩ | ⟨-, rfl, -⟩
      · exact absurd he (ne_some_of_none h.blank)
      · have hn := B.slotCount.toNat_lt
        change 1 + B.slotCount.toNat < 2 ^ 32 - 1
        omega
  · exact absurd h.bootable (B.imageOk_eq_false.mp hno)

/-- Any other one starts the image to fall back to, or the one beside it; and that one the next
boot does not start again. -/
theorem Core.reaches_rest (hs : B.medium.Sound c.state.station.chip.flash)
    (hv : Core B v c.state.station.store c.state.memory c.state.read)
    (hroom : Headroom B.slotCount c.state.read.book) :
    ∃ a, (appliance B).Reaches c ⟨a, [], .agent (.booted (imageOf B.slotCount v))⟩ ∧
      Rests B v a := by
  have hreach := reaches_boot (B := B) c
  obtain ⟨hcore, hboots⟩ := hv.reboot
  have hheadroom := hv.headroom_booted hroom
  cases hboots with
  | fallback hboot hquiet =>
    rw [hboot] at hreach
    exact ⟨_, hreach, ⟨hs.run _, hcore, hquiet, hheadroom⟩⟩
  | trial e he ht hboot _ hmark =>
    obtain ⟨hcore₂, hboots₂⟩ := hcore.reboot
    have hreach₂ := reaches_boot (B := B)
      ⟨booted B c.state, [], .agent (.ofBoot (plan B c.state).boot)⟩
    cases hboots₂ with
    | fallback hboot₂ hquiet₂ =>
      rw [hboot₂] at hreach₂
      exact ⟨_, hreach.trans hreach₂, ⟨(hs.run _).run _, hcore₂, hquiet₂,
        hcore.headroom_booted hheadroom⟩⟩
    | trial e' he' ht' _ _ _ =>
      -- it is pending by now
      rw [hmark, admitted_eq_some] at he'
      rw [he'.2] at ht'
      exact absurd ht' (by simp)

/-- **A device comes to rest in two boots**, wherever the run is: with the image to fall back to
running. -/
theorem reaches_rest
    (c : Crash.Config (Appliance TxId ArtifactId) (ApplianceOp TxId ArtifactId) Mode)
    (h : Kept B c.state) (hroom : Headroom B.slotCount c.state.read.book) :
    ∃ v a, (appliance B).Reaches c ⟨a, [], .agent (.booted (imageOf B.slotCount v))⟩ ∧
      Rests B v a ∧ fallbackSlot c.state.station.chip.flash B.slotCount =
        slotOf v.entry.seq B.slotCount := by
  obtain ⟨hs, hfresh | ⟨v, hv⟩⟩ := h
  · obtain ⟨hreach, hrests⟩ := hfresh.reaches_rest hs
    refine ⟨⟨0, ⟨1, State.valid⟩⟩, _, ?_, hrests, ?_⟩
    · rwa [imageOf, slotOf_one]
    · rw [slotOf_one]
      exact fallbackSlot_of_none hfresh.blank
  · obtain ⟨a, hreach, hrests⟩ := hv.reaches_rest hs hroom
    have hguarded : Guarded v (view c.state.station.chip.flash) := hv.guarded
    exact ⟨v, a, hreach, hrests, hguarded.fallbackSlot_eq⟩

end Rest

/-! ### Settling what was left over -/

/-- The image to fall back to is alone while nothing is open beside it. -/
theorem Runs.alone {image : Running} (hv : Core B v a.station.store a.memory a.read)
    (h : Runs B.slotCount v image) (hquiet : Quiet v a.read.book) :
    Alone B.slotCount a.station.chip.flash image := by
  have hguarded : Guarded v (view a.station.chip.flash) := hv.guarded
  have hstate := Entry.trust_eq_valid.mp hguarded.valid
  rw [Runs] at h
  subst h
  refine ⟨hguarded.fallbackSlot_eq.symm, ?_, fun s e he => ?_⟩
  · rw [← hstate]
    exact hguarded.entry
  · by_cases hs : s = v.sector
    · subst hs
      rw [hguarded.entry] at he
      rw [← Option.some.inj he, Entry.Open, hguarded.valid]
      decide
    · exact hquiet e (eq_other_of_ne hs ▸ he)

/-- A job of the station, from beginning to end. -/
theorem reaches_station [DecidableEq TxId] {m m' : Phase} {ops : List (StationOp TxId ArtifactId)}
    (h : StationStart B.slotCount (fun _ ok => ok = B.imageOk a.memory) m a.station ops m')
    (hstage : ∀ image, m = .idle image → m' ≠ .idle image) {st : Station TxId ArtifactId}
    (hst : stationDevice.run ops a.station = st) :
    (appliance B).Reaches ⟨a, [], .agent m⟩ ⟨⟨st, a.memory⟩, [], .agent m'⟩ := by
  have hrun := Crash.Machine.reaches_done (M := appliance B) (.station a h hstage)
  have hdone : (appliance B).device.run (ops.map .station) a = ⟨st, a.memory⟩ :=
    (run_station ops a).trans
      (congrArg (fun st => (⟨st, a.memory⟩ : Appliance TxId ArtifactId)) hst)
  rwa [hdone] at hrun

/-- At rest, with another record. -/
theorem Rests.publish (h : Rests B v a) {store : Option (SlotRecord TxId ArtifactId)}
    (hverified : ∀ r, store = some r → Verified B a.memory r)
    (hapart : ∀ r, store = some r → r.target ≠ some (slotOf v.entry.seq B.slotCount))
    (log : List Request) : Rests B v ⟨⟨⟨a.station.chip.flash, log⟩, store⟩, a.memory⟩ :=
  ⟨h.sound, h.core.publish h.quiet hverified hapart log, h.quiet, h.headroom⟩

/-- At rest, with nothing recorded. -/
theorem Rests.cleared (h : Rests B v a) : Rests B v a.cleared :=
  h.publish (fun _ hr => by cases hr) (fun _ hr => by cases hr) a.station.chip.log

/-- The agent decides what to do about what was left over. -/
theorem Rests.reconciles [DecidableEq TxId] (h : Rests B v a) :
    (appliance B).Reaches ⟨a, [], .agent (.booted (imageOf B.slotCount v))⟩
      ⟨a, [], .agent (.ofAction (imageOf B.slotCount v)
        (settle a.station.store (slotOf v.entry.seq B.slotCount)))⟩ := by
  have hruns : Runs B.slotCount v (imageOf B.slotCount v) := rfl
  have hreconcile := reaches_station (a := a) (B := B)
    (.reconcile (imageOf B.slotCount v) a.station) (fun _ hm => by cases hm)
    (rfl : stationDevice.run [] a.station = a.station)
  rwa [answer_of_runs h.core hruns] at hreconcile

/-- **What was left over is settled**: the agent comes to be idle, with nothing recorded, or with
something staged. -/
theorem Rests.settles [DecidableEq TxId] (h : Rests B v a) :
    ∃ a', (appliance B).Reaches ⟨a, [], .agent (.booted (imageOf B.slotCount v))⟩
        ⟨a', [], .agent (.idle (imageOf B.slotCount v))⟩ ∧ Rests B v a' ∧
      ∀ r, a'.station.store = some r → r.state = .staged := by
  have hreconcile := h.reconciles
  unfold settle at hreconcile
  split at hreconcile
  · rename_i hstore
    refine ⟨a, hreconcile, h, fun r hr => ?_⟩
    exact absurd (hstore.symm.trans hr) (by simp)
  · rename_i r hstore
    split at hreconcile
    · rename_i hstate
      refine ⟨a, hreconcile, h, fun r' hr' => ?_⟩
      rw [← Option.some.inj (hstore.symm.trans hr')]
      exact hstate
    · split_ifs at hreconcile
      · have hfinish := reaches_station (a := a) (B := B)
          (.finish (imageOf B.slotCount v) a.station) (fun _ hm => by cases hm) rfl
        exact ⟨_, hreconcile.trans hfinish, h.cleared, fun _ hr => by cases hr⟩
      · have hclear := reaches_station (a := a) (B := B)
          (.clear (imageOf B.slotCount v) a.station) (fun _ hm => by cases hm) rfl
        exact ⟨_, hreconcile.trans hclear, h.cleared, fun _ hr => by cases hr⟩

/-! ### An upload -/

/-- Writing bytes to a partition, if there is room for them. -/
def Bootloader.put (B : Bootloader) (slot : UInt8) (durable : ℕ) (pending : List UInt8)
    (mem : Memory) : Except Unit ℕ × Memory :=
  if durable + pending.length ≤ (B.size slot).toNat then
    (.ok (durable + pending.length), overlay mem ((B.start slot).toNat + durable) pending)
  else (.error (), mem)

theorem lands_put (B : Bootloader) (slot : UInt8) : B.Lands slot (B.put slot) where
  frame durable pending mem i hi := by
    unfold Bootloader.put
    split_ifs with hfit
    · refine if_neg fun hin => hi ⟨⟨?_, ?_⟩, hin.1⟩ <;> omega
    · rfl
  stored durable pending mem k hk hanswer := by
    unfold Bootloader.put at hanswer ⊢
    split_ifs at hanswer ⊢
    -- the report is of all there was
    obtain rfl : pending.length = k := Nat.add_left_cancel (Except.ok.inj hanswer)
    rw [List.take_length]
    exact window_overlay mem _ pending

/-- The backend that keeps nothing pending. -/
def Bootloader.direct (B : Bootloader) (slot : UInt8) : ArtifactStorage Memory Unit :=
  ⟨B.put slot, B.put slot⟩

theorem backs_direct (B : Bootloader) (slot : UInt8) : B.Backs slot (B.direct slot) :=
  ⟨lands_put B slot, lands_put B slot⟩

/-- The session once it was given everything in one piece. -/
def given (sha256 : List UInt8 → Digest) (D : List UInt8) : WriteSession :=
  ⟨D.length, sha256 D, D.length, D.length, [], D⟩

variable {slot : UInt8} {D : List UInt8}

theorem append_direct (hD : D.length ≤ (B.size slot).toNat) (mem : Memory) :
    (WriteSession.start D.length (B.sha256 D)).append (B.direct slot) D mem =
      (.ok (), given B.sha256 D, overlay mem (B.start slot).toNat D) := by
  have hsize := (B.size slot).toNat_lt
  have hput : B.put slot 0 ([] ++ D) mem =
      (.ok (0 + D.length), overlay mem (B.start slot).toNat D) := by
    rw [Bootloader.put, List.nil_append, if_pos (by omega), Nat.add_zero]
  have hmoved : (WriteSession.start D.length (B.sha256 D)).append (B.direct slot) D mem = _ :=
    WriteSession.append_eq_moved (k := D.length) (show D.length < 2 ^ 64 by omega)
      (Nat.zero_add _).le le_rfl (congrArg Prod.fst hput)
  have hsession : (WriteSession.start D.length (B.sha256 D)).moved D D.length =
      given B.sha256 D := by
    simp [WriteSession.moved, WriteSession.start, given]
  have hmem : (B.put slot 0 ([] ++ D) mem).2 = overlay mem (B.start slot).toNat D := by
    rw [hput]
  rw [hmoved, hsession]
  exact congrArg (fun mem => (Except.ok (), given B.sha256 D, mem)) hmem

theorem finish_given (S : ArtifactStorage Memory Unit) (mem : Memory) :
    (given B.sha256 D).finish S B.sha256 mem = (.ok ⟨D.length, B.sha256 D⟩, mem) := by
  simp [WriteSession.finish, WriteSession.close, given]

/-- Filling a partition with what writing an artifact to it leaves. -/
theorem refill_overlay (hD : D.length ≤ (B.size slot).toNat) (mem : Memory) :
    B.refill slot 0 (overlay mem (B.start slot).toNat D) mem =
      overlay mem (B.start slot).toNat D := by
  have hrefill := refill_append (writing_start hD (B.sha256 D) mem) (backs_direct B slot) D
  rwa [append_direct hD mem] at hrefill

/-- At rest, with nothing staged and an artifact in a spare slot. -/
theorem Rests.filled (h : Rests B v a) (hslot : slot < B.slotCount)
    (hne : slotOf v.entry.seq B.slotCount ≠ slot) (hD : D.length ≤ (B.size slot).toNat) :
    Rests B v (⟨⟨a.station.chip, none⟩, overlay a.memory (B.start slot).toNat D⟩ :
      Appliance TxId ArtifactId) := by
  have hcore := h.cleared.core.refill rfl hslot hne 0 (overlay a.memory (B.start slot).toNat D)
  change Core B v none (B.refill slot 0 _ a.memory) a.read at hcore
  rw [refill_overlay hD] at hcore
  exact ⟨h.sound, hcore, h.quiet, h.headroom⟩

/-- What was uploaded is there. -/
theorem window_uploaded (a : Appliance TxId ArtifactId) (B : Bootloader) (slot : UInt8)
    (D : List UInt8) (id : TxId) (artifactId : ArtifactId) :
    window (a.uploaded B slot D id artifactId).memory (B.start slot).toNat D.length = D :=
  window_overlay _ _ _

/-- **An upload**, from beginning to end. -/
theorem Rests.uploads [DecidableEq TxId] (h : Rests B v a)
    (hstore : ∀ r, a.station.store = some r → r.state = .staged) (hslot : slot < B.slotCount)
    (hne : slotOf v.entry.seq B.slotCount ≠ slot) (hD : D.length ≤ (B.size slot).toNat)
    (id : TxId) (artifactId : ArtifactId) :
    (appliance B).Reaches ⟨a, [], .agent (.idle (imageOf B.slotCount v))⟩
        ⟨a.uploaded B slot D id artifactId, [], .agent (.idle (imageOf B.slotCount v))⟩ ∧
      Rests B v (a.uploaded B slot D id artifactId) := by
  have hspare : Spare B a slot := by
    refine ⟨hslot, fun p e he => ?_⟩
    rw [← (h.core.guarded.isHighest.unique he).2]
    exact hne
  -- the session is begun,
  have hbegin := Crash.Machine.reaches_done (M := appliance B)
    (.begin (imageOf B.slotCount v) a slot D.length (B.sha256 D) hstore hspare hD)
  have hrun₁ : (appliance B).device.run [.station (.publish none)] a = a.cleared := rfl
  -- given everything,
  have happend := Crash.Machine.reaches_done (M := appliance B)
    (.append (imageOf B.slotCount v) a.cleared slot (.start D.length (B.sha256 D)) D
      (B.direct slot) (backs_direct B slot))
  rw [append_direct hD a.cleared.memory] at happend
  set a₂ : Appliance TxId ArtifactId :=
    ⟨⟨a.station.chip, none⟩, overlay a.memory (B.start slot).toNat D⟩ with ha₂
  have hrun₂ : (appliance B).device.run
      [.fill slot 0 (overlay a.memory (B.start slot).toNat D)] a.cleared = a₂ :=
    congrArg (fun mem => (⟨⟨a.station.chip, none⟩, mem⟩ : Appliance TxId ArtifactId))
      (refill_overlay hD a.memory)
  -- and finished
  have hok : ((given B.sha256 D).finish (B.direct slot) B.sha256 a₂.memory).1 =
      .ok ⟨D.length, B.sha256 D⟩ := by rw [finish_given]
  have hfinish := Crash.Machine.reaches_done (M := appliance B)
    (.finish (imageOf B.slotCount v) a₂ slot (given B.sha256 D) id artifactId (B.direct slot)
      (backs_direct B slot) hok)
  rw [finish_given] at hfinish
  have hrun₃ : (appliance B).device.run [.fill slot D.length a₂.memory,
      .station (.publish (some (.staged id ⟨artifactId, D.length, B.sha256 D, slot⟩)))] a₂ =
        a.uploaded B slot D id artifactId :=
    congrArg (fun mem => (⟨(a.uploaded B slot D id artifactId).station, mem⟩ :
      Appliance TxId ArtifactId)) refill_self
  refine ⟨(hbegin.trans (hrun₁ ▸ happend)).trans (hrun₂ ▸ hrun₃ ▸ hfinish), ?_⟩
  refine (h.filled hslot hne hD).publish (fun r hr => ?_) (fun r hr ht => ?_) a.station.chip.log
  · cases hr
    exact ⟨_, rfl, hslot, hD, congrArg B.sha256 (window_overlay _ _ _)⟩
  · cases hr
    exact hne (Option.some.inj ht).symm

/-! ### An activation -/

/-- **A device that is armed**: an entry that has never run waits beside the one to fall back
to. -/
structure Armed (B : Bootloader) (v : Write) (e : Entry) (a : Appliance TxId ArtifactId) :
    Prop where
  sound : B.medium.Sound a.station.chip.flash
  core : Core B v a.station.store a.memory a.read
  entry : a.read.book (other v.sector) = some e
  unproven : e.trust = .unproven

/-- The sectors of a device that is armed. -/
theorem Armed.views {e : Entry} (h : Armed B v e a) :
    view a.station.chip.flash v.sector = some v.entry ∧
      view a.station.chip.flash (other v.sector) = some e :=
  ⟨h.core.guarded.entry, h.entry⟩

/-- **An activation goes through** where there is room for it. -/
theorem Rests.activate_ok (h : Rests B v a) (hslot : slot < B.slotCount) :
    ∃ w, Otadata.activate a.station.chip.flash B.slotCount slot = .ok w ∧
      w.entry.trust = .unproven ∧ slotOf w.entry.seq B.slotCount = slot ∧ w.entry.Admissible := by
  have hentry : view a.station.chip.flash v.sector = some v.entry := h.core.guarded.entry
  obtain ⟨m, hm⟩ := exists_isTop (accepted_eq_some.mp hentry)
  have hroom : m.toNat + B.slotCount.toNat < 2 ^ 32 - 1 := by
    obtain ⟨s, e, he, rfl⟩ := hm.mem
    exact h.headroom s e (accepted_eq_some.mpr he)
  have hhighest : IsHighest .valid (view a.station.chip.flash) v.sector v.entry :=
    h.core.guarded.isHighest
  rcases activate_spec (n := B.slotCount) hm hhighest slot with
    ⟨s, hms, hs, hleast, hok⟩ | ⟨hnone, -⟩
  · refine ⟨_, hok, rfl, hs, ne_zero_of_lt hms, fun hmax => ?_, .inl rfl⟩
    have hle := sub_le_of_least (s := s) B.pos fun r hr hslot => hleast r hr (hslot.trans hs)
    have htop : s.toNat = 2 ^ 32 - 1 := congrArg UInt32.toNat hmax
    omega
  · obtain ⟨s, hms, hs⟩ := exists_slotOf (m := m) B.pos hslot (by omega)
    exact absurd hs (hnone s hms)

/-- **The intent to activate what is staged is recorded.** -/
theorem Rests.records [DecidableEq TxId] (h : Rests B v a) {id : TxId}
    {artifact : ArtifactRecord ArtifactId UInt8}
    (hstore : a.station.store = some (.staged id artifact))
    (hne : slotOf v.entry.seq B.slotCount ≠ artifact.target) :
    (appliance B).Reaches ⟨a, [], .agent (.idle (imageOf B.slotCount v))⟩
        ⟨a.recorded id artifact, [], .agent (.activating (imageOf B.slotCount v))⟩ ∧
      Rests B v (a.recorded id artifact) ∧
      Requested (a.recorded id artifact).station.store artifact.target := by
  have hactivate : Transaction.activate (Transaction.memory TxId ArtifactId) id a.station.store =
      (.ok ⟨id, .activating, [artifact]⟩, some ⟨id, .activating, [artifact]⟩) := by
    rw [hstore]
    simp [Transaction.activate, Transaction.memory, TransactionRecord.staged,
      TransactionRecord.withState]
  have hrecord := reaches_station (a := a) (B := B)
    (.activate (imageOf B.slotCount v) a.station id (congrArg Prod.fst hactivate))
    (fun _ _ hm => by cases hm) rfl
  rw [hactivate] at hrecord
  refine ⟨hrecord, h.publish (fun r hr => ?_) (fun r hr ht => ?_) [], ⟨_, rfl, rfl, rfl⟩⟩
  · cases hr
    obtain ⟨artifact', hartifacts, hrest⟩ := h.core.verified _ hstore
    exact ⟨artifact', hartifacts, hrest⟩
  · cases hr
    exact hne (Option.some.inj ht).symm

/-- **Then the boot chain is asked for its slot.** -/
theorem Rests.switches [DecidableEq TxId] (h : Rests B v a)
    (hrequested : Requested a.station.store slot) (hne : slotOf v.entry.seq B.slotCount ≠ slot)
    (hlt : slot < B.slotCount) :
    ∃ w, Otadata.activate a.station.chip.flash B.slotCount slot = .ok w ∧
      (appliance B).Reaches ⟨a, [], .agent (.activating (imageOf B.slotCount v))⟩
        ⟨a.wrote (issue .activate [w]), [], .agent (.idle (imageOf B.slotCount v))⟩ ∧
      Armed B v w.entry (a.wrote (issue .activate [w])) ∧
      slotOf w.entry.seq B.slotCount = slot := by
  obtain ⟨w, hw, hnew, hslot, hadm⟩ := h.activate_ok hlt
  obtain ⟨hbeside, hasks⟩ := h.core.asks_of_activate hrequested hne.symm hw
  have hswitch := reaches_station (a := a) (B := B)
    (.switch (imageOf B.slotCount v) a.station hrequested hw) (fun _ hm => by cases hm)
    (run_flashJob (issue .activate [w]) a.station)
  have hread : (a.wrote (issue .activate [w])).read = a.read.commit ⟨w, .activate⟩ :=
    read_wrote a _
  have hcore : Core B v a.station.store a.memory (a.read.commit ⟨w, .activate⟩) :=
    h.core.commit hbeside fun _ => ⟨hasks, w, List.mem_cons_self, rfl, rfl⟩
  have hentry : (a.read.commit ⟨w, .activate⟩).book (other v.sector) = some w.entry := by
    rw [← hbeside.sector]
    exact (Ledger.book_commit_self ⟨w, .activate⟩ a.read).trans (if_pos hadm)
  rw [← hread] at hcore hentry
  exact ⟨w, hw, hswitch, ⟨h.sound.run _, hcore, hentry, hnew⟩, hslot⟩

/-! ### The trial -/

/-- The next boot decides for what is armed. -/
theorem Armed.plan_boot {e : Entry} (h : Armed B v e a)
    (hok : B.Bootable a.memory (slotOf e.seq B.slotCount)) :
    (plan B a).boot = .slot (slotOf e.seq B.slotCount) (other v.sector) e.seq := by
  have hentry : view a.station.chip.flash v.sector = some v.entry := h.core.guarded.entry
  have hplan : plan B a = _ := planBoot_newer hentry h.core.guarded.valid
    (decide_eq_true h.core.bootable) h.entry (.inr h.unproven)
    (h.core.guarded.newer e h.entry (.inr h.unproven))
  rw [hplan, if_pos (decide_eq_true hok)]

/-- **The next boot tries what is armed.** -/
theorem Armed.boots [DecidableEq TxId] {e : Entry} (h : Armed B v e a)
    (hok : B.Bootable a.memory (slotOf e.seq B.slotCount)) (m : Mode) :
    (appliance B).Reaches ⟨a, [], m⟩
        ⟨booted B a, [], .agent (.booted (imageOf B.slotCount ⟨other v.sector, e⟩))⟩ ∧
      Core B v (booted B a).station.store (booted B a).memory (booted B a).read ∧
      Trial B v (booted B a).memory (booted B a).read
        (imageOf B.slotCount ⟨other v.sector, e⟩) := by
  have hboot := h.plan_boot hok
  have hreach := reaches_boot (B := B) ⟨a, [], m⟩
  obtain ⟨hcore, hboots⟩ := h.core.reboot
  rw [hboot] at hreach hboots
  refine ⟨hreach, hcore, rfl, rfl, ?_, hok⟩
  cases hboots with
  | fallback hsame _ => exact absurd (Boot.slot.inj hsame).2.1 (other_ne _)
  | trial e' he' _ _ _ hmark =>
    obtain rfl : e = e' := Option.some.inj (h.entry.symm.trans he')
    have hadm := h.core.admissible _ _ h.entry
    rw [hmark]
    exact if_pos ⟨hadm.seq_ne_zero, hadm.seq_ne_max, .inr (.inl rfl)⟩

variable {image : Running}

/-- **An image on trial is confirmed**: its entry is the one to fall back to. -/
theorem Trial.confirms [DecidableEq TxId] (hv : Core B v a.station.store a.memory a.read)
    (h : Trial B v a.memory a.read image) :
    (appliance B).Reaches ⟨a, [], .agent (.booted image)⟩
        ⟨a.confirmed image, [], .agent (.finishing image)⟩ ∧
      Core B ⟨image.sector, ⟨image.seq, State.valid⟩⟩ (a.confirmed image).station.store
        (a.confirmed image).memory (a.confirmed image).read ∧
      Quiet ⟨image.sector, ⟨image.seq, State.valid⟩⟩ (a.confirmed image).read.book := by
  have hreconcile := reaches_station (a := a) (B := B) (.reconcile image a.station)
    (fun _ hm => by cases hm) (rfl : stationDevice.run [] a.station = a.station)
  rw [answer_of_trial hv h] at hreconcile
  rcases hc : Otadata.confirm a.station.chip.flash with _ | w
  · have hnone := pending_none (Option.map_eq_none_iff.mp hc)
    exact absurd rfl (hnone _ _ h.pending)
  obtain ⟨e, he, hwe⟩ := confirm_some hc
  obtain ⟨hsector, rfl⟩ := h.isHighest hv he
  obtain rfl : w = ⟨image.sector, ⟨image.seq, State.valid⟩⟩ := by
    rw [h.sector, ← hsector, ← hwe]
  have hconfirm := reaches_station (a := a) (B := B) (.confirm image a.station)
    (fun _ hm => by cases hm) (run_flashJob _ a.station)
  rw [hc] at hconfirm
  have hok : B.Bootable a.memory (slotOf image.seq B.slotCount) := h.slot ▸ h.bootable
  have hread : (a.confirmed image).read = a.read.commit _ := read_wrote a _
  rw [hread]
  exact ⟨hreconcile.trans hconfirm, hv.confirm he hwe hok (some image)⟩

/-- **And then the transaction is over.** -/
theorem Trial.adopts [DecidableEq TxId] (hv : Core B v a.station.store a.memory a.read)
    (h : Trial B v a.memory a.read image) :
    (appliance B).Reaches ⟨a, [], .agent (.booted image)⟩
        ⟨(a.confirmed image).cleared, [], .agent (.idle image)⟩ ∧
      Alone B.slotCount (a.confirmed image).cleared.station.chip.flash image := by
  obtain ⟨hreach, hcore, hquiet⟩ := h.confirms hv
  have hfinish := reaches_station (a := a.confirmed image) (B := B) (.finish image _)
    (fun _ hm => by cases hm) rfl
  have hruns : Runs B.slotCount ⟨image.sector, ⟨image.seq, State.valid⟩⟩ image := by
    rw [Runs, ← h.slot]
  exact ⟨hreach.trans hfinish,
    hruns.alone (a := (a.confirmed image).cleared) (hcore.publish_none hquiet) hquiet⟩

/-! ### Two slots -/

/-- Two slots once the first boot is over. -/
def seededTwoSlots : Appliance Unit Unit := ⟨⟨Chip.seeded, none⟩, memoryOf 0 tinyBytes⟩

theorem rests_seededTwoSlots :
    (appliance twoSlots).Reaches ⟨.factory (memoryOf 0 tinyBytes), [], .agent .off⟩
        ⟨seededTwoSlots, [], .agent (.booted ⟨0, 0, 1⟩)⟩ ∧
      Rests twoSlots ⟨0, ⟨1, State.valid⟩⟩ seededTwoSlots := by
  have hfresh : Fresh twoSlots (none : Option (SlotRecord Unit Unit)) (memoryOf 0 tinyBytes)
      Chip.blank.read := ⟨fun _ => accepted_blank, rfl, bootable_twoSlots⟩
  have hplan : plan twoSlots (.factory (memoryOf 0 tinyBytes) : Appliance Unit Unit) =
      seedPlan := by
    rcases decides_of_none (decides_plan twoSlots (.factory (memoryOf 0 tinyBytes)))
      hfresh.blank with ⟨hp, -⟩ | ⟨-, hno⟩
    · exact hp
    · exact absurd bootable_twoSlots (twoSlots.imageOk_eq_false.mp hno)
  have hchip : chipDevice.run (commands (issue .boot seedPlan.writes)) Chip.blank = Chip.seeded :=
    run_cmds seedRequest Chip.blank
  have hbooted : booted twoSlots (.factory (memoryOf 0 tinyBytes)) = seededTwoSlots := by
    rw [booted, hplan]
    exact congrArg (fun chip => (⟨⟨chip, none⟩, _⟩ : Appliance Unit Unit)) hchip
  have hrest := Fresh.reaches_rest (B := twoSlots)
    (c := ⟨(.factory (memoryOf 0 tinyBytes) : Appliance Unit Unit), [], .agent .off⟩)
    Medium.sound_blank hfresh
  rwa [hbooted] at hrest

/-- Then an image is uploaded to slot 1 and activated. -/
def armedTwoSlots : Appliance Unit Unit :=
  ((seededTwoSlots.uploaded twoSlots 1 nextBytes () ()).recorded ()
    ⟨(), nextBytes.length, twoSlots.sha256 nextBytes, 1⟩).wrote
      (issue .activate [⟨1, ⟨2, State.new⟩⟩])

theorem armed_armedTwoSlots :
    (appliance twoSlots).Reaches ⟨.factory (memoryOf 0 tinyBytes), [], .agent .off⟩
        ⟨armedTwoSlots, [], .agent (.idle ⟨0, 0, 1⟩)⟩ ∧
      Armed twoSlots ⟨0, ⟨1, State.valid⟩⟩ ⟨2, State.new⟩ armedTwoSlots := by
  obtain ⟨hseeded, hrests⟩ := rests_seededTwoSlots
  have hne : slotOf 1 twoSlots.slotCount ≠ 1 := by decide
  have hfits : nextBytes.length ≤ (twoSlots.size 1).toNat := by
    rw [nextBytes, List.length_set]
    decide
  have hidle := hrests.reconciles
  obtain ⟨hupload, hrests⟩ :=
    hrests.uploads (fun _ hr => by cases hr) (by decide) hne hfits () ()
  obtain ⟨hrecord, hrests, hrequested⟩ := hrests.records rfl hne
  obtain ⟨w, hw, hswitch, harmed, -⟩ := hrests.switches hrequested hne (by decide)
  obtain rfl : w = ⟨1, ⟨2, State.new⟩⟩ := Except.ok.inj (hw.symm.trans activate_seeded)
  exact ⟨(((hseeded.trans hidle).trans hupload).trans hrecord).trans hswitch, harmed⟩

theorem slotOf_two : slotOf 2 twoSlots.slotCount = 1 := by decide

theorem bootable_armedTwoSlots : twoSlots.Bootable armedTwoSlots.memory 1 := rfl

/-- Then the power goes, and the image that comes up is confirmed. -/
def confirmedTwoSlots : Appliance Unit Unit := (booted twoSlots armedTwoSlots).confirmed ⟨1, 1, 2⟩

theorem core_confirmedTwoSlots :
    (appliance twoSlots).Reaches ⟨.factory (memoryOf 0 tinyBytes), [], .agent .off⟩
        ⟨confirmedTwoSlots, [], .agent (.finishing ⟨1, 1, 2⟩)⟩ ∧
      Core twoSlots ⟨1, ⟨2, State.valid⟩⟩ confirmedTwoSlots.station.store
        confirmedTwoSlots.memory confirmedTwoSlots.read ∧
      Quiet ⟨1, ⟨2, State.valid⟩⟩ confirmedTwoSlots.read.book := by
  obtain ⟨hreach, harmed⟩ := armed_armedTwoSlots
  have himage : imageOf twoSlots.slotCount ⟨other 0, ⟨2, State.new⟩⟩ = ⟨1, 1, 2⟩ := by
    rw [imageOf, slotOf_two]
    rfl
  obtain ⟨hboot, hcore, htrial⟩ :=
    harmed.boots (slotOf_two.symm ▸ bootable_armedTwoSlots) (.agent (.idle ⟨0, 0, 1⟩))
  rw [himage] at hboot htrial
  obtain ⟨hconfirm, hcore, hquiet⟩ := htrial.confirms hcore
  exact ⟨(hreach.trans hboot).trans hconfirm, hcore, hquiet⟩

end Stages

end AtomicOta.System
