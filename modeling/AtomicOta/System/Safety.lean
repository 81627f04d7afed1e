import AtomicOta.System.Stages

/-!
# There is always something to boot

What the invariant of `AtomicOta.System.Invariant` is for. At any moment of any run – between two
commands, inside one that is cut, in the middle of an upload, of a boot or of a confirmation –
the next boot finds an image that the validator accepts, whatever the erases that were cut have
left on the medium, and it is one of two
(`AtomicOta.System.always_boots`): the one in the slot to fall back to, or one that has never
run, whose activation is recorded and whose bytes have the digest that is recorded for them.

So the only way into a slot is through a session that was completed and committed: what is
started is what was uploaded, or what was there before. That takes a discipline of the uploads
(`AtomicOta.System.Spare`): a device that writes to the slot to fall back to has
nothing to fall back to.

The transaction store and the flash of the boot chain are written one after the other, with any
number of power cuts between. They agree all the same, at every moment
(`AtomicOta.System.always_agree`): what is recorded is in its slot, and what may be started or
confirmed was recorded before.

Once an image is up the agent reconciles. What the six answers are worth then is
`AtomicOta.System.answers_justified`: each of them is given where it is right, and a rollback of
an image that nobody asked for is never one of them.
-/

namespace AtomicOta.System

open Artifact Esp Otadata Transaction

section Safety

variable {TxId ArtifactId : Type}

/-- **A slot that was asked for**: its activation is recorded, and it starts with the bytes of
the digest that is recorded. -/
def AskedFor (B : Bootloader) (a : Appliance TxId ArtifactId) (slot : UInt8) : Prop :=
  ∃ r artifact, a.station.store = some r ∧ r.state = .activating ∧ r.artifacts = [artifact] ∧
    artifact.target = slot ∧
    B.sha256 (window a.memory (B.start slot).toNat artifact.size) = artifact.digest

variable {B : Bootloader} {a : Appliance TxId ArtifactId} {v : Write}

/-- A slot whose activation is recorded was asked for. -/
theorem Core.askedFor (hv : Core B v a.station.store a.memory a.read) {slot : UInt8}
    (h : Requested a.station.store slot) : AskedFor B a slot := by
  obtain ⟨r, hr, hstate, htarget⟩ := h
  obtain ⟨artifact, hartifacts, -, -, hdigest⟩ := hv.verified r hr
  have hslot : artifact.target = slot := by
    rw [TransactionRecord.target, hartifacts] at htarget
    exact Option.some.inj htarget
  exact ⟨r, artifact, hr, hstate, hartifacts, hslot, hslot ▸ hdigest⟩

/-- What a boot starts: the slot to fall back to, or an entry that has never run, of another slot
that was asked for. -/
def Starts (B : Bootloader) (a : Appliance TxId ArtifactId) (image : Running) : Prop :=
  image.slot = fallbackSlot a.station.chip.flash B.slotCount ∨
    (image.slot ≠ fallbackSlot a.station.chip.flash B.slotCount ∧
      view a.station.chip.flash image.sector = some ⟨image.seq, State.new⟩ ∧
      AskedFor B a image.slot)

/-- **The decision of a boot**, wherever the power went before it. -/
theorem Kept.boots (h : Kept B a) :
    ∃ image : Running,
      (plan B a).boot = .slot image.slot image.sector image.seq ∧
      B.Bootable a.memory image.slot ∧ Starts B a image := by
  have hp := decides_plan B a
  obtain ⟨-, hfresh | ⟨v, hv⟩⟩ := h
  · have hfallback : fallbackSlot a.station.chip.flash B.slotCount = 0 :=
      fallbackSlot_of_none hfresh.blank
    rcases decides_of_none hp hfresh.blank with ⟨hplan, -⟩ | ⟨-, hno⟩
    · exact ⟨⟨0, 0, 1⟩, by rw [hplan]; rfl, hfresh.bootable, .inl hfallback.symm⟩
    · exact absurd hfresh.bootable (B.imageOk_eq_false.mp hno)
  · have hguarded : Guarded v a.read.book := hv.guarded
    cases hguarded.boots hv.imageOk hp with
    | fallback hboot _ =>
      exact ⟨⟨_, _, _⟩, hboot, hv.bootable, .inl hguarded.fallbackSlot_eq.symm⟩
    | trial e he ht hboot hyes _ =>
      obtain ⟨j, hj⟩ := hyes
      refine ⟨⟨_, _, _⟩, hboot, B.imageOk_eq_true.mp hj, .inr ⟨?_, ?_, ?_⟩⟩
      · rw [hguarded.fallbackSlot_eq]
        exact hv.elsewhere e he (.inr ht)
      · have hstate := Entry.trust_eq_unproven.mp ht
        exact he.trans (by rw [← hstate])
      · exact hv.askedFor (hv.asked e he (.inr ht)).1

/-- **There is always something to boot**: wherever a run is, and wherever its power goes, the
next boot is for an image that the validator accepts. It is the one to fall back to, or one that
was asked for and is as it was uploaded; and a boot that is not cut ends with it running. -/
theorem always_boots [DecidableEq TxId] (B : Bootloader)
    (c : Crash.Config (Appliance TxId ArtifactId) (ApplianceOp TxId ArtifactId) Mode)
    (h : Reachable B c) :
    ∃ image : Running,
      (plan B c.state).boot = .slot image.slot image.sector image.seq ∧
      B.Bootable c.state.memory image.slot ∧ Starts B c.state image ∧
      (∀ ops m, ApplianceStart B (.agent .off) c.state ops m →
        m = .agent (.booted image) ∧ (applianceDevice B).run ops c.state = booted B c.state) ∧
      (appliance B).Reaches c ⟨booted B c.state, [], .agent (.booted image)⟩ := by
  obtain ⟨image, hboot, hok, hstarts⟩ := h.holds.instant.kept.boots
  have hreach := reaches_boot (B := B) c
  rw [hboot] at hreach
  refine ⟨image, hboot, hok, hstarts, fun ops m hstart => ?_, hreach⟩
  -- all that can be started while the device is off is that boot
  cases hstart with
  | station _ hst _ =>
    cases hst with
    | boot _ _ ok hplan =>
      subst hplan
      exact ⟨congrArg (fun b => Mode.agent (.ofBoot b)) hboot, run_station_flash _ _⟩

/-- An image is uploaded to slot 1 and activated, and the power goes: the next boot tries it. -/
theorem always_boots_twoSlots :
    (plan twoSlots armedTwoSlots).boot = .slot 1 1 2 ∧
      twoSlots.Bootable armedTwoSlots.memory 1 ∧ Starts twoSlots armedTwoSlots ⟨1, 1, 2⟩ ∧
      (∀ ops m, ApplianceStart twoSlots (.agent .off) armedTwoSlots ops m →
        m = .agent (.booted ⟨1, 1, 2⟩) ∧
          (applianceDevice twoSlots).run ops armedTwoSlots = booted twoSlots armedTwoSlots) ∧
      (appliance twoSlots).Reaches ⟨armedTwoSlots, [], .agent .off⟩
        ⟨booted twoSlots armedTwoSlots, [], .agent (.booted ⟨1, 1, 2⟩)⟩ := by
  obtain ⟨hreach, harmed⟩ := armed_armedTwoSlots
  obtain ⟨image, hboot, hrest⟩ := always_boots twoSlots ⟨armedTwoSlots, [], .agent .off⟩
    ⟨_, bootable_twoSlots, hreach.tail (.cut _ _ _)⟩
  have hplan : (plan twoSlots armedTwoSlots).boot = .slot 1 1 2 :=
    slotOf_two ▸ harmed.plan_boot (slotOf_two.symm ▸ bootable_armedTwoSlots)
  obtain ⟨hslot, hsector, hseq⟩ := Boot.slot.inj (hplan.symm.trans hboot)
  obtain rfl : (⟨1, 1, 2⟩ : Running) = image := by rw [hslot, hsector, hseq]
  exact ⟨hplan, hrest⟩

/-! ### The record and the flash -/

/-- **What is recorded, and what is on flash, agree**: a recorded artifact is in its slot, as it
was uploaded, and that slot is the one to fall back to only if what is recorded is the activation
that wrote the entry to fall back to, and that was confirmed; and an entry that may still be
started or confirmed is of another slot than that, whose activation is recorded. -/
structure Agree (B : Bootloader) (a : Appliance TxId ArtifactId) : Prop where
  verified : ∀ r, a.station.store = some r → Verified B a.memory r
  apart : ∀ r, a.station.store = some r →
    r.target = some (fallbackSlot a.station.chip.flash B.slotCount) →
    r.state = .activating ∧ ∃ s e, IsHighest .valid (view a.station.chip.flash) s e ∧
      OwnConfirmed a.station.chip.log s e.seq
  asked : ∀ s e, view a.station.chip.flash s = some e → e.Open →
    Requested a.station.store (slotOf e.seq B.slotCount) ∧
      slotOf e.seq B.slotCount ≠ fallbackSlot a.station.chip.flash B.slotCount

theorem Kept.agree (h : Kept B a) : Agree B a := by
  obtain ⟨-, hfresh | ⟨v, hv⟩⟩ := h
  · refine ⟨fun r hr => ?_, fun r hr => ?_, fun s e he => absurd he (ne_some_of_none hfresh.blank)⟩
    · exact absurd (hfresh.unstaged.symm.trans hr) (by simp)
    · exact absurd (hfresh.unstaged.symm.trans hr) (by simp)
  · have hguarded : Guarded v (view a.station.chip.flash) := hv.guarded
    have hfallback := hguarded.fallbackSlot_eq (n := B.slotCount)
    refine ⟨hv.verified, fun r hr ht => ?_, fun s e he hopen => ?_⟩
    · obtain ⟨hstate, hconfirmed⟩ := hv.apart r hr (hfallback ▸ ht)
      exact ⟨hstate, v.sector, v.entry, hguarded.isHighest, hconfirmed⟩
    by_cases hs : s = v.sector
    · -- the entry to fall back to is valid
      subst hs
      rw [hguarded.entry] at he
      rw [← Option.some.inj he, Entry.Open, hguarded.valid] at hopen
      exact absurd hopen (by decide)
    · obtain rfl := eq_other_of_ne hs
      exact ⟨(hv.asked e he hopen).1, hfallback ▸ hv.elsewhere e he hopen⟩

/-- **The record and the flash agree** at every moment of every run. -/
theorem always_agree [DecidableEq TxId] (B : Bootloader)
    (c : Crash.Config (Appliance TxId ArtifactId) (ApplianceOp TxId ArtifactId) Mode)
    (h : Reachable B c) : Agree B c.state :=
  h.holds.instant.kept.agree

/-- While an image waits to be tried, and once it is confirmed but its activation still
recorded. -/
theorem always_agree_twoSlots :
    (Agree twoSlots armedTwoSlots ∧ armedTwoSlots.station.store.isSome ∧
        view armedTwoSlots.station.chip.flash 1 = some ⟨2, State.new⟩) ∧
      Agree twoSlots confirmedTwoSlots ∧ confirmedTwoSlots.station.store.isSome ∧
        fallbackSlot confirmedTwoSlots.station.chip.flash 2 = 1 := by
  obtain ⟨hreach, harmed⟩ := armed_armedTwoSlots
  obtain ⟨hreach', hcore, -⟩ := core_confirmedTwoSlots
  have hguarded : Guarded ⟨1, ⟨2, State.valid⟩⟩ (view confirmedTwoSlots.station.chip.flash) :=
    hcore.guarded
  refine ⟨⟨?_, rfl, harmed.views.2⟩, ?_, rfl, hguarded.fallbackSlot_eq.trans (by decide)⟩
  · exact always_agree twoSlots ⟨armedTwoSlots, [], .agent (.idle ⟨0, 0, 1⟩)⟩
      ⟨_, bootable_twoSlots, hreach⟩
  · exact always_agree twoSlots ⟨confirmedTwoSlots, [], .agent (.finishing ⟨1, 1, 2⟩)⟩
      ⟨_, bootable_twoSlots, hreach'⟩

/-! ### The answers of the agent -/

/-- **Where each answer is right**, about the image that runs. Nowhere is a rollback. -/
inductive Justified (B : Bootloader) (a : Appliance TxId ArtifactId) (image : Running) :
    Transaction.Action → Prop
  | nothing (halone : Alone B.slotCount a.station.chip.flash image)
    (hstore : a.station.store = none) : Justified B a image .nothing
  /-- What is staged is in another slot, as it was uploaded. -/
  | keepStaged (halone : Alone B.slotCount a.station.chip.flash image)
    {r : SlotRecord TxId ArtifactId} (hstore : a.station.store = some r)
    (hstate : r.state = .staged) (hverified : Verified B a.memory r)
    (hother : r.target ≠ some image.slot) : Justified B a image .keepStaged
  /-- What was to be activated is another slot, and it is not going to be. -/
  | clearStale (halone : Alone B.slotCount a.station.chip.flash image)
    {r : SlotRecord TxId ArtifactId} (hstore : a.station.store = some r)
    (hstate : r.state = .activating) (hother : r.target ≠ some image.slot) :
    Justified B a image .clearStale
  /-- What was to be activated is what runs: its own entry was written by that activation, and
  confirmed. -/
  | finish (halone : Alone B.slotCount a.station.chip.flash image)
    (hasked : AskedFor B a image.slot)
    (hconfirmed : OwnConfirmed a.station.chip.log image.sector image.seq) :
    Justified B a image .finishInterruptedActivation
  /-- What was to be activated is what runs, and it may be confirmed or rejected. -/
  | awaitConfirmation (hother : image.slot ≠ fallbackSlot a.station.chip.flash B.slotCount)
    (hpending : view a.station.chip.flash image.sector = some ⟨image.seq, State.pendingVerify⟩)
    (hasked : AskedFor B a image.slot) (hbootable : B.Bootable a.memory image.slot) :
    Justified B a image .awaitConfirmation

variable {image : Running}

/-- **Every answer of the agent is right**, wherever a run is when an image has come up. -/
theorem answers_justified [DecidableEq TxId] (B : Bootloader)
    (c : Crash.Config (Appliance TxId ArtifactId) (ApplianceOp TxId ArtifactId) Mode)
    (h : Reachable B c) (hidle : c.todo = []) (image : Running)
    (hmode : c.mode = .agent (.booted image)) :
    Justified B c.state image (c.state.station.answer image) := by
  have hready := h.holds.idle hidle
  rw [hmode] at hready
  obtain ⟨-, ⟨-, hoff⟩ | ⟨v, hv, hphase⟩⟩ := hready
  · cases hoff
  have hguarded : Guarded v (view c.state.station.chip.flash) := hv.guarded
  rcases hphase with ⟨hruns, hquiet⟩ | htrial
  · have halone := hruns.alone hv hquiet
    have hslot : image.slot = slotOf v.entry.seq B.slotCount :=
      halone.slot.trans hguarded.fallbackSlot_eq
    rw [answer_of_runs hv hruns]
    unfold settle
    split
    · rename_i hstore
      exact .nothing halone hstore
    · rename_i r hstore
      have hapart := hv.apart r hstore
      rw [← hslot] at hapart
      split
      · -- nothing that is staged is for the slot that runs
        rename_i hstate
        refine .keepStaged halone hstore hstate (hv.verified r hstore) fun ht => ?_
        exact absurd (hstate.symm.trans (hapart ht).1) (by simp)
      · rename_i hstate
        split_ifs with ht
        · have hconfirmed := (hapart ht).2
          have hentry : v.sector = image.sector ∧ v.entry.seq = image.seq := by
            rw [Runs] at hruns
            rw [hruns]
            exact ⟨rfl, rfl⟩
          rw [hentry.1, hentry.2] at hconfirmed
          exact .finish halone (hv.askedFor ⟨r, hstore, hstate, ht⟩) hconfirmed
        · exact .clearStale halone hstore hstate ht
  · have hpending : view c.state.station.chip.flash image.sector =
        some ⟨image.seq, State.pendingVerify⟩ := by
      rw [htrial.sector]
      exact htrial.pending
    have helsewhere := hv.elsewhere _ htrial.pending (.inl rfl)
    rw [← hguarded.fallbackSlot_eq, ← htrial.slot] at helsewhere
    have hrequested := (hv.asked _ htrial.pending (.inl rfl)).1
    rw [← htrial.slot] at hrequested
    rw [answer_of_trial hv htrial]
    exact .awaitConfirmation helsewhere hpending (hv.askedFor hrequested) htrial.bootable

/-- The power goes after a confirmation: the next boot brings the image up again, and the agent
finishes what was interrupted. -/
theorem answers_justified_twoSlots :
    Justified twoSlots (booted twoSlots confirmedTwoSlots) ⟨1, 1, 2⟩
      .finishInterruptedActivation := by
  obtain ⟨hreach, hcore, hquiet⟩ := core_confirmedTwoSlots
  have hboot : (plan twoSlots confirmedTwoSlots).boot = .slot 1 1 2 :=
    slotOf_two ▸ hcore.plan_boot hquiet
  have hreach' := hreach.trans
    (reaches_boot ⟨confirmedTwoSlots, [], .agent (.finishing ⟨1, 1, 2⟩)⟩)
  rw [hboot] at hreach'
  have hanswer : (booted twoSlots confirmedTwoSlots).station.answer ⟨1, 1, 2⟩ =
      .finishInterruptedActivation :=
    answer_of_runs hcore.reboot.1 rfl
  rw [← hanswer]
  exact answers_justified twoSlots
    ⟨booted twoSlots confirmedTwoSlots, [], .agent (.booted ⟨1, 1, 2⟩)⟩
    ⟨_, bootable_twoSlots, hreach'⟩ rfl _ rfl

end Safety

end AtomicOta.System
