import AtomicOta.System.Stages

/-!
# Any image can be installed

That nothing bad happens is also true of a device that does nothing. This file is about what a
device can still do: **from wherever a run is, any image that the validator accepts can be
uploaded into a slot other than the one to fall back to, and becomes the one to fall back to**
(`AtomicOta.System.always_updatable`). No moment is a dead end – not a trial that nobody confirms,
not a record whose activation was lost, not a cut of any kind.

The run is put together from the stages of `AtomicOta.System.Stages`. A run is one of the uploads
that `AtomicOta.System.Spare` allows: a device whose fallback slot was written over may be left
without an entry to activate from.
-/

namespace AtomicOta.System

open Artifact Esp Otadata Transaction

section Progress

variable {TxId ArtifactId : Type}

/-- **Any image can be installed**: from wherever a run is, into a slot that is not the one to
fall back to, provided that the validator accepts it there and a cycle of sequence numbers is
left. In the end it is the one to fall back to, it runs, and nothing is recorded any more. -/
theorem always_updatable [DecidableEq TxId] (B : Bootloader)
    (c : Crash.Config (Appliance TxId ArtifactId) (ApplianceOp TxId ArtifactId) Mode)
    (h : Reachable B c) (hroom : ∀ s e, view c.state.station.chip.flash s = some e →
      e.seq.toNat + B.slotCount.toNat < 2 ^ 32 - 1) (slot : UInt8) (hlt : slot < B.slotCount)
    (hne : slot ≠ fallbackSlot c.state.station.chip.flash B.slotCount) (D : List UInt8)
    (hsize : D.length ≤ (B.size slot).toNat)
    (hok : ∀ mem, window mem (B.start slot).toNat D.length = D → B.Bootable mem slot)
    (id : TxId) (artifactId : ArtifactId) :
    ∃ a' image, (appliance B).Reaches c ⟨a', [], .agent (.idle image)⟩ ∧ image.slot = slot ∧
      Alone B.slotCount a'.station.chip.flash image ∧ a'.station.store = none ∧
      window a'.memory (B.start slot).toNat D.length = D := by
  obtain ⟨v, a₁, hreach₁, hrests₁, hfallback⟩ := reaches_rest c h.holds.instant.kept hroom
  have hne' : slotOf v.entry.seq B.slotCount ≠ slot := hfallback ▸ hne.symm
  obtain ⟨a₂, hreach₂, hrests₂, hstaged⟩ := hrests₁.settles
  obtain ⟨hreach₃, hrests₃⟩ := hrests₂.uploads hstaged hlt hne' hsize id artifactId
  obtain ⟨hreach₄, hrests₄, hrequested⟩ := hrests₃.records rfl hne'
  obtain ⟨w, -, hreach₅, harmed, hslot⟩ := hrests₄.switches hrequested hne' hlt
  -- what was uploaded is still there when it is tried
  have hwindow := window_uploaded a₂ B slot D id artifactId
  have hbootable : B.Bootable (a₂.uploaded B slot D id artifactId).memory
      (slotOf w.entry.seq B.slotCount) := hslot.symm ▸ hok _ hwindow
  obtain ⟨hreach₆, hcore₆, htrial⟩ :=
    harmed.boots hbootable (.agent (.idle (imageOf B.slotCount v)))
  obtain ⟨hreach₇, halone⟩ := htrial.adopts hcore₆
  refine ⟨_, _, ?_, hslot, halone, rfl, hwindow⟩
  exact hreach₁.trans <| hreach₂.trans <| hreach₃.trans <| hreach₄.trans <| hreach₅.trans <|
    hreach₆.trans hreach₇

/-- The image of slot 0, installed in slot 1, where an activation is left over and the power
goes. -/
theorem always_updatable_twoSlots :
    ∃ (a' : Appliance Unit Unit) (image : Running),
      (appliance twoSlots).Reaches ⟨armedTwoSlots, [], .agent .off⟩
        ⟨a', [], .agent (.idle image)⟩ ∧ image.slot = 1 ∧
      Alone 2 a'.station.chip.flash image ∧ a'.station.store = none ∧
      window a'.memory 64 48 = tinyBytes := by
  obtain ⟨hreach, harmed⟩ := armed_armedTwoSlots
  have hguarded : Guarded ⟨0, ⟨1, State.valid⟩⟩ (view armedTwoSlots.station.chip.flash) :=
    harmed.core.guarded
  obtain ⟨hentry, hother⟩ := harmed.views
  refine always_updatable twoSlots ⟨armedTwoSlots, [], .agent .off⟩
    ⟨_, bootable_twoSlots, hreach.tail (.cut _ _ _)⟩ (fun s e he => ?_) 1 (by decide)
    ?_ tinyBytes (by decide) (fun mem hmem => ?_) () ()
  · -- what is in the sectors has numbers 1 and 2
    have hle : e.seq = 1 ∨ e.seq = 2 := by
      by_cases hs : s = 0
      · subst hs
        rw [hentry] at he
        exact .inl (congrArg Entry.seq (Option.some.inj he)).symm
      · obtain rfl : s = other 0 := eq_other_of_ne hs
        rw [hother] at he
        exact .inr (congrArg Entry.seq (Option.some.inj he)).symm
    rcases hle with hseq | hseq <;> rw [hseq] <;> decide
  · have hfallback : fallbackSlot armedTwoSlots.station.chip.flash 2 = 0 :=
      hguarded.fallbackSlot_eq.trans (by decide)
    exact ne_of_ne_of_eq (by decide) hfallback.symm
  · -- the validator looks at the image only
    have hjudge : twoSlots.judge (memoryOf 64 tinyBytes) 1 =
        .ok (⟨32, [⟨32, 4, 96⟩], 1, false, 112⟩, ()) := rfl
    have hsame := hmem.trans (window_overlay (fun _ => 0) 64 tinyBytes).symm
    have hpoint : ∀ i ∈ List.range' 64 48, mem i = memoryOf 64 tinyBytes i :=
      List.map_inj_left.mp hsame
    have hjudge' : twoSlots.judge mem 1 = _ := Bootloader.judge_congr hjudge (by decide)
      fun i hlo hhi => (hpoint i (List.mem_range'_1.mpr ⟨hlo, hhi⟩)).symm
    rw [Bootloader.Bootable, hjudge']
    rfl

end Progress

end AtomicOta.System
