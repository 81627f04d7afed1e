import AtomicOta.Otadata.Attempts

/-!
# The update cycle

What becomes of an activation, from any flash on which `AtomicOta.Otadata.activate`
succeeds: the entry it writes and the valid entry it protects are all that the
following boots look at (`AtomicOta.Otadata.Duo`), whatever else was on the flash. The
entry that is written goes through the states below, and the boot follows.

| state | boots | writes |
|---|---|---|
| new, image bootable | the target | pending |
| new, image not bootable | the protected entry | invalid |
| pending | the protected entry | aborted |
| aborted or invalid | the protected entry | nothing |
| valid | the target | nothing |
-/

namespace AtomicOta.Otadata

/-- Every image is bootable. -/
abbrev allBootable : ImageOk := fixed fun _ => true

/-- One boot, from beginning to end. -/
def bootOnce (n : UInt8) (bootable : UInt8 → Bool) (f : Flash) : Flash :=
  execWrites f (planBoot f n (fixed bootable)).writes

/-- This boot and every later one decide the same. -/
def Settled (n : UInt8) (bootable : UInt8 → Bool) (f : Flash) (p : Plan) : Prop :=
  ∀ k, planBoot ((bootOnce n bootable)^[k] f) n (fixed bootable) = p

/-- A boot that writes nothing is the first of many. -/
theorem settled_of_plan {n : UInt8} {bootable : UInt8 → Bool} {f : Flash} {b : Boot}
    (h : planBoot f n (fixed bootable) = ⟨b, []⟩) : Settled n bootable f ⟨b, []⟩ := by
  intro k
  have hfix : bootOnce n bootable f = f := by rw [bootOnce, h, execWrites_nil]
  rw [Function.iterate_fixed hfix, h]

/-- A valid entry, and an entry in the other sector. -/
structure Duo (p : Sector) (b e : Entry) (f : Flash) : Prop where
  base : view f p = some b
  valid : b.trust = .valid
  beside : view f (other p) = some e

namespace Duo

variable {p : Sector} {b e e' : Entry} {f : Flash} {n : UInt8} {bootable : UInt8 → Bool}

/-- Writing the other sector. -/
theorem write (hb : view f p = some b) (hvalid : b.trust = .valid) (he : e.Admissible) :
    Duo p b e (execWrites f [⟨other p, e⟩]) := by
  have hview : view (execWrites f [⟨other p, e⟩]) =
      Function.update (view f) (other p) (some e) := by
    rw [execWrites_cons, execWrites_nil, view_update, accepted_encode, admitted, if_pos he]
  refine ⟨?_, hvalid, ?_⟩
  · rw [hview, Function.update_of_ne (other_ne p).symm, hb]
  · rw [hview, Function.update_self]

/-- A pending entry is aborted, and the valid one booted. -/
theorem planBoot_pending (h : Duo p b e f) (hok : bootable (slotOf b.seq n) = true)
    (ht : e.trust = .pending) :
    planBoot f n (fixed bootable) =
      ⟨.slot (slotOf b.seq n) p b.seq, [⟨other p, ⟨e.seq, State.aborted⟩⟩]⟩ := by
  have hcand : candidateAt (view f) (other p) = none := by
    rw [candidateAt, h.beside, Option.bind_some, if_neg (by rw [ht]; decide)]
  have habort : abortAt (view f) (other p) = some ⟨other p, ⟨e.seq, State.aborted⟩⟩ := by
    rw [abortAt, h.beside, Option.bind_some, if_pos ht]
  rw [planBoot_valid h.base h.valid hok hcand, habort]
  rfl

/-- Beside a dead entry, the valid one is booted as it is. -/
theorem planBoot_dead (h : Duo p b e f) (hok : bootable (slotOf b.seq n) = true)
    (ht : e.trust = .dead) :
    planBoot f n (fixed bootable) = ⟨.slot (slotOf b.seq n) p b.seq, []⟩ := by
  have hcand : candidateAt (view f) (other p) = none := by
    rw [candidateAt, h.beside, Option.bind_some, if_neg (by rw [ht]; decide)]
  have habort : abortAt (view f) (other p) = none := by
    rw [abortAt, h.beside, Option.bind_some, if_neg (by rw [ht]; decide)]
  rw [planBoot_valid h.base h.valid hok hcand, habort]
  rfl

/-- The pending entry beside a valid one is the one the agent acts on. -/
theorem pending_eq (h : Duo p b e f) (ht : e.trust = .pending) :
    pending f = some (other p, e.seq) := by
  refine pending_of_only h.beside ht fun s e' he' ht' => eq_other_of_ne ?_
  rintro rfl
  rw [← Option.some.inj (h.base.symm.trans he'), h.valid] at ht'
  exact absurd ht' (by decide)

end Duo

section Cycle

variable {f : Flash} {n target : UInt8} {w : Write} {p : Sector} {b : Entry}
  {bootable : UInt8 → Bool}

/-- What an activation leaves: its entry beside the one it protects. -/
theorem duo_of_activate (hw : activate f n target = .ok w) (hmax : w.entry.seq ≠ u32Max)
    (hb : IsHighest .valid (view f) p b) :
    w.sector = other p ∧ w.entry.state = State.new ∧ slotOf w.entry.seq n = target ∧
      b.seq.toNat < w.entry.seq.toNat ∧ w.entry.seq ≠ 0 ∧ Duo p b w.entry (execWrites f [w]) := by
  obtain ⟨b', hb', hnew, hslot, habove⟩ := activate_ok hw
  obtain ⟨rfl, rfl⟩ := hb.unique hb'
  have hlt := habove _ _ hb.entry
  have hzero : w.entry.seq ≠ 0 := by
    intro h0
    rw [h0] at hlt
    exact absurd hlt (Nat.not_lt_zero _)
  have hduo := Duo.write hb.entry hb.trust (e := w.entry) ⟨hzero, hmax, .inl hnew⟩
  rw [other_other] at hduo
  exact ⟨(other_other _).symm, hnew, hslot, hlt, hzero, hduo⟩

/-- **The update cycle does what the agent asked, from any flash.** -/
theorem update_cycle (f : Flash) (n target : UInt8) (w : Write)
    (hw : activate f n target = .ok w) (hmax : w.entry.seq < u32Max) (p : Sector) (b : Entry)
    (hb : IsHighest .valid (view f) p b) (bootable : UInt8 → Bool)
    (hok : bootable (slotOf b.seq n) = true) :
    let f₁ := execWrites f [w]
    let f₂ := bootOnce n bootable f₁
    let base := Boot.slot (slotOf b.seq n) p b.seq
    w.sector ≠ p ∧
    (bootable target = false →
      planBoot f₁ n (fixed bootable) = ⟨base, [⟨w.sector, ⟨w.entry.seq, State.invalid⟩⟩]⟩) ∧
    (bootable target = true →
      planBoot f₁ n (fixed bootable) = ⟨.slot target w.sector w.entry.seq,
        [⟨w.sector, ⟨w.entry.seq, State.pendingVerify⟩⟩]⟩ ∧
      (planBoot f₂ n (fixed bootable) = ⟨base, [⟨w.sector, ⟨w.entry.seq, State.aborted⟩⟩]⟩ ∧
        Settled n bootable (bootOnce n bootable f₂) ⟨base, []⟩) ∧
      (∃ r, reject f₂ = some r ∧ r.sector = w.sector ∧
        Settled n bootable (execWrites f₂ [r]) ⟨base, []⟩) ∧
      ∃ c, confirm f₂ = some c ∧ c.sector = w.sector ∧
        Settled n bootable (execWrites f₂ [c]) ⟨.slot target w.sector w.entry.seq, []⟩) := by
  have hmax' : w.entry.seq ≠ u32Max := by
    rintro h
    rw [h] at hmax
    exact absurd hmax (by decide)
  obtain ⟨hsector, hnew, hslot, hlt, hzero, hduo⟩ := duo_of_activate hw hmax' hb
  -- the entry, in any of its states
  have hadm : ∀ {state}, Entry.Known state → Entry.Admissible ⟨w.entry.seq, state⟩ :=
    fun hstate => ⟨hzero, hmax', hstate⟩
  have hnext : ∀ {g : Flash} {e : Entry} {state : UInt32}, Duo p b e g → Entry.Known state →
      Duo p b ⟨w.entry.seq, state⟩ (execWrites g [⟨w.sector, ⟨w.entry.seq, state⟩⟩]) := by
    intro g e state hg hstate
    rw [hsector]
    exact Duo.write hg.base hg.valid (hadm hstate)
  have hfirst := planBoot_newer hduo.base hduo.valid hok hduo.beside
    (.inr (Entry.trust_eq_unproven.mpr hnew)) hlt
  rw [hslot, ← hsector] at hfirst
  refine ⟨hsector ▸ other_ne p, fun hbad => ?_, fun hgood => ?_⟩
  · rw [hfirst, if_neg (by simp [hbad])]
  rw [if_pos hgood, Candidate.mark, if_pos (Entry.trust_eq_unproven.mpr hnew)] at hfirst
  have hpend : Duo p b ⟨w.entry.seq, State.pendingVerify⟩
      (bootOnce n bootable (execWrites f [w])) := by
    rw [bootOnce, hfirst]
    exact hnext hduo (by decide)
  have hsecond := hpend.planBoot_pending hok rfl
  rw [← hsector] at hsecond
  have hpending : pending (bootOnce n bootable (execWrites f [w])) = some (w.sector, w.entry.seq) :=
    hsector ▸ hpend.pending_eq rfl
  refine ⟨hfirst, ⟨hsecond, ?_⟩, ?_, ?_⟩
  · -- no agent step: aborted
    refine settled_of_plan (Duo.planBoot_dead (e := ⟨w.entry.seq, State.aborted⟩) ?_ hok rfl)
    rw [bootOnce, hsecond]
    exact hnext hpend (by decide)
  · -- rejected
    refine ⟨⟨w.sector, ⟨w.entry.seq, State.invalid⟩⟩, by rw [reject, hpending]; rfl, rfl, ?_⟩
    exact settled_of_plan ((hnext hpend (by decide)).planBoot_dead hok rfl)
  · -- confirmed
    refine ⟨⟨w.sector, ⟨w.entry.seq, State.valid⟩⟩, by rw [confirm, hpending]; rfl, rfl, ?_⟩
    have hvalid : Duo p b ⟨w.entry.seq, State.valid⟩ _ := hnext hpend (by decide)
    refine settled_of_plan ?_
    rw [planBoot_newer hvalid.base hvalid.valid hok hvalid.beside (.inl rfl) hlt, hslot,
      if_pos hgood, ← hsector]
    rfl

end Cycle

/-! ### The first update -/

theorem isHighest_seeded : IsHighest .valid (view Chip.seeded.flash) 0 ⟨1, State.valid⟩ := by
  have hentry : view Chip.seeded.flash 0 = some ⟨1, State.valid⟩ :=
    accepted_eq_some.mpr (decode_encode (by decide))
  have honly : ∀ s e, view Chip.seeded.flash s = some e → s = 0 ∧ e = ⟨1, State.valid⟩ := by
    intro s e he
    rcases eq_or_ne s 0 with rfl | hne
    · exact ⟨rfl, (Option.some.inj (hentry.symm.trans he)).symm⟩
    · have hblank : Chip.seeded.flash s = blank := by
        rw [flash_seeded, Function.update_of_ne hne]
      rw [view, hblank, accepted_blank] at he
      exact absurd he (by simp)
  refine ⟨hentry, rfl, fun s e he _ => ?_, fun s e he _ _ => ?_⟩
  · rw [(honly s e he).2]
  · rw [(honly s e he).1]

/-- A flash of two entries. -/
def pair (e e' : Entry) : Flash := fun s => if s = 0 then e.encode else e'.encode

theorem view_pair {e e' : Entry} (he : e.Admissible) (he' : e'.Admissible) (s : Sector) :
    view (pair e e') s = some (if s = 0 then e else e') := by
  unfold view pair
  split_ifs
  · rw [accepted_encode, admitted, if_pos he]
  · rw [accepted_encode, admitted, if_pos he']

theorem execWrites_pair (e e' e'' : Entry) : execWrites (pair e e') [⟨1, e''⟩] = pair e e'' := by
  rw [execWrites_cons, execWrites_nil]
  funext s
  rcases eq_or_ne s 1 with rfl | hne
  · exact Function.update_self ..
  · rw [Function.update_of_ne hne]
    have h0 : s = 0 := eq_other_of_ne hne
    rw [pair, pair, if_pos h0, if_pos h0]

theorem execWrites_seeded (e : Entry) :
    execWrites Chip.seeded.flash [⟨1, e⟩] = pair ⟨1, State.valid⟩ e := by
  rw [execWrites_cons, execWrites_nil, flash_seeded]
  funext s
  rcases eq_or_ne s 1 with rfl | hne
  · exact Function.update_self ..
  · have h0 : s = 0 := eq_other_of_ne hne
    rw [Function.update_of_ne hne, h0]
    exact Function.update_self ..

/-- The first activation of slot 1. -/
theorem activate_seeded : activate Chip.seeded.flash 2 1 = .ok ⟨1, ⟨2, State.new⟩⟩ :=
  activate_of_next (p := 0) (q := 1) (by decide +kernel) (by decide +kernel) (by decide)

theorem planBoot_pair_new : planBoot (pair ⟨1, State.valid⟩ ⟨2, State.new⟩) 2 allBootable =
    ⟨.slot 1 1 2, [⟨1, ⟨2, State.pendingVerify⟩⟩]⟩ := by
  decide +kernel

/-- The first update: marked and started, then aborted if nobody confirms it. -/
theorem update_cycle_seeded :
    planBoot (execWrites Chip.seeded.flash [⟨1, ⟨2, State.new⟩⟩]) 2 (fixed fun _ => true) =
        ⟨.slot 1 1 2, [⟨1, ⟨2, State.pendingVerify⟩⟩]⟩ ∧
      planBoot (bootOnce 2 (fun _ => true)
          (execWrites Chip.seeded.flash [⟨1, ⟨2, State.new⟩⟩])) 2 (fixed fun _ => true) =
        ⟨.slot (slotOf 1 2) 0 1, [⟨1, ⟨2, State.aborted⟩⟩]⟩ := by
  have h := (update_cycle Chip.seeded.flash 2 1 ⟨1, ⟨2, State.new⟩⟩ activate_seeded (by decide) 0
    ⟨1, State.valid⟩ isHighest_seeded (fun _ => true) rfl).2.2 rfl
  exact ⟨h.1, h.2.1.1⟩

theorem confirm_pair : confirm (pair ⟨1, State.valid⟩ ⟨2, State.pendingVerify⟩) =
    some ⟨1, ⟨2, State.valid⟩⟩ := by
  decide +kernel

section Run

variable {mayBoot : List Request → ImageOk → Prop} {mayAct : Option Running → Prop}
  {m m' : Option Running} {s : Chip}

/-- A job of one update, from beginning to end. -/
theorem reaches_write {o : Origin} {w : Write} {f : Flash}
    (h : Start 2 mayBoot mayAct m s (commands (issue o [w])) m') (hf : execWrites s.flash [w] = f) :
    (chain 2 mayBoot mayAct).Reaches ⟨s, [], m⟩ ⟨⟨f, ⟨w, o⟩ :: s.log⟩, [], m'⟩ := by
  have hreach := Crash.Machine.reaches_done (M := chain 2 mayBoot mayAct) h
  have hrun : chipDevice.run (commands (issue o [w])) s = ⟨f, ⟨w, o⟩ :: s.log⟩ := by
    rw [run_commands, hf]
    rfl
  exact hrun ▸ hreach

/-- The chip once the image of slot 1 has been activated, started and confirmed. -/
def Chip.updated : Chip :=
  ⟨pair ⟨1, State.valid⟩ ⟨2, State.valid⟩,
    [⟨⟨1, ⟨2, State.valid⟩⟩, .confirm (some ⟨1, 1, 2⟩)⟩, ⟨⟨1, ⟨2, State.pendingVerify⟩⟩, .boot⟩,
      ⟨⟨1, ⟨2, State.new⟩⟩, .activate⟩, seedRequest]⟩

theorem activate_updated : activate Chip.updated.flash 2 0 = .ok ⟨0, ⟨3, State.new⟩⟩ :=
  activate_of_next (p := 1) (q := 2) (by decide +kernel) (by decide +kernel) (by decide)

theorem reaches_updated (hboot : ∀ log, mayBoot log allBootable) (hact : ∀ i, mayAct (some i)) :
    (chain 2 mayBoot mayAct).Reaches (atRest Chip.blank) ⟨Chip.updated, [], some ⟨1, 1, 2⟩⟩ := by
  refine (reaches_seeded (hboot [])).trans ?_
  have hactivate : Start 2 mayBoot mayAct (some ⟨0, 0, 1⟩) Chip.seeded
      (commands (issue .activate [⟨1, ⟨2, State.new⟩⟩])) (some ⟨0, 0, 1⟩) :=
    .activate (hact _) activate_seeded
  refine (reaches_write hactivate (execWrites_seeded _)).trans ?_
  let activated : Chip :=
    ⟨pair ⟨1, State.valid⟩ ⟨2, State.new⟩, ⟨⟨1, ⟨2, State.new⟩⟩, .activate⟩ :: Chip.seeded.log⟩
  have hstart : Start 2 mayBoot mayAct (some ⟨0, 0, 1⟩) activated _ _ := .boot _ _ _ (hboot _)
  rw [planBoot_pair_new] at hstart
  refine (reaches_write hstart (execWrites_pair _ _ _)).trans ?_
  let pending : Chip := ⟨pair ⟨1, State.valid⟩ ⟨2, State.pendingVerify⟩,
    ⟨⟨1, ⟨2, State.pendingVerify⟩⟩, .boot⟩ :: activated.log⟩
  have hconfirm : Start 2 mayBoot mayAct (some ⟨1, 1, 2⟩) pending
      (commands (issue (.confirm (some ⟨1, 1, 2⟩)) [⟨1, ⟨2, State.valid⟩⟩])) (some ⟨1, 1, 2⟩) :=
    .confirm (hact _) confirm_pair
  exact reaches_write hconfirm (execWrites_pair _ _ _)

/-- Then the next activation begins. -/
theorem reaches_updating (hboot : ∀ log, mayBoot log allBootable) (hact : ∀ i, mayAct (some i)) :
    (chain 2 mayBoot mayAct).Reaches (atRest Chip.blank)
      ⟨Chip.updated, commands (issue .activate [⟨0, ⟨3, State.new⟩⟩]), some ⟨1, 1, 2⟩⟩ :=
  (reaches_updated hboot hact).tail (.start (.activate (hact _) activate_updated))

end Run

end AtomicOta.Otadata
