import AtomicOta.Otadata.Attempts

/-!
# Seeding, and the entries that were there

The bootloader seeds a flash on which both sectors say nothing, which is a first boot –
or a flash whose entries were lost in the writes that recorded their rejection. With the
verdicts on images fixed, three things keep the two apart, and
`AtomicOta.Otadata.never_reseeds_iff` says that nothing else does: slot 0 is not
bootable, or a sector holds a rejected entry, which no boot writes over, or one holds a
valid entry whose image is bootable, which no boot writes over either
(`AtomicOta.Otadata.Anchored`).
-/

namespace AtomicOta.Otadata

/-- Whether a decision starts nothing. -/
def Boot.Halts (b : Boot) : Prop := ∃ h, b = .halt h

/-- **The law**, from a given flash: no attempt seeds, and once one halts the later
ones do. -/
structure NeverReseeds (n : UInt8) (bootable : UInt8 → Bool) (f : Flash) : Prop where
  seed : ∀ as f', Attempts n f as f' → (∀ a ∈ as, a.imageOk = fixed bootable) →
    ∀ a ∈ as, a.plan n ≠ seedPlan
  halt : ∀ as f', Attempts n f as f' → (∀ a ∈ as, a.imageOk = fixed bootable) →
    as.Pairwise fun a a' => (a.plan n).boot.Halts → (a'.plan n).boot.Halts

/-- **What keeps a flash from being seeded**: slot 0 is not bootable, a sector holds a
rejected entry, or one holds a valid entry whose image is bootable. -/
def Anchored (n : UInt8) (bootable : UInt8 → Bool) (f : Flash) : Prop :=
  bootable 0 = false ∨
    (∃ s e, decode (f s) = .ok e ∧ (e.state = State.invalid ∨ e.state = State.aborted)) ∨
    ∃ s e, decode (f s) = .ok e ∧ e.state = State.valid ∧ bootable (slotOf e.seq n) = true

/-- The same, of a book. -/
inductive Anchor (n : UInt8) (bootable : UInt8 → Bool) (b : Book) : Prop
  | unbootable (h : bootable 0 = false)
  | dead (s : Sector) (e : Entry) (he : b s = some e) (ht : e.trust = .dead)
  | valid (s : Sector) (e : Entry) (he : b s = some e) (ht : e.trust = .valid)
    (hok : bootable (slotOf e.seq n) = true)

section Attempts

variable {n : UInt8} {bootable : UInt8 → Bool} {a : Attempt} {as : List Attempt} {f f' : Flash}

theorem Anchor.step (h : Anchor n bootable (view a.before)) (hs : Sound Set.univ a.before)
    (hok : a.imageOk = fixed bootable) (hl : a.Leaves n f') : Anchor n bootable (view f') := by
  cases h with
  | unbootable h => exact .unbootable h
  | dead s e he ht => exact .dead s e (Attempt.dead_stays hs he ht hl) ht
  | valid s e he ht hslot =>
    have hp : Decides (view a.before) n (fixed bootable) (a.plan n) := hok ▸ decides_plan n a
    exact .valid s e ((Attempt.view_eq_of_ne hs (hp.ne_of_valid he ht hslot) hl).trans he) ht hslot

/-- Only an empty book is seeded, and only if slot 0 is bootable. -/
theorem none_of_seedPlan {b : Book} (hp : Decides b n (fixed bootable) seedPlan) :
    (∀ s, b s = none) ∧ bootable 0 = true := by
  have hnone : ∀ s, b s = none := by
    have hw : (⟨0, ⟨1, State.valid⟩⟩ : Write) ∈ seedPlan.writes := List.mem_singleton.mpr rfl
    cases hp.reason hw with
    | abort e _ _ hwe => exact absurd (congrArg Entry.trust hwe) (by simp)
    | invalid e _ _ _ hwe => exact absurd (congrArg Entry.trust hwe) (by simp)
    | mark e _ _ _ hwe => exact absurd (congrArg Entry.trust hwe) (by simp)
    | seed hnone => exact hnone
  refine ⟨hnone, ?_⟩
  rcases decides_of_none hp hnone with ⟨-, hok⟩ | ⟨hbad, -⟩
  · exact hok
  · exact absurd (congrArg Plan.boot hbad) (by simp [seedPlan])

/-- **An anchored flash is not seeded.** -/
theorem Anchor.ne_seedPlan {b : Book} {p : Plan} (h : Anchor n bootable b)
    (hp : Decides b n (fixed bootable) p) : p ≠ seedPlan := by
  rintro rfl
  obtain ⟨hnone, hok⟩ := none_of_seedPlan hp
  cases h with
  | unbootable h => exact absurd (h.symm.trans hok) (by simp)
  | dead s e he => exact absurd he (ne_some_of_none hnone)
  | valid s e he => exact absurd he (ne_some_of_none hnone)

/-! ### Halting -/

/-- No entry that may be booted has a bootable image. -/
def NoneBootable (n : UInt8) (bootable : UInt8 → Bool) (b : Book) : Prop :=
  ∀ s e, b s = some e → e.trust = .valid ∨ e.trust = .unproven → bootable (slotOf e.seq n) = false

/-- A boot that halts has found nothing bootable. -/
theorem noneBootable_of_halts {b : Book} {p : Plan} (hp : Decides b n (fixed bootable) p)
    (h : p.boot.Halts) : NoneBootable n bootable b := by
  intro s e he ht
  cases hp with
  | boots pre c post hranked hpre hc =>
    obtain ⟨_, h⟩ := h
    exact absurd h (by simp)
  | seeds hnone _ => exact absurd he (ne_some_of_none hnone)
  | noImage hnone _ => exact absurd he (ne_some_of_none hnone)
  | noUsable _ hall =>
    obtain ⟨_, hj⟩ := hall ⟨s, e.seq, e.trust⟩ (mem_ranked.mpr ⟨e, he, ht, rfl, rfl⟩)
    exact hj

/-- An anchored flash with nothing bootable makes the boot halt. -/
theorem Anchor.halts {b : Book} {p : Plan} (h : Anchor n bootable b)
    (hb : NoneBootable n bootable b) (hp : Decides b n (fixed bootable) p) : p.boot.Halts := by
  cases hboot : p.boot with
  | halt r => exact ⟨r, rfl⟩
  | slot slot s q =>
    have habsurd : ∀ {e : Entry}, b s = some e → e.trust = .valid ∨ e.trust = .unproven →
        e.seq = q → slot = slotOf q n → (∃ j, fixed bootable j slot = true) → False := by
      rintro e he ht rfl rfl ⟨_, hj⟩
      exact absurd ((hb s e he ht).symm.trans hj) (by simp)
    cases hp.launch hboot with
    | seed _ hseed => exact absurd hseed (h.ne_seedPlan hp)
    | valid e he ht hq hslot hok => exact (habsurd he (.inl ht) hq hslot hok).elim
    | unproven e he ht hq hslot hok => exact (habsurd he (.inr ht) hq hslot hok).elim

theorem NoneBootable.step (hb : NoneBootable n bootable (view a.before))
    (h : Anchor n bootable (view a.before)) (hs : Sound Set.univ a.before)
    (hok : a.imageOk = fixed bootable) (hl : a.Leaves n f') :
    NoneBootable n bootable (view f') := by
  have hp : Decides (view a.before) n (fixed bootable) (a.plan n) := hok ▸ decides_plan n a
  refine (Attempt.keeps (C := NoneBootable n bootable) hs hb (fun w hw b hb' => ⟨?_, ?_⟩) hl).2
  · intro s e he ht
    rcases eq_or_ne s w.sector with rfl | hne
    · rw [Function.update_self] at he
      exact absurd he (by simp)
    · rw [Function.update_of_ne hne] at he
      exact hb' s e he ht
  · intro s e he ht
    rcases eq_or_ne s w.sector with rfl | hne
    · -- a boot that halts only rejects
      rw [Function.update_self, admitted_eq_some] at he
      obtain ⟨-, rfl⟩ := he
      cases hp.reason hw with
      | abort _ _ _ hwe => simp [hwe] at ht
      | invalid _ _ _ _ hwe => simp [hwe] at ht
      | mark _ _ _ hboot _ =>
        obtain ⟨_, hhalt⟩ := h.halts hb hp
        exact absurd (hboot.symm.trans hhalt) (by simp)
      | seed _ hseed => exact absurd hseed (h.ne_seedPlan hp)
    · rw [Function.update_of_ne hne] at he
      exact hb' s e he ht

/-- The attempts after one that halts, on an anchored flash. -/
theorem Attempts.halts (h : Attempts n f as f') (hok : ∀ a ∈ as, a.imageOk = fixed bootable)
    (hs : Sound Set.univ f) (ha : Anchor n bootable (view f))
    (hb : NoneBootable n bootable (view f)) : ∀ a ∈ as, (a.plan n).boot.Halts := by
  intro a hmem
  obtain ⟨-, ha', hb'⟩ := h.forall_before
    (C := fun f => Sound Set.univ f ∧ Anchor n bootable (view f) ∧ NoneBootable n bootable (view f))
    (fun a hmem f' hC hl => ⟨Attempt.sound hC.1 hl, hC.2.1.step hC.1 (hok a hmem) hl,
      hC.2.2.step hC.2.1 hC.1 (hok a hmem) hl⟩) ⟨hs, ha, hb⟩ a hmem
  exact ha'.halts hb' (hok a hmem ▸ decides_plan n a)

theorem Attempts.pairwise_halts (h : Attempts n f as f')
    (hok : ∀ a ∈ as, a.imageOk = fixed bootable) (hs : Sound Set.univ f)
    (ha : Anchor n bootable (view f)) :
    as.Pairwise fun a a' => (a.plan n).boot.Halts → (a'.plan n).boot.Halts := by
  induction h with
  | nil => exact List.Pairwise.nil
  | @cons a f' f'' as hl htail ih =>
    have hoka := hok a List.mem_cons_self
    have hoktail : ∀ a' ∈ as, a'.imageOk = fixed bootable :=
      fun a' ha' => hok a' (List.mem_cons_of_mem _ ha')
    refine List.Pairwise.cons (fun a' ha' hhalt => ?_)
      (ih hoktail (Attempt.sound hs hl) (ha.step hs hoka hl))
    have hb := noneBootable_of_halts (hoka ▸ decides_plan n a) hhalt
    exact htail.halts hoktail (Attempt.sound hs hl) (ha.step hs hoka hl)
      (hb.step ha hs hoka hl) a' ha'

/-- **From an anchored flash the law holds.** -/
theorem Anchor.neverReseeds (h : Anchor n bootable (view f)) (hs : Sound Set.univ f) :
    NeverReseeds n bootable f := by
  refine ⟨fun as f' has hok a ha => ?_, fun as f' has hok => has.pairwise_halts hok hs h⟩
  have hanchor := has.forall_before
    (C := fun f => Sound Set.univ f ∧ Anchor n bootable (view f))
    (fun a ha f' hC hl => ⟨Attempt.sound hC.1 hl, hC.2.step hC.1 (hok a ha) hl⟩) ⟨hs, h⟩ a ha
  exact hanchor.2.ne_seedPlan (hok a ha ▸ decides_plan n a)

end Attempts

/-! ### The law -/

variable {n : UInt8} {bootable : UInt8 → Bool} {f : Flash}

theorem anchored_iff : Anchored n bootable f ↔ Anchor n bootable (view f) := by
  constructor
  · rintro (h | ⟨s, e, he, hs⟩ | ⟨s, e, he, hs, hok⟩)
    · exact .unbootable h
    · have hadm := ((decode_eq_ok_iff _ _).mp he).1
      exact .dead s e (accepted_eq_some.mpr he) ((Entry.trust_eq_dead hadm.known).mpr hs)
    · exact .valid s e (accepted_eq_some.mpr he) (Entry.trust_eq_valid.mpr hs) hok
  · intro h
    cases h with
    | unbootable h => exact .inl h
    | dead s e he ht =>
      have hadm := admissible_of_accepted he
      exact .inr (.inl ⟨s, e, accepted_eq_some.mp he, (Entry.trust_eq_dead hadm.known).mp ht⟩)
    | valid s e he ht hok =>
      exact .inr (.inr ⟨s, e, accepted_eq_some.mp he, Entry.trust_eq_valid.mp ht, hok⟩)

/-- **A flash that is not anchored can be seeded**: two cuts at most, and nothing is
left of what it held. -/
theorem not_neverReseeds (h : ¬Anchored n bootable f) : ¬NeverReseeds n bootable f := by
  intro hlaw
  rw [anchored_iff] at h
  have hslot : bootable 0 = true := by
    by_contra hbad
    exact h (.unbootable (Bool.eq_false_of_not_eq_true hbad))
  have hlosable : Losable n (fixed bootable) (view f) := by
    refine fun s e he => ⟨fun ht => h (.dead s e he ht), fun ht _ => ?_⟩
    by_contra hok
    exact h (.valid s e he ht (by simpa [fixed] using hok))
  obtain ⟨as, g, has, hok, hnone⟩ := hlosable.lose_all
  set seed : Attempt := ⟨g, fixed bootable, true⟩
  have hlast : Attempts n g [seed] (execWrites g (seed.plan n).writes) :=
    Attempts.cons (a := seed) (Attempt.leaves_completed rfl) (.nil _)
  refine hlaw.seed _ _ (has.append hlast) (fun a ha => ?_) seed (by simp)
    (planBoot_of_none hnone hslot)
  rcases List.mem_append.mp ha with ha | ha
  · exact hok a ha
  · obtain rfl := List.mem_singleton.mp ha
    rfl

/-- **Seeding happens only if no entry was ever there, exactly when something holds
the flash back from it**: slot 0 is not bootable, an entry is recorded as rejected, or a
valid one is bootable. -/
theorem never_reseeds_iff (n : UInt8) (bootable : UInt8 → Bool) (f : Flash)
    (hf : ∀ s, f s = blank ∨ ∃ e : Entry, e.Admissible ∧ f s = e.encode) :
    NeverReseeds n bootable f ↔ Anchored n bootable f := by
  refine ⟨fun h => ?_, fun h => (anchored_iff.mp h).neverReseeds (sound_of_exact hf)⟩
  by_contra hnot
  exact not_neverReseeds hnot h

/-- The same for a flash with a single candidate, of sequence 2 in sector 1. -/
theorem never_reseeds_iff_single :
    NeverReseeds 2 (fun _ => true)
        (Function.update (fun _ => blank) 1 (Entry.encode ⟨2, State.new⟩)) ↔
      Anchored 2 (fun _ => true)
        (Function.update (fun _ => blank) 1 (Entry.encode ⟨2, State.new⟩)) :=
  never_reseeds_iff 2 (fun _ => true) _ fun s => by
    rcases eq_or_ne s 1 with rfl | hne
    · exact .inr ⟨⟨2, State.new⟩, by decide, Function.update_self ..⟩
    · exact .inl (Function.update_of_ne hne ..)

/-- **The law does not hold of every flash**: a single unproven entry, lost in the write
that marks it, is followed by a first boot. -/
theorem reseeds_after_entry :
    ¬∀ (n : UInt8) (bootable : UInt8 → Bool) (f : Flash), 1 ≤ n →
      (∀ s, f s = blank ∨ ∃ e : Entry, e.Admissible ∧ f s = e.encode) →
      (∃ s e, decode (f s) = .ok e) → NeverReseeds n bootable f := by
  intro h
  set f : Flash := Function.update (fun _ => blank) 1 (Entry.encode ⟨2, State.new⟩) with hf
  have hf1 : f 1 = Entry.encode ⟨2, State.new⟩ := Function.update_self ..
  have hf0 : f 0 = blank := Function.update_of_ne (by decide) ..
  have hdec : decode (f 1) = .ok ⟨2, State.new⟩ := hf1 ▸ decode_encode (by decide)
  have honly : ∀ {s : Sector} {e : Entry}, decode (f s) = .ok e → e = ⟨2, State.new⟩ := by
    intro s e he
    rcases eq_or_ne s 1 with rfl | hne
    · exact (Decoded.ok.inj (hdec.symm.trans he)).symm
    · rw [eq_other_of_ne hne, show other 1 = 0 from rfl, hf0, decode_blank] at he
      exact absurd he (by simp)
  have hnot : ¬Anchored 2 (fun _ => true) f := by
    rintro (hbad | ⟨s, e, he, hs⟩ | ⟨s, e, he, hs, -⟩)
    · exact absurd hbad (by simp)
    · rw [honly he] at hs
      revert hs
      decide
    · rw [honly he] at hs
      revert hs
      decide
  refine not_neverReseeds hnot (h 2 (fun _ => true) f (by decide) (fun s => ?_) ⟨1, _, hdec⟩)
  rcases eq_or_ne s 1 with rfl | hne
  · exact .inr ⟨_, by decide, hf1⟩
  · exact .inl (Function.update_of_ne hne ..)

end AtomicOta.Otadata
