import AtomicOta.Otadata.Search

/-!
# What a boot is for

The boot decision without its loops. Stated on the entries alone, a boot starts the entry
of the highest sequence among those that may be booted and have a bootable image
(`AtomicOta.Otadata.Chosen`), and leaves on the flash why the others were not: the pending
entries are aborted, the entries passed over are invalid, the entry it starts is pending if
it has never run. `AtomicOta.Otadata.Specified` is this description, and
`AtomicOta.Otadata.planBoot_specified` says that `AtomicOta.Otadata.planBoot` meets it on
any flash whose two entries are not of the same sequence.

Two entries of one sequence are ranked too, but by the sector they are in, which is not
something the description should have an opinion on.
-/

namespace AtomicOta.Otadata

/-! ### The description -/

/-- An entry that may be booted: a valid one, or one that has never run. -/
def InPlay (f : Flash) (s : Sector) (e : Entry) : Prop :=
  decode (f s) = .ok e ∧ (e.state = State.valid ∨ e.state = State.new)

/-- **The entry to boot**: the highest of those that may be booted and can be. -/
structure Chosen (f : Flash) (n : UInt8) (bootable : UInt8 → Bool) (s : Sector) (e : Entry) :
    Prop where
  inPlay : InPlay f s e
  image : bootable (slotOf e.seq n) = true
  highest : ∀ s' e', InPlay f s' e' → bootable (slotOf e'.seq n) = true → e'.seq ≤ e.seq

/-- The write that aborts a pending entry, in its own sector and with its own sequence. -/
def AbortsPending (f : Flash) (w : Write) : Prop :=
  ∃ e, decode (f w.sector) = .ok e ∧ e.state = State.pendingVerify ∧
    w.entry = ⟨e.seq, State.aborted⟩

/-- The write that rejects an entry that may be booted, if it is one of those passed over. -/
def RejectsPassed (f : Flash) (passed : Entry → Prop) (w : Write) : Prop :=
  ∃ e, InPlay f w.sector e ∧ passed e ∧ w.entry = ⟨e.seq, State.invalid⟩

/-- **What a plan has to be**, from the entries and the verdict on the images. -/
structure Specified (f : Flash) (n : UInt8) (bootable : UInt8 → Bool) (p : Plan) : Prop where
  /-- Some entry can be booted: the chosen one is, the ones above it are rejected, and it
  is marked if it has never run. -/
  boots : (∃ s e, InPlay f s e ∧ bootable (slotOf e.seq n) = true) →
    ∃ s e, Chosen f n bootable s e ∧ p.boot = .slot (slotOf e.seq n) s e.seq ∧
      ∀ w, w ∈ p.writes ↔ AbortsPending f w ∨ RejectsPassed f (fun e' => e.seq < e'.seq) w ∨
        (e.state = State.new ∧ w = ⟨s, ⟨e.seq, State.pendingVerify⟩⟩)
  /-- There are entries, but none can be booted. -/
  halts : (¬∃ s e, InPlay f s e ∧ bootable (slotOf e.seq n) = true) →
    (∃ s e, decode (f s) = .ok e) →
    p.boot = .halt .noUsableEntry ∧
      ∀ w, w ∈ p.writes ↔ AbortsPending f w ∨ RejectsPassed f (fun _ => True) w
  /-- There are no entries, and slot 0 can be booted. -/
  seeds : (¬∃ s e, decode (f s) = .ok e) → bootable 0 = true →
    p = ⟨.slot 0 0 1, [⟨0, ⟨1, State.valid⟩⟩]⟩
  /-- There are no entries, and nothing to boot. -/
  noImage : (¬∃ s e, decode (f s) = .ok e) → bootable 0 = false → p = ⟨.halt .noImage, []⟩
  /-- No sector is written twice. -/
  once : p.writes.Pairwise fun w w' => w.sector ≠ w'.sector
  /-- A valid entry with a bootable image is never written. -/
  spares : ∀ s e, decode (f s) = .ok e → e.state = State.valid →
    bootable (slotOf e.seq n) = true → ∀ w ∈ p.writes, w.sector ≠ s
  /-- The four places of the write array are enough: the list only grows, and no index
  past them is ever written. -/
  fits : p.writes.length ≤ 4

/-! ### The ranking and the description -/

section Ranking

variable {f : Flash} {n : UInt8} {bootable : UInt8 → Bool}

theorem mem_ranked_inPlay {c : Candidate} :
    c ∈ ranked (view f) ↔ ∃ e, InPlay f c.sector e ∧ c.seq = e.seq ∧ c.trust = e.trust := by
  rw [mem_ranked]
  refine exists_congr fun e => ?_
  rw [InPlay, Entry.trust_eq_valid, Entry.trust_eq_unproven]
  exact ⟨fun ⟨he, ht, hq⟩ => ⟨⟨accepted_eq_some.mp he, ht⟩, hq⟩,
    fun ⟨⟨he, ht⟩, hq⟩ => ⟨accepted_eq_some.mpr he, ht, hq⟩⟩

/-- The candidate an entry is. -/
theorem InPlay.mem_ranked {s : Sector} {e : Entry} (h : InPlay f s e) :
    (⟨s, e.seq, e.trust⟩ : Candidate) ∈ ranked (view f) :=
  mem_ranked_inPlay.mpr ⟨e, h, rfl, rfl⟩

theorem mem_aborts_iff {w : Write} : w ∈ aborts (view f) ↔ AbortsPending f w := by
  rw [mem_aborts]
  refine exists_congr fun e => ?_
  rw [Entry.trust_eq_pending]
  exact and_congr_left fun _ => accepted_eq_some

/-- Everything that may be booted is rejected with the whole ranking. -/
theorem mem_map_ranked {w : Write} :
    w ∈ (ranked (view f)).map Candidate.invalid ↔ RejectsPassed f (fun _ => True) w := by
  rw [List.mem_map]
  constructor
  · rintro ⟨c, hc, rfl⟩
    obtain ⟨e, he, hseq, -⟩ := mem_ranked_inPlay.mp hc
    exact ⟨e, he, trivial, hseq ▸ rfl⟩
  · rintro ⟨e, he, -, hw⟩
    refine ⟨⟨w.sector, e.seq, e.trust⟩, he.mem_ranked, ?_⟩
    rw [Candidate.invalid, ← hw]

variable {pre post : List Candidate} {c : Candidate} (hranked : ranked (view f) = pre ++ c :: post)

include hranked

/-- The candidates ranked after the one that is booted are no higher. -/
theorem le_of_mem_post {d : Candidate} (hd : d ∈ post) : d.seq.toNat ≤ c.seq.toNat := by
  have hpair := ranked_pairwise (view f)
  rw [hranked] at hpair
  exact ((List.pairwise_cons.mp (List.pairwise_append.mp hpair).2.1).1 d hd).1

/-- **The candidate that is booted is the chosen entry.** -/
theorem chosen_of_ranked {e : Entry} (he : InPlay f c.sector e) (hseq : c.seq = e.seq)
    (hpre : ∀ d ∈ pre, bootable (slotOf d.seq n) = false)
    (hc : bootable (slotOf c.seq n) = true) : Chosen f n bootable c.sector e := by
  refine ⟨he, hseq ▸ hc, fun s' e' he' hok => ?_⟩
  rw [UInt32.le_iff_toNat_le, ← hseq]
  have hmem := he'.mem_ranked
  rw [hranked, List.mem_append, List.mem_cons] at hmem
  rcases hmem with hmem | rfl | hmem
  · have hno : bootable (slotOf e'.seq n) = false := hpre ⟨s', e'.seq, e'.trust⟩ hmem
    exact absurd (hok.symm.trans hno) (by simp)
  · exact le_rfl
  · exact le_of_mem_post hranked hmem

/-- **The candidates ranked before the one that is booted are the higher ones**, if no two
entries have one sequence. -/
theorem mem_map_pre {e : Entry} (he : InPlay f c.sector e) (hseq : c.seq = e.seq)
    (hdist : ∀ s s' d d', decode (f s) = .ok d → decode (f s') = .ok d' → d.seq = d'.seq → s = s')
    {w : Write} :
    w ∈ pre.map Candidate.invalid ↔ RejectsPassed f (fun e' => e.seq < e'.seq) w := by
  have hpair := ranked_pairwise (view f)
  rw [hranked] at hpair
  have hcross := (List.pairwise_append.mp hpair).2.2
  rw [List.mem_map]
  constructor
  · rintro ⟨d, hd, rfl⟩
    obtain ⟨e', he', hseq', -⟩ :=
      mem_ranked_inPlay.mp (hranked ▸ List.mem_append_left _ hd : d ∈ ranked (view f))
    obtain ⟨hle, hne⟩ := hcross d hd c List.mem_cons_self
    refine ⟨e', he', UInt32.lt_iff_toNat_lt.mpr ?_, hseq' ▸ rfl⟩
    have hdiff : e'.seq.toNat ≠ e.seq.toNat := fun heq =>
      hne (hdist _ _ e' e he'.1 he.1 (UInt32.toNat_inj.mp heq))
    rw [hseq, hseq'] at hle
    omega
  · rintro ⟨e', he', hlt, hw⟩
    have hlt' : c.seq.toNat < e'.seq.toNat := hseq ▸ UInt32.lt_iff_toNat_lt.mp hlt
    refine ⟨⟨w.sector, e'.seq, e'.trust⟩, ?_, by rw [Candidate.invalid, ← hw]⟩
    have hmem := he'.mem_ranked
    rw [hranked, List.mem_append, List.mem_cons] at hmem
    rcases hmem with hmem | rfl | hmem
    · exact hmem
    · exact absurd hlt' (lt_irrefl _)
    · have := le_of_mem_post hranked hmem
      dsimp only at this
      omega

end Ranking

/-- The mark of a candidate, as a write. -/
theorem mem_mark {c : Candidate} {e : Entry} (hseq : c.seq = e.seq) (htrust : c.trust = e.trust)
    {w : Write} :
    w ∈ c.mark ↔ e.state = State.new ∧ w = ⟨c.sector, ⟨e.seq, State.pendingVerify⟩⟩ := by
  rw [Candidate.mark, htrust, ← Entry.trust_eq_unproven, ← hseq]
  split_ifs with h <;> simp [h]

/-- Two sectors are not enough to overflow the write array. -/
theorem length_le_of_pairwise {ws : List Write}
    (h : ws.Pairwise fun w w' => w.sector ≠ w'.sector) : ws.length ≤ 4 := by
  have hnodup : (ws.map Write.sector).Nodup := List.pairwise_map.mpr h
  have hle : (ws.map Write.sector).length ≤ 2 := hnodup.length_le_card
  rw [List.length_map] at hle
  omega

/-! ### The plan meets the description -/

section Plan

variable {f : Flash} {n : UInt8} {bootable : UInt8 → Bool} {p : Plan}

/-- A plan that boots a candidate. -/
theorem specified_boots {pre post : List Candidate} {c : Candidate}
    (hdist : ∀ s s' d d', decode (f s) = .ok d → decode (f s') = .ok d' → d.seq = d'.seq → s = s')
    (hranked : ranked (view f) = pre ++ c :: post)
    (hpre : ∀ d ∈ pre, bootable (slotOf d.seq n) = false)
    (hc : bootable (slotOf c.seq n) = true) :
    ∃ s e, Chosen f n bootable s e ∧
      Boot.slot (slotOf c.seq n) c.sector c.seq = .slot (slotOf e.seq n) s e.seq ∧
      ∀ w, w ∈ aborts (view f) ++ pre.map Candidate.invalid ++ c.mark ↔
        AbortsPending f w ∨ RejectsPassed f (fun e' => e.seq < e'.seq) w ∨
          (e.state = State.new ∧ w = ⟨s, ⟨e.seq, State.pendingVerify⟩⟩) := by
  have hmem : c ∈ ranked (view f) := by
    rw [hranked]
    exact List.mem_append_right _ List.mem_cons_self
  obtain ⟨e, he, hseq, htrust⟩ := mem_ranked_inPlay.mp hmem
  refine ⟨c.sector, e, chosen_of_ranked hranked he hseq hpre hc, by rw [hseq], fun w => ?_⟩
  rw [List.mem_append, List.mem_append, mem_aborts_iff, mem_map_pre hranked he hseq hdist,
    mem_mark hseq htrust, or_assoc]

/-- **`plan_boot` is what a boot is for**, on any flash whose two entries, if it has two,
are not of the same sequence. -/
theorem planBoot_specified (f : Flash) (n : UInt8) (bootable : UInt8 → Bool)
    (hdist : ∀ e e', decode (f 0) = .ok e → decode (f 1) = .ok e' → e.seq ≠ e'.seq) :
    Specified f n bootable (planBoot f n (fixed bootable)) := by
  have hdist' : ∀ s s' d d', decode (f s) = .ok d → decode (f s') = .ok d' → d.seq = d'.seq →
      s = s' := by
    intro s s' d d' hd hd' heq
    fin_cases s <;> fin_cases s'
    exacts [rfl, absurd heq (hdist d d' hd hd'), absurd heq.symm (hdist d' d hd' hd), rfl]
  have hdecides := decides_planBoot f n (fixed bootable)
  generalize planBoot f n (fixed bootable) = p at hdecides
  have hnone : (∀ s, view f s = none) ↔ ¬∃ s e, decode (f s) = .ok e := by
    rw [not_exists]
    refine forall_congr' fun s => ?_
    rw [not_exists, Option.eq_none_iff_forall_ne_some]
    exact forall_congr' fun e => not_congr accepted_eq_some
  -- a fixed verdict is the same at every call
  have hpre' : ∀ {pre : List Candidate},
      (∀ d ∈ pre, ∃ j, fixed bootable j (slotOf d.seq n) = false) →
      ∀ d ∈ pre, bootable (slotOf d.seq n) = false := by
    rintro pre h d hd
    obtain ⟨_, hj⟩ := h d hd
    exact hj
  refine ⟨?_, ?_, ?_, ?_, hdecides.pairwise, ?_, length_le_of_pairwise hdecides.pairwise⟩
  · rintro ⟨s, e, he, hok⟩
    cases hdecides with
    | boots pre c post hranked hpre hc =>
      obtain ⟨_, hc⟩ := hc
      exact specified_boots hdist' hranked (hpre' hpre) hc
    | seeds hno _ => exact absurd ⟨s, e, he.1⟩ (hnone.mp hno)
    | noImage hno _ => exact absurd ⟨s, e, he.1⟩ (hnone.mp hno)
    | noUsable _ hall =>
      obtain ⟨_, hbad⟩ := hall ⟨s, e.seq, e.trust⟩ he.mem_ranked
      exact absurd (hok.symm.trans hbad) (by simp)
  · rintro hno ⟨s, e, he⟩
    cases hdecides with
    | boots pre c post hranked hpre hc =>
      obtain ⟨_, hc⟩ := hc
      obtain ⟨s', e', hchosen, -⟩ := specified_boots hdist' hranked (hpre' hpre) hc
      exact absurd ⟨s', e', hchosen.inPlay, hchosen.image⟩ hno
    | seeds hempty _ => exact absurd ⟨s, e, he⟩ (hnone.mp hempty)
    | noImage hempty _ => exact absurd ⟨s, e, he⟩ (hnone.mp hempty)
    | noUsable _ _ =>
      refine ⟨rfl, fun w => ?_⟩
      rw [List.mem_append, mem_aborts_iff, mem_map_ranked]
  · rintro hempty hok
    rcases decides_of_none hdecides (hnone.mpr hempty) with ⟨rfl, -⟩ | ⟨-, hbad⟩
    · rfl
    · exact absurd (hok.symm.trans hbad) (by simp)
  · rintro hempty hok
    rcases decides_of_none hdecides (hnone.mpr hempty) with ⟨-, hbad⟩ | ⟨rfl, -⟩
    · exact absurd (hbad.symm.trans hok) (by simp)
    · rfl
  · rintro s e he hs hok
    exact hdecides.ne_of_valid (accepted_eq_some.mpr he) (Entry.trust_eq_valid.mpr hs) hok

end Plan

/-- The description is met beside a valid entry by one that has never run. -/
theorem planBoot_specified_two :
    let f := Function.update (single 0 ⟨1, State.valid⟩) 1 (Entry.encode ⟨2, State.new⟩)
    Specified f 2 (fun _ => true) (planBoot f 2 (fixed fun _ => true)) := by
  intro f
  refine planBoot_specified f 2 (fun _ => true) fun e e' he he' => ?_
  have h0 : decode (f 0) = .ok ⟨1, State.valid⟩ := decode_encode (by decide)
  have h1 : decode (f 1) = .ok ⟨2, State.new⟩ := decode_encode (by decide)
  rw [Decoded.ok.inj (he.symm.trans h0), Decoded.ok.inj (he'.symm.trans h1)]
  decide

end AtomicOta.Otadata
