import AtomicOta.Otadata.Attempts

/-!
# A candidate is booted at most once

The bootloader boots an unproven entry after it has marked it, and aborts the entries
it finds marked, so an entry that ran once and was not confirmed does not run again –
as long as an entry that is lost is not mistaken for one that never was. The seed of a
first boot is where it can be: both sectors say nothing, the bootloader writes the
entry of sector 0 with sequence 1, and if *that* entry is the one that was rejected, it
is back, valid.

`AtomicOta.Otadata.booted_once_iff` says exactly from which flashes this happens: an
unproven or pending entry of sequence 1 in sector 0, and no rejected entry in
sector 1 (`AtomicOta.Otadata.Reseedable`). From any other flash the rule holds in every
sequence of attempts.
-/

namespace AtomicOta.Otadata

/-- A state in which an entry must not be booted. -/
def Entry.Rejected (e : Entry) : Prop :=
  e.state = State.pendingVerify ∨ e.state = State.invalid ∨ e.state = State.aborted

/-- **The rule**, from a given flash: in every sequence of attempts an unproven entry is
started at most once, and a rejected one not at all, neither by the attempt that finds
it nor by a later one. -/
structure BootedOnce (n : UInt8) (f : Flash) : Prop where
  candidate : ∀ as f', Attempts n f as f' → ∀ s e, decode (f s) = .ok e → e.state = State.new →
    as.Pairwise fun a a' => ¬(a.Starts n s e.seq ∧ a'.Starts n s e.seq)
  rejected : ∀ as f', Attempts n f as f' →
    (∀ a ∈ as, ∀ s e, decode (a.before s) = .ok e → e.Rejected → ¬a.Starts n s e.seq) ∧
    as.Pairwise fun a a' =>
      ∀ s e, decode (a.before s) = .ok e → e.Rejected → ¬a'.Starts n s e.seq

/-- The flashes from which a first boot can bring back what was rejected. -/
def Reseedable (f : Flash) : Prop :=
  (∃ e, decode (f 0) = .ok e ∧ e.seq = 1 ∧ (e.state = State.new ∨ e.state = State.pendingVerify)) ∧
    ∀ e, decode (f 1) = .ok e → ¬(e.state = State.invalid ∨ e.state = State.aborted)

/-! ### Entries that cannot come back -/

/-- No seed will be written over the entry of a sector, of a given sequence: the seed
is another entry, or a rejected entry prevents it. -/
def Sealed (s : Sector) (q : UInt32) (b : Book) : Prop :=
  ¬(s = 0 ∧ q = 1) ∨ ∃ s' e, b s' = some e ∧ e.trust = .dead

/-- The entry of a sector, of a given sequence, if there is one, is believed so
much. -/
def Believed (T : Trust → Prop) (s : Sector) (q : UInt32) (b : Book) : Prop :=
  ∀ e, b s = some e → e.seq = q → T e.trust

section Steps

variable {n : UInt8} {a : Attempt} {as : List Attempt} {f f' : Flash} {s : Sector} {q : UInt32}

/-- A write about a sealed entry marks or rejects it. -/
theorem Sealed.trust_write {b : Book} {ok : ImageOk} {p : Plan} (h : Sealed s q b)
    (hp : Decides b n ok p) {w : Write} (hw : w ∈ p.writes) (hs : w.sector = s)
    (hq : w.entry.seq = q) : w.entry.trust = .pending ∨ w.entry.trust = .dead := by
  cases hp.reason hw with
  | abort e _ _ hwe => simp [hwe]
  | invalid e _ _ _ hwe => simp [hwe]
  | mark e _ _ _ hwe => simp [hwe]
  | seed hnone _ hws =>
    rcases h with h | ⟨s', e, he, -⟩
    · exact absurd ⟨by rw [← hs, hws], by rw [← hq, hws]⟩ h
    · exact absurd he (ne_some_of_none hnone)

theorem Sealed.step (h : Sealed s q (view a.before)) (hs : Sound Set.univ a.before)
    (hl : a.Leaves n f') : Sealed s q (view f') := by
  rcases h with h | ⟨s', e, he, ht⟩
  · exact .inl h
  · exact .inr ⟨s', e, Attempt.dead_stays hs he ht hl, ht⟩

/-- What is believed of an entry stays so, if no write about it says otherwise. -/
theorem Believed.leaves {T : Trust → Prop} (h : Believed T s q (view a.before))
    (hs : Sound Set.univ a.before)
    (hw : ∀ w ∈ (a.plan n).writes, w.sector = s → w.entry.seq = q → T w.entry.trust)
    (hl : a.Leaves n f') : Believed T s q (view f') := by
  refine (Attempt.keeps (C := Believed T s q) hs h (fun w hmem b hb => ⟨?_, ?_⟩) hl).2
  · intro e he hq
    rcases eq_or_ne s w.sector with rfl | hne
    · rw [Function.update_self] at he
      exact absurd he (by simp)
    · rw [Function.update_of_ne hne] at he
      exact hb e he hq
  · intro e he hq
    rcases eq_or_ne s w.sector with rfl | hne
    · rw [Function.update_self, admitted_eq_some] at he
      obtain ⟨-, rfl⟩ := he
      exact hw w hmem rfl hq
    · rw [Function.update_of_ne hne] at he
      exact hb e he hq

/-- What is believed of a sealed entry stays so, if rejecting and marking it do not
change that. -/
theorem Believed.step {T : Trust → Prop} (h : Believed T s q (view a.before))
    (hsealed : Sealed s q (view a.before)) (hs : Sound Set.univ a.before) (hpending : T .pending)
    (hdead : T .dead) (hl : a.Leaves n f') : Believed T s q (view f') := by
  refine h.leaves hs (fun w hw hws hq => ?_) hl
  rcases hsealed.trust_write (decides_plan n a) hw hws hq with ht | ht <;> rw [ht] <;> assumption

/-- An entry that is sealed, and rejected if it is there at all. -/
structure Barred (s : Sector) (q : UInt32) (b : Book) : Prop where
  isSealed : Sealed s q b
  rejected : Believed (fun t => t = .pending ∨ t = .dead) s q b

theorem Barred.step (h : Barred s q (view a.before)) (hs : Sound Set.univ a.before)
    (hl : a.Leaves n f') : Barred s q (view f') :=
  ⟨h.isSealed.step hs hl, h.rejected.step h.isSealed hs (.inl rfl) (.inr rfl) hl⟩

/-- **A barred entry is not started.** -/
theorem Barred.not_starts (h : Barred s q (view a.before)) : ¬a.Starts n s q := by
  rintro ⟨-, ⟨e, he, hq⟩, slot, hboot⟩
  have hview : view a.before s = some e := accepted_eq_some.mpr he
  have habsurd : e.trust = .valid ∨ e.trust = .unproven → False := by
    intro ht
    rcases h.rejected e hview hq with h | h <;> rw [h] at ht <;> revert ht <;> decide
  cases (decides_plan n a).launch hboot with
  | seed hnone => exact absurd hview (ne_some_of_none hnone)
  | valid e' he' ht' =>
    obtain rfl := Option.some.inj (hview.symm.trans he')
    exact habsurd (.inl ht')
  | unproven e' he' ht' =>
    obtain rfl := Option.some.inj (hview.symm.trans he')
    exact habsurd (.inr ht')

theorem Attempts.not_starts_of_barred (h : Attempts n f as f') (hs : Sound Set.univ f)
    (hb : Barred s q (view f)) : ∀ a ∈ as, ¬a.Starts n s q := by
  intro a ha
  refine Barred.not_starts (h.forall_before
    (C := fun f => Sound Set.univ f ∧ Barred s q (view f)) (fun a' _ f' hC hl => ?_)
    ⟨hs, hb⟩ a ha).2
  exact ⟨Attempt.sound hC.1 hl, hC.2.step hC.1 hl⟩

/-- **Once started, barred**: an attempt that starts a sealed entry that is not valid
has marked it. -/
theorem barred_of_starts (hsealed : Sealed s q (view a.before)) (hs : Sound Set.univ a.before)
    (hb : Believed (· ≠ .valid) s q (view a.before)) (h : a.Starts n s q) (hl : a.Leaves n f') :
    Barred s q (view f') := by
  refine ⟨hsealed.step hs hl, ?_⟩
  obtain ⟨hcompleted, ⟨e, he, hq⟩, slot, hboot⟩ := h
  have hview : view a.before s = some e := accepted_eq_some.mpr he
  cases (decides_plan n a).launch hboot with
  | seed hnone => exact absurd hview (ne_some_of_none hnone)
  | valid e' he' ht' hq' => exact absurd ht' (hb e' he' hq')
  | unproven e' he' ht' hq' hslot hok hw =>
    unfold Attempt.Leaves at hl
    rw [if_pos hcompleted] at hl
    have hafter := view_execWrites_of_mem (decides_plan n a).pairwise hw a.before
    intro e'' he'' _
    rw [hl, hafter, admitted_eq_some] at he''
    obtain ⟨-, rfl⟩ := he''
    exact .inl (Entry.trust_pendingVerify q)

/-- An entry that is sealed and not valid is started at most once. -/
theorem Attempts.starts_once (h : Attempts n f as f') (hs : Sound Set.univ f)
    (hsealed : Sealed s q (view f)) (hb : Believed (· ≠ .valid) s q (view f)) :
    as.Pairwise fun a a' => ¬(a.Starts n s q ∧ a'.Starts n s q) := by
  induction h with
  | nil => exact List.Pairwise.nil
  | @cons a f' f'' as hl htail ih =>
    refine List.Pairwise.cons (fun a' ha' hboth => ?_)
      (ih (Attempt.sound hs hl) (hsealed.step hs hl)
        (hb.step hsealed hs (by decide) (by decide) hl))
    exact htail.not_starts_of_barred (Attempt.sound hs hl)
      (barred_of_starts hsealed hs hb hboth.1 hl) a' ha' hboth.2

theorem Attempts.pairwise_barred (h : Attempts n f as f') (hs : Sound Set.univ f) :
    as.Pairwise fun a a' => ∀ s q, Barred s q (view a.before) → ¬a'.Starts n s q := by
  induction h with
  | nil => exact List.Pairwise.nil
  | @cons a f' f'' as hl htail ih =>
    refine List.Pairwise.cons (fun a' ha' s q hb => ?_) (ih (Attempt.sound hs hl))
    exact htail.not_starts_of_barred (Attempt.sound hs hl) (hb.step hs hl) a' ha'

end Steps

/-! ### The flashes that are safe -/

/-- An entry that is waiting to be booted, or to be confirmed. -/
def Waiting (t : Trust) : Prop := t = .pending ∨ t = .unproven

/-- The seed will not bring back an entry that was rejected: if an entry of its
sequence waits in its sector, the other sector holds a rejected one. -/
def SeedSafe (b : Book) : Prop :=
  Believed (¬Waiting ·) 0 1 b ∨ ∃ e, b 1 = some e ∧ e.trust = .dead

section Safe

variable {n : UInt8} {a : Attempt} {as : List Attempt} {f f' : Flash}

theorem SeedSafe.step (h : SeedSafe (view a.before)) (hs : Sound Set.univ a.before)
    (hl : a.Leaves n f') : SeedSafe (view f') := by
  rcases h with h | ⟨e, he, ht⟩
  · -- no plan makes an entry wait that was not waiting
    refine .inl (h.leaves hs (fun w hw hws hq => ?_) hl)
    cases (decides_plan n a).reason hw with
    | abort e _ _ hwe => simp [hwe, Waiting]
    | invalid e _ _ _ hwe => simp [hwe, Waiting]
    | mark e he htrust _ hwe =>
      rw [hwe] at hq
      exact absurd (.inr htrust) (h e (hws ▸ he) hq)
    | seed _ _ hws => simp [hws, Waiting]
  · exact .inr ⟨e, Attempt.dead_stays hs he ht hl, ht⟩

/-- What is rejected on a safe flash is barred. -/
theorem SeedSafe.barred (h : SeedSafe (view f)) {s : Sector} {e : Entry}
    (he : view f s = some e) (ht : e.trust = .pending ∨ e.trust = .dead) :
    Barred s e.seq (view f) := by
  refine ⟨?_, fun e' he' _ => Option.some.inj (he.symm.trans he') ▸ ht⟩
  rcases ht with ht | ht
  · rcases h with h | ⟨e', he', ht'⟩
    · refine .inl ?_
      rintro ⟨rfl, hq⟩
      exact h e he hq (.inl ht)
    · exact .inr ⟨1, e', he', ht'⟩
  · exact .inr ⟨s, e, he, ht⟩

/-- **From a safe flash the rule holds.** -/
theorem SeedSafe.bootedOnce (h : SeedSafe (view f)) (hs : Sound Set.univ f) :
    BootedOnce n f := by
  have hrejected : ∀ {g : Flash} {s : Sector} {e : Entry}, SeedSafe (view g) →
      decode (g s) = .ok e → e.Rejected → Barred s e.seq (view g) := by
    refine fun {g s e} hg he hr => hg.barred (accepted_eq_some.mpr he) ?_
    rcases hr with hr | hr | hr
    · exact .inl (Entry.trust_eq_pending.mpr hr)
    all_goals
      have hadm := ((decode_eq_ok_iff _ _).mp he).1
      exact .inr ((Entry.trust_eq_dead hadm.known).mpr (by simp [hr]))
  refine ⟨fun as f' has s e he hnew => ?_, fun as f' has => ?_⟩
  · -- the entry is sealed: it is not that of the seed, or a rejected one keeps the seed away
    have hview : view f s = some e := accepted_eq_some.mpr he
    have ht := Entry.trust_eq_unproven.mpr hnew
    refine has.starts_once hs ?_ fun e' he' _ => ?_
    · rcases h with h | ⟨e', he', ht'⟩
      · refine .inl ?_
        rintro ⟨rfl, hq⟩
        exact h e hview hq (.inr ht)
      · exact .inr ⟨1, e', he', ht'⟩
    · rw [← Option.some.inj (hview.symm.trans he'), ht]
      decide
  · have hsafe := has.forall_before (C := fun f => Sound Set.univ f ∧ SeedSafe (view f))
      (fun a _ f' hC hl => ⟨Attempt.sound hC.1 hl, hC.2.step hC.1 hl⟩) ⟨hs, h⟩
    refine ⟨fun a ha s e he hr => (hrejected (hsafe a ha).2 he hr).not_starts, ?_⟩
    refine (has.pairwise_barred hs).imp_of_mem fun {a a'} ha _ hbar s e he hr => ?_
    exact hbar s e.seq (hrejected (hsafe a ha).2 he hr)

end Safe

/-! ### The flashes that are not -/

section Unsafe

variable {n : UInt8} {f : Flash}

/-- With no answer for any image, nothing holds a boot back but a rejected entry. -/
theorem losable_false {b : Book} (h : ∀ s e, b s = some e → e.trust ≠ .dead) :
    Losable n (fun _ _ => false) b :=
  fun s e he => ⟨h s e he, fun _ _ => rfl⟩

/-- **The entry of the seed comes back**: cut every attempt until nothing is left,
seed, boot. -/
theorem seed_comes_back {e : Entry} (he : view f 0 = some e)
    (hdead : ∀ s e, view f s = some e → e.trust ≠ .dead) :
    ∃ a as f', Attempts n f (a :: as) f' ∧ ∃ a' ∈ as, a'.Starts n 0 1 := by
  obtain ⟨as, g, has, -, hnone⟩ := (losable_false (n := n) hdead).lose_all
  -- then a first boot, and a boot of what it wrote
  set seed : Attempt := ⟨g, fun _ _ => true, true⟩ with hseed
  set g' := execWrites g (seed.plan n).writes with hg'
  set again : Attempt := ⟨g', fun _ _ => true, true⟩ with hagain
  have hplan : seed.plan n = seedPlan := planBoot_of_none hnone rfl
  have hview : view g' = Function.update (view g) 0 (some ⟨1, State.valid⟩) := by
    rw [hg', hplan]
    change view (execWrites g [⟨0, ⟨1, State.valid⟩⟩]) = _
    rw [execWrites_cons, execWrites_nil, view_update, accepted_encode]
    exact congrArg (Function.update (view g) 0) (if_pos (by decide))
  have hview0 : view g' 0 = some ⟨1, State.valid⟩ := by rw [hview, Function.update_self]
  have hranked : ranked (view g') = [⟨0, 1, .valid⟩] := by
    rw [ranked, order_eq]
    have h1 : candidateAt (view g') 1 = none := by
      rw [candidateAt, hview, Function.update_of_ne (by decide), hnone]
      rfl
    have h0 : candidateAt (view g') 0 = some ⟨0, 1, .valid⟩ := by
      rw [candidateAt, hview0]
      rfl
    rw [h0, h1]
  have hstarts : again.Starts n 0 1 := by
    refine ⟨rfl, ⟨_, accepted_eq_some.mp hview0, rfl⟩, slotOf 1 n, ?_⟩
    have hboots := boots_of_true (decides_plan n again) hranked
    rw [hboots]
  have hlast : Attempts n g [seed, again] (execWrites g' (again.plan n).writes) :=
    Attempts.cons (a := seed) (Attempt.leaves_completed rfl)
      (Attempts.cons (a := again) (Attempt.leaves_completed rfl) (.nil _))
  rcases as with _ | ⟨a, as⟩
  · cases has
    exact absurd he (ne_some_of_none hnone)
  · exact ⟨a, as ++ [seed, again], _, has.append hlast, again, by simp, hstarts⟩

/-- The unproven entry of the seed, ahead of the others, is marked and started. -/
theorem marked_first {cs : List Candidate} (hranked : ranked (view f) = ⟨0, 1, .unproven⟩ :: cs)
    (haborts : aborts (view f) = []) (hdead : ∀ s e, view f s = some e → e.trust ≠ .dead) :
    ∃ as g, Attempts n f as g ∧ view g 0 = some ⟨1, State.pendingVerify⟩ ∧
      ∀ s e, view g s = some e → e.trust ≠ .dead := by
  -- an attempt that completes, with every image bootable
  set a : Attempt := ⟨f, fun _ _ => true, true⟩
  have hplan : (a.plan n).writes = [⟨0, ⟨1, State.pendingVerify⟩⟩] := by
    have hboots := boots_of_true (decides_plan n a) hranked
    rw [hboots, haborts]
    rfl
  have hleaves := Attempt.leaves_completed (n := n) (a := a) rfl
  rw [hplan, execWrites_cons, execWrites_nil] at hleaves
  have hview : view (Function.update f 0 (Entry.encode ⟨1, State.pendingVerify⟩)) =
      Function.update (view f) 0 (some ⟨1, State.pendingVerify⟩) := by
    rw [view_update, accepted_encode]
    exact congrArg (Function.update (view f) 0) (if_pos (by decide))
  refine ⟨[a], _, Attempts.cons (a := a) hleaves (.nil _), ?_, fun s e' he' => ?_⟩
  · exact (congrFun hview 0).trans (Function.update_self ..)
  · have he' : Function.update (view f) 0 (some ⟨1, State.pendingVerify⟩) s = some e' :=
      (congrFun hview s).symm.trans he'
    rcases eq_or_ne s 0 with rfl | hne
    · rw [Function.update_self] at he'
      rw [← Option.some.inj he']
      decide
    · rw [Function.update_of_ne hne] at he'
      exact hdead s e' he'

/-- An unproven entry of the seed that is alone is made pending by the next boot. -/
theorem marked_alone {e : Entry} (he : view f 0 = some e) (hq : e.seq = 1)
    (ht : e.trust = .unproven) (hother : view f 1 = none) :
    ∃ as g, Attempts n f as g ∧ view g 0 = some ⟨1, State.pendingVerify⟩ ∧
      ∀ s e, view g s = some e → e.trust ≠ .dead := by
  have hcases : ∀ {s : Sector} {e' : Entry}, view f s = some e' → e'.trust = .unproven := by
    intro s e' he'
    rcases eq_or_ne s 0 with rfl | hne
    · rw [← Option.some.inj (he.symm.trans he')]
      exact ht
    · rw [eq_other_of_ne hne, show other 0 = 1 from rfl, hother] at he'
      exact absurd he' (by simp)
  have hranked : ranked (view f) = [⟨0, 1, .unproven⟩] := by
    have h0 : candidateAt (view f) 0 = some ⟨0, 1, .unproven⟩ := by
      rw [candidateAt, he, Option.bind_some, if_pos (.inr ht), hq, ht]
    have h1 : candidateAt (view f) 1 = none := by rw [candidateAt, hother, Option.bind_none]
    rw [ranked, order_eq, h0, h1]
  have hnil : aborts (view f) = [] := by
    refine List.eq_nil_iff_forall_not_mem.mpr fun w' hw' => ?_
    obtain ⟨e', he', ht', -⟩ := mem_aborts.mp hw'
    rw [hcases he'] at ht'
    exact absurd ht' (by decide)
  refine marked_first (n := n) hranked hnil fun s e' he' => ?_
  rw [hcases he']
  decide

/-- The unproven entry of the seed can be made pending, and no entry rejected. -/
theorem new_becomes_pending {e : Entry} (he : view f 0 = some e) (hq : e.seq = 1)
    (ht : e.trust = .unproven) (hdead : ∀ s e, view f s = some e → e.trust ≠ .dead) :
    ∃ as g, Attempts n f as g ∧ view g 0 = some ⟨1, State.pendingVerify⟩ ∧
      ∀ s e, view g s = some e → e.trust ≠ .dead := by
  obtain ⟨w, ws, hw, -⟩ := (losable_false (n := n) hdead).first_write
    (decides_planBoot f n _) ⟨0, e, he⟩
  have hfalse := writes_of_false (decides_planBoot f n fun _ _ => false)
  rw [hw] at hfalse
  have habort : ∀ w' ∈ aborts (view f), w'.sector ≠ 0 := by
    intro w' hw' h0
    obtain ⟨e', he', ht', -⟩ := mem_aborts.mp hw'
    rw [h0, he] at he'
    obtain rfl := Option.some.inj he'
    rw [ht] at ht'
    exact absurd ht' (by decide)
  rcases eq_or_ne w.sector 0 with hw0 | hw0
  · -- it is the first candidate
    have hnil : aborts (view f) = [] := by
      rcases hab : aborts (view f) with _ | ⟨w', ws'⟩
      · rfl
      · rw [hab, List.cons_append] at hfalse
        exact absurd ((List.cons.inj hfalse).1 ▸ hw0) (habort w' (hab ▸ List.mem_cons_self))
    rw [hnil, List.nil_append] at hfalse
    obtain ⟨c, cs, hranked, hc, -⟩ := List.map_eq_cons_iff.mp hfalse.symm
    obtain ⟨e', he', -, hseq, htrust⟩ := mem_ranked.mp (hranked ▸ List.mem_cons_self : c ∈ _)
    have hsector : c.sector = 0 := (congrArg Write.sector hc).trans hw0
    rw [hsector, he] at he'
    obtain rfl := Option.some.inj he'
    have hc' : c = ⟨0, 1, .unproven⟩ := by
      cases c
      simp_all
    exact marked_first (hc' ▸ hranked) hnil hdead
  · -- the other sector is first, and can be lost
    have hw1 : w.sector = 1 := eq_other_of_ne hw0
    set a : Attempt := ⟨f, fun _ _ => false, false⟩
    have hleaves : a.Leaves n (Function.update f 1 blank) :=
      hw1 ▸ Attempt.leaves_erased (a := a) rfl hw
    have hg0 : view (Function.update f 1 blank) 0 = some e := by
      rw [view_erased, Function.update_of_ne (by decide), he]
    have hg1 : view (Function.update f 1 blank) 1 = none := by
      rw [view_erased, Function.update_self]
    obtain ⟨as, g', has, hgoal⟩ := marked_alone (n := n) hg0 hq ht hg1
    exact ⟨a :: as, g', Attempts.cons (a := a) hleaves has, hgoal⟩

/-- A sequence of attempts that ends where the entry of the seed is pending, and
nothing is rejected, can be continued against the rule. -/
theorem not_bootedOnce_of_pending {as : List Attempt} {g : Flash} {e : Entry}
    (has : Attempts n f as g) (he : view g 0 = some e) (hq : e.seq = 1) (ht : e.trust = .pending)
    (hdead : ∀ s e, view g s = some e → e.trust ≠ .dead) : ¬BootedOnce n f := by
  intro h
  obtain ⟨a, as', f', has', a', ha', hstarts⟩ := seed_comes_back (n := n) he hdead
  have hpair := (List.pairwise_append.mp (h.rejected _ _ (has.append has')).2).2.1
  have hbefore := has'.before_eq
  have hnot := (List.pairwise_cons.mp hpair).1 a' ha' 0 e
    (accepted_eq_some.mp (hbefore.symm ▸ he)) (.inl (Entry.trust_eq_pending.mp ht))
  rw [hq] at hnot
  exact hnot hstarts

theorem not_bootedOnce_of_reseedable (hf : Reseedable f) : ¬BootedOnce n f := by
  obtain ⟨⟨e, he, hq, hstate⟩, hother⟩ := hf
  have hview : view f 0 = some e := accepted_eq_some.mpr he
  have hdead : ∀ s e, view f s = some e → e.trust ≠ .dead := by
    intro s e' he' ht'
    have hdec := accepted_eq_some.mp he'
    rw [Entry.trust_eq_dead ((decode_eq_ok_iff _ _).mp hdec).1.known] at ht'
    rcases eq_or_ne s 0 with rfl | hne
    · obtain rfl := Option.some.inj (hview.symm.trans he')
      rcases hstate with hs | hs <;> rw [hs] at ht' <;> revert ht' <;> decide
    · rw [eq_other_of_ne hne] at hdec
      exact hother e' hdec ht'
  rcases hstate with hs | hs
  · obtain ⟨as, g, has, hg, hgdead⟩ :=
      new_becomes_pending (n := n) hview hq (Entry.trust_eq_unproven.mpr hs) hdead
    exact not_bootedOnce_of_pending has hg rfl rfl hgdead
  · exact not_bootedOnce_of_pending (.nil f) hview hq (Entry.trust_eq_pending.mpr hs) hdead

end Unsafe

/-! ### The rule -/

/-- A flash from which the seed cannot bring anything back is safe. -/
theorem seedSafe_of_not_reseedable {f : Flash} (hf : ¬Reseedable f) : SeedSafe (view f) := by
  by_contra hsafe
  unfold SeedSafe at hsafe
  push Not at hsafe
  obtain ⟨hwaiting, hdead⟩ := hsafe
  refine hf ⟨?_, fun e he hs => ?_⟩
  · unfold Believed at hwaiting
    push Not at hwaiting
    obtain ⟨e, he, hq, hw⟩ := hwaiting
    refine ⟨e, accepted_eq_some.mp he, hq, ?_⟩
    rcases hw with hw | hw
    · exact .inr (Entry.trust_eq_pending.mp hw)
    · exact .inl (Entry.trust_eq_unproven.mp hw)
  · have hadm := ((decode_eq_ok_iff _ _).mp he).1
    exact hdead e (accepted_eq_some.mpr he) ((Entry.trust_eq_dead hadm.known).mpr hs)

/-- **A candidate is booted at most once, unless a first boot can bring it back**: the
rule holds exactly from the flashes on which sector 0 does not hold an unproven or
pending entry of sequence 1, or sector 1 holds a rejected one. -/
theorem booted_once_iff (n : UInt8) (f : Flash)
    (hf : ∀ s, f s = blank ∨ ∃ e : Entry, e.Admissible ∧ f s = e.encode) :
    BootedOnce n f ↔ ¬Reseedable f :=
  ⟨fun h hseed => not_bootedOnce_of_reseedable hseed h,
    fun h => (seedSafe_of_not_reseedable h).bootedOnce (sound_of_exact hf)⟩

/-- The same for a flash with a single candidate, of sequence 2 in sector 1. -/
theorem booted_once_iff_single :
    BootedOnce 2 (Function.update (fun _ => blank) 1 (Entry.encode ⟨2, State.new⟩)) ↔
      ¬Reseedable (Function.update (fun _ => blank) 1 (Entry.encode ⟨2, State.new⟩)) :=
  booted_once_iff 2 _ fun s => by
    rcases eq_or_ne s 1 with rfl | hne
    · exact .inr ⟨⟨2, State.new⟩, by decide, Function.update_self ..⟩
    · exact .inl (Function.update_of_ne hne ..)

/-- **The rule does not hold of every flash**: a single unproven entry of sequence 1 in
sector 0, and the rejected image runs again. -/
theorem rejected_boots_again :
    ¬∀ (n : UInt8) (f : Flash), 1 ≤ n →
      (∀ s, f s = blank ∨ ∃ e : Entry, e.Admissible ∧ f s = e.encode) → BootedOnce n f := by
  intro h
  set f : Flash := Function.update (fun _ => blank) 0 (Entry.encode ⟨1, State.new⟩) with hf
  have hf0 : f 0 = Entry.encode ⟨1, State.new⟩ := Function.update_self ..
  have hf1 : f 1 = blank := Function.update_of_ne (by decide) ..
  refine not_bootedOnce_of_reseedable (n := 2) (f := f) ⟨?_, fun e he => ?_⟩
    (h 2 f (by decide) fun s => ?_)
  · exact ⟨_, hf0 ▸ decode_encode (by decide), rfl, .inl rfl⟩
  · rw [hf1, decode_blank] at he
    exact absurd he (by simp)
  · rcases eq_or_ne s 0 with rfl | hne
    · exact .inr ⟨_, by decide, hf0⟩
    · exact .inl (Function.update_of_ne hne ..)

end AtomicOta.Otadata
