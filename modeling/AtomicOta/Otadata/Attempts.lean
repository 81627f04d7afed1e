import AtomicOta.Otadata.Chain

/-!
# Boot attempts in a row

What happens to a flash on which only the bootloader writes: a sequence of boot
attempts (`AtomicOta.Otadata.Attempts`), each of which applies its plan to the end or is
cut inside it, with answers about images that may change from one to the next.

Unlike the chain of `AtomicOta.Otadata.Chain`, whose statements are about the moments of a
run, this one keeps the attempts: the questions asked of it are how often something
was started, and in what order.

A statement of the form “it never happens again” needs a condition that every plan
keeps, whatever part of it is executed (`AtomicOta.Otadata.Attempt.keeps`); a
statement that it *can* happen needs a cut, and one is enough
(`AtomicOta.Otadata.Attempt.leaves_erased`): a plan that is cut inside its first erase
leaves the sector of its first write with nothing.
-/

namespace AtomicOta.Otadata

/-! ### Writes on the flash alone -/

/-- The commands of a job, without who asks for them. -/
theorem map_op_commands (o : Origin) (ws : List Write) :
    (commands (issue o ws)).map Cmd.op = ws.flatMap Write.ops := by
  induction ws with
  | nil => rfl
  | cons w ws ih =>
    have hcons : commands (issue o (w :: ws)) = (⟨w, o⟩ : Request).cmds ++ commands (issue o ws) :=
      rfl
    rw [hcons, List.map_append, map_op_cmds, ih, List.flatMap_cons]

/-- A condition on the book that every write of a list keeps, dropped or committed,
holds at every moment of their execution. -/
theorem safe_writes {C : Book → Prop} {ws : List Write} {f : Flash} (hs : Sound Set.univ f)
    (hp : ∀ w ∈ ws, ∀ b, C b →
      C (Function.update b w.sector none) ∧ C (Function.update b w.sector (admitted w.entry)))
    (hC : C (view f)) :
    flashDevice.Safe (fun _ _ => True) (fun f => Sound Set.univ f ∧ C (view f))
      (ws.flatMap Write.ops) f := by
  have hledger : ledgerDevice.Safe (fun _ _ => True) (fun l => C l.book) (issue .boot ws)
      (Chip.read ⟨f, []⟩) :=
    ledger_safe_of_preserved (fun r hr l hl => ⟨trivial, hp r.write (mem_issue.mp hr).1 _ hl⟩) hC
  have hchip : chipDevice.Safe (fun _ _ => True)
      (fun s => Sound Set.univ s.flash ∧ C (view s.flash)) (commands (issue .boot ws)) ⟨f, []⟩ :=
    safe_commands (G := fun _ _ => True) (C := fun l => C l.book) (fun _ _ => Set.mem_univ _) hs
      hledger
  rw [← map_op_commands .boot ws]
  -- every cut of the flash is a cut of a chip, whatever its history
  have htorn : ∀ (c : Cmd) (s : Chip) (f' : Flash), flashDevice.Torn c.op s.flash f' →
      ∃ s', chipDevice.Torn c s s' ∧ s'.flash = f' :=
    fun c s f' ht => ⟨⟨f', c.record s f'⟩, ⟨f', ht, rfl⟩, rfl⟩
  exact hchip.map (π := Chip.flash) (C := fun f => Sound Set.univ f ∧ C (view f)) (fun _ _ => rfl)
    htorn

theorem view_execWrites_of_ne {ws : List Write} {s : Sector} (h : ∀ w ∈ ws, w.sector ≠ s)
    (f : Flash) : view (execWrites f ws) s = view f s := by
  induction ws generalizing f with
  | nil => rfl
  | cons w ws ih =>
    rw [execWrites_cons, ih fun w' hw' => h w' (List.mem_cons_of_mem _ hw'), view_update,
      Function.update_of_ne (h w List.mem_cons_self).symm]

theorem view_execWrites_of_mem {ws : List Write} {w : Write}
    (hp : ws.Pairwise fun w w' => w.sector ≠ w'.sector) (hw : w ∈ ws) (f : Flash) :
    view (execWrites f ws) w.sector = admitted w.entry := by
  induction ws generalizing f with
  | nil => simp at hw
  | cons w' ws ih =>
    rw [execWrites_cons]
    rw [List.pairwise_cons] at hp
    rcases List.mem_cons.mp hw with rfl | hmem
    · rw [view_execWrites_of_ne fun w' hw' => (hp.1 w' hw').symm, view_update,
        Function.update_self, accepted_encode]
    · exact ih hp.2 hmem _

/-! ### Attempts -/

/-- A boot attempt: the flash it found, the answers it got, and whether it
completed. -/
structure Attempt where
  before : Flash
  imageOk : ImageOk
  completed : Bool

namespace Attempt

variable (n : UInt8) (a : Attempt)

/-- The decision of an attempt. -/
def plan : Plan := planBoot a.before n a.imageOk

/-- What an attempt leaves: all that it planned, or what a cut leaves of it. -/
def Leaves (f' : Flash) : Prop :=
  if a.completed then f' = execWrites a.before (a.plan n).writes
  else flashDevice.Cut ((a.plan n).writes.flatMap Write.ops) a.before f'

/-- An attempt starts the entry of a sector, of a given sequence: it found it there,
decided to boot it, and completed. -/
def Starts (s : Sector) (q : UInt32) : Prop :=
  a.completed = true ∧ (∃ e, decode (a.before s) = .ok e ∧ e.seq = q) ∧
    ∃ slot, (a.plan n).boot = .slot slot s q

end Attempt

/-- A sequence of attempts, from one flash to another. -/
inductive Attempts (n : UInt8) : Flash → List Attempt → Flash → Prop
  | nil (f : Flash) : Attempts n f [] f
  | cons {a : Attempt} {f' f'' : Flash} {as : List Attempt} (h : a.Leaves n f')
    (hs : Attempts n f' as f'') : Attempts n a.before (a :: as) f''

variable {n : UInt8} {a : Attempt} {as as' : List Attempt} {f f' f'' : Flash}

theorem Attempts.append (h : Attempts n f as f') (h' : Attempts n f' as' f'') :
    Attempts n f (as ++ as') f'' := by
  induction h with
  | nil => exact h'
  | cons hl _ ih => exact .cons hl (ih h')

theorem decides_plan (n : UInt8) (a : Attempt) :
    Decides (view a.before) n a.imageOk (a.plan n) :=
  decides_planBoot _ _ _

/-- **A condition every write of the plan keeps is kept by the attempt**, however it
ends. -/
theorem Attempt.keeps {C : Book → Prop} (hs : Sound Set.univ a.before) (hC : C (view a.before))
    (hp : ∀ w ∈ (a.plan n).writes, ∀ b, C b →
      C (Function.update b w.sector none) ∧ C (Function.update b w.sector (admitted w.entry)))
    (h : a.Leaves n f') : Sound Set.univ f' ∧ C (view f') := by
  have hsafe := safe_writes hs hp hC
  unfold Attempt.Leaves at h
  split_ifs at h
  · rw [h]
    exact hsafe.run
  · exact hsafe.cut h

theorem Attempt.sound (hs : Sound Set.univ a.before) (h : a.Leaves n f') : Sound Set.univ f' :=
  (Attempt.keeps (C := fun _ => True) hs trivial (fun _ _ _ _ => ⟨trivial, trivial⟩) h).1

/-- A sector the plan does not write reads as before. -/
theorem Attempt.view_eq_of_ne (hs : Sound Set.univ a.before) {s : Sector}
    (hw : ∀ w ∈ (a.plan n).writes, w.sector ≠ s) (h : a.Leaves n f') :
    view f' s = view a.before s := by
  refine (Attempt.keeps (C := fun b => b s = view a.before s) hs rfl (fun w hmem b hb => ?_) h).2
  rw [Function.update_of_ne (hw w hmem).symm, Function.update_of_ne (hw w hmem).symm]
  exact ⟨hb, hb⟩

/-- **A rejected entry stays.** -/
theorem Attempt.dead_stays (hs : Sound Set.univ a.before) {s : Sector} {e : Entry}
    (he : view a.before s = some e) (ht : e.trust = .dead) (h : a.Leaves n f') :
    view f' s = some e :=
  (Attempt.view_eq_of_ne hs ((decides_plan n a).ne_of_dead he ht) h).trans he

/-- A condition kept by each attempt of a sequence holds before each of them. -/
theorem Attempts.forall_before {C : Flash → Prop} (h : Attempts n f as f')
    (hstep : ∀ a ∈ as, ∀ f', C a.before → a.Leaves n f' → C f') (hC : C f) :
    ∀ a ∈ as, C a.before := by
  induction h with
  | nil => simp
  | @cons a f' f'' as hl hs ih =>
    intro a' ha'
    rcases List.mem_cons.mp ha' with rfl | hmem
    · exact hC
    · exact ih (fun a' ha' => hstep a' (List.mem_cons_of_mem _ ha'))
        (hstep a List.mem_cons_self _ hC hl) a' hmem

/-- The flash before the first attempt. -/
theorem Attempts.before_eq (h : Attempts n f (a :: as) f') : a.before = f := by
  cases h
  rfl

/-- A starting flash of blank and exact sectors is sound. -/
theorem sound_of_exact (hf : ∀ s, f s = blank ∨ ∃ e : Entry, e.Admissible ∧ f s = e.encode) :
    Sound Set.univ f := by
  intro s _
  rcases hf s with h | ⟨e, -, h⟩
  · exact h ▸ residue_blank
  · exact h ▸ residue_encode e

/-! ### Cuts -/

/-- An erase that is cut when nothing is left of the content. -/
theorem eraseExcept_none (raw : Raw) : eraseExcept (fun _ => false) raw = blank := by
  funext i
  rw [eraseExcept, if_neg (by decide)]
  rfl

/-- **An attempt that is cut inside its first erase** leaves nothing of the sector of
its first write. -/
theorem Attempt.leaves_erased {w : Write} {ws : List Write} (hc : a.completed = false)
    (hw : (a.plan n).writes = w :: ws) :
    a.Leaves n (Function.update a.before w.sector blank) := by
  unfold Attempt.Leaves
  rw [if_neg (by simp [hc]), hw]
  have htorn := TornOp.erase w.sector a.before fun _ => false
  rw [eraseExcept_none] at htorn
  exact .inside _ htorn

/-- An attempt that completes. -/
theorem Attempt.leaves_completed (hc : a.completed = true) :
    a.Leaves n (execWrites a.before (a.plan n).writes) := by
  unfold Attempt.Leaves
  rw [if_pos hc]

/-- A first boot starts from a flash that says nothing, if slot 0 is bootable. -/
theorem planBoot_of_none {ok : ImageOk} (hf : ∀ s, view f s = none) (hok : ok 0 0 = true) :
    planBoot f n ok = seedPlan := by
  rcases decides_of_none (decides_planBoot f n ok) hf with ⟨hp, -⟩ | ⟨-, hbad⟩
  · exact hp
  · exact absurd (hok.symm.trans hbad) (by simp)

/-- Nothing on the flash holds a boot back for good: no entry is rejected, and no valid
one has a bootable image. -/
def Losable (n : UInt8) (ok : ImageOk) (b : Book) : Prop :=
  ∀ s e, b s = some e → e.trust ≠ .dead ∧ (e.trust = .valid → ∀ k, ok k (slotOf e.seq n) = false)

/-- While an entry of a losable flash is left, a boot writes: it marks a candidate,
aborts or rejects. -/
theorem Losable.writes_ne_nil {b : Book} {ok : ImageOk} {p : Plan} (h : Losable n ok b)
    (hp : Decides b n ok p) {s : Sector} {e : Entry} (he : b s = some e) : p.writes ≠ [] := by
  cases hp with
  | boots pre c post hranked hpre hc =>
    -- what is booted is not valid, so it is marked
    obtain ⟨e', he', ht, hseq, htrust⟩ := mem_ranked.mp (hranked ▸ (by simp) : c ∈ ranked b)
    obtain ⟨j, hj⟩ := hc
    have hunproven : c.trust = .unproven := by
      rcases ht with ht | ht
      · rw [hseq, (h _ e' he').2 ht] at hj
        exact absurd hj (by simp)
      · exact htrust.trans ht
    simp [Candidate.mark, hunproven]
  | seeds hnone _ => exact absurd he (ne_some_of_none hnone)
  | noImage hnone _ => exact absurd he (ne_some_of_none hnone)
  | noUsable _ _ =>
    have hdead := (h s e he).1
    by_cases ht : e.trust = .pending
    · have hmem : (⟨s, ⟨e.seq, State.aborted⟩⟩ : Write) ∈ aborts b :=
        mem_aborts.mpr ⟨e, he, ht, rfl⟩
      exact List.append_ne_nil_of_left_ne_nil (List.ne_nil_of_mem hmem) _
    · have hcand : e.trust = .valid ∨ e.trust = .unproven := by
        cases h : e.trust <;> simp_all
      have hmem : (⟨s, e.seq, e.trust⟩ : Candidate) ∈ ranked b :=
        mem_ranked.mpr ⟨e, he, hcand, rfl, rfl⟩
      exact List.append_ne_nil_of_right_ne_nil _ (List.ne_nil_of_mem (List.mem_map_of_mem hmem))

/-- Then, as long as there is an entry, the next boot writes, and first over one. -/
theorem Losable.first_write {b : Book} {ok : ImageOk} {p : Plan} (h : Losable n ok b)
    (hp : Decides b n ok p) (hsome : ∃ s e, b s = some e) :
    ∃ w ws, p.writes = w :: ws ∧ ∃ e, b w.sector = some e := by
  obtain ⟨s, e, he⟩ := hsome
  obtain ⟨w, ws, hw⟩ := List.exists_cons_of_ne_nil (h.writes_ne_nil hp he)
  refine ⟨w, ws, hw, ?_⟩
  cases hp.reason (hw ▸ List.mem_cons_self) with
  | abort e he => exact ⟨e, he⟩
  | invalid e he => exact ⟨e, he⟩
  | mark e he => exact ⟨e, he⟩
  | seed hnone => exact absurd he (ne_some_of_none hnone)

/-- **One cut, and an entry is gone**: an attempt that is cut leaves nothing of some
sector that held an entry, and the rest as it was. -/
theorem Losable.lose_one {ok : ImageOk} (h : Losable n ok (view f))
    (hsome : ∃ s e, view f s = some e) :
    ∃ (a : Attempt) (s : Sector) (e : Entry), a.before = f ∧ a.imageOk = ok ∧ view f s = some e ∧
      a.Leaves n (Function.update f s blank) := by
  obtain ⟨w, ws, hw, e, he⟩ := h.first_write (decides_planBoot f n ok) hsome
  exact ⟨⟨f, ok, false⟩, w.sector, e, rfl, rfl, he, Attempt.leaves_erased rfl hw⟩

theorem view_erased (f : Flash) (s : Sector) :
    view (Function.update f s blank) = Function.update (view f) s none := by
  rw [view_update, accepted_blank]

theorem Losable.erased {ok : ImageOk} (h : Losable n ok (view f)) (s : Sector) :
    Losable n ok (view (Function.update f s blank)) := by
  intro s' e he
  rw [view_erased] at he
  rcases eq_or_ne s' s with rfl | hne
  · rw [Function.update_self] at he
    exact absurd he (by simp)
  · rw [Function.update_of_ne hne] at he
    exact h s' e he

/-- **Two cuts, and nothing is left.** -/
theorem Losable.lose_all {ok : ImageOk} (h : Losable n ok (view f)) :
    ∃ as f', Attempts n f as f' ∧ (∀ a ∈ as, a.imageOk = ok) ∧ ∀ s, view f' s = none := by
  by_cases hsome : ∃ s e, view f s = some e
  · -- the first cut empties a sector, and the second, if it is needed, the other one
    obtain ⟨a, s, e, rfl, hok, he, hl⟩ := h.lose_one hsome
    have hself : view (Function.update a.before s blank) s = none := by
      rw [view_erased, Function.update_self]
    by_cases hsome' : ∃ s' e', view (Function.update a.before s blank) s' = some e'
    · obtain ⟨a', s', e', ha', hok', he', hl'⟩ := (h.erased s).lose_one hsome'
      have hne : s' ≠ s := by
        rintro rfl
        exact absurd (hself.symm.trans he') (by simp)
      have htail : Attempts n (Function.update a.before s blank) [a'] _ :=
        ha' ▸ Attempts.cons hl' (.nil _)
      refine ⟨[a, a'], _, .cons hl htail, ?_, fun s'' => ?_⟩
      · simp [hok, hok']
      · rw [view_erased]
        rcases eq_or_ne s'' s' with rfl | hne'
        · rw [Function.update_self]
        · rw [Function.update_of_ne hne', show s'' = s from ?_, hself]
          rw [eq_other_of_ne hne', eq_other_of_ne hne, other_other]
    · refine ⟨[a], _, .cons hl (.nil _), by simp [hok], fun s' => ?_⟩
      exact Option.eq_none_iff_forall_ne_some.mpr fun e' he' => hsome' ⟨s', e', he'⟩
  · exact ⟨[], f, .nil f, by simp, fun s =>
      Option.eq_none_iff_forall_ne_some.mpr fun e he => hsome ⟨s, e, he⟩⟩

end AtomicOta.Otadata
