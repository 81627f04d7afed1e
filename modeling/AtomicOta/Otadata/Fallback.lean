import AtomicOta.Otadata.Guarded
import AtomicOta.Otadata.Ledger

/-!
# A boot beside the entry to fall back to

What a boot does where a validated entry is guarded (`AtomicOta.Otadata.Guarded`) and its image
is bootable, in one statement (`AtomicOta.Otadata.Guarded.boots`): it never halts, and it

* starts the guarded entry, leaving beside it nothing that could still be started or confirmed
  (`AtomicOta.Otadata.Quiet`), or
* starts the entry beside it, which has never run, and leaves it pending.

`AtomicOta.Otadata.FallsBackTo` says the first half of this about the decision; here it is said
of what the boot leaves when it is over.
-/

namespace AtomicOta.Otadata

variable {v v' w : Write} {b : Book} {n : UInt8} {ok : ImageOk} {p : Plan} {l : Ledger}

/-- An entry that is not settled: it may still be started, or confirmed. -/
def Entry.Open (e : Entry) : Prop := e.trust = .pending ∨ e.trust = .unproven

/-- **Nothing is open beside an entry.** -/
def Quiet (v : Write) (b : Book) : Prop := ∀ e, b (other v.sector) = some e → ¬e.Open

/-- The guarded entry is the highest of the valid ones. -/
theorem Guarded.isHighest (h : Guarded v b) : IsHighest .valid b v.sector v.entry := by
  have hother : ∀ {s : Sector} {e : Entry}, b s = some e → e.trust = .valid → s ≠ v.sector →
      e.seq.toNat < v.entry.seq.toNat := by
    intro s e he ht hne
    exact h.older e (eq_other_of_ne hne ▸ he) ht
  refine ⟨h.entry, h.valid, fun s e he ht => ?_, fun s e he ht hseq => ?_⟩
  · by_cases hs : s = v.sector
    · subst hs
      rw [← Option.some.inj (h.entry.symm.trans he)]
    · exact (hother he ht hs).le
  · by_cases hs : s = v.sector
    · exact hs.ge
    · have hlt := hother he ht hs
      rw [hseq] at hlt
      exact absurd hlt (lt_irrefl _)

/-- Only one entry is guarded. -/
theorem Guarded.unique (h : Guarded v b) (h' : Guarded v' b) : v = v' := by
  obtain ⟨hsector, hentry⟩ := h.isHighest.unique h'.isHighest
  obtain ⟨s, e⟩ := v
  exact Write.mk.injEq .. ▸ ⟨hsector, hentry⟩

/-- **The slot that the chain falls back to**: that of the highest valid entry. Before there is
one, a boot seeds slot 0. -/
def fallbackSlot (f : Flash) (n : UInt8) : UInt8 :=
  match bestOf .valid fun s => classify (f s) with
  | some (_, q) => slotOf q n
  | none => 0

theorem Guarded.fallbackSlot_eq {f : Flash} (h : Guarded v (view f)) :
    fallbackSlot f n = slotOf v.entry.seq n := by
  unfold fallbackSlot
  rcases hbest : bestOf .valid fun s => classify (f s) with _ | ⟨p, q⟩
  · exact absurd h.valid (bestOf_none hbest _ _ h.entry)
  · obtain ⟨e, he, rfl⟩ := bestOf_some hbest
    rw [(h.eq_of_isHighest he).2]

theorem fallbackSlot_of_none {f : Flash} (h : ∀ s, view f s = none) : fallbackSlot f n = 0 := by
  unfold fallbackSlot
  rcases hbest : bestOf .valid fun s => classify (f s) with _ | ⟨p, q⟩
  · rfl
  · obtain ⟨e, he, -⟩ := bestOf_some hbest
    exact absurd he.entry (ne_some_of_none h)

/-- A candidate is one of the book. -/
theorem candidate_of_mem {c : Candidate} {pre post : List Candidate}
    (hranked : ranked b = pre ++ c :: post) :
    ∃ e, b c.sector = some e ∧ (e.trust = .valid ∨ e.trust = .unproven) ∧ c.seq = e.seq ∧
      c.trust = e.trust :=
  mem_ranked.mp (hranked ▸ (by simp) : c ∈ ranked b)

/-- **What a boot starts beside a guarded entry**, and what it leaves there: `b'` is the book
once it is over. -/
inductive Boots (v : Write) (n : UInt8) (ok : ImageOk) (b b' : Book) (boot : Boot) : Prop
  /-- The guarded entry is started. -/
  | fallback (hboot : boot = .slot (slotOf v.entry.seq n) v.sector v.entry.seq)
    (hquiet : Quiet v b')
  /-- The entry beside it, which had never run, is started, and is pending. -/
  | trial (e : Entry) (he : b (other v.sector) = some e) (ht : e.trust = .unproven)
    (hboot : boot = .slot (slotOf e.seq n) (other v.sector) e.seq)
    (hok : ∃ j, ok j (slotOf e.seq n) = true)
    (hmark : b' (other v.sector) = admitted ⟨e.seq, State.pendingVerify⟩)

/-- After a boot that starts the guarded entry, nothing is open beside it. -/
theorem Guarded.quiet_of_boot (h : Guarded v l.book) (hp : Decides l.book n ok p)
    (hboot : p.boot = .slot (slotOf v.entry.seq n) v.sector v.entry.seq) :
    Quiet v (ledgerDevice.run (issue .boot p.writes) l).book := by
  intro e he hopen
  have hpairwise := issue_pairwise (o := .boot) hp.pairwise
  by_cases hs : ∃ r ∈ issue .boot p.writes, r.write.sector = other v.sector
  · -- a boot that starts another entry writes dead ones
    obtain ⟨r, hr, hsector⟩ := hs
    rw [← hsector, book_run_of_mem hpairwise hr, admitted_eq_some] at he
    obtain rfl := he.2
    cases hp.reason (mem_issue.mp hr).1 with
    | abort _ _ _ hwe => simp [hwe, Entry.Open] at hopen
    | invalid _ _ _ _ hwe => simp [hwe, Entry.Open] at hopen
    | mark e' _ _ hboot' _ =>
      rw [hboot, hsector] at hboot'
      exact other_ne _ (Boot.slot.inj hboot').2.1.symm
    | seed hnone _ _ => exact absurd h.entry (ne_some_of_none hnone)
  · rw [book_run_of_ne fun r hr heq => hs ⟨r, hr, heq⟩] at he
    have hwritten : ∀ w ∈ p.writes, w.sector ≠ other v.sector :=
      fun w hw heq => hs ⟨⟨w, .boot⟩, mem_issue.mpr ⟨hw, rfl⟩, heq⟩
    rcases hopen with ht | ht
    · exact hwritten _ (hp.abort_mem he ht) rfl
    · -- it is newer than the guarded entry, so it was asked about first, and rejected
      have hlt := h.newer e he (.inr ht)
      have hmem : (⟨other v.sector, e.seq, e.trust⟩ : Candidate) ∈ ranked l.book :=
        mem_ranked.mpr ⟨e, he, .inr ht, rfl, rfl⟩
      cases hp with
      | boots pre c post hranked hpre hc =>
        obtain ⟨-, hsector, hseq⟩ := Boot.slot.inj hboot
        have hpair := ranked_pairwise l.book
        rw [hranked] at hpair hmem
        rcases List.mem_append.mp hmem with hmem | hmem
        · have hw : Candidate.invalid ⟨other v.sector, e.seq, e.trust⟩ ∈
              pre.map Candidate.invalid := List.mem_map_of_mem hmem
          exact hwritten _ (List.mem_append_left _ (List.mem_append_right _ hw)) rfl
        · rcases List.mem_cons.mp hmem with rfl | hmem
          · exact other_ne _ hsector
          · have hle := ((List.pairwise_cons.mp (List.pairwise_append.mp hpair).2.1).1 _ hmem).1
            rw [hseq] at hle
            exact absurd hlt (Nat.not_lt.mpr hle)
      | seeds hnone _ => exact absurd h.entry (ne_some_of_none hnone)
      | noImage hnone _ => exact absurd h.entry (ne_some_of_none hnone)
      | noUsable _ _ => cases hboot

/-- **A boot beside a guarded entry whose image is bootable.** -/
theorem Guarded.boots (h : Guarded v l.book) (hok : ∀ k, ok k (slotOf v.entry.seq n) = true)
    (hp : Decides l.book n ok p) :
    Boots v n ok l.book (ledgerDevice.run (issue .boot p.writes) l).book p.boot := by
  have hmem : (⟨v.sector, v.entry.seq, .valid⟩ : Candidate) ∈ ranked l.book :=
    mem_ranked.mpr ⟨_, h.entry, .inl h.valid, rfl, h.valid.symm⟩
  have hquiet := h.quiet_of_boot hp
  have hpairwise := issue_pairwise (o := .boot) hp.pairwise
  cases hp with
  | boots pre c post hranked hpre hc =>
    have hpair := ranked_pairwise l.book
    rw [hranked] at hpair hmem
    rcases List.mem_append.mp hmem with hmem | hmem
    · obtain ⟨j, hj⟩ := hpre _ hmem
      exact absurd ((hok j).symm.trans hj) (by simp)
    rcases List.mem_cons.mp hmem with rfl | hmem
    · exact .fallback rfl (hquiet rfl)
    · -- it is ahead of the guarded entry: it is the other one, and unproven
      obtain ⟨hle, hne⟩ := (List.pairwise_cons.mp (List.pairwise_append.mp hpair).2.1).1 _ hmem
      obtain ⟨e, he, ht, hseq, htrust⟩ := candidate_of_mem hranked
      have hsector : c.sector = other v.sector := eq_other_of_ne hne
      rw [hsector] at he
      rw [hseq] at hle hc
      rcases ht with ht | ht
      · have hlt := h.older e he ht
        exact absurd hlt (Nat.not_lt.mpr hle)
      · have hmark : c.mark = [⟨c.sector, ⟨c.seq, State.pendingVerify⟩⟩] :=
          if_pos (htrust.trans ht)
        refine .trial e he ht (by rw [hsector, hseq]) hc ?_
        rw [hmark, hsector, hseq] at hpairwise ⊢
        exact book_run_of_mem (r := ⟨⟨other v.sector, ⟨e.seq, State.pendingVerify⟩⟩, .boot⟩)
          hpairwise (mem_issue.mpr ⟨by simp, rfl⟩) l
  | seeds hnone _ => exact absurd h.entry (ne_some_of_none hnone)
  | noImage hnone _ => exact absurd h.entry (ne_some_of_none hnone)
  | noUsable _ hall =>
    obtain ⟨j, hj⟩ := hall _ hmem
    exact absurd ((hok j).symm.trans hj) (by simp)

end AtomicOta.Otadata
