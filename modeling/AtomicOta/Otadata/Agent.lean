import AtomicOta.Otadata.Decision

/-!
# What the agent's writes are

The specifications of `AtomicOta.Otadata.activate`, `AtomicOta.Otadata.confirm` and
`AtomicOta.Otadata.reject` in terms of the book. All three look for the entry of the
highest sequence among those of some trust (`AtomicOta.Otadata.IsHighest`): the
valid one for `activate`, which protects it, the pending one for the other two,
which rewrite it. What `activate` adds is the search for a sequence that selects
the target, up to the end of the `u32` range.
-/

namespace AtomicOta.Otadata

/-! ### The highest entry -/

/-- **The entry the loops look for**: of the highest sequence among those of
trust `t`, the one in sector 0 if two are equal. -/
structure IsHighest (t : Trust) (b : Book) (p : Sector) (e : Entry) : Prop where
  entry : b p = some e
  trust : e.trust = t
  highest : ∀ s e', b s = some e' → e'.trust = t → e'.seq.toNat ≤ e.seq.toNat
  first : ∀ s e', b s = some e' → e'.trust = t → e'.seq = e.seq → p ≤ s

/-- The highest entry among the sectors below `k`, as the loop knows it after `k`
turns. -/
def BestBelow (t : Trust) (b : Book) (k : ℕ) : Option (Sector × UInt32) → Prop
  | none => ∀ (s : Sector) (e : Entry), (s : ℕ) < k → b s = some e → e.trust ≠ t
  | some (p, q) => (p : ℕ) < k ∧ ∃ e, b p = some e ∧ e.trust = t ∧ e.seq = q ∧
    ∀ (s : Sector) (e' : Entry), (s : ℕ) < k → b s = some e' → e'.trust = t →
      e'.seq.toNat ≤ q.toNat ∧ (e'.seq = q → p ≤ s)

section Turn

variable {t : Trust} {b : Book} {k : Sector} {best : Option (Sector × UInt32)}

theorem lt_of_lt_succ_of_ne {s : Sector} (hs : (s : ℕ) < k + 1) (hne : s ≠ k) : (s : ℕ) < k := by
  have : (s : ℕ) ≠ k := fun heq => hne (Fin.ext heq)
  omega

/-- A sector without an entry of this trust changes nothing. -/
theorem BestBelow.skip (h : BestBelow t b k best) (hk : ∀ e, b k = some e → e.trust ≠ t) :
    BestBelow t b (k + 1) best := by
  have hother : ∀ (s : Sector) (e' : Entry), (s : ℕ) < k + 1 → b s = some e' → e'.trust = t →
      (s : ℕ) < k := by
    rintro s e' hs he' ht'
    refine lt_of_lt_succ_of_ne hs ?_
    rintro rfl
    exact hk e' he' ht'
  rcases best with _ | ⟨p, q⟩
  · exact fun s e' hs he' ht' => h s e' (hother s e' hs he' ht') he' ht'
  · obtain ⟨hp, e, he, ht, hq, hmax⟩ := h
    exact ⟨by omega, e, he, ht, hq, fun s e' hs he' ht' =>
      hmax s e' (hother s e' hs he' ht') he' ht'⟩

/-- An entry above all earlier ones takes over. -/
theorem BestBelow.take {e : Entry} (he : b k = some e) (ht : e.trust = t)
    (hmax : ∀ (s : Sector) (e' : Entry), (s : ℕ) < k → b s = some e' → e'.trust = t →
      e'.seq.toNat < e.seq.toNat) : BestBelow t b (k + 1) (some (k, e.seq)) := by
  refine ⟨by omega, e, he, ht, rfl, fun s e' hs he' ht' => ?_⟩
  rcases eq_or_ne s k with rfl | hne
  · obtain rfl := Option.some.inj (he.symm.trans he')
    exact ⟨le_rfl, fun _ => le_rfl⟩
  · have hlt := hmax s e' (lt_of_lt_succ_of_ne hs hne) he' ht'
    exact ⟨hlt.le, fun heq => absurd (congrArg UInt32.toNat heq) hlt.ne⟩

end Turn

/-- One turn of the loop. -/
theorem BestBelow.step {t : Trust} {f : Flash} {k : Sector} {best : Option (Sector × UInt32)}
    (h : BestBelow t (view f) k best) :
    BestBelow t (view f) (k + 1) (keepBest t best k (classify (f k))) := by
  -- what this sector holds decides whether it takes over
  rcases hk : view f k with _ | e
  · have hkeep : keepBest t best k (classify (f k)) = best := by
      rcases classify_of_none hk with hc | hc <;> rw [hc] <;> rfl
    rw [hkeep]
    exact h.skip fun e he => absurd (hk.symm.trans he) (by simp)
  · rw [classify_of_some hk, keepBest]
    by_cases ht : e.trust = t
    · rcases best with _ | ⟨p, q⟩
      · rw [if_pos ⟨ht, rfl⟩]
        exact BestBelow.take hk ht fun s e' hs he' ht' => absurd ht' (h s e' hs he')
      · obtain ⟨hp, ep, hep, htp, hq, hmax⟩ := h
        by_cases hgt : q < e.seq
        · rw [if_pos ⟨ht, by simpa using hgt⟩]
          rw [UInt32.lt_iff_toNat_lt] at hgt
          exact BestBelow.take hk ht fun s e' hs he' ht' => (hmax s e' hs he' ht').1.trans_lt hgt
        · rw [if_neg fun hc => hgt (by simpa using hc.2)]
          rw [UInt32.lt_iff_toNat_lt] at hgt
          refine ⟨by omega, ep, hep, htp, hq, fun s e' hs he' ht' => ?_⟩
          rcases eq_or_ne s k with rfl | hne
          · obtain rfl := Option.some.inj (hk.symm.trans he')
            exact ⟨by omega, fun _ => Fin.le_def.mpr (by omega)⟩
          · exact hmax s e' (lt_of_lt_succ_of_ne hs hne) he' ht'
    · rw [if_neg fun hc => ht hc.1]
      refine h.skip fun e' he' => ?_
      obtain rfl := Option.some.inj (hk.symm.trans he')
      exact ht

/-- **The loop finds the highest entry.** -/
theorem bestOf_spec (t : Trust) (f : Flash) :
    BestBelow t (view f) sectorCount (bestOf t fun s => classify (f s)) := by
  have h0 : BestBelow t (view f) (0 : Sector) none := fun s e hs => absurd hs (Nat.not_lt_zero _)
  have h1 : BestBelow t (view f) (1 : Sector) (keepBest t none 0 (classify (f 0))) := h0.step
  exact h1.step

theorem bestOf_some {t : Trust} {f : Flash} {p : Sector} {q : UInt32}
    (h : bestOf t (fun s => classify (f s)) = some (p, q)) :
    ∃ e, IsHighest t (view f) p e ∧ e.seq = q := by
  have hspec := bestOf_spec t f
  rw [h] at hspec
  obtain ⟨-, e, he, ht, rfl, hmax⟩ := hspec
  exact ⟨e, ⟨he, ht, fun s e' he' ht' => (hmax s e' s.isLt he' ht').1,
    fun s e' he' ht' => (hmax s e' s.isLt he' ht').2⟩, rfl⟩

theorem bestOf_none {t : Trust} {f : Flash} (h : bestOf t (fun s => classify (f s)) = none) :
    ∀ s e, view f s = some e → e.trust ≠ t := by
  have hspec := bestOf_spec t f
  rw [h] at hspec
  exact fun s e => hspec s e s.isLt

/-- There is only one highest entry. -/
theorem IsHighest.unique {t : Trust} {b : Book} {p p' : Sector} {e e' : Entry}
    (h : IsHighest t b p e) (h' : IsHighest t b p' e') : p = p' ∧ e = e' := by
  have hle := h.highest p' e' h'.entry h'.trust
  have hge := h'.highest p e h.entry h.trust
  have hseq : e.seq = e'.seq := UInt32.toNat_inj.mp (by omega)
  obtain rfl : p = p' :=
    le_antisymm (h.first p' e' h'.entry h'.trust hseq.symm) (h'.first p e h.entry h.trust hseq)
  exact ⟨rfl, Option.some.inj (h.entry.symm.trans h'.entry)⟩

/-! ### Confirming and rejecting -/

/-- The pending entry `confirm` and `reject` act on. -/
theorem pending_some {f : Flash} {p : Sector} {q : UInt32} (h : pending f = some (p, q)) :
    ∃ e, IsHighest .pending (view f) p e ∧ e.seq = q :=
  bestOf_some h

theorem pending_none {f : Flash} (h : pending f = none) :
    ∀ s e, view f s = some e → e.trust ≠ .pending :=
  bestOf_none h

theorem confirm_some {f : Flash} {w : Write} (h : confirm f = some w) :
    ∃ e, IsHighest .pending (view f) w.sector e ∧ w.entry = ⟨e.seq, State.valid⟩ := by
  obtain ⟨⟨p, q⟩, hp, rfl⟩ := Option.map_eq_some_iff.mp h
  obtain ⟨e, he, rfl⟩ := pending_some hp
  exact ⟨e, he, rfl⟩

theorem reject_some {f : Flash} {w : Write} (h : reject f = some w) :
    ∃ e, IsHighest .pending (view f) w.sector e ∧ w.entry = ⟨e.seq, State.invalid⟩ := by
  obtain ⟨⟨p, q⟩, hp, rfl⟩ := Option.map_eq_some_iff.mp h
  obtain ⟨e, he, rfl⟩ := pending_some hp
  exact ⟨e, he, rfl⟩

/-- A single pending entry is the one they act on. -/
theorem pending_of_only {f : Flash} {q : Sector} {e : Entry} (he : view f q = some e)
    (ht : e.trust = .pending)
    (honly : ∀ s e', view f s = some e' → e'.trust = .pending → s = q) :
    pending f = some (q, e.seq) := by
  rcases hp : pending f with _ | ⟨p, s⟩
  · exact absurd ht (pending_none hp q e he)
  · obtain ⟨e', he', rfl⟩ := pending_some hp
    obtain rfl := honly p e' he'.entry he'.trust
    rw [Option.some.inj (he.symm.trans he'.entry)]

/-! ### Activating -/

/-- The scan bounds every sequence present. -/
theorem le_maxSeq {f : Flash} {s : Sector} {e : Entry} (h : view f s = some e) :
    e.seq.toNat ≤ (maxSeq fun s => classify (f s)).toNat := by
  have hrange : List.finRange sectorCount = [0, 1] := by decide
  simp only [maxSeq, hrange, List.foldl_cons, List.foldl_nil]
  fin_cases s
  · have h0 : classify (f 0) = .ok e.seq e.trust := classify_of_some h
    rw [h0]
    cases classify (f 1) <;> simp only [toNat_max] <;> omega
  · have h1 : classify (f 1) = .ok e.seq e.trust := classify_of_some h
    rw [h1]
    simp only [toNat_max]
    omega

/-- **The search finds a sequence that selects the target**, no lower than where
it starts. -/
theorem searchSeq_ok {q s : UInt32} {slotCount target : UInt8}
    (h : searchSeq slotCount target q = .ok s) :
    q.toNat ≤ s.toNat ∧ slotOf s slotCount = target := by
  induction q using searchSeq.induct slotCount target with
  | case1 q hq =>
    rw [searchSeq, if_pos hq] at h
    cases h
    exact ⟨le_rfl, hq⟩
  | case2 q hq hnone =>
    rw [searchSeq, if_neg hq] at h
    split at h <;> simp_all
  | case3 q hq next hnext ih =>
    rw [searchSeq, if_neg hq] at h
    split at h
    · cases h
    · rename_i next' hnext'
      obtain rfl : next = next' := Option.some.inj (hnext.symm.trans hnext')
      have hadd := checkedAdd_some hnext
      have hih := ih h
      exact ⟨by omega, hih.2⟩

/-- **What `activate` writes**: an entry above every one present, selecting the
target, beside the entry to protect. -/
theorem activate_ok {f : Flash} {n target : UInt8} {w : Write} (h : activate f n target = .ok w) :
    ∃ e, IsHighest .valid (view f) (other w.sector) e ∧ w.entry.state = State.new ∧
      slotOf w.entry.seq n = target ∧
      ∀ s e', view f s = some e' → e'.seq.toNat < w.entry.seq.toNat := by
  unfold activate at h
  dsimp only at h
  -- the refusals: no base, no sequence above, no sequence that selects the target
  split at h
  · cases h
  · rename_i p q hbest
    split at h
    · cases h
    · rename_i next hnext
      split at h
      · cases h
      · rename_i s hs
        cases h
        obtain ⟨e, he, -⟩ := bestOf_some hbest
        obtain ⟨hle, hslot⟩ := searchSeq_ok hs
        have hadd := checkedAdd_some hnext
        have hone : (1 : UInt32).toNat = 1 := rfl
        refine ⟨e, (other_other p).symm ▸ he, rfl, hslot, fun s' e' he' => ?_⟩
        have hmax := le_maxSeq he'
        change e'.seq.toNat < s.toNat
        omega

/-- `activate`, when the next sequence number selects the target. -/
theorem activate_of_next {f : Flash} {n target : UInt8} {p : Sector} {q next : UInt32}
    (hbest : bestOf .valid (fun s => classify (f s)) = some (p, q))
    (hnext : checkedAdd (maxSeq fun s => classify (f s)) 1 = some next)
    (hslot : slotOf next n = target) : activate f n target = .ok ⟨1 - p, ⟨next, State.new⟩⟩ := by
  have hsearch : searchSeq n target next = .ok next := by rw [searchSeq, if_pos hslot]
  simp only [activate, hbest, hnext, hsearch]

end AtomicOta.Otadata
