import AtomicOta.Otadata.Attempts
import Mathlib.Algebra.BigOperators.Fin
import Mathlib.Algebra.Order.BigOperators.Group.Finset

/-!
# A crash loop stops writing

A device that boots again and again, each boot completing its plan and nothing else writing,
does not wear out its flash: from any two contents there are four updates in all
(`AtomicOta.Otadata.crash_loop`), and if the answers about images stay what they are, the
fourth boot and all later ones write nothing and decide the same.

## The rank of a book

Every update of a boot takes an entry one step down from unproven, over pending or valid, to
rejected, so that an entry has as many updates left as its `AtomicOta.Otadata.Trust.rank`
says. What this leaves out is the seed of a first boot, which makes a valid entry of nothing:
two sectors that say nothing count two, one for the seed and one for its rejection. With this
`AtomicOta.Otadata.rank`, a boot pays for each of its updates
(`AtomicOta.Otadata.Decides.pays`).

Four boots that write would have to be four updates, one to each boot. But they start from two
unproven entries, the first boot marks one of them, and the second then has two updates to
make: it aborts that entry and marks or rejects the other.
-/

namespace AtomicOta.Otadata

/-- How many updates are left to an entry that is believed so much. -/
def Trust.rank : Trust → ℕ
  | .unproven => 2
  | .pending => 1
  | .valid => 1
  | .dead => 0

/-- How many updates are left to a sector. -/
def rankAt (b : Book) (s : Sector) : ℕ := (b s).elim 0 fun e => e.trust.rank

/-- How many updates are left to a book. -/
def rank (b : Book) : ℕ := if ∀ s, b s = none then 2 else ∑ s, rankAt b s

theorem rankAt_of_some {b : Book} {s : Sector} {e : Entry} (h : b s = some e) :
    rankAt b s = e.trust.rank := by
  rw [rankAt, h, Option.elim_some]

theorem rank_of_some {b : Book} {s : Sector} {e : Entry} (h : b s = some e) :
    rank b = ∑ s, rankAt b s :=
  if_neg fun hnone => ne_some_of_none hnone h

theorem Trust.rank_le (t : Trust) : t.rank ≤ 2 := by
  cases t <;> decide

theorem rankAt_le (b : Book) (s : Sector) : rankAt b s ≤ 2 := by
  unfold rankAt
  cases b s with
  | none => exact Nat.zero_le 2
  | some e => exact e.trust.rank_le

theorem rank_le (b : Book) : rank b ≤ 4 := by
  unfold rank
  split_ifs
  · decide
  · calc ∑ s, rankAt b s ≤ ∑ _s : Sector, 2 := Finset.sum_le_sum fun s _ => rankAt_le b s
      _ = 4 := rfl

/-- The two sectors, beginning with either. -/
theorem sum_sector (g : Sector → ℕ) (s : Sector) : ∑ s, g s = g s + g (other s) := by
  rw [Fin.sum_univ_two]
  fin_cases s
  · rfl
  · exact Nat.add_comm ..

/-- Only an unproven entry has two updates left. -/
theorem unproven_of_rankAt {b : Book} {s : Sector} (h : 2 ≤ rankAt b s) :
    ∃ e, b s = some e ∧ e.trust = .unproven := by
  unfold rankAt at h
  cases hb : b s with
  | none =>
    rw [hb] at h
    exact absurd h (by decide)
  | some e =>
    rw [hb, Option.elim_some] at h
    refine ⟨e, rfl, ?_⟩
    cases ht : e.trust <;> rw [ht] at h <;> first | rfl | exact absurd h (by decide)

/-- Only two unproven entries have four. -/
theorem unproven_of_rank {b : Book} (h : 4 ≤ rank b) (s : Sector) :
    ∃ e, b s = some e ∧ e.trust = .unproven := by
  unfold rank at h
  split_ifs at h
  · exact absurd h (by decide)
  · have hs := rankAt_le b (other s)
    rw [sum_sector _ s] at h
    exact unproven_of_rankAt (by omega)

/-! ### What a boot pays -/

section Boot

variable {f : Flash} {n : UInt8} {ok : ImageOk} {p : Plan}

/-- An update of an entry that is there takes it down in rank, and never makes it valid. -/
theorem Reason.rank_lt {b : Book} {w : Write} (h : Reason b n ok p w) {e : Entry}
    (he : b w.sector = some e) :
    ∃ state, w.entry = ⟨e.seq, state⟩ ∧ Entry.Known state ∧ Trust.of state ≠ .valid ∧
      (Trust.of state).rank < e.trust.rank := by
  have hself : ∀ {e'}, b w.sector = some e' → e = e' :=
    fun he' => Option.some.inj (he.symm.trans he')
  cases h with
  | abort e' he' ht hw =>
    rw [hself he', ht]
    exact ⟨State.aborted, hw, by decide, by decide, by decide⟩
  | invalid e' he' ht _ hw =>
    refine ⟨State.invalid, hself he' ▸ hw, by decide, by decide, ?_⟩
    rw [hself he']
    rcases ht with ht | ht <;> rw [ht] <;> decide
  | mark e' he' ht _ hw =>
    rw [hself he', ht]
    exact ⟨State.pendingVerify, hw, by decide, by decide, by decide⟩
  | seed hnone => exact absurd he (ne_some_of_none hnone)

/-- What a boot that finds an entry leaves of a sector it writes: the entry that was there, one
step down. -/
theorem Decides.demotes (h : Decides (view f) n ok p) (hsome : ∃ s e, view f s = some e)
    {w : Write} (hw : w ∈ p.writes) :
    ∃ e e', view f w.sector = some e ∧ view (execWrites f p.writes) w.sector = some e' ∧
      e'.trust ≠ .valid ∧ e'.trust.rank < e.trust.rank := by
  obtain ⟨e, he⟩ : ∃ e, view f w.sector = some e := by
    cases h.reason hw with
    | abort e he => exact ⟨e, he⟩
    | invalid e he => exact ⟨e, he⟩
    | mark e he => exact ⟨e, he⟩
    | seed hnone =>
      obtain ⟨s, e, he⟩ := hsome
      exact absurd he (ne_some_of_none hnone)
  obtain ⟨state, hentry, hknown, hvalid, hrank⟩ := (h.reason hw).rank_lt he
  have hadm := admissible_of_accepted he
  have hafter := view_execWrites_of_mem h.pairwise hw f
  have hsome : admitted w.entry = some w.entry :=
    admitted_eq_some.mpr ⟨hentry ▸ ⟨hadm.seq_ne_zero, hadm.seq_ne_max, hknown⟩, rfl⟩
  exact ⟨e, w.entry, he, hafter.trans hsome, hentry ▸ hvalid, hentry ▸ hrank⟩

/-- Every sector pays for its update. -/
theorem Decides.rankAt_step (h : Decides (view f) n ok p) (hsome : ∃ s e, view f s = some e)
    (s : Sector) :
    (if s ∈ p.writes.map Write.sector then 1 else 0) + rankAt (view (execWrites f p.writes)) s ≤
      rankAt (view f) s := by
  split_ifs with hs
  · obtain ⟨w, hw, rfl⟩ := List.mem_map.mp hs
    obtain ⟨e, e', he, he', -, hlt⟩ := h.demotes hsome hw
    rw [rankAt_of_some he, rankAt_of_some he']
    omega
  · have hsame := view_execWrites_of_ne (fun w hw hws => hs (List.mem_map.mpr ⟨w, hw, hws⟩)) f
    rw [rankAt, hsame, zero_add, rankAt]

/-- No sector being written twice, the updates of a plan are counted by sector. -/
theorem Decides.length_writes {b : Book} (h : Decides b n ok p) :
    p.writes.length = ∑ s : Sector, if s ∈ p.writes.map Write.sector then 1 else 0 := by
  have hnodup : (p.writes.map Write.sector).Nodup := List.pairwise_map.mpr h.pairwise
  rw [← List.length_map (f := Write.sector), ← List.toFinset_card_of_nodup hnodup,
    Finset.card_eq_sum_ones, ← Finset.sum_filter]
  refine Finset.sum_congr ?_ fun _ _ => rfl
  ext s
  simp

/-- An entry that is there stays there, whatever becomes of it. -/
theorem Decides.some_stays (h : Decides (view f) n ok p) (hsome : ∃ s e, view f s = some e) :
    ∃ s e, view (execWrites f p.writes) s = some e := by
  obtain ⟨s, e, he⟩ := hsome
  by_cases hs : ∃ w ∈ p.writes, w.sector = s
  · obtain ⟨w, hw, rfl⟩ := hs
    obtain ⟨-, e', -, he', -, -⟩ := h.demotes ⟨_, e, he⟩ hw
    exact ⟨_, e', he'⟩
  · have hsame := view_execWrites_of_ne (fun w hw hws => hs ⟨w, hw, hws⟩) f
    exact ⟨s, e, hsame.trans he⟩

/-- What the seed of a first boot leaves. -/
theorem view_seedPlan (f : Flash) :
    view (execWrites f seedPlan.writes) = Function.update (view f) 0 (some ⟨1, State.valid⟩) := by
  have hadm : admitted ⟨1, State.valid⟩ = some ⟨1, State.valid⟩ :=
    admitted_eq_some.mpr ⟨by decide, rfl⟩
  funext s
  have hw : (⟨0, ⟨1, State.valid⟩⟩ : Write) ∈ seedPlan.writes := List.mem_singleton.mpr rfl
  rcases eq_or_ne s 0 with rfl | hs
  · rw [Function.update_self]
    exact (view_execWrites_of_mem (List.pairwise_singleton _ _) hw f).trans hadm
  · rw [Function.update_of_ne hs]
    refine view_execWrites_of_ne (fun w hw => ?_) f
    rw [List.mem_singleton.mp hw]
    exact hs.symm

/-- **A boot pays for its updates.** -/
theorem Decides.pays (h : Decides (view f) n ok p) :
    p.writes.length + rank (view (execWrites f p.writes)) ≤ rank (view f) := by
  by_cases hnone : ∀ s, view f s = none
  · rcases decides_of_none h hnone with ⟨rfl, -⟩ | ⟨rfl, -⟩
    · have h0 : rankAt (view (execWrites f seedPlan.writes)) 0 = 1 := by
        rw [view_seedPlan]
        exact rankAt_of_some (Function.update_self ..)
      have h1 : rankAt (view (execWrites f seedPlan.writes)) 1 = 0 := by
        rw [view_seedPlan, rankAt, Function.update_of_ne (by decide), hnone, Option.elim_none]
      have hafter : view (execWrites f seedPlan.writes) 0 = some ⟨1, State.valid⟩ := by
        rw [view_seedPlan, Function.update_self]
      rw [rank_of_some hafter, Fin.sum_univ_two, h0, h1, rank, if_pos hnone]
      exact le_rfl
    · exact (Nat.zero_add _).le
  · have hsome : ∃ s e, view f s = some e := by
      obtain ⟨s, hs⟩ := not_forall.mp hnone
      exact ⟨s, Option.ne_none_iff_exists'.mp hs⟩
    obtain ⟨s, e, he⟩ := hsome
    obtain ⟨s', e', he'⟩ := h.some_stays ⟨s, e, he⟩
    rw [rank_of_some he, rank_of_some he', h.length_writes, ← Finset.sum_add_distrib]
    exact Finset.sum_le_sum fun s _ => h.rankAt_step ⟨_, e, he⟩ s

/-- A sector that is aborted and an unproven entry beside it are two updates. -/
theorem Decides.two_le {b : Book} (h : Decides b n ok p) {s : Sector} {e e' : Entry}
    (he : b s = some e) (ht : e.trust = .pending) (he' : b (other s) = some e')
    (ht' : e'.trust = .unproven) : 2 ≤ p.writes.length := by
  have hcand : candidateAt b (other s) = some ⟨other s, e'.seq, .unproven⟩ := by
    rw [candidateAt, he', Option.bind_some, if_pos (.inr ht'), ht']
  have hcand' : candidateAt b (other (other s)) = none := by
    rw [other_other, candidateAt, he, Option.bind_some, if_neg (by rw [ht]; decide)]
  have habort : abortAt b s = some ⟨s, ⟨e.seq, State.aborted⟩⟩ := by
    rw [abortAt, he, Option.bind_some, if_pos ht]
  have habort' : abortAt b (other s) = none := by
    rw [abortAt, he', Option.bind_some, if_neg (by rw [ht']; decide)]
  have haborts : (aborts b).length = 1 := by
    rw [aborts_of_other habort', habort]
    rfl
  have hranked := ranked_of_one hcand hcand'
  cases h with
  | boots pre c post hsplit hpre hc =>
    rw [hranked] at hsplit
    rcases pre with _ | ⟨d, pre⟩
    · obtain ⟨rfl, -⟩ := List.cons.inj hsplit
      simp [haborts, Candidate.mark]
    · exact absurd (congrArg List.length hsplit) (by simp)
  | seeds hnone => exact absurd he (ne_some_of_none hnone)
  | noImage hnone => exact absurd he (ne_some_of_none hnone)
  | noUsable _ _ => simp [haborts, hranked]

/-- Of two unproven entries, a boot that leaves three updates has marked one: the next boot
has two to make. -/
theorem Decides.two_le_next (h : Decides (view f) n ok p)
    (hall : ∀ s, ∃ e, view f s = some e ∧ e.trust = .unproven) (hne : p.writes ≠ [])
    (hrank : 3 ≤ rank (view (execWrites f p.writes))) {ok' : ImageOk} {p' : Plan}
    (h' : Decides (view (execWrites f p.writes)) n ok' p') : 2 ≤ p'.writes.length := by
  obtain ⟨w, hw⟩ := List.exists_mem_of_ne_nil _ hne
  obtain ⟨e₀, he₀, ht₀⟩ := hall w.sector
  obtain ⟨e, e', he, he', hvalid, hlt⟩ := h.demotes ⟨_, e₀, he₀⟩ hw
  rw [rank_of_some he', sum_sector _ w.sector, rankAt_of_some he'] at hrank
  obtain rfl := Option.some.inj (he₀.symm.trans he)
  rw [ht₀] at hlt
  have hother := rankAt_le (view (execWrites f p.writes)) (other w.sector)
  have hbelow : e'.trust.rank < 2 := hlt
  have hpending : e'.trust = .pending := by
    have hone : e'.trust.rank = 1 := by omega
    cases ht : e'.trust <;> rw [ht] at hone hvalid <;>
      first | rfl | exact absurd hone (by decide) | exact absurd rfl hvalid
  obtain ⟨e'', he'', ht''⟩ := unproven_of_rankAt (b := view (execWrites f p.writes))
    (s := other w.sector) (by omega)
  exact h'.two_le he' hpending he'' ht''

end Boot

/-! ### Boots in a row -/

/-- The flash after so many boots, each to its end; the `k`-th gets the answers `ok k`. -/
def afterBoots (n : UInt8) (ok : ℕ → ImageOk) (f : Flash) : ℕ → Flash
  | 0 => f
  | k + 1 =>
    execWrites (afterBoots n ok f k) (planBoot (afterBoots n ok f k) n (ok k)).writes

/-- The plan of a boot of this sequence, counted from 0. -/
def planAt (n : UInt8) (ok : ℕ → ImageOk) (f : Flash) (k : ℕ) : Plan :=
  planBoot (afterBoots n ok f k) n (ok k)

section Boots

variable (n : UInt8) (ok : ℕ → ImageOk) (f : Flash)

theorem afterBoots_succ (k : ℕ) :
    afterBoots n ok f (k + 1) = execWrites (afterBoots n ok f k) (planAt n ok f k).writes := rfl

/-- The rank of the flash that a boot of the sequence finds. -/
def rankOf (k : ℕ) : ℕ := rank (view (afterBoots n ok f k))

theorem decides_planAt (k : ℕ) :
    Decides (view (afterBoots n ok f k)) n (ok k) (planAt n ok f k) :=
  decides_planBoot ..

theorem planAt_rank_le (k : ℕ) :
    (planAt n ok f k).writes.length + rankOf n ok f (k + 1) ≤ rankOf n ok f k := by
  rw [rankOf, afterBoots_succ]
  exact (decides_planAt n ok f k).pays

/-- The boot after one that has marked one of two unproven entries. -/
theorem two_le_planAt_succ (k : ℕ) (h : 4 ≤ rankOf n ok f k)
    (hne : (planAt n ok f k).writes ≠ []) (h' : 3 ≤ rankOf n ok f (k + 1)) :
    2 ≤ (planAt n ok f (k + 1)).writes.length := by
  have hnext := decides_planAt n ok f (k + 1)
  rw [afterBoots_succ] at hnext
  rw [rankOf, afterBoots_succ] at h'
  exact (decides_planAt n ok f k).two_le_next (unproven_of_rank h) hne h' hnext

/-- Every boot pays for its updates, and so do all of them. -/
theorem sum_writes_rank_le (N : ℕ) :
    ∑ k ∈ Finset.range N, (planAt n ok f k).writes.length + rankOf n ok f N ≤ rankOf n ok f 0 := by
  induction N with
  | zero => simp
  | succ N ih =>
    have hstep := planAt_rank_le n ok f N
    rw [Finset.sum_range_succ]
    omega

variable {n ok f}

/-- With fixed answers, a boot that writes nothing is repeated by all later ones. -/
theorem afterBoots_of_nil {bootable : UInt8 → Bool} (hok : ∀ k, ok k = fixed bootable) {k : ℕ}
    (h : (planAt n ok f k).writes = []) {j : ℕ} (hj : k ≤ j) :
    afterBoots n ok f j = afterBoots n ok f k := by
  induction j, hj using Nat.le_induction with
  | base => rfl
  | succ j _ ih =>
    have hplan : planAt n ok f j = planAt n ok f k := by
      rw [planAt, planAt, ih, hok, hok]
    rw [afterBoots_succ, hplan, h, execWrites_nil, ih]

theorem planAt_of_nil {bootable : UInt8 → Bool} (hok : ∀ k, ok k = fixed bootable) {k : ℕ}
    (h : (planAt n ok f k).writes = []) {j : ℕ} (hj : k ≤ j) :
    planAt n ok f j = planAt n ok f k := by
  rw [planAt, planAt, afterBoots_of_nil hok h hj, hok, hok]

/-- With fixed answers, the fourth boot writes nothing. -/
theorem planAt_three {bootable : UInt8 → Bool} (hok : ∀ k, ok k = fixed bootable) :
    (planAt n ok f 3).writes = [] := by
  by_contra hne
  have hwrites : ∀ k, k ≤ 3 → 1 ≤ (planAt n ok f k).writes.length := by
    intro k hk
    refine List.length_pos_of_ne_nil fun hnil => hne ?_
    rw [planAt_of_nil hok hnil hk, hnil]
  -- four boots that write would be four updates, one to each boot
  have hw0 := hwrites 0 (by decide)
  have hw1 := hwrites 1 (by decide)
  have hw2 := hwrites 2 (by decide)
  have hw3 := hwrites 3 (by decide)
  have hr0 : rankOf n ok f 0 ≤ 4 := rank_le _
  have hp0 : (planAt n ok f 0).writes.length + rankOf n ok f 1 ≤ rankOf n ok f 0 :=
    planAt_rank_le n ok f 0
  have hp1 : (planAt n ok f 1).writes.length + rankOf n ok f 2 ≤ rankOf n ok f 1 :=
    planAt_rank_le n ok f 1
  have hp2 : (planAt n ok f 2).writes.length + rankOf n ok f 3 ≤ rankOf n ok f 2 :=
    planAt_rank_le n ok f 2
  have hp3 : (planAt n ok f 3).writes.length + rankOf n ok f 4 ≤ rankOf n ok f 3 :=
    planAt_rank_le n ok f 3
  have hr1 : 3 ≤ rankOf n ok f 1 := by omega
  have htwo : 2 ≤ (planAt n ok f 1).writes.length :=
    two_le_planAt_succ n ok f 0 (by omega) (List.ne_nil_of_length_pos hw0) hr1
  omega

end Boots

/-- **A crash loop stops writing.** Whatever the two sectors hold, and whatever `image_ok`
answers to which boot, the boots that follow each other with nothing else writing make four
updates in all; and if the answers are fixed, the fourth boot and all later ones make none, and
decide the same. -/
theorem crash_loop (f : Flash) (n : UInt8) (ok : ℕ → ImageOk) :
    (∀ N, ∑ k ∈ Finset.range N, (planAt n ok f k).writes.length ≤ 4) ∧
    ∀ bootable : UInt8 → Bool, (∀ k, ok k = fixed bootable) →
      ∀ k, 3 ≤ k → (planAt n ok f k).writes = [] ∧ planAt n ok f k = planAt n ok f 3 := by
  refine ⟨fun N => ?_, fun bootable hok k hk => ?_⟩
  · have hsum := sum_writes_rank_le n ok f N
    have hrank : rankOf n ok f 0 ≤ 4 := rank_le _
    omega
  · have hnil : (planAt n ok f 3).writes = [] := planAt_three hok
    have hplan := planAt_of_nil hok hnil hk
    refine ⟨?_, hplan⟩
    rw [hplan, hnil]

/-- The longest way there is: of two unproven entries, the higher is marked, then aborted while
the lower is marked, then the lower is aborted too. -/
example : (List.range 5).map (fun k => (planAt 2 (fun _ => fixed fun _ => true)
    (fun s => if s = 0 then Entry.encode ⟨1, State.new⟩ else Entry.encode ⟨2, State.new⟩)
    k).writes.length) = [1, 2, 1, 0, 0] := by
  decide +kernel

end AtomicOta.Otadata
