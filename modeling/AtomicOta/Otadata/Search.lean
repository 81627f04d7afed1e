import AtomicOta.Otadata.Agent

/-!
# The sequence an activation takes

`AtomicOta.Otadata.activate` takes the first sequence number above all those present that
selects the target, and refuses when there is none left in the `u32` range. This file
relates the loop that looks for it, `AtomicOta.Otadata.searchSeq`, to what it looks for:

* the loop *is* a walk, number by number, that ends
  (`AtomicOta.Otadata.SearchRun`, `AtomicOta.Otadata.searchRun_searchSeq`);
* what it stops at is the least number from its start on that selects the target, and it
  is exhausted when there is none (`AtomicOta.Otadata.searchSeq_spec`);
* a number selects the slot it selected `slot_count` before
  (`AtomicOta.Otadata.slotOf_sub`), so the least is never more than a cycle away.

`AtomicOta.Otadata.activate_exact` puts these together.
-/

namespace AtomicOta.Otadata

/-! ### Slots -/

/-- **The slots take turns**: the sequence numbers select them in a cycle, from 1. -/
theorem toNat_slotOf {q : UInt32} {n : UInt8} (hn : 1 ≤ n) (hq : q ≠ 0) :
    (slotOf q n).toNat = (q.toNat - 1) % n.toNat := by
  have hpos : 0 < n.toNat := UInt8.le_iff_toNat_le.mp hn
  have hlt : (q.toNat - 1) % n.toNat < 2 ^ 8 := (Nat.mod_lt _ hpos).trans n.toNat_lt
  have hsub : (q - 1).toNat = q.toNat - 1 := toNat_sub_of_le' (one_le_toNat hq)
  rw [slotOf, UInt32.toNat_toUInt8, UInt32.toNat_mod, UInt8.toNat_toUInt32, hsub,
    Nat.mod_eq_of_lt hlt]

/-- Only the slots there are can be selected. -/
theorem slotOf_lt {q : UInt32} {n : UInt8} (hn : 1 ≤ n) (hq : q ≠ 0) : slotOf q n < n := by
  rw [UInt8.lt_iff_toNat_lt, toNat_slotOf hn hq]
  exact Nat.mod_lt _ (UInt8.le_iff_toNat_le.mp hn)

/-- A number selects the slot it selected one cycle before. -/
theorem slotOf_sub {q r : UInt32} {n : UInt8} (hn : 1 ≤ n) (hr : r ≠ 0)
    (h : q.toNat = r.toNat + n.toNat) : slotOf q n = slotOf r n := by
  have hr' := one_le_toNat hr
  have hq : q ≠ 0 := by
    rintro rfl
    have hzero : (0 : UInt32).toNat = 0 := rfl
    omega
  have hcycle : q.toNat - 1 = r.toNat - 1 + n.toNat := by omega
  rw [← UInt8.toNat_inj, toNat_slotOf hn hq, toNat_slotOf hn hr, hcycle, Nat.add_mod_right]

/-! ### The walk -/

/-- **A run of the search**: it starts at a number, asks for the slots of these ones, in
this order, and ends with this answer. -/
inductive SearchRun (n target : UInt8) :
    UInt32 → List UInt32 → Except ActivateError UInt32 → Prop
  /-- The number selects the target. -/
  | found {q : UInt32} (hq : slotOf q n = target) : SearchRun n target q [q] (.ok q)
  /-- It does not, and it is the last one. -/
  | exhausted {q : UInt32} (hq : slotOf q n ≠ target) (hnext : checkedAdd q 1 = none) :
    SearchRun n target q [q] (.error .sequenceExhausted)
  /-- It does not, and the search goes on with the next one. -/
  | next {q r : UInt32} {asked : List UInt32} {answer : Except ActivateError UInt32}
    (hq : slotOf q n ≠ target) (hnext : checkedAdd q 1 = some r)
    (hrun : SearchRun n target r asked answer) : SearchRun n target q (q :: asked) answer

/-- **The search ends**, wherever it starts. -/
theorem searchRun_searchSeq (n target : UInt8) (q : UInt32) :
    ∃ asked, SearchRun n target q asked (searchSeq n target q) := by
  induction q using searchSeq.induct n target with
  | case1 q hq =>
    rw [searchSeq, if_pos hq]
    exact ⟨[q], .found hq⟩
  | case2 q hq hnone =>
    rw [searchSeq, if_neg hq]
    split
    · exact ⟨[q], .exhausted hq hnone⟩
    · simp_all
  | case3 q hq r hnext ih =>
    obtain ⟨asked, hrun⟩ := ih
    rw [searchSeq, if_neg hq]
    split
    · simp_all
    · rename_i r' hr'
      obtain rfl : r = r' := Option.some.inj (hnext.symm.trans hr')
      exact ⟨q :: asked, .next hq hnext hrun⟩

variable {n target : UInt8} {q : UInt32} {asked : List UInt32}
  {answer : Except ActivateError UInt32}

/-- The search only goes up. -/
theorem SearchRun.le (h : SearchRun n target q asked answer) :
    ∀ r ∈ asked, q.toNat ≤ r.toNat := by
  induction h with
  | found => simp
  | exhausted => simp
  | next hq hnext hrun ih =>
    have hadd := checkedAdd_some hnext
    have hone : (1 : UInt32).toNat = 1 := rfl
    rintro r' hr'
    rcases List.mem_cons.mp hr' with rfl | hmem
    · exact le_rfl
    · have := ih r' hmem
      omega

/-- What a number is to be taken: the least from `q` on that selects the target. -/
structure IsNext (n target : UInt8) (q s : UInt32) : Prop where
  le : q.toNat ≤ s.toNat
  slot : slotOf s n = target
  least : ∀ r : UInt32, q.toNat ≤ r.toNat → slotOf r n = target → s.toNat ≤ r.toNat

/-- **What the search answers**: the least number that selects the target, or that there
is none. -/
theorem SearchRun.spec (h : SearchRun n target q asked answer) :
    (∃ s, IsNext n target q s ∧ answer = .ok s) ∨
      (∀ r : UInt32, q.toNat ≤ r.toNat → slotOf r n ≠ target) ∧
        answer = .error .sequenceExhausted := by
  induction h with
  | found hq => exact .inl ⟨_, ⟨le_rfl, hq, fun _ hr _ => hr⟩, rfl⟩
  | @exhausted q hq hnext =>
    refine .inr ⟨fun r hr => ?_, rfl⟩
    obtain rfl : q = r := UInt32.toNat_inj.mp (le_antisymm hr (le_of_checkedAdd_none hnext))
    exact hq
  | @next q q' asked answer hq hnext hrun ih =>
    have hadd : q'.toNat = q.toNat + 1 := checkedAdd_some hnext
    -- the start is not one, so from it on is from the next one on
    have hskip : ∀ r : UInt32, q.toNat ≤ r.toNat → slotOf r n = target → q'.toNat ≤ r.toNat := by
      intro r hr hslot
      have hne : q.toNat ≠ r.toNat := fun heq => hq (UInt32.toNat_inj.mp heq ▸ hslot)
      omega
    rcases ih with ⟨s, hs, rfl⟩ | ⟨hnone, rfl⟩
    · exact .inl ⟨s, ⟨by have := hs.le; omega, hs.slot,
        fun r hr hslot => hs.least r (hskip r hr hslot) hslot⟩, rfl⟩
    · exact .inr ⟨fun r hr hslot => hnone r (hskip r hr hslot) hslot, rfl⟩

theorem searchSeq_spec (n target : UInt8) (q : UInt32) :
    (∃ s, IsNext n target q s ∧ searchSeq n target q = .ok s) ∨
      (∀ r : UInt32, q.toNat ≤ r.toNat → slotOf r n ≠ target) ∧
        searchSeq n target q = .error .sequenceExhausted := by
  obtain ⟨asked, hrun⟩ := searchRun_searchSeq n target q
  exact hrun.spec

/-! ### The activation -/

/-- **The highest sequence** among the accepted entries. -/
structure IsTop (f : Flash) (m : UInt32) : Prop where
  mem : ∃ s e, decode (f s) = .ok e ∧ e.seq = m
  top : ∀ s e, decode (f s) = .ok e → e.seq ≤ m

/-- The scan goes no higher than the entries do. -/
theorem maxSeq_le {f : Flash} {k : ℕ} (h : ∀ s e, view f s = some e → e.seq.toNat ≤ k) :
    (maxSeq fun s => classify (f s)).toNat ≤ k := by
  have hrange : List.finRange sectorCount = [0, 1] := by decide
  have hcls : ∀ s, (∃ q t, classify (f s) = .ok q t ∧ q.toNat ≤ k) ∨ classify (f s) = .blank ∨
      classify (f s) = .corrupt := by
    intro s
    rcases hs : view f s with _ | e
    · exact .inr (classify_of_none hs)
    · exact .inl ⟨e.seq, e.trust, classify_of_some hs, h s e hs⟩
  simp only [maxSeq, hrange, List.foldl_cons, List.foldl_nil]
  rcases hcls 0 with ⟨q, t, h0, hq⟩ | h0 | h0 <;>
    rcases hcls 1 with ⟨q', t', h1, hq'⟩ | h1 | h1 <;>
    simp only [h0, h1, toNat_max, UInt32.toNat_zero] <;> omega

theorem maxSeq_eq {f : Flash} {m : UInt32} (h : IsTop f m) :
    maxSeq (fun s => classify (f s)) = m := by
  obtain ⟨s, e, he, rfl⟩ := h.mem
  refine UInt32.toNat_inj.mp (le_antisymm (maxSeq_le fun s' e' he' => ?_)
    (le_maxSeq (accepted_eq_some.mpr he)))
  exact UInt32.le_iff_toNat_le.mp (h.top s' e' (accepted_eq_some.mp he'))

/-- There is a highest sequence as soon as there is an entry. -/
theorem exists_isTop {f : Flash} {s : Sector} {e : Entry} (h : decode (f s) = .ok e) :
    ∃ m, IsTop f m := by
  by_cases hother : ∃ e', decode (f (other s)) = .ok e' ∧ e.seq ≤ e'.seq
  · obtain ⟨e', he', hle⟩ := hother
    refine ⟨e'.seq, ⟨other s, e', he', rfl⟩, fun s' d hd => ?_⟩
    rcases eq_or_ne s' s with rfl | hne
    · rwa [Decoded.ok.inj (hd.symm.trans h)]
    · rw [eq_other_of_ne hne] at hd
      rw [Decoded.ok.inj (hd.symm.trans he')]
      exact UInt32.le_refl _
  · refine ⟨e.seq, ⟨s, e, h, rfl⟩, fun s' d hd => ?_⟩
    rcases eq_or_ne s' s with rfl | hne
    · rw [Decoded.ok.inj (hd.symm.trans h)]
      exact UInt32.le_refl _
    · rw [eq_other_of_ne hne] at hd
      by_contra hlt
      exact hother ⟨d, hd, UInt32.le_of_lt (UInt32.not_le.mp hlt)⟩

/-- Without a valid entry, `activate` refuses. -/
theorem activate_of_none {f : Flash} (h : ∀ s e, view f s = some e → e.trust ≠ .valid) :
    activate f n target = .error .noValidBase := by
  rcases hbest : bestOf .valid (fun s => classify (f s)) with _ | ⟨p, q⟩
  · simp only [activate, hbest]
  · obtain ⟨e, he, -⟩ := bestOf_some hbest
    exact absurd he.trust (h p e he.entry)

/-- **What `activate` answers beside a valid entry**: the least number above all those
present that selects the target, or that there is none. -/
theorem activate_spec {f : Flash} {m : UInt32} {p : Sector} {b : Entry} (hm : IsTop f m)
    (hb : IsHighest .valid (view f) p b) (target : UInt8) :
    (∃ s : UInt32, m < s ∧ slotOf s n = target ∧
        (∀ r : UInt32, m < r → slotOf r n = target → s ≤ r) ∧
        activate f n target = .ok ⟨other p, ⟨s, State.new⟩⟩) ∨
      (∀ r : UInt32, m < r → slotOf r n ≠ target) ∧
        activate f n target = .error .sequenceExhausted := by
  rcases hbest : bestOf .valid (fun s => classify (f s)) with _ | ⟨p', q⟩
  · exact absurd hb.trust (bestOf_none hbest p b hb.entry)
  obtain ⟨b', hb', -⟩ := bestOf_some hbest
  obtain ⟨rfl, rfl⟩ := hb.unique hb'
  simp only [activate, hbest, maxSeq_eq hm, UInt32.lt_iff_toNat_lt, UInt32.le_iff_toNat_le]
  rcases hnext : checkedAdd m 1 with _ | first
  · exact .inr ⟨fun r hr => absurd hr (Nat.not_lt.mpr (le_of_checkedAdd_none hnext)), rfl⟩
  · have hadd : first.toNat = m.toNat + 1 := checkedAdd_some hnext
    dsimp only
    -- from the first number of the search on is above the highest one present
    rcases searchSeq_spec n target first with ⟨s, hs, heq⟩ | ⟨hnone, heq⟩
    · have hle := hs.le
      rw [heq]
      exact .inl ⟨s, by omega, hs.slot, fun r hr => hs.least r (by omega), rfl⟩
    · rw [heq]
      exact .inr ⟨fun r hr => hnone r (by omega), rfl⟩

/-- There is a highest valid entry as soon as there is a valid one. -/
theorem exists_isHighest {t : Trust} {f : Flash} {s : Sector} {e : Entry}
    (h : view f s = some e) (ht : e.trust = t) : ∃ p b, IsHighest t (view f) p b := by
  rcases hbest : bestOf t (fun s => classify (f s)) with _ | ⟨p, q⟩
  · exact absurd ht (bestOf_none hbest s e h)
  · obtain ⟨b, hb, -⟩ := bestOf_some hbest
    exact ⟨p, b, hb⟩

/-- **The least number that selects a slot is at most a cycle away**: one further away is
not the least, the number one cycle before it selects the same slot. -/
theorem sub_le_of_least {m s : UInt32} (hn : 1 ≤ n)
    (hleast : ∀ r : UInt32, m < r → slotOf r n = slotOf s n → s ≤ r) :
    s.toNat - m.toNat ≤ n.toNat := by
  by_contra hgt
  have hpos : 1 ≤ n.toNat := UInt8.le_iff_toNat_le.mp hn
  have hle : n.toUInt32.toNat ≤ s.toNat := by
    rw [UInt8.toNat_toUInt32]
    omega
  have hsub : (s - n.toUInt32).toNat = s.toNat - n.toNat := by
    rw [toNat_sub_of_le' hle, UInt8.toNat_toUInt32]
  have habove : m < s - n.toUInt32 := by
    rw [UInt32.lt_iff_toNat_lt, hsub]
    omega
  have hcycle : slotOf s n = slotOf (s - n.toUInt32) n :=
    slotOf_sub hn (ne_zero_of_lt habove) (by omega)
  have hcontra := UInt32.le_iff_toNat_le.mp (hleast _ habove hcycle.symm)
  omega

/-- **There is one within a cycle**, where a cycle is left. -/
theorem exists_slotOf {m : UInt32} (hn : 1 ≤ n) (ht : target < n)
    (hroom : m.toNat + n.toNat < 2 ^ 32) : ∃ s : UInt32, m < s ∧ slotOf s n = target := by
  have hpos : 1 ≤ n.toNat := UInt8.le_iff_toNat_le.mp hn
  have hlt : target.toNat < n.toNat := UInt8.lt_iff_toNat_lt.mp ht
  -- as far above as the target is behind in the cycle
  set k := (target.toNat + (n.toNat - m.toNat % n.toNat)) % n.toNat with hk
  have hklt : k < n.toNat := Nat.mod_lt _ hpos
  have hmod : m.toNat % n.toNat < n.toNat := Nat.mod_lt _ hpos
  have hsum : (m.toNat + k) % n.toNat = target.toNat := by
    have hdiv := Nat.div_add_mod m.toNat n.toNat
    have hcycles : m.toNat + (target.toNat + (n.toNat - m.toNat % n.toNat)) =
        target.toNat + n.toNat * (m.toNat / n.toNat + 1) := by
      rw [Nat.mul_add]
      omega
    rw [hk, Nat.add_mod_mod, hcycles, Nat.add_mul_mod_self_left, Nat.mod_eq_of_lt hlt]
  have hs : (UInt32.ofNat (m.toNat + k + 1)).toNat = m.toNat + k + 1 :=
    UInt32.toNat_ofNat_of_lt' (show m.toNat + k + 1 < 2 ^ 32 by omega)
  have hm : m < UInt32.ofNat (m.toNat + k + 1) := by
    rw [UInt32.lt_iff_toNat_lt, hs]
    omega
  refine ⟨_, hm, ?_⟩
  rw [← UInt8.toNat_inj, toNat_slotOf hn (ne_zero_of_lt hm), hs, Nat.add_sub_cancel, hsum]

/-- The search starts above a number, so it never asks for the slot of 0. -/
theorem exists_run_above {m first : UInt32} (n target : UInt8)
    (h : checkedAdd m 1 = some first) :
    ∃ asked, SearchRun n target first asked (searchSeq n target first) ∧ ∀ q ∈ asked, q ≠ 0 := by
  obtain ⟨asked, hrun⟩ := searchRun_searchSeq n target first
  have hadd : first.toNat = m.toNat + 1 := checkedAdd_some h
  refine ⟨asked, hrun, fun q hq => ne_zero_of_lt (m := m) (UInt32.lt_iff_toNat_lt.mpr ?_)⟩
  have := hrun.le q hq
  omega

/-- **`activate` chooses the right entry, or refuses for the right reason**, on any flash
and for any target: with `m` the highest sequence present, the least number above it that
selects the target, at most a cycle away, in the sector that does not hold the valid entry
to fall back to. -/
theorem activate_exact (f : Flash) (n target : UInt8) (hn : 1 ≤ n) :
    (activate f n target = .error .noValidBase ↔
      ¬∃ s e, decode (f s) = .ok e ∧ e.state = State.valid) ∧
    ∀ m : UInt32, IsTop f m → (∃ s e, decode (f s) = .ok e ∧ e.state = State.valid) →
      ((∃ w, activate f n target = .ok w) ↔ ∃ s : UInt32, m < s ∧ slotOf s n = target) ∧
      (∀ w, activate f n target = .ok w →
        w.entry.state = State.new ∧ m < w.entry.seq ∧ slotOf w.entry.seq n = target ∧
        (∀ r : UInt32, m < r → slotOf r n = target → w.entry.seq ≤ r) ∧
        (∀ p b, IsHighest .valid (view f) p b → w.sector ≠ p) ∧
        w.entry.seq.toNat - m.toNat ≤ n.toNat) ∧
      ((¬∃ s : UInt32, m < s ∧ slotOf s n = target) →
        activate f n target = .error .sequenceExhausted) ∧
      (n ≤ target → activate f n target = .error .sequenceExhausted) ∧
      ∀ first, checkedAdd m 1 = some first →
        ∃ asked, SearchRun n target first asked (searchSeq n target first) ∧
          ∀ q ∈ asked, q ≠ 0 := by
  have hvalid : ∀ {s : Sector} {e : Entry}, decode (f s) = .ok e → e.state = State.valid →
      ∃ p b, IsHighest .valid (view f) p b :=
    fun he hs => exists_isHighest (accepted_eq_some.mpr he) (Entry.trust_eq_valid.mpr hs)
  refine ⟨⟨?_, fun hnone => activate_of_none fun s e he ht =>
    hnone ⟨s, e, accepted_eq_some.mp he, Entry.trust_eq_valid.mp ht⟩⟩, ?_⟩
  · -- beside a valid entry, no refusal names the base
    rintro herr ⟨s, e, he, hs⟩
    obtain ⟨p, b, hb⟩ := hvalid he hs
    obtain ⟨m, hm⟩ := exists_isTop he
    rcases activate_spec (n := n) hm hb target with ⟨s', -, -, -, heq⟩ | ⟨-, heq⟩ <;>
      rw [heq] at herr <;> cases herr
  rintro m hm ⟨s, e, he, hs⟩
  obtain ⟨p, b, hb⟩ := hvalid he hs
  have hfar : n ≤ target → ∀ r : UInt32, m < r → slotOf r n ≠ target := by
    rintro hle r hr rfl
    exact absurd (slotOf_lt hn (ne_zero_of_lt hr)) (UInt8.not_lt.mpr hle)
  rcases activate_spec (n := n) hm hb target with ⟨s', hlt, rfl, hleast, heq⟩ | ⟨hnone, heq⟩
  · have hsome : ∃ r : UInt32, m < r ∧ slotOf r n = slotOf s' n := ⟨s', hlt, rfl⟩
    refine ⟨⟨fun _ => hsome, fun _ => ⟨_, heq⟩⟩, fun w hw => ?_, fun hno => absurd hsome hno,
      fun hle => absurd rfl (hfar hle s' hlt), fun _ => exists_run_above n _⟩
    rw [heq] at hw
    cases hw
    refine ⟨rfl, hlt, rfl, hleast, fun p' b' hb' => ?_, sub_le_of_least hn hleast⟩
    rw [(hb'.unique hb).1]
    exact other_ne p
  · have hno : ¬∃ r : UInt32, m < r ∧ slotOf r n = target := fun ⟨r, hr, hslot⟩ => hnone r hr hslot
    refine ⟨⟨?_, fun hsome => absurd hsome hno⟩, fun w hw => ?_, fun _ => heq, fun _ => heq,
      fun _ => exists_run_above n target⟩
    · rintro ⟨w, hw⟩
      rw [heq] at hw
      cases hw
    · rw [heq] at hw
      cases hw

/-- A flash of a single entry. -/
def single (s : Sector) (e : Entry) : Flash := Function.update (fun _ => blank) s e.encode

theorem decode_single {s s' : Sector} {e e' : Entry} (he : e.Admissible) :
    decode (single s e s') = .ok e' ↔ s' = s ∧ e' = e := by
  unfold single
  rcases eq_or_ne s' s with rfl | hne
  · rw [Function.update_self, decode_encode he, Decoded.ok.injEq, eq_comm]
    exact ⟨fun h => ⟨rfl, h⟩, And.right⟩
  · rw [Function.update_of_ne hne, decode_blank]
    constructor
    · rintro ⟨⟩
    · rintro ⟨h, -⟩
      exact absurd h hne

theorem isTop_single {s : Sector} {e : Entry} (he : e.Admissible) : IsTop (single s e) e.seq := by
  refine ⟨⟨s, e, (decode_single he).mpr ⟨rfl, rfl⟩, rfl⟩, fun s' e' he' => ?_⟩
  rw [((decode_single he).mp he').2]
  exact UInt32.le_refl _

/-- Above the valid sequence 1, slot 1 of two is selected, and slot 2 never is. -/
theorem activate_exact_single :
    (∃ w, activate (single 0 ⟨1, State.valid⟩) 2 1 = .ok w) ∧
      activate (single 0 ⟨1, State.valid⟩) 2 2 = .error .sequenceExhausted := by
  have hadm : Entry.Admissible ⟨1, State.valid⟩ := by decide
  have hvalid : ∃ s e, decode (single 0 ⟨1, State.valid⟩ s) = .ok e ∧ e.state = State.valid :=
    ⟨0, ⟨1, State.valid⟩, (decode_single hadm).mpr ⟨rfl, rfl⟩, rfl⟩
  have h1 := (activate_exact (single 0 ⟨1, State.valid⟩) 2 1 (by decide)).2 1 (isTop_single hadm)
    hvalid
  have h2 := (activate_exact (single 0 ⟨1, State.valid⟩) 2 2 (by decide)).2 1 (isTop_single hadm)
    hvalid
  exact ⟨h1.1.mpr ⟨2, by decide, by decide⟩, h2.2.2.2.1 (by decide)⟩

end AtomicOta.Otadata
