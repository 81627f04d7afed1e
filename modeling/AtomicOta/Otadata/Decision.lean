import AtomicOta.Otadata.Plan
import Mathlib.Data.List.ReduceOption

/-!
# What the decisions say

The decisions of `AtomicOta.Otadata.Plan` read the flash only through the entries it
is accepted as. A `AtomicOta.Otadata.Book` is that reading – for each sector, the
entry it holds, or nothing – and this file says once, in terms of the book, what
each function can answer:

| function | theorem |
|---|---|
| `planBoot` | `AtomicOta.Otadata.decides_planBoot` |
| `activate` | `AtomicOta.Otadata.activate_ok` |
| `confirm`, `reject` | `AtomicOta.Otadata.pending_some`, `AtomicOta.Otadata.pending_none` |

Every later argument about a run goes through these and never unfolds a
function of the source again.
-/

namespace AtomicOta.Otadata

/-- The entries two sectors are accepted as. -/
abbrev Book : Type := Sector → Option Entry

/-- The book a flash reads as. -/
def view (f : Flash) : Book := fun s => accepted (f s)

theorem ne_some_of_none {b : Book} (h : ∀ s, b s = none) {s : Sector} {e : Entry} :
    b s ≠ some e :=
  fun he => absurd ((h s).symm.trans he) (by simp)

/-- How much an entry can be believed. -/
def Entry.trust (e : Entry) : Trust := Trust.of e.state

namespace Entry

variable {e : Entry}

theorem trust_eq_valid : e.trust = .valid ↔ e.state = State.valid := by
  unfold trust Trust.of
  split_ifs with h1 h2 h3 <;> simp_all

theorem trust_eq_pending : e.trust = .pending ↔ e.state = State.pendingVerify := by
  unfold trust Trust.of
  split_ifs with h1 h2 h3 <;> simp_all
  decide

theorem trust_eq_dead (h : Known e.state) :
    e.trust = .dead ↔ e.state = State.invalid ∨ e.state = State.aborted := by
  unfold trust Trust.of
  rcases h with h | h | h | h | h <;> rw [h] <;> decide

theorem trust_eq_unproven : e.trust = .unproven ↔ e.state = State.new := by
  unfold trust Trust.of
  split_ifs with h1 h2 h3 <;> simp_all <;> decide

/-- The states the functions of the source write, and how much each is believed. -/
@[simp] theorem trust_valid (q : UInt32) : Entry.trust ⟨q, State.valid⟩ = .valid := rfl

@[simp] theorem trust_pendingVerify (q : UInt32) :
    Entry.trust ⟨q, State.pendingVerify⟩ = .pending := rfl

@[simp] theorem trust_new (q : UInt32) : Entry.trust ⟨q, State.new⟩ = .unproven := rfl

@[simp] theorem trust_invalid (q : UInt32) : Entry.trust ⟨q, State.invalid⟩ = .dead := rfl

@[simp] theorem trust_aborted (q : UInt32) : Entry.trust ⟨q, State.aborted⟩ = .dead := rfl

end Entry

/-! ### The two sectors -/

/-- The sector that is not `s`. -/
abbrev other (s : Sector) : Sector := 1 - s

theorem other_other (s : Sector) : other (other s) = s := by
  fin_cases s <;> rfl

theorem other_ne (s : Sector) : other s ≠ s := by
  fin_cases s <;> decide

/-- There are only two sectors. -/
theorem eq_other_of_ne {s s' : Sector} (h : s ≠ s') : s = other s' := by
  fin_cases s <;> fin_cases s' <;> first | rfl | exact absurd rfl h

/-! ### What the functions read -/

theorem classify_of_some {raw : Raw} {e : Entry} (h : accepted raw = some e) :
    classify raw = .ok e.seq e.trust := by
  rw [classify, accepted_eq_some.mp h]
  rfl

theorem classify_of_none {raw : Raw} (h : accepted raw = none) :
    classify raw = .blank ∨ classify raw = .corrupt := by
  unfold accepted at h
  unfold classify
  split at h <;> simp_all
  cases hd : decode raw <;> simp_all

/-! ### The two loops -/

/-- What the first loop writes: a pending entry is aborted. -/
def abortAt (b : Book) (s : Sector) : Option Write :=
  (b s).bind fun e => if e.trust = .pending then some ⟨s, ⟨e.seq, State.aborted⟩⟩ else none

def aborts (b : Book) : List Write := (List.finRange sectorCount).filterMap (abortAt b)

/-- What the first loop keeps: a valid or unproven entry is a candidate. -/
def candidateAt (b : Book) (s : Sector) : Option Candidate :=
  (b s).bind fun e =>
    if e.trust = .valid ∨ e.trust = .unproven then some ⟨s, e.seq, e.trust⟩ else none

/-- Whether the first loop met an entry that is or becomes rejected. -/
def rejectedAt (b : Book) (s : Sector) : Bool :=
  (b s).any fun e => e.trust = .pending ∨ e.trust = .dead

theorem scanSector_classify (f : Flash) (s : Sector) (acc : Scan) :
    scanSector acc s (classify (f s)) =
      { writes := acc.writes ++ (abortAt (view f) s).toList
        candidates := match candidateAt (view f) s with
          | none => acc.candidates
          | some c => Function.update acc.candidates s (some c)
        rejectedAny := acc.rejectedAny || rejectedAt (view f) s } := by
  rcases h : accepted (f s) with _ | e
  · have hview : view f s = none := h
    rcases classify_of_none h with hc | hc <;>
      simp [scanSector, hc, abortAt, candidateAt, rejectedAt, hview]
  · have hview : view f s = some e := h
    rw [classify_of_some h]
    cases ht : e.trust <;>
      simp [scanSector, abortAt, candidateAt, rejectedAt, hview, ht]

/-- **The first loop**, in terms of the book. -/
theorem scan_classify (f : Flash) :
    scan (fun s => classify (f s)) =
      { writes := aborts (view f)
        candidates := candidateAt (view f)
        rejectedAny := (List.finRange sectorCount).any (rejectedAt (view f)) } := by
  have hrange : List.finRange sectorCount = [0, 1] := by decide
  simp only [scan, aborts, hrange, List.foldl_cons, List.foldl_nil, scanSector_classify]
  congr 1
  · rcases h0 : abortAt (view f) 0 with _ | a <;> rcases h1 : abortAt (view f) 1 with _ | a' <;>
      simp [h0, h1]
  · funext s
    rcases h0 : candidateAt (view f) 0 with _ | c0 <;>
      rcases h1 : candidateAt (view f) 1 with _ | c1 <;> fin_cases s <;>
      simp [Function.update, h0, h1]
  · simp

namespace Candidate

/-- The write that rejects a candidate. -/
def invalid (c : Candidate) : Write := ⟨c.sector, ⟨c.seq, State.invalid⟩⟩

/-- The write that marks a candidate before it is booted. -/
def mark (c : Candidate) : List Write :=
  if c.trust = .unproven then [⟨c.sector, ⟨c.seq, State.pendingVerify⟩⟩] else []

end Candidate

@[simp] theorem counting_apply (imageOk : ImageOk) (slot : UInt8) (k : ℕ) :
    counting imageOk slot k = (imageOk k slot, k + 1) := rfl

theorem bind_apply {σ α β : Type} (x : StateM σ α) (g : α → StateM σ β) (s : σ) :
    (x >>= g) s = g (x s).1 (x s).2 := rfl

/-- One turn of the second loop, with the answers of a closure that counts its calls. -/
theorem bootFirst_cons (n : UInt8) (ok : ImageOk) (k : ℕ) (c : Candidate) (cs : List Candidate)
    (ws : List Write) (r : Bool) :
    bootFirst n (counting ok) (c :: cs) ws r k =
      if ok k (slotOf c.seq n) = false then
        bootFirst n (counting ok) cs (ws ++ [c.invalid]) true (k + 1)
      else (.inl ⟨.slot (slotOf c.seq n) c.sector c.seq, ws ++ c.mark⟩, k + 1) := by
  have hturn : bootFirst n (counting ok) (c :: cs) ws r k =
      (if ok k (slotOf c.seq n) = false then
        bootFirst n (counting ok) cs (ws ++ [c.invalid]) true
      else if c.trust = .unproven then
        pure (.inl ⟨.slot (slotOf c.seq n) c.sector c.seq,
          ws ++ [⟨c.sector, ⟨c.seq, State.pendingVerify⟩⟩]⟩)
      else pure (.inl ⟨.slot (slotOf c.seq n) c.sector c.seq, ws⟩)) (k + 1) := rfl
  rw [hturn, Candidate.mark]
  split_ifs
  · rfl
  · rfl
  · rw [List.append_nil]
    rfl

/-- **The second loop**: it stops at the first candidate found bootable, having
rejected the ones before it. -/
theorem bootFirst_cases (n : UInt8) (ok : ImageOk) (k : ℕ) (cs : List Candidate) (ws : List Write)
    (r : Bool) :
    (∃ pre c post, cs = pre ++ c :: post ∧ (∀ d ∈ pre, ∃ j, ok j (slotOf d.seq n) = false) ∧
      (∃ j, ok j (slotOf c.seq n) = true) ∧
      (bootFirst n (counting ok) cs ws r k).1 = .inl ⟨.slot (slotOf c.seq n) c.sector c.seq,
        ws ++ pre.map Candidate.invalid ++ c.mark⟩) ∨
    ((∀ d ∈ cs, ∃ j, ok j (slotOf d.seq n) = false) ∧
      bootFirst n (counting ok) cs ws r k =
        (.inr (ws ++ cs.map Candidate.invalid, r || !cs.isEmpty), k + cs.length)) := by
  induction cs generalizing k ws r with
  | nil =>
    refine Or.inr ⟨by simp, ?_⟩
    rw [List.map_nil, List.append_nil, List.isEmpty_nil, Bool.not_true, Bool.or_false]
    rfl
  | cons c cs ih =>
    rw [bootFirst_cons]
    cases hok : ok k (slotOf c.seq n) with
    | false =>
      rw [if_pos rfl]
      -- the candidate is rejected, and the next one is asked for with the next call
      rcases ih (k + 1) (ws ++ [c.invalid]) true with
        ⟨pre, d, post, rfl, hpre, hd, heq⟩ | ⟨hall, heq⟩
      · refine Or.inl ⟨c :: pre, d, post, rfl, ?_, hd, by rw [heq]; simp⟩
        intro d' hd'
        rcases List.mem_cons.mp hd' with rfl | hmem
        · exact ⟨k, hok⟩
        · exact hpre d' hmem
      · refine Or.inr ⟨?_, ?_⟩
        · intro d' hd'
          rcases List.mem_cons.mp hd' with rfl | hmem
          · exact ⟨k, hok⟩
          · exact hall d' hmem
        · rw [heq, List.length_cons, Nat.add_right_comm, Nat.add_assoc k]
          simp
    | true =>
      rw [if_neg (by simp)]
      exact Or.inl ⟨[], c, cs, rfl, by simp, ⟨k, hok⟩, by simp⟩

/-! ### The boot decision -/

/-- The candidates of a book, highest sequence first. -/
def ranked (b : Book) : List Candidate := order (candidateAt b)

/-- The first sequence number is slot 0's. -/
theorem slotOf_one (n : UInt8) : slotOf 1 n = 0 := by
  simp [slotOf]

/-- The plan of a first boot. -/
def seedPlan : Plan := ⟨.slot 0 0 1, [⟨0, ⟨1, State.valid⟩⟩]⟩

/-- **What a boot decision can be**, from the book and the answers about the
images. -/
inductive Decides (b : Book) (n : UInt8) (ok : ImageOk) : Plan → Prop
  /-- A candidate is booted: the ones ranked before it had no bootable image. -/
  | boots (pre : List Candidate) (c : Candidate) (post : List Candidate)
    (hranked : ranked b = pre ++ c :: post) (hpre : ∀ d ∈ pre, ∃ j, ok j (slotOf d.seq n) = false)
    (hc : ∃ j, ok j (slotOf c.seq n) = true) :
    Decides b n ok ⟨.slot (slotOf c.seq n) c.sector c.seq,
      aborts b ++ pre.map Candidate.invalid ++ c.mark⟩
  /-- No entry at all, and slot 0 is bootable: a first boot. -/
  | seeds (hnone : ∀ s, b s = none) (hok : ok 0 0 = true) : Decides b n ok seedPlan
  /-- No entry at all, and slot 0 is not bootable. -/
  | noImage (hnone : ∀ s, b s = none) (hok : ok 0 0 = false) : Decides b n ok ⟨.halt .noImage, []⟩
  /-- Some entry, but none that leads to a bootable image. -/
  | noUsable (hsome : ∃ s e, b s = some e)
    (hall : ∀ d ∈ ranked b, ∃ j, ok j (slotOf d.seq n) = false) :
    Decides b n ok ⟨.halt .noUsableEntry, aborts b ++ (ranked b).map Candidate.invalid⟩

theorem mem_order {cand : Sector → Option Candidate} {c : Candidate} :
    c ∈ order cand ↔ ∃ s, cand s = some c := by
  rw [order, List.reduceOption_mem_iff, List.mem_insertionSort]
  simp only [List.mem_cons, List.not_mem_nil, or_false]
  constructor
  · rintro (h | h)
    exacts [⟨0, h.symm⟩, ⟨1, h.symm⟩]
  · rintro ⟨s, hs⟩
    fin_cases s
    exacts [Or.inl hs.symm, Or.inr hs.symm]

/-- **The candidates are the entries that may be booted.** -/
theorem mem_ranked {b : Book} {c : Candidate} :
    c ∈ ranked b ↔ ∃ e, b c.sector = some e ∧ (e.trust = .valid ∨ e.trust = .unproven) ∧
      c.seq = e.seq ∧ c.trust = e.trust := by
  rw [ranked, mem_order]
  constructor
  · rintro ⟨s, hs⟩
    obtain ⟨e, he, hc⟩ := Option.bind_eq_some_iff.mp hs
    split_ifs at hc with ht
    cases hc
    exact ⟨e, he, ht, rfl, rfl⟩
  · rintro ⟨e, he, ht, hseq, htrust⟩
    refine ⟨c.sector, ?_⟩
    rw [candidateAt, he, Option.bind_some, if_pos ht, ← hseq, ← htrust]

theorem isNone_classify_iff (f : Flash) (s : Sector) :
    (classify (f s)).isNone = true ↔ view f s = none := by
  rcases h : accepted (f s) with _ | e
  · have hview : view f s = none := h
    rcases classify_of_none h with hc | hc <;> simp [hc, Class.isNone, hview]
  · have hview : view f s = some e := h
    simp [classify_of_some h, Class.isNone, hview]

/-- With nothing in the book, nothing is a candidate and nothing is written. -/
theorem ranked_of_none {b : Book} (h : ∀ s, b s = none) : ranked b = [] := by
  refine List.eq_nil_iff_forall_not_mem.mpr fun c hc => ?_
  obtain ⟨e, he, -⟩ := mem_ranked.mp hc
  rw [h] at he
  exact absurd he (by simp)

theorem aborts_of_none {b : Book} (h : ∀ s, b s = none) : aborts b = [] := by
  refine List.filterMap_eq_nil_iff.mpr fun s _ => ?_
  rw [abortAt, h, Option.bind_none]

/-- What a boot decision makes of its second loop, and of the number of the next call. -/
def concludes (f : Flash) (ok : ImageOk) : (Plan ⊕ (List Write × Bool)) × ℕ → Plan
  | (.inl plan, _) => plan
  | (.inr (writes, rejectedAny), k) =>
    if !rejectedAny && (List.finRange sectorCount).all fun s => (classify (f s)).isNone then
      if ok k 0 then ⟨.slot 0 0 1, writes ++ [⟨0, ⟨1, State.valid⟩⟩]⟩ else ⟨.halt .noImage, writes⟩
    else ⟨.halt .noUsableEntry, writes⟩

theorem concludes_of_inl {f : Flash} {ok : ImageOk} {p : Plan}
    {x : (Plan ⊕ (List Write × Bool)) × ℕ} (h : x.1 = .inl p) : concludes f ok x = p := by
  obtain ⟨_, k⟩ := x
  cases h
  rfl

/-- **A boot decision**, loop after loop. -/
theorem planBoot_eq (f : Flash) (n : UInt8) (ok : ImageOk) :
    planBoot f n ok = concludes f ok (bootFirst n (counting ok) (ranked (view f)) (aborts (view f))
      ((List.finRange sectorCount).any (rejectedAt (view f))) 0) := by
  rw [planBoot, planBootWith, scan_classify, bind_apply]
  dsimp only
  rw [← ranked]
  rcases bootFirst n (counting ok) (ranked (view f)) (aborts (view f))
    ((List.finRange sectorCount).any (rejectedAt (view f))) 0 with
    ⟨plan | ⟨writes, rejectedAny⟩, k⟩
  · rfl
  · dsimp only [concludes]
    split_ifs with hfirst hok
    · rw [bind_apply, counting_apply, if_pos hok]
      rfl
    · rw [bind_apply, counting_apply, if_neg hok]
      rfl
    · rfl

/-- **What the boot decision can be**: the one lemma about `planBoot` that the
rest of the development uses. -/
theorem decides_planBoot (f : Flash) (n : UInt8) (ok : ImageOk) :
    Decides (view f) n ok (planBoot f n ok) := by
  rw [planBoot_eq]
  rcases bootFirst_cases n ok 0 (ranked (view f)) (aborts (view f))
    ((List.finRange sectorCount).any (rejectedAt (view f))) with
    ⟨pre, c, post, hranked, hpre, hc, heq⟩ | ⟨hall, heq⟩
  · rw [concludes_of_inl heq]
    exact .boots pre c post hranked hpre hc
  · -- no candidate is bootable: a first boot is one on which both sectors say nothing
    rw [heq, concludes]
    by_cases hnone : ∀ s, view f s = none
    · have hall' : ((List.finRange sectorCount).all fun s => (classify (f s)).isNone) = true :=
        List.all_eq_true.mpr fun s _ => (isNone_classify_iff f s).mpr (hnone s)
      have hrej : (List.finRange sectorCount).any (rejectedAt (view f)) = false :=
        List.any_eq_false.mpr fun s _ => by simp [rejectedAt, hnone s]
      rw [hall', hrej, ranked_of_none hnone, aborts_of_none hnone]
      cases hok : ok 0 0 with
      | true => simpa [hok, seedPlan] using Decides.seeds hnone hok
      | false => simpa [hok] using Decides.noImage hnone hok
    · have hsome : ∃ s e, view f s = some e := by
        obtain ⟨s, hs⟩ := not_forall.mp hnone
        exact ⟨s, Option.ne_none_iff_exists'.mp hs⟩
      rw [if_neg]
      · exact .noUsable hsome hall
      · intro hcond
        rw [Bool.and_eq_true] at hcond
        exact hnone fun s =>
          (isNone_classify_iff f s).mp (List.all_eq_true.mp hcond.2 s (List.mem_finRange s))

/-- What a boot decision can be on an empty book. -/
theorem decides_of_none {b : Book} {n : UInt8} {ok : ImageOk} {p : Plan} (hp : Decides b n ok p)
    (hnone : ∀ s, b s = none) :
    (p = seedPlan ∧ ok 0 0 = true) ∨ (p = ⟨.halt .noImage, []⟩ ∧ ok 0 0 = false) := by
  cases hp with
  | boots pre c post hranked hpre hc =>
    rw [ranked_of_none hnone] at hranked
    exact absurd hranked (by simp)
  | seeds _ hok => exact .inl ⟨rfl, hok⟩
  | noImage _ hok => exact .inr ⟨rfl, hok⟩
  | noUsable hsome hall =>
    obtain ⟨s, e, he⟩ := hsome
    exact absurd he (ne_some_of_none hnone)

/-- What a boot decision is when no image is bootable. -/
theorem writes_of_false {b : Book} {n : UInt8} {p : Plan} (hp : Decides b n (fun _ _ => false) p) :
    p.writes = aborts b ++ (ranked b).map Candidate.invalid := by
  cases hp with
  | boots pre c post hranked hpre hc =>
    obtain ⟨j, hj⟩ := hc
    exact absurd hj (by simp)
  | seeds _ hok => exact absurd hok (by simp)
  | noImage hnone _ => rw [aborts_of_none hnone, ranked_of_none hnone]; rfl
  | noUsable _ _ => rfl

/-- What a boot decision is when every image is bootable: the first candidate. -/
theorem boots_of_true {b : Book} {n : UInt8} {p : Plan} (hp : Decides b n (fun _ _ => true) p)
    {c : Candidate} {cs : List Candidate} (hranked : ranked b = c :: cs) :
    p = ⟨.slot (slotOf c.seq n) c.sector c.seq, aborts b ++ c.mark⟩ := by
  cases hp with
  | boots pre d post hranked' hpre hd =>
    rcases pre with _ | ⟨d', pre⟩
    · rw [hranked] at hranked'
      obtain rfl := (List.cons.inj hranked').1
      simp
    · obtain ⟨j, hj⟩ := hpre d' List.mem_cons_self
      exact absurd hj (by simp)
  | seeds hnone _ => rw [ranked_of_none hnone] at hranked; exact absurd hranked (by simp)
  | noImage hnone _ => rw [ranked_of_none hnone] at hranked; exact absurd hranked (by simp)
  | noUsable _ hall =>
    obtain ⟨j, hj⟩ := hall c (hranked ▸ List.mem_cons_self)
    exact absurd hj (by simp)

/-! ### The ranking -/

theorem order_eq (cand : Sector → Option Candidate) :
    order cand = match cand 0, cand 1 with
      | none, none => []
      | some a, none => [a]
      | none, some a' => [a']
      | some a, some a' => if a'.seq ≤ a.seq then [a, a'] else [a', a] := by
  unfold order
  simp only [List.insertionSort_cons, List.insertionSort_nil, List.orderedInsert_nil,
    List.orderedInsert_cons]
  rcases cand 0 with _ | a <;> rcases cand 1 with _ | a' <;> try rfl
  by_cases hle : a'.seq ≤ a.seq <;> simp [keyLe, hle, List.reduceOption]

theorem candidateAt_sector {b : Book} {s : Sector} {c : Candidate} (h : candidateAt b s = some c) :
    c.sector = s := by
  obtain ⟨e, -, hc⟩ := Option.bind_eq_some_iff.mp h
  split_ifs at hc
  cases hc
  rfl

/-- **The candidates are ranked by sequence**, each sector having one at most. -/
theorem ranked_pairwise (b : Book) :
    (ranked b).Pairwise fun c d => d.seq.toNat ≤ c.seq.toNat ∧ c.sector ≠ d.sector := by
  rw [ranked, order_eq]
  rcases h0 : candidateAt b 0 with _ | a <;> rcases h1 : candidateAt b 1 with _ | a'
  · exact List.Pairwise.nil
  · exact List.pairwise_singleton _ _
  · exact List.pairwise_singleton _ _
  · have ha := candidateAt_sector h0
    have ha' := candidateAt_sector h1
    dsimp only
    split_ifs with hle
    · simpa [ha, ha'] using UInt32.le_iff_toNat_le.mp hle
    · have hlt := mt UInt32.le_iff_toNat_le.mpr hle
      simp [ha, ha']
      omega

theorem mem_aborts {b : Book} {w : Write} :
    w ∈ aborts b ↔ ∃ e, b w.sector = some e ∧ e.trust = .pending ∧
      w.entry = ⟨e.seq, State.aborted⟩ := by
  rw [aborts, List.mem_filterMap]
  constructor
  · rintro ⟨s, -, hs⟩
    obtain ⟨e, he, hw⟩ := Option.bind_eq_some_iff.mp hs
    split_ifs at hw with ht
    cases hw
    exact ⟨e, he, ht, rfl⟩
  · rintro ⟨e, he, ht, hw⟩
    refine ⟨w.sector, List.mem_finRange _, ?_⟩
    rw [abortAt, he, Option.bind_some, if_pos ht, ← hw]

theorem aborts_pairwise (b : Book) : (aborts b).Pairwise fun w w' => w.sector ≠ w'.sector := by
  refine List.pairwise_filterMap.mpr ((List.nodup_finRange sectorCount).imp ?_)
  intro s s' hne w hw w' hw'
  obtain ⟨e, -, hs⟩ := Option.bind_eq_some_iff.mp hw
  obtain ⟨e', -, hs'⟩ := Option.bind_eq_some_iff.mp hw'
  split_ifs at hs hs'
  cases hs
  cases hs'
  exact hne

/-! ### Decisions on two entries -/

/-- The answers of a fixed verdict on images. -/
def fixed (bootable : UInt8 → Bool) : ImageOk := fun _ slot => bootable slot

/-- A boot decision is what the second loop returns, if it returns. -/
theorem planBoot_of_bootFirst {f : Flash} {n : UInt8} {ok : ImageOk} {p : Plan}
    (h : ∀ r, (bootFirst n (counting ok) (ranked (view f)) (aborts (view f)) r 0).1 = .inl p) :
    planBoot f n ok = p := by
  rw [planBoot_eq, concludes_of_inl (h _)]

/-- Two candidates, the one of the higher sequence first. -/
theorem ranked_of_two {b : Book} {s : Sector} {c c' : Candidate} (h : candidateAt b s = some c)
    (h' : candidateAt b (other s) = some c') (hlt : c'.seq.toNat < c.seq.toNat) :
    ranked b = [c, c'] := by
  rw [ranked, order_eq]
  fin_cases s
  · have h0 : candidateAt b 0 = some c := h
    have h1 : candidateAt b 1 = some c' := h'
    rw [h0, h1]
    exact if_pos (UInt32.le_iff_toNat_le.mpr hlt.le)
  · have h0 : candidateAt b 0 = some c' := h'
    have h1 : candidateAt b 1 = some c := h
    rw [h0, h1]
    exact if_neg fun hle => absurd (UInt32.le_iff_toNat_le.mp hle) (by omega)

/-- A single candidate. -/
theorem ranked_of_one {b : Book} {s : Sector} {c : Candidate} (h : candidateAt b s = some c)
    (h' : candidateAt b (other s) = none) : ranked b = [c] := by
  rw [ranked, order_eq]
  fin_cases s
  · have h0 : candidateAt b 0 = some c := h
    have h1 : candidateAt b 1 = none := h'
    rw [h0, h1]
  · have h0 : candidateAt b 0 = none := h'
    have h1 : candidateAt b 1 = some c := h
    rw [h0, h1]

/-- What is aborted, when only one sector may hold a pending entry. -/
theorem aborts_of_other {b : Book} {s : Sector} (h : abortAt b (other s) = none) :
    aborts b = (abortAt b s).toList := by
  have hrange : List.finRange sectorCount = [0, 1] := by decide
  rw [aborts, hrange]
  fin_cases s
  · have h1 : abortAt b 1 = none := h
    cases h0 : abortAt b 0 <;> simp [h0, h1]
  · have h0 : abortAt b 0 = none := h
    cases h1 : abortAt b 1 <;> simp [h0, h1]

section Beside

variable {f : Flash} {n : UInt8} {bootable : UInt8 → Bool} {p : Sector} {b : Entry}
  (hb : view f p = some b) (hvalid : b.trust = .valid)

include hb hvalid

theorem candidateAt_of_valid : candidateAt (view f) p = some ⟨p, b.seq, .valid⟩ := by
  rw [candidateAt, hb, Option.bind_some, if_pos (.inl hvalid), hvalid]

theorem abortAt_of_valid : abortAt (view f) p = none := by
  rw [abortAt, hb, Option.bind_some, if_neg (by rw [hvalid]; decide)]

/-- A valid entry alone among the candidates, its image bootable: it is booted, and
only a pending entry of the other sector is written. -/
theorem planBoot_valid (hok : bootable (slotOf b.seq n) = true)
    (hother : candidateAt (view f) (other p) = none) :
    planBoot f n (fixed bootable) =
      ⟨.slot (slotOf b.seq n) p b.seq, (abortAt (view f) (other p)).toList⟩ := by
  refine planBoot_of_bootFirst fun r => ?_
  have habort : abortAt (view f) (other (other p)) = none := by
    rw [other_other]
    exact abortAt_of_valid hb hvalid
  rw [ranked_of_one (candidateAt_of_valid hb hvalid) hother, aborts_of_other habort]
  rw [bootFirst_cons, if_neg (by simp [fixed, hok])]
  simp [Candidate.mark]

/-- A newer candidate in the other sector is booted first, if its image is bootable;
otherwise it is rejected, and the valid entry is booted. -/
theorem planBoot_newer (hok : bootable (slotOf b.seq n) = true) {e : Entry}
    (he : view f (other p) = some e) (ht : e.trust = .valid ∨ e.trust = .unproven)
    (hlt : b.seq.toNat < e.seq.toNat) :
    planBoot f n (fixed bootable) =
      if bootable (slotOf e.seq n) = true then
        ⟨.slot (slotOf e.seq n) (other p) e.seq, Candidate.mark ⟨other p, e.seq, e.trust⟩⟩
      else ⟨.slot (slotOf b.seq n) p b.seq, [⟨other p, ⟨e.seq, State.invalid⟩⟩]⟩ := by
  refine planBoot_of_bootFirst fun r => ?_
  have hcand : candidateAt (view f) (other p) = some ⟨other p, e.seq, e.trust⟩ := by
    rw [candidateAt, he, Option.bind_some, if_pos ht]
  have hcand' : candidateAt (view f) (other (other p)) = some ⟨p, b.seq, .valid⟩ := by
    rw [other_other]
    exact candidateAt_of_valid hb hvalid
  have habort : abortAt (view f) (other p) = none := by
    rw [abortAt, he, Option.bind_some, if_neg]
    rcases ht with ht | ht <;> rw [ht] <;> decide
  have haborts : aborts (view f) = [] := by
    rw [aborts_of_other habort, abortAt_of_valid hb hvalid]
    rfl
  rw [ranked_of_two hcand hcand' hlt, haborts]
  by_cases hslot : bootable (slotOf e.seq n) = true
  · rw [bootFirst_cons, if_neg (by simp [fixed, hslot]), if_pos hslot, List.nil_append]
  · rw [bootFirst_cons, if_pos (by simpa [fixed] using hslot), bootFirst_cons,
      if_neg (by simp [fixed, hok]), if_neg hslot]
    simp [Candidate.mark, Candidate.invalid]

end Beside

/-! ### What a plan writes -/

/-- **A write of a plan, and why it is there.** -/
inductive Reason (b : Book) (n : UInt8) (ok : ImageOk) (p : Plan) (w : Write) : Prop
  /-- The entry was booted once and never confirmed. -/
  | abort (e : Entry) (he : b w.sector = some e) (ht : e.trust = .pending)
    (hw : w.entry = ⟨e.seq, State.aborted⟩)
  /-- The entry's image is not bootable. -/
  | invalid (e : Entry) (he : b w.sector = some e) (ht : e.trust = .valid ∨ e.trust = .unproven)
    (hok : ∃ j, ok j (slotOf e.seq n) = false) (hw : w.entry = ⟨e.seq, State.invalid⟩)
  /-- The entry has never run, and is about to. -/
  | mark (e : Entry) (he : b w.sector = some e) (ht : e.trust = .unproven)
    (hboot : p.boot = .slot (slotOf e.seq n) w.sector e.seq)
    (hw : w.entry = ⟨e.seq, State.pendingVerify⟩)
  /-- There is no entry at all. -/
  | seed (hnone : ∀ s, b s = none) (hp : p = seedPlan) (hw : w = ⟨0, ⟨1, State.valid⟩⟩)

section Plans

variable {b : Book} {n : UInt8} {ok : ImageOk} {p : Plan}

theorem reason_of_invalid {c : Candidate} (hc : c ∈ ranked b)
    (hok : ∃ j, ok j (slotOf c.seq n) = false) : Reason b n ok p c.invalid := by
  obtain ⟨e, he, ht, hseq, -⟩ := mem_ranked.mp hc
  exact .invalid e he ht (hseq ▸ hok) (hseq ▸ rfl)

/-- Every write of a plan has a reason. -/
theorem Decides.reason (h : Decides b n ok p) {w : Write} (hw : w ∈ p.writes) :
    Reason b n ok p w := by
  cases h with
  | boots pre c post hranked hpre hc =>
    have hmem : ∀ d ∈ pre ++ c :: post, d ∈ ranked b := fun d hd => hranked ▸ hd
    rcases List.mem_append.mp hw with hw | hw
    · rcases List.mem_append.mp hw with hw | hw
      · obtain ⟨e, he, ht, hwe⟩ := mem_aborts.mp hw
        exact .abort e he ht hwe
      · obtain ⟨d, hd, rfl⟩ := List.mem_map.mp hw
        exact reason_of_invalid (hmem d (List.mem_append_left _ hd)) (hpre d hd)
    · unfold Candidate.mark at hw
      split_ifs at hw with ht
      · obtain ⟨e, he, -, hseq, htrust⟩ := mem_ranked.mp (hmem c (by simp))
        obtain rfl := List.mem_singleton.mp hw
        exact .mark e he (htrust ▸ ht) (by simp [hseq]) (by simp [hseq])
      · simp at hw
  | seeds hnone hok => exact .seed hnone rfl (List.mem_singleton.mp hw)
  | noImage hnone hok => simp at hw
  | noUsable hsome hall =>
    rcases List.mem_append.mp hw with hw | hw
    · obtain ⟨e, he, ht, hwe⟩ := mem_aborts.mp hw
      exact .abort e he ht hwe
    · obtain ⟨d, hd, rfl⟩ := List.mem_map.mp hw
      exact reason_of_invalid hd (hall d hd)

/-- An aborted sector holds a pending entry, that of a candidate does not. -/
theorem ne_of_mem_aborts {w : Write} {c : Candidate} (hw : w ∈ aborts b) (hc : c ∈ ranked b) :
    w.sector ≠ c.sector := by
  intro heq
  obtain ⟨e, he, ht, -⟩ := mem_aborts.mp hw
  obtain ⟨e', he', ht', -⟩ := mem_ranked.mp hc
  rw [heq, he'] at he
  cases he
  rcases ht' with ht' | ht' <;> rw [ht'] at ht <;> exact absurd ht (by decide)

theorem Candidate.sector_of_mem_mark {c : Candidate} {w : Write} (hw : w ∈ c.mark) :
    w.sector = c.sector := by
  unfold Candidate.mark at hw
  split_ifs at hw
  · rw [List.mem_singleton.mp hw]
  · simp at hw

theorem Candidate.mark_pairwise (c : Candidate) :
    c.mark.Pairwise fun w w' => w.sector ≠ w'.sector := by
  unfold Candidate.mark
  split_ifs
  · exact List.pairwise_singleton _ _
  · exact List.Pairwise.nil

/-- **No sector is written twice.** -/
theorem Decides.pairwise (h : Decides b n ok p) :
    p.writes.Pairwise fun w w' => w.sector ≠ w'.sector := by
  have hmap : ∀ cs : List Candidate, cs.Pairwise (fun c d => d.seq.toNat ≤ c.seq.toNat ∧
      c.sector ≠ d.sector) → (cs.map Candidate.invalid).Pairwise fun w w' => w.sector ≠ w'.sector :=
    fun cs hcs => List.pairwise_map.mpr (hcs.imp fun hcd => hcd.2)
  cases h with
  | boots pre c post hranked hpre hc =>
    have hpair := ranked_pairwise b
    rw [hranked] at hpair
    obtain ⟨hpairPre, -, hcross⟩ := List.pairwise_append.mp hpair
    have hmem : ∀ d ∈ pre ++ c :: post, d ∈ ranked b := fun d hd => hranked ▸ hd
    refine List.pairwise_append.mpr
      ⟨List.pairwise_append.mpr ⟨aborts_pairwise b, hmap _ hpairPre, ?_⟩, c.mark_pairwise, ?_⟩
    · intro w hw w' hw'
      obtain ⟨d, hd, rfl⟩ := List.mem_map.mp hw'
      exact ne_of_mem_aborts hw (hmem d (List.mem_append_left _ hd))
    · intro w hw w' hw'
      rw [Candidate.sector_of_mem_mark hw']
      rcases List.mem_append.mp hw with hw | hw
      · exact ne_of_mem_aborts hw (hmem c (by simp))
      · obtain ⟨d, hd, rfl⟩ := List.mem_map.mp hw
        exact (hcross d hd c List.mem_cons_self).2
  | seeds hnone hok => exact List.pairwise_singleton _ _
  | noImage hnone hok => exact List.Pairwise.nil
  | noUsable hsome hall =>
    refine List.pairwise_append.mpr ⟨aborts_pairwise b, hmap _ (ranked_pairwise b), ?_⟩
    intro w hw w' hw'
    obtain ⟨d, hd, rfl⟩ := List.mem_map.mp hw'
    exact ne_of_mem_aborts hw hd

/-- An entry that is rejected is not written again. -/
theorem Decides.ne_of_dead (h : Decides b n ok p) {s : Sector} {e : Entry} (he : b s = some e)
    (ht : e.trust = .dead) : ∀ w ∈ p.writes, w.sector ≠ s := by
  rintro w hw rfl
  have hself : ∀ {e'}, b w.sector = some e' → e'.trust = .dead :=
    fun he' => Option.some.inj (he.symm.trans he') ▸ ht
  cases h.reason hw with
  | abort e' he' ht' => rw [hself he'] at ht'; exact absurd ht' (by decide)
  | invalid e' he' ht' => rw [hself he'] at ht'; exact absurd ht' (by decide)
  | mark e' he' ht' => rw [hself he'] at ht'; exact absurd ht' (by decide)
  | seed hnone => exact absurd he (ne_some_of_none hnone)

/-- A valid entry whose image is bootable is not written. -/
theorem Decides.ne_of_valid {bootable : UInt8 → Bool} (h : Decides b n (fixed bootable) p)
    {s : Sector} {e : Entry} (he : b s = some e) (ht : e.trust = .valid)
    (hok : bootable (slotOf e.seq n) = true) : ∀ w ∈ p.writes, w.sector ≠ s := by
  rintro w hw rfl
  have hself : ∀ {e'}, b w.sector = some e' → e = e' :=
    fun he' => Option.some.inj (he.symm.trans he')
  cases h.reason hw with
  | abort e' he' ht' => rw [← hself he', ht] at ht'; exact absurd ht' (by decide)
  | invalid e' he' _ hbad =>
    obtain ⟨j, hj⟩ := hbad
    rw [← hself he'] at hj
    exact absurd (hok.symm.trans hj) (by simp)
  | mark e' he' ht' => rw [← hself he', ht] at ht'; exact absurd ht' (by decide)
  | seed hnone => exact absurd he (ne_some_of_none hnone)

/-- **Every pending entry is aborted**, unless the plan is a first boot. -/
theorem Decides.abort_mem (h : Decides b n ok p) {s : Sector} {e : Entry} (he : b s = some e)
    (ht : e.trust = .pending) : (⟨s, ⟨e.seq, State.aborted⟩⟩ : Write) ∈ p.writes := by
  have hmem : (⟨s, ⟨e.seq, State.aborted⟩⟩ : Write) ∈ aborts b := mem_aborts.mpr ⟨e, he, ht, rfl⟩
  cases h with
  | boots pre c post hranked hpre hc =>
    exact List.mem_append_left _ (List.mem_append_left _ hmem)
  | seeds hnone hok => exact absurd he (ne_some_of_none hnone)
  | noImage hnone hok => exact absurd he (ne_some_of_none hnone)
  | noUsable hsome hall => exact List.mem_append_left _ hmem

/-- **What a plan that boots, boots**: the first boot's seed, a valid entry left
as it is, or an unproven entry that is marked. -/
inductive Launch (b : Book) (n : UInt8) (ok : ImageOk) (p : Plan) (slot : UInt8) (s : Sector)
    (q : UInt32) : Prop
  | seed (hnone : ∀ s, b s = none) (hp : p = seedPlan) (hslot : slot = 0) (hs : s = 0) (hq : q = 1)
  | valid (e : Entry) (he : b s = some e) (ht : e.trust = .valid) (hq : e.seq = q)
    (hslot : slot = slotOf q n) (hok : ∃ j, ok j slot = true) (hw : ∀ w ∈ p.writes, w.sector ≠ s)
  | unproven (e : Entry) (he : b s = some e) (ht : e.trust = .unproven) (hq : e.seq = q)
    (hslot : slot = slotOf q n) (hok : ∃ j, ok j slot = true)
    (hw : (⟨s, ⟨q, State.pendingVerify⟩⟩ : Write) ∈ p.writes)

theorem Decides.launch (h : Decides b n ok p) {slot : UInt8} {s : Sector} {q : UInt32}
    (hb : p.boot = .slot slot s q) : Launch b n ok p slot s q := by
  cases h with
  | boots pre c post hranked hpre hc =>
    cases hb
    obtain ⟨e, he, ht, hseq, htrust⟩ := mem_ranked.mp (hranked ▸ (by simp) : c ∈ ranked b)
    rcases ht with ht | ht
    · refine .valid e he ht hseq.symm rfl hc fun w hw hws => ?_
      -- the mark of a valid candidate is empty, and nothing else is in its sector
      have hmark : c.mark = [] := if_neg (by rw [htrust, ht]; decide)
      rw [hmark, List.append_nil] at hw
      rcases List.mem_append.mp hw with hw | hw
      · obtain ⟨e', he', ht', -⟩ := mem_aborts.mp hw
        rw [hws, he] at he'
        cases he'
        rw [ht] at ht'
        exact absurd ht' (by decide)
      · obtain ⟨d, hd, rfl⟩ := List.mem_map.mp hw
        have hpair := ranked_pairwise b
        rw [hranked] at hpair
        exact ((List.pairwise_append.mp hpair).2.2 d hd c List.mem_cons_self).2 hws
    · refine .unproven e he ht hseq.symm rfl hc (List.mem_append_right _ ?_)
      rw [Candidate.mark, if_pos (by rw [htrust, ht])]
      exact List.mem_singleton.mpr rfl
  | seeds hnone hok =>
    cases hb
    exact .seed hnone rfl rfl rfl rfl
  | noImage hnone hok => cases hb
  | noUsable hsome hall => cases hb

end Plans

/-! ### The answers, one by one -/

/-- The candidate the second loop returns: its answer is the first that is `true`. -/
theorem bootFirst_slot {n : UInt8} {ok : ImageOk} {k : ℕ} {cs : List Candidate}
    {ws : List Write} {r : Bool} {p : Plan} {slot : UInt8} {s : Sector} {q : UInt32}
    (h : (bootFirst n (counting ok) cs ws r k).1 = .inl p) (hb : p.boot = .slot slot s q) :
    ∃ i c, cs[i]? = some c ∧ c.sector = s ∧ c.seq = q ∧ slotOf c.seq n = slot ∧
      ok (k + i) slot = true ∧
      ∀ j < i, ∀ d, cs[j]? = some d → ok (k + j) (slotOf d.seq n) = false := by
  induction cs generalizing k ws r with
  | nil => cases h
  | cons c cs ih =>
    rw [bootFirst_cons] at h
    cases hok : ok k (slotOf c.seq n) with
    | true =>
      rw [hok, if_neg (by simp)] at h
      have hboot : p.boot = .slot (slotOf c.seq n) c.sector c.seq := by
        rw [← Sum.inl.inj h]
      obtain ⟨hslot, hs, hq⟩ := Boot.slot.inj (hboot.symm.trans hb)
      exact ⟨0, c, rfl, hs, hq, hslot, hslot ▸ hok, fun j hj => absurd hj (Nat.not_lt_zero j)⟩
    | false =>
      rw [hok, if_pos rfl] at h
      obtain ⟨i, d, hd, hs, hq, hslot, hyes, hno⟩ := ih h
      have hnext : ∀ j, k + (j + 1) = k + 1 + j := fun j => by omega
      refine ⟨i + 1, d, hd, hs, hq, hslot, hnext i ▸ hyes, fun j hj d' hd' => ?_⟩
      rcases j with _ | j
      · rw [List.getElem?_cons_zero] at hd'
        rw [← Option.some.inj hd']
        exact hok
      · exact hnext j ▸ hno j (Nat.lt_of_succ_lt_succ hj) d' hd'

/-- **What a boot starts, answer by answer**: the seed of a first boot, or the first of the
ranked candidates whose own call of `image_ok` is answered `true`. -/
theorem planBoot_slot {f : Flash} {n : UInt8} {ok : ImageOk} {slot : UInt8} {s : Sector}
    {q : UInt32} (hb : (planBoot f n ok).boot = .slot slot s q) :
    ((∀ s, view f s = none) ∧ ok 0 0 = true ∧ slot = 0) ∨
      ∃ i c, (ranked (view f))[i]? = some c ∧ c.sector = s ∧ c.seq = q ∧ slotOf c.seq n = slot ∧
        ok i slot = true ∧
        ∀ j < i, ∀ d, (ranked (view f))[j]? = some d → ok j (slotOf d.seq n) = false := by
  by_cases hnone : ∀ s, view f s = none
  · rcases decides_of_none (decides_planBoot f n ok) hnone with ⟨hp, hok⟩ | ⟨hp, -⟩
    · rw [hp] at hb
      exact .inl ⟨hnone, hok, (Boot.slot.inj hb).1.symm⟩
    · rw [hp] at hb
      cases hb
  · right
    rw [planBoot_eq] at hb
    rcases hloop : bootFirst n (counting ok) (ranked (view f)) (aborts (view f))
      ((List.finRange sectorCount).any (rejectedAt (view f))) 0 with
      ⟨plan | ⟨writes, rejectedAny⟩, k⟩
    · rw [hloop] at hb
      obtain ⟨i, c, hi, hs, hq, hslot, hyes, hno⟩ := bootFirst_slot (congrArg Prod.fst hloop) hb
      rw [Nat.zero_add] at hyes
      exact ⟨i, c, hi, hs, hq, hslot, hyes, fun j hj d hd => Nat.zero_add j ▸ hno j hj d hd⟩
    · -- no candidate is bootable: what is left is a first boot, or a halt
      have hall : ¬((List.finRange sectorCount).all fun s => (classify (f s)).isNone) = true :=
        fun hall => hnone fun s =>
          (isNone_classify_iff f s).mp (List.all_eq_true.mp hall s (List.mem_finRange s))
      rw [hloop, concludes, if_neg fun hc => hall (Bool.and_eq_true .. ▸ hc).2] at hb
      cases hb

end AtomicOta.Otadata
