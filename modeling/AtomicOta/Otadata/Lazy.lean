import AtomicOta.Otadata.Decision

/-!
# What a boot asks, and when

The caller's `image_ok` is a closure, with a state of its own: it reads flash, and may fail to.
This file is about the boot decision for such a closure, in any monad.

Which plan is taken in the end depends on the answers, but the plans themselves do not. The two
entries alone make a list of **offers** (`AtomicOta.Otadata.offers`), each of them a slot to ask
about and the plan that is taken if its image is bootable, and a plan for when there is none
(`AtomicOta.Otadata.lastResort`). A boot asks about one offer after the other, in order, until
an answer is yes; it asks about nothing else, and nothing after it
(`AtomicOta.Otadata.asks_in_order`).

`AtomicOta.Otadata.planBoot` is the decision for a closure that is given by its answers, and
answers are enough: whatever the state of a closure, and whatever it makes of it, its plan is one
for some answers (`AtomicOta.Otadata.planBootWith_answers`), so that all that is said of these is
said of it.
-/

namespace AtomicOta.Otadata

/-! ### Offers -/

/-- A slot to ask about, and what to do if its image is bootable. -/
structure Offer where
  slot : UInt8
  sector : Sector
  seq : UInt32
  writes : List Write
  deriving DecidableEq, Repr

/-- The plan of an offer boots the slot that was asked about. -/
def Offer.plan (o : Offer) : Plan := ⟨.slot o.slot o.sector o.seq, o.writes⟩

/-- The offers that candidates make, behind some writes. -/
def Candidate.offers (n : UInt8) : List Write → List Candidate → List Offer
  | _, [] => []
  | ws, c :: cs =>
    ⟨slotOf c.seq n, c.sector, c.seq, ws ++ c.mark⟩ :: Candidate.offers n (ws ++ [c.invalid]) cs

/-- **The offers of a flash**: a flash without an entry offers slot 0. -/
def offers (b : Book) (n : UInt8) : List Offer :=
  if ∀ s, b s = none then [⟨0, 0, 1, seedPlan.writes⟩] else Candidate.offers n (aborts b) (ranked b)

/-- What is left to do when no offer is taken. -/
def lastResort (b : Book) : Plan :=
  if ∀ s, b s = none then ⟨.halt .noImage, []⟩
  else ⟨.halt .noUsableEntry, aborts b ++ (ranked b).map Candidate.invalid⟩

/-- The plan of the offer that was taken. -/
def settle (b : Book) (taken : Option Offer) : Plan := taken.elim (lastResort b) Offer.plan

/-- Every offer is that of a candidate, in the order of the candidates. -/
theorem map_offers (n : UInt8) (ws : List Write) (cs : List Candidate) :
    ((Candidate.offers n ws cs).map fun o => (o.sector, o.seq)) =
      cs.map fun c => (c.sector, c.seq) := by
  induction cs generalizing ws with
  | nil => rfl
  | cons c cs ih => rw [Candidate.offers, List.map_cons, List.map_cons, ih]

/-- The offer of a candidate is of the slot that its number selects. -/
theorem slot_of_mem_offers {n : UInt8} {ws : List Write} {cs : List Candidate} {o : Offer}
    (h : o ∈ Candidate.offers n ws cs) : o.slot = slotOf o.seq n := by
  induction cs generalizing ws with
  | nil => cases h
  | cons c cs ih =>
    rcases List.mem_cons.mp h with rfl | h
    · rfl
    · exact ih h

/-- **The offers are ranked by sequence**, each sector having one at most. -/
theorem offers_pairwise (b : Book) (n : UInt8) :
    (offers b n).Pairwise fun o o' => o'.seq.toNat ≤ o.seq.toNat ∧ o.sector ≠ o'.sector := by
  rw [offers]
  split_ifs with hnone
  · exact List.pairwise_singleton _ _
  · have hpair : ((ranked b).map fun c => (c.sector, c.seq)).Pairwise
        fun x y => y.2.toNat ≤ x.2.toNat ∧ x.1 ≠ y.1 := List.pairwise_map.mpr (ranked_pairwise b)
    rw [← map_offers n (aborts b), List.pairwise_map] at hpair
    exact hpair

/-- An offer is of the slot that its number selects. -/
theorem slot_of_offers {b : Book} {n : UInt8} {o : Offer} (h : o ∈ offers b n) :
    o.slot = slotOf o.seq n := by
  rw [offers] at h
  split_ifs at h with hnone
  · obtain rfl := List.mem_singleton.mp h
    exact (slotOf_one n).symm
  · exact slot_of_mem_offers h

/-- The number of an offer is that of an entry, or the first one. -/
theorem seq_of_offers {b : Book} {n : UInt8} {o : Offer} (h : o ∈ offers b n) :
    o.seq = 1 ∨ ∃ e, b o.sector = some e ∧ o.seq = e.seq := by
  rw [offers] at h
  split_ifs at h with hnone
  · obtain rfl := List.mem_singleton.mp h
    exact .inl rfl
  · have hkey : (o.sector, o.seq) ∈ (ranked b).map fun c => (c.sector, c.seq) := by
      rw [← map_offers n (aborts b)]
      exact List.mem_map_of_mem h
    obtain ⟨c, hc, heq⟩ := List.mem_map.mp hkey
    obtain ⟨hsector, hseq⟩ := Prod.mk.inj heq
    obtain ⟨e, he, -, hcseq, -⟩ := mem_ranked.mp hc
    exact .inr ⟨e, hsector ▸ he, hseq.symm.trans hcseq⟩

section Lawful

variable {m : Type → Type} [Monad m] [LawfulMonad m] {f : Flash} {n : UInt8}
  {imageOk : UInt8 → m Bool}

/-- What the second loop makes of the offer that was taken, if any. -/
def looped (cs : List Candidate) (ws : List Write) (rejected : Bool) :
    Option Offer → Plan ⊕ (List Write × Bool)
  | some o => .inl o.plan
  | none => .inr (ws ++ cs.map Candidate.invalid, rejected || !cs.isEmpty)

/-- **The second loop** asks about one offer after the other. -/
theorem bootFirst_eq (cs : List Candidate) (ws : List Write) (rejected : Bool) :
    bootFirst n imageOk cs ws rejected =
      looped cs ws rejected <$> (Candidate.offers n ws cs).findM? fun o => imageOk o.slot := by
  induction cs generalizing ws rejected with
  | nil => simp [bootFirst, Candidate.offers, List.findM?, looped]
  | cons c cs ih =>
    rw [bootFirst, Candidate.offers, List.findM?, map_bind]
    congr 1
    funext ok
    cases ok with
    | true =>
      rw [if_neg (by simp), map_pure]
      by_cases hc : c.trust = .unproven
      · rw [if_pos hc, looped, Offer.plan, Candidate.mark, if_pos hc]
      · rw [if_neg hc, looped, Offer.plan, Candidate.mark, if_neg hc, List.append_nil]
    | false =>
      rw [if_pos rfl, ih]
      congr 1
      funext taken
      cases taken with
      | none => simp [looped, Candidate.invalid]
      | some o => rfl

/-- **A boot decision is one search** through the offers of the flash. -/
theorem planBootWith_eq (f : Flash) (n : UInt8) (imageOk : UInt8 → m Bool) :
    planBootWith f n imageOk =
      settle (view f) <$> (offers (view f) n).findM? fun o => imageOk o.slot := by
  rw [planBootWith, scan_classify]
  dsimp only
  rw [bootFirst_eq, bind_map_left]
  by_cases hnone : ∀ s, view f s = none
  · -- there is no candidate, so the loop asks nothing, and slot 0 is asked about
    have hranked : order (candidateAt (view f)) = [] := ranked_of_none hnone
    have hall : ((List.finRange sectorCount).all fun s => (classify (f s)).isNone) = true :=
      List.all_eq_true.mpr fun s _ => (isNone_classify_iff f s).mpr (hnone s)
    have hrejected : (List.finRange sectorCount).any (rejectedAt (view f)) = false :=
      List.any_eq_false.mpr fun s _ => by simp [rejectedAt, hnone s]
    rw [hranked, hrejected, hall, aborts_of_none hnone, offers, if_pos hnone]
    simp only [Candidate.offers, List.findM?, pure_bind, looped, map_bind]
    refine bind_congr fun ok => ?_
    cases ok with
    | true => simp [settle, Offer.plan, seedPlan]
    | false => simp [settle, lastResort, hnone]
  · rw [offers, if_neg hnone, map_eq_pure_bind]
    refine bind_congr fun taken => ?_
    cases taken with
    | some o => rfl
    | none =>
      have hcond : ¬(!((List.finRange sectorCount).any (rejectedAt (view f)) ||
          !(order (candidateAt (view f))).isEmpty) &&
          (List.finRange sectorCount).all fun s => (classify (f s)).isNone) = true := by
        intro hcond
        rw [Bool.and_eq_true] at hcond
        exact hnone fun s =>
          (isNone_classify_iff f s).mp (List.all_eq_true.mp hcond.2 s (List.mem_finRange s))
      rw [looped]
      dsimp only
      rw [if_neg hcond, settle, Option.elim_none, lastResort, if_neg hnone]
      rfl

end Lawful

/-- **What a boot asks, and when**: it goes through the offers of the flash, highest sequence
first, and asks about the slot of each until an answer is yes. -/
theorem asks_in_order {m : Type → Type} [Monad m] [LawfulMonad m] (f : Flash) (n : UInt8)
    (imageOk : UInt8 → m Bool) :
    planBootWith f n imageOk =
        settle (view f) <$> ((offers (view f) n).findM? fun o => imageOk o.slot) ∧
      ((offers (view f) n).Pairwise fun o o' =>
        o'.seq.toNat ≤ o.seq.toNat ∧ o.sector ≠ o'.sector) ∧
      ∀ o ∈ offers (view f) n, o.slot = slotOf o.seq n ∧
        o.plan.boot = .slot o.slot o.sector o.seq :=
  ⟨planBootWith_eq f n imageOk, offers_pairwise _ n, fun _ ho => ⟨slot_of_offers ho, rfl⟩⟩

/-- An unproven entry above a valid one, and a closure that refuses slot 1 and keeps a list of what
it was asked: slot 1 first, then slot 0, which is booted. -/
theorem asks_in_order_refused :
    planBootWith (m := StateM (List UInt8))
        (fun s => if s = 0 then Entry.encode ⟨1, State.valid⟩ else Entry.encode ⟨2, State.new⟩) 2
        (fun slot asked => (decide (slot = 0), slot :: asked)) [] =
      (⟨.slot 0 0 1, [⟨1, ⟨2, State.invalid⟩⟩]⟩, [0, 1]) := by
  have h := (asks_in_order (m := StateM (List UInt8))
    (fun s => if s = 0 then Entry.encode ⟨1, State.valid⟩ else Entry.encode ⟨2, State.new⟩) 2
    fun slot asked => (decide (slot = 0), slot :: asked)).1
  have hoffers : offers (view fun s =>
        if s = 0 then Entry.encode ⟨1, State.valid⟩ else Entry.encode ⟨2, State.new⟩) 2 =
      [⟨1, 1, 2, [⟨1, ⟨2, State.pendingVerify⟩⟩]⟩, ⟨0, 0, 1, [⟨1, ⟨2, State.invalid⟩⟩]⟩] := by
    decide +kernel
  rw [h, hoffers]
  rfl

/-! ### The closure by its answers -/

/-- The search with a fixed verdict. -/
theorem findM?_fixed (bootable : UInt8 → Bool) (os : List Offer) (k : ℕ) :
    (os.findM? (fun o => counting (fixed bootable) o.slot) k).1 =
      os.find? fun o => bootable o.slot := by
  induction os generalizing k with
  | nil => rfl
  | cons o os ih =>
    rw [List.findM?, bind_apply, counting_apply, fixed, List.find?_cons]
    cases bootable o.slot with
    | true => rfl
    | false => exact ih (k + 1)

/-- **The boot decision with a fixed verdict** takes the first offer whose image is bootable. -/
theorem planBoot_fixed (f : Flash) (n : UInt8) (bootable : UInt8 → Bool) :
    planBoot f n (fixed bootable) =
      settle (view f) ((offers (view f) n).find? fun o => bootable o.slot) := by
  rw [planBoot, planBootWith_eq, ← findM?_fixed bootable (offers (view f) n) 0]
  rfl

/-- A search depends on the answers from its own call on. -/
theorem findM?_counting_congr {ok ok' : ImageOk} (os : List Offer) (k : ℕ)
    (h : ∀ j, k ≤ j → ok j = ok' j) :
    (os.findM? (fun o => counting ok o.slot) k).1 =
      (os.findM? (fun o => counting ok' o.slot) k).1 := by
  induction os generalizing k with
  | nil => rfl
  | cons o os ih =>
    rw [List.findM?, List.findM?, bind_apply, bind_apply, counting_apply, counting_apply,
      h k (Nat.le_refl k)]
    cases ok' k o.slot with
    | true => rfl
    | false => exact ih (k + 1) fun j hj => h j (by omega)

/-- A search with a state is one with the answers that it gets. -/
theorem findM?_answers {σ : Type} (ask : UInt8 → StateM σ Bool) (os : List Offer) (s : σ) (k : ℕ) :
    ∃ ok : ImageOk, (os.findM? (fun o => ask o.slot) s).1 =
      (os.findM? (fun o => counting ok o.slot) k).1 := by
  induction os generalizing s k with
  | nil => exact ⟨fun _ _ => false, rfl⟩
  | cons o os ih =>
    rw [List.findM?, bind_apply]
    cases hask : (ask o.slot s).1 with
    | true => exact ⟨fun _ _ => true, rfl⟩
    | false =>
      obtain ⟨ok, hok⟩ := ih (ask o.slot s).2 (k + 1)
      refine ⟨Function.update ok k fun _ => false, hok.trans ?_⟩
      rw [List.findM?, bind_apply, counting_apply, Function.update_self]
      refine findM?_counting_congr os (k + 1) fun j hj => ?_
      rw [Function.update_of_ne (by omega)]

/-- **Answers stand for any closure**: whatever the state of the caller's, and whatever it makes
of it, the plan is one for some answers. -/
theorem planBootWith_answers {σ : Type} (f : Flash) (n : UInt8) (ask : UInt8 → StateM σ Bool)
    (s : σ) : ∃ imageOk : ImageOk, (planBootWith f n ask s).1 = planBoot f n imageOk := by
  obtain ⟨ok, hok⟩ := findM?_answers ask (offers (view f) n) s 0
  refine ⟨ok, ?_⟩
  rw [planBoot, planBootWith_eq, planBootWith_eq]
  exact congrArg (settle (view f)) hok

end AtomicOta.Otadata
