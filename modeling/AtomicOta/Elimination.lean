import Mathlib.Data.List.Basic

/-!
# Elimination

Words of bits are added bit by bit, and a list of words spans what can be added up from it
(`AtomicOta.Elimination.sums`). Which of these sums are zero at given places is a system of linear
equations over the field with two elements, and this file solves it the usual way, one place at a
time: the first word that is set there is taken out, after it has been added to the ones behind it
that are set there too.

* `AtomicOta.Elimination.clear` – one place, with `AtomicOta.Elimination.mem_sums_clear`: the
  sums of what is left are the sums that are not set there;
* `AtomicOta.Elimination.avoid` – all places of a mask, with
  `AtomicOta.Elimination.mem_sums_avoid`: the sums of what is left are those disjoint from it.

No word is looked at more than once for a place, however many sums there are; and when no word is
left, zero is the only sum.

## Where the words come from

What a linear map makes of all words of a length is spanned by what it makes of those with one bit
set (`AtomicOta.Elimination.mem_sums_bits`), and two such maps are put together by putting their
lists together (`AtomicOta.Elimination.mem_sums_append`).
-/

namespace AtomicOta.Elimination

variable {n w : ℕ}

/-! ### Sums -/

/-- Whatever is added twice is gone. -/
theorem xor_xor_cancel (r x : BitVec w) : r ^^^ (r ^^^ x) = x := by
  rw [← BitVec.xor_assoc, BitVec.xor_self, BitVec.zero_xor]

/-- The sums of some of the words of a list. -/
def sums : List (BitVec w) → List (BitVec w)
  | [] => [0#w]
  | r :: rows => sums rows ++ (sums rows).map (r ^^^ ·)

theorem mem_sums_nil {x : BitVec w} : x ∈ sums [] ↔ x = 0#w := List.mem_singleton

/-- A sum takes the first word or it does not. -/
theorem mem_sums_cons {r x : BitVec w} {rows : List (BitVec w)} :
    x ∈ sums (r :: rows) ↔ x ∈ sums rows ∨ r ^^^ x ∈ sums rows := by
  rw [sums, List.mem_append, List.mem_map]
  refine or_congr_right ⟨?_, fun h => ⟨r ^^^ x, h, ?_⟩⟩
  · rintro ⟨y, hy, rfl⟩
    rwa [xor_xor_cancel]
  · rw [xor_xor_cancel]

/-- A sum of two lists is a sum of one and a sum of the other. -/
theorem mem_sums_append {a b : List (BitVec w)} {x : BitVec w} :
    x ∈ sums (a ++ b) ↔ ∃ y ∈ sums a, y ^^^ x ∈ sums b := by
  induction a generalizing x with
  | nil => simp [sums]
  | cons r a ih =>
    rw [List.cons_append, mem_sums_cons, ih, ih]
    constructor
    · rintro (⟨y, hy, hx⟩ | ⟨y, hy, hx⟩)
      · exact ⟨y, mem_sums_cons.mpr (.inl hy), hx⟩
      · refine ⟨r ^^^ y, mem_sums_cons.mpr (.inr ?_), ?_⟩
        · rwa [xor_xor_cancel]
        · rwa [BitVec.xor_comm r, BitVec.xor_assoc]
    · rintro ⟨y, hy, hx⟩
      rcases mem_sums_cons.mp hy with hy | hy
      · exact .inl ⟨y, hy, hx⟩
      · refine .inr ⟨r ^^^ y, hy, ?_⟩
        have hcancel : r ^^^ y ^^^ (r ^^^ x) = y ^^^ x := by
          rw [BitVec.xor_comm r y, BitVec.xor_assoc, xor_xor_cancel]
        rwa [hcancel]

/-! ### Linear maps -/

/-- A map that takes sums to sums. -/
def Linear (L : BitVec n → BitVec w) : Prop := ∀ a b, L (a ^^^ b) = L a ^^^ L b

/-- It takes nothing to nothing. -/
theorem Linear.zero {L : BitVec n → BitVec w} (hL : Linear L) : L 0#n = 0#w := by
  have h := hL 0#n 0#n
  rwa [BitVec.xor_self, BitVec.xor_self] at h

/-- What it makes of the sums of a list are the sums of what it makes of the list. -/
theorem Linear.sums_map {L : BitVec n → BitVec w} (hL : Linear L) (rows : List (BitVec n)) :
    sums (rows.map L) = (sums rows).map L := by
  induction rows with
  | nil => exact congrArg ([·]) hL.zero.symm
  | cons r rows ih =>
    rw [List.map_cons, sums, sums, ih, List.map_append, List.map_map, List.map_map]
    exact congrArg _ (List.map_congr_left fun x _ => (hL r x).symm)

/-- A word is the sum of its bits. -/
theorem mem_sums_twoPow (k : ℕ) (x : BitVec n) :
    x ∈ sums ((List.range k).map (BitVec.twoPow n)) ↔ ∀ i, k ≤ i → x.getLsbD i = false := by
  induction k generalizing x with
  | zero =>
    rw [List.range_zero, List.map_nil, mem_sums_nil]
    refine ⟨fun h i _ => by simp [h], fun h => ?_⟩
    apply BitVec.eq_of_getLsbD_eq
    intro i _
    rw [h i (Nat.zero_le i)]
    simp
  | succ k ih =>
    rw [List.range_succ, List.map_append, List.map_singleton, mem_sums_append]
    simp only [ih, mem_sums_cons, mem_sums_nil]
    constructor
    · rintro ⟨y, hy, hx⟩ i hi
      -- the two words differ in the new bit at most
      have hsame : (y ^^^ x).getLsbD i = false := by
        rcases hx with hx | hx
        · rw [hx, BitVec.getLsbD_zero]
        · rw [← xor_xor_cancel (BitVec.twoPow n k) (y ^^^ x), hx, BitVec.xor_zero,
            BitVec.getLsbD_twoPow, decide_eq_false (by omega : ¬k = i), Bool.and_false]
      rwa [BitVec.getLsbD_xor, hy i (by omega), Bool.false_xor] at hsame
    · intro h
      cases hk : x.getLsbD k with
      | false =>
        refine ⟨x, fun i hi => ?_, .inl BitVec.xor_self⟩
        rcases Nat.eq_or_lt_of_le hi with rfl | hlt
        · exact hk
        · exact h i hlt
      | true =>
        have hlt : k < n := BitVec.lt_of_getLsbD hk
        refine ⟨BitVec.twoPow n k ^^^ x, fun i hi => ?_, .inr ?_⟩
        · rw [BitVec.getLsbD_xor, BitVec.getLsbD_twoPow, decide_eq_true hlt, Bool.true_and]
          rcases Nat.eq_or_lt_of_le hi with rfl | hlt'
          · rw [hk, decide_eq_true rfl]
            rfl
          · rw [h i hlt', decide_eq_false (by omega : ¬k = i)]
            rfl
        · rw [BitVec.xor_assoc, xor_xor_cancel, BitVec.xor_self]

/-- **What a linear map makes of words**: of those whose bits are below a place, the sums of what
it makes of these bits. -/
theorem mem_sums_bits {L : BitVec n → BitVec w} (hL : Linear L) {k : ℕ} {x : BitVec w} :
    x ∈ sums ((List.range k).map fun i => L (BitVec.twoPow n i)) ↔
      ∃ d : BitVec n, (∀ i, k ≤ i → d.getLsbD i = false) ∧ L d = x := by
  have hmap : ((List.range k).map fun i => L (BitVec.twoPow n i)) =
      ((List.range k).map (BitVec.twoPow n)).map L := (List.map_map ..).symm
  rw [hmap, hL.sums_map, List.mem_map]
  simp only [mem_sums_twoPow]

/-! ### Elimination -/

/-- A word, with a pivot added to it if it is set at a place. -/
def strike (i : ℕ) (pivot r : BitVec w) : BitVec w := if r.getLsbD i then pivot ^^^ r else r

/-- **One place**: the first word that is set there is taken out, and struck from the others. -/
def clear (i : ℕ) : List (BitVec w) → List (BitVec w)
  | [] => []
  | r :: rows => if r.getLsbD i then rows.map (strike i r) else r :: clear i rows

theorem linear_strike (i : ℕ) (pivot : BitVec w) : Linear (strike i pivot) := by
  intro a b
  rw [strike, strike, strike, BitVec.getLsbD_xor]
  cases a.getLsbD i <;> cases b.getLsbD i
  · rfl
  · exact (BitVec.xor_assoc ..).symm.trans
      ((congrArg (· ^^^ b) (BitVec.xor_comm pivot a)).trans (BitVec.xor_assoc ..))
  · exact (BitVec.xor_assoc ..).symm
  · refine (?_ : a ^^^ b = pivot ^^^ a ^^^ (pivot ^^^ b))
    rw [BitVec.xor_comm pivot a, BitVec.xor_assoc, xor_xor_cancel]

theorem getLsbD_strike {i : ℕ} {pivot : BitVec w} (h : pivot.getLsbD i = true) (r : BitVec w) :
    (strike i pivot r).getLsbD i = false := by
  unfold strike
  split_ifs with hr
  · rw [BitVec.getLsbD_xor, h, hr]
    rfl
  · exact Bool.not_eq_true _ ▸ hr

theorem strike_of_not {i : ℕ} {r : BitVec w} (h : r.getLsbD i = false) (pivot : BitVec w) :
    strike i pivot r = r :=
  if_neg (by simp [h])

/-- **What is left are the sums that are not set there.** -/
theorem mem_sums_clear (i : ℕ) (rows : List (BitVec w)) {x : BitVec w} :
    x ∈ sums (clear i rows) ↔ x ∈ sums rows ∧ x.getLsbD i = false := by
  induction rows generalizing x with
  | nil =>
    rw [clear, mem_sums_nil]
    exact ⟨fun h => ⟨h, by simp [h]⟩, And.left⟩
  | cons r rows ih =>
    rw [clear]
    split_ifs with hr
    · rw [(linear_strike i r).sums_map, List.mem_map, mem_sums_cons]
      constructor
      · rintro ⟨y, hy, rfl⟩
        refine ⟨?_, getLsbD_strike hr y⟩
        unfold strike
        split_ifs
        · refine .inr ?_
          rwa [xor_xor_cancel]
        · exact .inl hy
      · rintro ⟨hx | hx, hi⟩
        · exact ⟨x, hx, strike_of_not hi r⟩
        · refine ⟨r ^^^ x, hx, ?_⟩
          rw [strike, if_pos (by simp [hr, hi]), xor_xor_cancel]
    · -- the first word is not set there, so it may be taken or not
      rw [mem_sums_cons, mem_sums_cons, ih, ih, or_and_right]
      simp [hr]

/-- **All places of a mask.** -/
def avoid (mask : BitVec w) (rows : List (BitVec w)) : List (BitVec w) :=
  ((List.range w).filter mask.getLsbD).foldr clear rows

/-- **What is left are the sums that are disjoint from the mask.** -/
theorem mem_sums_avoid (mask : BitVec w) (rows : List (BitVec w)) {x : BitVec w} :
    x ∈ sums (avoid mask rows) ↔ x ∈ sums rows ∧ mask &&& x = 0#w := by
  have hplaces : ∀ (is : List ℕ), x ∈ sums (is.foldr clear rows) ↔
      x ∈ sums rows ∧ ∀ i ∈ is, x.getLsbD i = false := by
    intro is
    induction is with
    | nil => simp
    | cons i is ih =>
      rw [List.foldr_cons, mem_sums_clear, ih, List.forall_mem_cons]
      tauto
  rw [avoid, hplaces]
  refine and_congr_right fun _ => ⟨fun h => ?_, fun h i hi => ?_⟩
  · apply BitVec.eq_of_getLsbD_eq
    intro i hi
    rw [BitVec.getLsbD_and, BitVec.getLsbD_zero]
    cases hmask : mask.getLsbD i with
    | false => rfl
    | true =>
      rw [h i (List.mem_filter.mpr ⟨List.mem_range.mpr hi, hmask⟩)]
      rfl
  · have hbit := congrArg (fun v => v.getLsbD i) h
    simpa [(List.mem_filter.mp hi).2] using hbit

end AtomicOta.Elimination
