import Mathlib.Algebra.CharP.Two
import Mathlib.Algebra.Field.ZMod
import Mathlib.Algebra.Polynomial.Div
import Mathlib.Algebra.Polynomial.OfFn
import Mathlib.Tactic.Ring

/-!
# Registers with linear feedback

A register of `w` bits that is shifted one place at a time, and into which a constant is
added whenever a bit falls out, computes remainders of polynomials over the field with two
elements. This file says so for the *reflected* register, the one that is shifted towards
its low end and stands for a polynomial with its low bit as the highest coefficient:

* `AtomicOta.Feedback.feed` – one step, with one bit of a message;
* `AtomicOta.Feedback.feedback` – the polynomial by which it divides;
* `AtomicOta.Feedback.foldl_feed` – after a whole message, the register is the remainder of
  the message, extended by `w` zeros and with the first value of the register added to its
  first `w` bits.

## Bits as coefficients

A message is a list of bits, its first bit the highest coefficient
(`AtomicOta.Feedback.ofBits`). Everything about a polynomial of bits is read off its
coefficients, `AtomicOta.Feedback.coeff_ofBits` and `AtomicOta.Feedback.coeff_reflect`, so
that the rest of the file is equalities of bits on one side and of polynomials on the other.
-/

namespace AtomicOta.Feedback

open Polynomial

variable {w : ℕ}

/-! ### Bits as coefficients -/

/-- A bit, as an element of the field with two elements. -/
def coefficient (b : Bool) : ZMod 2 := b.toNat

@[simp] theorem coefficient_false : coefficient false = 0 := rfl

@[simp] theorem coefficient_true : coefficient true = 1 := rfl

theorem coefficient_xor (a b : Bool) :
    coefficient (a ^^ b) = coefficient a + coefficient b := by
  cases a <;> cases b <;> decide

theorem coefficient_and (a b : Bool) :
    coefficient (a && b) = coefficient a * coefficient b := by
  cases a <;> cases b <;> decide

theorem coefficient_eq_one_iff {b : Bool} : coefficient b = 1 ↔ b = true := by
  cases b <;> decide

/-- The polynomial of a message, its first bit the highest coefficient. -/
noncomputable def ofBits : List Bool → (ZMod 2)[X]
  | [] => 0
  | b :: bits => C (coefficient b) * X ^ bits.length + ofBits bits

theorem coeff_ofBits (bits : List Bool) (i : ℕ) :
    (ofBits bits).coeff i = coefficient (bits.reverse.getD i false) := by
  induction bits with
  | nil => simp [ofBits]
  | cons b bits ih =>
    rw [ofBits, coeff_add, coeff_C_mul_X_pow, ih, List.reverse_cons]
    rcases lt_trichotomy i bits.length with hlt | rfl | hgt
    · rw [if_neg hlt.ne, zero_add, List.getD_append _ _ _ _ (by simpa using hlt)]
    · rw [if_pos rfl, List.getD_append_right _ _ _ _ (by simp),
        List.getD_eq_default bits.reverse false (by simp)]
      simp
    · rw [if_neg hgt.ne', zero_add, List.getD_eq_default _ _ (by simp; omega),
        List.getD_eq_default _ _ (by simp; omega)]

theorem ofBits_append (front back : List Bool) :
    ofBits (front ++ back) = ofBits front * X ^ back.length + ofBits back := by
  induction front with
  | nil => rw [List.nil_append, ofBits, zero_mul, zero_add]
  | cons b front ih =>
    rw [List.cons_append, ofBits, ofBits, ih, List.length_append, pow_add]
    ring

@[simp] theorem ofBits_replicate_false (n : ℕ) : ofBits (List.replicate n false) = 0 := by
  induction n with
  | zero => rfl
  | succ n ih => rw [List.replicate_succ, ofBits, ih, coefficient_false, C_0, zero_mul, zero_add]

/-- Messages of one length are added bit by bit. -/
theorem ofBits_zipWith_xor {a b : List Bool} (h : a.length = b.length) :
    ofBits (List.zipWith (· ^^ ·) a b) = ofBits a + ofBits b := by
  induction a generalizing b with
  | nil =>
    cases List.length_eq_zero_iff.mp h.symm
    rw [List.zipWith_nil_left, ofBits, add_zero]
  | cons x a ih =>
    obtain ⟨y, b, rfl⟩ := List.exists_cons_of_length_eq_add_one h.symm
    have hlen : a.length = b.length := Nat.succ.inj h
    rw [List.zipWith_cons_cons, ofBits, ofBits, ofBits, ih hlen, coefficient_xor, C_add,
      List.length_zipWith, ← hlen, Nat.min_self]
    ring

/-! ### Registers as polynomials -/

/-- The polynomial a register stands for: its low bit is the highest coefficient. -/
noncomputable def reflect (r : BitVec w) : (ZMod 2)[X] :=
  ofFn w fun i => coefficient (r.getMsbD i)

theorem coeff_reflect (r : BitVec w) (i : ℕ) :
    (reflect r).coeff i = coefficient (r.getMsbD i) := by
  rcases Nat.lt_or_ge i w with hlt | hge
  · exact ofFn_coeff_eq_val_of_lt _ hlt
  · rw [reflect, ofFn_coeff_eq_zero_of_ge _ hge, BitVec.getMsbD_of_ge r i hge, coefficient_false]

theorem degree_reflect_lt (r : BitVec w) : (reflect r).degree < w := ofFn_degree_lt _

/-- The register a polynomial of degree less than `w` stands for. -/
noncomputable def register (w : ℕ) (p : (ZMod 2)[X]) : BitVec w :=
  (BitVec.ofBoolListLE ((List.range w).map fun j => decide (p.coeff (w - 1 - j) = 1))).setWidth w

theorem getLsbD_register (p : (ZMod 2)[X]) {j : ℕ} (h : j < w) :
    (register w p).getLsbD j = decide (p.coeff (w - 1 - j) = 1) := by
  rw [register, BitVec.getLsbD_setWidth, BitVec.getLsbD_ofBoolListLE, decide_eq_true h,
    Bool.true_and, List.getD_eq_getElem _ _ (by simpa using h)]
  simp

@[simp] theorem register_reflect (r : BitVec w) : register w (reflect r) = r := by
  apply BitVec.eq_of_getLsbD_eq
  intro j hj
  rw [getLsbD_register _ hj, coeff_reflect, BitVec.getMsbD_eq_getLsbD]
  have hrev : w - 1 - (w - 1 - j) = j := by omega
  simp [coefficient_eq_one_iff, hrev, show w - 1 - j < w by omega]

/-- The bits of a register in the order in which they fall out of it. -/
def bits (r : BitVec w) : List Bool := (List.range w).map r.getLsbD

@[simp] theorem length_bits (r : BitVec w) : (bits r).length = w := by
  rw [bits, List.length_map, List.length_range]

/-- A register stands for the message that falls out of it. -/
theorem ofBits_bits (r : BitVec w) : ofBits (bits r) = reflect r := by
  ext i
  rw [coeff_ofBits, coeff_reflect]
  rcases Nat.lt_or_ge i w with hlt | hge
  · have hrev : i < (bits r).reverse.length := by simpa using hlt
    rw [List.getD_eq_getElem _ _ hrev, BitVec.getMsbD_eq_getLsbD]
    simp [bits, hlt]
  · rw [BitVec.getMsbD_of_ge r i hge, List.getD_eq_default _ _ (by simpa using hge)]

/-! ### Division -/

/-- One step of the register with one bit of a message: the bit is added to the one that
falls out, and the sum decides whether the taps are added to what is left. -/
def feed (taps r : BitVec w) (b : Bool) : BitVec w :=
  (r >>> 1) ^^^ (if r.getLsbD 0 ^^ b then taps else 0)

/-- The polynomial a register divides by: its own length, and the taps. -/
noncomputable def feedback (taps : BitVec w) : (ZMod 2)[X] := X ^ w + reflect taps

theorem monic_feedback (taps : BitVec w) : (feedback taps).Monic :=
  monic_X_pow_add (degree_reflect_lt taps)

theorem degree_feedback (taps : BitVec w) : (feedback taps).degree = w := by
  rw [feedback, degree_add_eq_left_of_degree_lt, degree_X_pow]
  rw [degree_X_pow]
  exact degree_reflect_lt taps

/-- A step moves every coefficient up by one place. -/
theorem coeff_X_mul_reflect (r : BitVec w) (i : ℕ) :
    (X * reflect r).coeff i = coefficient (!decide (i < 1) && r.getMsbD (i - 1)) := by
  cases i with
  | zero => rw [coeff_X_mul_zero]; rfl
  | succ i => rw [coeff_X_mul, coeff_reflect]; rfl

/-- What falls out of a register is its last coefficient. -/
theorem getLsbD_zero_eq (r : BitVec w) : r.getLsbD 0 = (!decide (w < 1) && r.getMsbD (w - 1)) := by
  rcases Nat.eq_zero_or_pos w with rfl | hw
  · simp
  · simp [BitVec.getMsbD_eq_getLsbD, hw, hw.ne', -BitVec.getLsbD_eq_getElem]

theorem getMsbD_feed (taps r : BitVec w) (b : Bool) (i : ℕ) :
    (feed taps r b).getMsbD i =
      ((decide (i < w) && (!decide (i < 1) && r.getMsbD (i - 1))) ^^
        ((r.getLsbD 0 ^^ b) && taps.getMsbD i)) := by
  rw [feed, BitVec.getMsbD_xor, BitVec.getMsbD_ushiftRight]
  split_ifs with hout <;> simp [hout]

/-- A step multiplies the register by `X`, adds the bit in front of it, and takes the
polynomial of the taps off again as often as the degree requires. -/
theorem reflect_feed (taps r : BitVec w) (b : Bool) :
    reflect (feed taps r b) = (X * reflect r + C (coefficient b) * X ^ w) %ₘ feedback taps := by
  refine ((div_modByMonic_unique (C (coefficient (r.getLsbD 0 ^^ b))) (reflect (feed taps r b))
    (monic_feedback taps) ⟨?_, ?_⟩).2).symm
  · ext i
    rw [feedback, coeff_add, coeff_add, coeff_mul_C, coeff_C_mul, coeff_add, coeff_X_pow,
      coeff_reflect, coeff_reflect, coeff_X_mul_reflect, getMsbD_feed, coefficient_xor,
      coefficient_and, coefficient_and (_ ^^ _)]
    rcases lt_trichotomy i w with hlt | rfl | hgt
    · -- below the degree, the taps are added and taken off again
      rw [if_neg hlt.ne, decide_eq_true hlt, coefficient_true, one_mul, zero_add, mul_zero,
        add_zero, mul_comm (coefficient (taps.getMsbD i)), add_assoc, CharTwo.add_self_eq_zero,
        add_zero]
    · -- at the degree, the bit that falls out is taken off
      rw [if_pos rfl, BitVec.getMsbD_of_ge taps i le_rfl, coefficient_xor, getLsbD_zero_eq]
      simp
    · rw [if_neg hgt.ne', BitVec.getMsbD_of_ge taps i hgt.le,
        BitVec.getMsbD_of_ge r (i - 1) (by omega)]
      simp
  · rw [degree_feedback]
    exact degree_reflect_lt _

/-- **The register is a remainder**, whatever it held before the message. -/
theorem reflect_foldl_feed (taps r : BitVec w) (message : List Bool) :
    reflect (message.foldl (feed taps) r) =
      (X ^ message.length * reflect r + ofBits message * X ^ w) %ₘ feedback taps := by
  induction message generalizing r with
  | nil =>
    rw [List.foldl_nil, List.length_nil, pow_zero, one_mul, ofBits, zero_mul, add_zero]
    refine ((modByMonic_eq_self_iff (monic_feedback taps)).mpr ?_).symm
    rw [degree_feedback]
    exact degree_reflect_lt r
  | cons b message ih =>
    rw [List.foldl_cons, ih, reflect_feed]
    refine modByMonic_eq_of_dvd_sub (monic_feedback taps) ?_
    have hstep := dvd_modByMonic_sub (X * reflect r + C (coefficient b) * X ^ w) (feedback taps)
    have hrest := hstep.mul_left (X ^ message.length)
    rw [ofBits, List.length_cons]
    convert hrest using 1
    ring

/-- The message of which a register keeps the remainder: extended by as many zeros as the
register has bits, and with the bits the register started from added to its first ones. -/
def extended (r : BitVec w) (message : List Bool) : List Bool :=
  List.zipWith (· ^^ ·) (message ++ List.replicate w false)
    (bits r ++ List.replicate message.length false)

theorem ofBits_extended (r : BitVec w) (message : List Bool) :
    ofBits (extended r message) = X ^ message.length * reflect r + ofBits message * X ^ w := by
  have hlen : (message ++ List.replicate w false).length =
      (bits r ++ List.replicate message.length false).length := by
    simp [add_comm]
  rw [extended, ofBits_zipWith_xor hlen, ofBits_append, ofBits_append, ofBits_replicate_false,
    ofBits_replicate_false, ofBits_bits, List.length_replicate, List.length_replicate]
  ring

/-- **A message leaves its remainder in the register.** -/
theorem foldl_feed (taps r : BitVec w) (message : List Bool) :
    message.foldl (feed taps) r = register w (ofBits (extended r message) %ₘ feedback taps) := by
  rw [ofBits_extended, ← reflect_foldl_feed, register_reflect]

/-! ### Words of a message -/

/-- One step without a message. -/
def shift (taps r : BitVec w) : BitVec w := feed taps r false

/-- A step without a message is linear: the taps are added as often as a bit falls out. -/
theorem shift_add (taps r s : BitVec w) :
    shift taps (r ^^^ s) = shift taps r ^^^ shift taps s := by
  have htaps : ∀ a b : Bool, (if a ^^ b then taps else 0) =
      (if a then taps else 0) ^^^ (if b then taps else 0) := by
    rintro (_ | _) (_ | _) <;> simp
  simp only [shift, feed, Bool.xor_false, BitVec.getLsbD_xor, BitVec.ushiftRight_xor_distrib, htaps]
  ac_rfl

theorem iterate_shift_add (taps r s : BitVec w) (n : ℕ) :
    (shift taps)^[n] (r ^^^ s) = (shift taps)^[n] r ^^^ (shift taps)^[n] s := by
  induction n generalizing r s with
  | zero => rfl
  | succ n ih =>
    rw [Function.iterate_succ_apply, Function.iterate_succ_apply, Function.iterate_succ_apply, ← ih,
      shift_add]

/-- A step with a bit of a word is a step of the register to which the word is added. -/
theorem shift_xor (taps r v : BitVec w) :
    shift taps (r ^^^ v) = feed taps r (v.getLsbD 0) ^^^ (v >>> 1) := by
  rw [shift, feed, feed, BitVec.getLsbD_xor, BitVec.ushiftRight_xor_distrib, Bool.xor_false,
    BitVec.xor_assoc, BitVec.xor_assoc, BitVec.xor_comm (v >>> 1)]

/-- Bits may be added to the register all at once, before the steps that read them. -/
theorem iterate_shift_xor (taps r v : BitVec w) (n : ℕ) :
    (shift taps)^[n] (r ^^^ v) =
      ((List.range n).map v.getLsbD).foldl (feed taps) r ^^^ (v >>> n) := by
  induction n with
  | zero => simp
  | succ n ih =>
    rw [Function.iterate_succ_apply', ih, shift_xor, List.range_succ, List.map_append,
      List.foldl_append, BitVec.getLsbD_ushiftRight, ← BitVec.shiftRight_add, add_zero]
    rfl

/-! ### Undoing a step -/

/-- The top bit after a step is the top one of the taps, if these were added. -/
theorem msb_feed {taps : BitVec w} (htaps : taps.msb = true) (r : BitVec w) (b : Bool) :
    (feed taps r b).msb = (r.getLsbD 0 ^^ b) := by
  rw [feed, BitVec.msb_xor, BitVec.msb_ushiftRight]
  split_ifs with hout <;> simp [hout, htaps]

/-- **A step loses nothing** if the last of the taps is set. -/
theorem feed_injective {taps : BitVec w} (htaps : taps.msb = true) (b : Bool) :
    Function.Injective fun r => feed taps r b := by
  intro r s h
  have hlow : r.getLsbD 0 = s.getLsbD 0 := by
    have hmsb := congrArg BitVec.msb h
    rwa [msb_feed htaps, msb_feed htaps, Bool.xor_left_inj] at hmsb
  have hhigh : r >>> 1 = s >>> 1 := by
    dsimp only [feed] at h
    rwa [hlow, BitVec.xor_left_inj] at h
  apply BitVec.eq_of_getLsbD_eq
  intro i _
  cases i with
  | zero => exact hlow
  | succ i =>
    have hbit := congrArg (fun v => v.getLsbD i) hhigh
    simpa only [BitVec.getLsbD_ushiftRight, add_comm 1] using hbit

end AtomicOta.Feedback
