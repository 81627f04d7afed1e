import AtomicOta.Feedback
import AtomicOta.Otadata.Entry

/-!
# The checksum of an entry

What `AtomicOta.Otadata.crc32Le` computes, and which damage it cannot miss.

The loop of the source is a register with linear feedback
(`AtomicOta.Otadata.toBitVec_crcBit`), fed with the bits of the data, each byte from its low
bit on (`AtomicOta.Otadata.toBitVec_foldl_crcByte`). Two results follow:

* `AtomicOta.Otadata.crc32Le_eq_remainder` – the checksum is the complement of a **remainder**
  of polynomials, that of the message extended by 32 zeros;
* `AtomicOta.Otadata.crc32Le_window` – **four bytes in a row** can be anything, but a checksum
  with the same data around them tells which: the register reaches every value through them,
  and loses nothing afterwards.
-/

namespace AtomicOta

namespace Otadata

open Polynomial

/-! ### The loop as a register -/

/-- The constant of the inner loop. -/
def crcTaps : BitVec 32 := 0xEDB88320#32

/-- The mask is all ones or nothing. -/
theorem neg_low_bit (b : Bool) : (0#32 - (BitVec.ofBool b).setWidth 32) =
    if b then BitVec.allOnes 32 else 0#32 := by
  cases b <;> rfl

theorem toBitVec_crcBit (crc : UInt32) :
    (crcBit crc).toBitVec = Feedback.shift crcTaps crc.toBitVec := by
  have hlow : (crc &&& 1).toBitVec = (BitVec.ofBool (crc.toBitVec.getLsbD 0)).setWidth 32 :=
    BitVec.and_one_eq_setWidth_ofBool_getLsbD
  rw [crcBit, UInt32.toBitVec_xor, UInt32.toBitVec_and, UInt32.toBitVec_sub, hlow,
    Feedback.shift, Feedback.feed, Bool.xor_false]
  congr 1
  rw [show (0 : UInt32).toBitVec = 0#32 from rfl, neg_low_bit]
  split_ifs
  · exact BitVec.and_allOnes
  · exact BitVec.and_zero

theorem toBitVec_iterate_crcBit (n : ℕ) (crc : UInt32) :
    (crcBit^[n] crc).toBitVec = (Feedback.shift crcTaps)^[n] crc.toBitVec := by
  induction n generalizing crc with
  | zero => rfl
  | succ n ih => rw [Function.iterate_succ_apply, Function.iterate_succ_apply, ih, toBitVec_crcBit]

/-- The bits of the data in the order of the register: each byte from its low bit on. -/
def bitsOf (data : List UInt8) : List Bool := data.flatMap fun byte => Feedback.bits byte.toBitVec

theorem toBitVec_crcByte (crc : UInt32) (byte : UInt8) :
    (crcByte crc byte).toBitVec =
      (Feedback.bits byte.toBitVec).foldl (Feedback.feed crcTaps) crc.toBitVec := by
  have hgone : byte.toUInt32.toBitVec >>> 8 = 0#32 := by
    ext i hi
    simp
  rw [crcByte, toBitVec_iterate_crcBit, UInt32.toBitVec_xor, Feedback.iterate_shift_xor, hgone,
    BitVec.xor_zero, Feedback.bits]
  congr 1

theorem toBitVec_foldl_crcByte (data : List UInt8) (crc : UInt32) :
    (data.foldl crcByte crc).toBitVec =
      (bitsOf data).foldl (Feedback.feed crcTaps) crc.toBitVec := by
  induction data generalizing crc with
  | nil => rfl
  | cons byte data ih =>
    rw [List.foldl_cons, ih, toBitVec_crcByte, bitsOf, bitsOf, List.flatMap_cons, List.foldl_append]

/-! ### The remainder -/

/-- The polynomial of CRC-32. -/
noncomputable def crcPolynomial : (ZMod 2)[X] :=
  X ^ 32 + X ^ 26 + X ^ 23 + X ^ 22 + X ^ 16 + X ^ 12 + X ^ 11 + X ^ 10 + X ^ 8 + X ^ 7 + X ^ 5 +
    X ^ 4 + X ^ 2 + X + 1

/-- The constant of the loop is that polynomial without its first term, reversed. -/
theorem feedback_crcTaps : Feedback.feedback crcTaps = crcPolynomial := by
  have hbits : Feedback.bits crcTaps =
      [false, false, false, false, false, true, false, false, true, true, false, false, false,
        false, false, true, false, false, false, true, true, true, false, true, true, false, true,
        true, false, true, true, true] := by decide
  rw [Feedback.feedback, ← Feedback.ofBits_bits, hbits]
  simp [Feedback.ofBits, crcPolynomial]
  ring

/-- The register at the end of the data, as a remainder. -/
theorem foldl_crcByte (data : List UInt8) (crc : UInt32) :
    data.foldl crcByte crc = UInt32.ofBitVec (Feedback.register 32
      (Feedback.ofBits (Feedback.extended crc.toBitVec (bitsOf data)) %ₘ crcPolynomial)) := by
  rw [← feedback_crcTaps, ← Feedback.foldl_feed, ← toBitVec_foldl_crcByte]

/-- A checksum goes on from an earlier one. -/
theorem crc32Le_append (init : UInt32) (a b : List UInt8) :
    crc32Le (crc32Le init a) b = crc32Le init (a ++ b) := by
  rw [crc32Le, crc32Le, crc32Le, List.foldl_append, UInt32.not_not]

/-- **The checksum is CRC-32.** The data are read as the coefficients of a polynomial, each
byte from its low bit on, and followed by 32 zeros; the complement of what the checksum is
continued from is added to the first 32 bits; and what remains of the sum modulo the
polynomial is stored in reverse and complemented. A checksum of two pieces is therefore that
of the second, continued from that of the first. -/
theorem crc32Le_eq_remainder :
    (∀ (init : UInt32) (data : List UInt8), crc32Le init data =
      ~~~(UInt32.ofBitVec (Feedback.register 32 (Feedback.ofBits
        (Feedback.extended (~~~init).toBitVec (bitsOf data)) %ₘ crcPolynomial)))) ∧
    ∀ (init : UInt32) (a b : List UInt8),
      crc32Le (crc32Le init a) b = crc32Le init (a ++ b) :=
  ⟨fun init data => congrArg (~~~ ·) (foldl_crcByte data (~~~init)), crc32Le_append⟩

/-- The check value of CRC-32, that of the nine digits. -/
example : crc32Le 0 [0x31, 0x32, 0x33, 0x34, 0x35, 0x36, 0x37, 0x38, 0x39] = 0xCBF43926 := by
  decide +kernel

/-! ### Four bytes in a row -/

theorem crcBit_injective : Function.Injective crcBit := by
  intro a b h
  have hvec := congrArg UInt32.toBitVec h
  rw [toBitVec_crcBit, toBitVec_crcBit] at hvec
  exact UInt32.toBitVec_inj.mp (Feedback.feed_injective (by decide) false hvec)

/-- Data at the end lose nothing of what the register held before them. -/
theorem foldl_crcByte_injective (data : List UInt8) :
    Function.Injective fun crc => data.foldl crcByte crc := by
  induction data with
  | nil => exact Function.injective_id
  | cons byte data ih =>
    refine ih.comp fun a b h => ?_
    exact (UInt32.xor_left_inj _).mp (crcBit_injective.iterate 8 h)

/-- The bits of a byte of a word. -/
theorem bits_byte (w : UInt32) (s : UInt32) (hs : s.toNat ≤ 24) :
    Feedback.bits (w >>> s).toUInt8.toBitVec =
      (List.range 8).map fun i => w.toBitVec.getLsbD (s.toNat + i) := by
  refine List.map_congr_left fun i hi => ?_
  have hlt : i < 8 := List.mem_range.mp hi
  have hmod : s.toNat % 32 = s.toNat := Nat.mod_eq_of_lt (by omega)
  rw [UInt32.toBitVec_toUInt8, BitVec.getLsbD_setWidth, decide_eq_true hlt, Bool.true_and,
    UInt32.toBitVec_shiftRight]
  refine (BitVec.getLsbD_ushiftRight ..).trans (congrArg (w.toBitVec.getLsbD <| · + i) ?_)
  exact hmod

/-- The bits of a word, byte by byte, are its bits from the low one on. -/
theorem bitsOf_toLeBytes (w : UInt32) : bitsOf (toLeBytes w) = Feedback.bits w.toBitVec := by
  have h0 := bits_byte w 0 (by decide)
  rw [UInt32.shiftRight_zero] at h0
  rw [bitsOf, toLeBytes, List.flatMap_cons, List.flatMap_cons, List.flatMap_cons,
    List.flatMap_cons, List.flatMap_nil, h0, bits_byte w 8 (by decide), bits_byte w 16 (by decide),
    bits_byte w 24 (by decide)]
  rfl

/-- Four bytes are added to the register as the word they make. -/
theorem foldl_crcByte_toLeBytes (crc w : UInt32) :
    (toLeBytes w).foldl crcByte crc = crcBit^[32] (crc ^^^ w) := by
  rw [← UInt32.toBitVec_inj, toBitVec_foldl_crcByte, bitsOf_toLeBytes, toBitVec_iterate_crcBit,
    UInt32.toBitVec_xor, Feedback.iterate_shift_xor, BitVec.ushiftRight_eq_zero le_rfl,
    BitVec.xor_zero]
  rfl

/-- The four bytes of a word reach every value of the register, each from one word only. -/
theorem foldl_crcByte_word_injective (crc : UInt32) :
    Function.Injective fun w => (toLeBytes w).foldl crcByte crc := by
  intro w v h
  simp only [foldl_crcByte_toLeBytes] at h
  exact (UInt32.xor_right_inj _).mp (crcBit_injective.iterate 32 h)

/-- Four bytes make a word. -/
theorem exists_toLeBytes {bytes : List UInt8} (h : bytes.length = 4) :
    ∃ w, bytes = toLeBytes w := by
  obtain ⟨a, b, c, d, rfl⟩ := List.length_eq_four.mp h
  exact ⟨fromLeBytes a b c d, (toLeBytes_fromLeBytes a b c d).symm⟩

theorem crc32Le_word_injective (init : UInt32) (p s : List UInt8) :
    Function.Injective fun w : UInt32 => crc32Le init (p ++ toLeBytes w ++ s) := by
  intro w v h
  have hregister := UInt32.not_inj.mp h
  rw [List.foldl_append, List.foldl_append, List.foldl_append, List.foldl_append] at hregister
  exact foldl_crcByte_word_injective _ (foldl_crcByte_injective s hregister)

/-- There are finitely many words. -/
instance finite_uInt32 : Finite UInt32 :=
  Finite.of_injective (fun w : UInt32 => w.toFin) fun _ _ h => UInt32.toFin_inj.mp h

/-- **Four consecutive bytes are never mistaken for four others**, whatever stands before and
after them and whatever the checksum is continued from; and every checksum is that of some
four bytes. -/
theorem crc32Le_window (init : UInt32) (p s : List UInt8) :
    (∀ w v : List UInt8, w.length = 4 → v.length = 4 → w ≠ v →
      crc32Le init (p ++ w ++ s) ≠ crc32Le init (p ++ v ++ s)) ∧
    Function.Bijective fun w : UInt32 => crc32Le init (p ++ toLeBytes w ++ s) := by
  have hinj := crc32Le_word_injective init p s
  refine ⟨fun w v hw hv hne heq => hne ?_, hinj, ?_⟩
  · obtain ⟨w, rfl⟩ := exists_toLeBytes hw
    obtain ⟨v, rfl⟩ := exists_toLeBytes hv
    exact congrArg toLeBytes (hinj heq)
  · exact Finite.surjective_of_injective hinj

theorem crc32Le_window_digits :
    (([0x31, 0x32, 0x33, 0x34] : List UInt8).length = 4 ∧
      ([0x34, 0x33, 0x32, 0x31] : List UInt8).length = 4 ∧
      ([0x31, 0x32, 0x33, 0x34] : List UInt8) ≠ [0x34, 0x33, 0x32, 0x31]) ∧
    crc32Le 0 ([0x30] ++ [0x31, 0x32, 0x33, 0x34] ++ [0x35, 0x36]) ≠
      crc32Le 0 ([0x30] ++ [0x34, 0x33, 0x32, 0x31] ++ [0x35, 0x36]) :=
  ⟨by decide, (crc32Le_window 0 [0x30] [0x35, 0x36]).1 _ _ rfl rfl (by decide)⟩

end Otadata

end AtomicOta
