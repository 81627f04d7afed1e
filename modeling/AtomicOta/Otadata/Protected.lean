import AtomicOta.Elimination
import AtomicOta.Otadata.Checksum
import AtomicOta.Otadata.Codec

/-!
# Which entries the checksums protect

A content in which any set bits of an encoding are still set, and any other bits raised in any
order (`AtomicOta.Otadata.Covers`), can be told from the encoding of another entry by its checksums
only, and they do not always do: an entry written as new can read as valid
(`AtomicOta.Otadata.new_reads_valid`). This file finds the entries they protect.

What two encodings differ in does not depend on the entries, only on the bits of the sequence and
of the state that are flipped between them: the register of the checksum is linear, so the two
checksums change by what it makes of these bits (`AtomicOta.Otadata.stored_xor`). An entry becomes
another one by raising bits if such a change is zero wherever a bit of the entry is set – which is a
system of linear equations, with the bits of the entry for its places and the 35 bits that may be
flipped for its unknowns. It is solved by `AtomicOta.Elimination.avoid`, and the entry is protected
(`AtomicOta.Otadata.Entry.Protected`) if of what is left only zero leads to an entry:
`AtomicOta.Otadata.reads_same_iff`. Mostly nothing is left at all
(`AtomicOta.Otadata.protected_of_nil`).
-/

namespace AtomicOta.Otadata

open Elimination

/-! ### Cells in any order -/

/-- The set bits of `raw` are all set in `r`: what a content may become when its
cells are erased in any order, and only in part. -/
def Covers (raw r : Raw) : Prop := ∀ i, raw i ||| r i = r i

namespace Entry

/-- The fields of `e` that vary can all be raised to those of `e'`. -/
structure Rises (e e' : Entry) : Prop where
  seq : e.seq ||| e'.seq = e'.seq
  state : e.state ||| e'.state = e'.state
  extCrc : e.extCrc ||| e'.extCrc = e'.extCrc
  idfCrc : idfCrc e.seq ||| idfCrc e'.seq = idfCrc e'.seq

end Entry

/-- Covering is decided word by word. -/
theorem covers_iff_words (raw r : Raw) :
    Covers raw r ↔ ∀ k : Fin 8, word raw (4 * k) ||| word r (4 * k) = word r (4 * k) := by
  constructor
  · intro h k
    have heq : (fun i => raw i ||| r i) = r := funext h
    rw [← word_or, heq]
  · intro h
    have heq : (fun i => raw i ||| r i) = r := raw_ext fun k => (word_or ..).trans (h k)
    exact congrFun heq

/-- One encoding covers another when the four fields that vary allow it: the other
four words are the same in both. -/
theorem covers_encode_iff (e e' : Entry) : Covers e.encode e'.encode ↔ e.Rises e' := by
  rw [covers_iff_words]
  simp only [word_encode]
  constructor
  · intro h
    exact ⟨h 0, h 6, h 3, h 7⟩
  · intro h k
    fin_cases k
    exacts [h.seq, UInt32.or_self, UInt32.or_self, h.extCrc, UInt32.or_self, UInt32.or_self,
      h.state, h.idfCrc]

/-! ### What flipped bits change -/

/-- What four bytes without a bit set make of the register of the checksum. -/
def turn (r : BitVec 32) : BitVec 32 := (Feedback.shift crcTaps)^[32] r

theorem linear_turn : Linear turn := fun a b => Feedback.iterate_shift_add crcTaps a b 32

/-- Four bytes are added to the register first. -/
theorem foldl_turn (crc w : UInt32) :
    ((toLeBytes w).foldl crcByte crc).toBitVec = turn (crc.toBitVec ^^^ w.toBitVec) := by
  rw [foldl_crcByte_toLeBytes, toBitVec_iterate_crcBit, UInt32.toBitVec_xor, turn]

theorem toBitVec_idfCrc (q : UInt32) : (idfCrc q).toBitVec = ~~~turn q.toBitVec := by
  rw [idfCrc, crc32Le, UInt32.toBitVec_not, foldl_turn]
  congr 2
  exact BitVec.zero_xor

theorem toBitVec_extCrc (e : Entry) : e.extCrc.toBitVec =
    ~~~turn (turn (turn (turn e.seq.toBitVec ^^^ e.state.toBitVec) ^^^ magicWord.toBitVec) ^^^
      formatVersion.toBitVec) := by
  have hstart : (~~~u32Max).toBitVec ^^^ e.seq.toBitVec = e.seq.toBitVec := BitVec.zero_xor
  rw [Entry.extCrc, crc32Le, UInt32.toBitVec_not, List.foldl_append, List.foldl_append,
    List.foldl_append, ← toLeBytes_magicWord, foldl_turn, foldl_turn, foldl_turn, foldl_turn,
    hstart]

/-- The four words of an encoding that depend on the entry, as one word. -/
def Entry.stored (e : Entry) : BitVec (32 + 32 + 32 + 32) :=
  e.seq.toBitVec ++ e.state.toBitVec ++ e.extCrc.toBitVec ++ (idfCrc e.seq).toBitVec

/-- What flipping the bits of `q` in the sequence, and of `s` in the state, changes of them. -/
def change (q s : BitVec 32) : BitVec (32 + 32 + 32 + 32) :=
  q ++ s ++ turn (turn (turn (turn q ^^^ s))) ++ turn q

theorem change_xor (q q' s s' : BitVec 32) :
    change (q ^^^ q') (s ^^^ s') = change q s ^^^ change q' s' := by
  have hswap : turn q ^^^ turn q' ^^^ (s ^^^ s') = turn q ^^^ s ^^^ (turn q' ^^^ s') := by ac_rfl
  simp only [change, BitVec.xor_append, linear_turn _ _, hswap]

/-- **What two encodings differ in** depends on the flipped bits only. -/
theorem stored_xor (e e' : Entry) : e.stored ^^^ e'.stored =
    change (e.seq.toBitVec ^^^ e'.seq.toBitVec) (e.state.toBitVec ^^^ e'.state.toBitVec) := by
  have hnot : ∀ a b : BitVec 32, ~~~a ^^^ ~~~b = a ^^^ b := by
    intro a b
    rw [← BitVec.not_xor_left, ← BitVec.not_xor_right, BitVec.not_not]
  have hcancel : ∀ a b c : BitVec 32, a ^^^ c ^^^ (b ^^^ c) = a ^^^ b := by
    intro a b c
    rw [BitVec.xor_comm b c, BitVec.xor_assoc, xor_xor_cancel]
  -- the magic and the version are in both, and go
  rw [change_xor, Entry.stored, Entry.stored, change, change, BitVec.xor_append, BitVec.xor_append,
    BitVec.xor_append, BitVec.xor_append, BitVec.xor_append, BitVec.xor_append, toBitVec_idfCrc,
    toBitVec_idfCrc, toBitVec_extCrc, toBitVec_extCrc, hnot, hnot, ← linear_turn, hcancel,
    ← linear_turn, hcancel, ← linear_turn, ← linear_turn, ← linear_turn, ← linear_turn,
    ← linear_turn]

/-- The changes of one bit: any of the sequence, and the three lowest of the state. -/
def flips : List (BitVec (32 + 32 + 32 + 32)) :=
  ((List.range 32).map fun i => change (BitVec.twoPow 32 i) 0#32) ++
    (List.range 3).map fun i => change 0#32 (BitVec.twoPow 32 i)

/-- They add up to all changes of the sequence and of a known state. -/
theorem mem_sums_flips {x : BitVec (32 + 32 + 32 + 32)} :
    x ∈ sums flips ↔ ∃ q s, (∀ i, 3 ≤ i → s.getLsbD i = false) ∧ change q s = x := by
  have hseq : Linear fun q => change q 0#32 := fun q q' => change_xor q q' 0#32 0#32
  have hstate : Linear fun s => change 0#32 s := fun s s' => change_xor 0#32 0#32 s s'
  have hboth : ∀ q s, change q s = change q 0#32 ^^^ change 0#32 s := by
    intro q s
    rw [← change_xor, BitVec.xor_zero, BitVec.zero_xor]
  rw [flips, mem_sums_append]
  simp only [mem_sums_bits hseq, mem_sums_bits hstate]
  constructor
  · rintro ⟨_, ⟨q, -, rfl⟩, s, hs, hx⟩
    exact ⟨q, s, hs, by rw [hboth, hx, xor_xor_cancel]⟩
  · rintro ⟨q, s, hs, rfl⟩
    refine ⟨_, ⟨q, fun i hi => BitVec.getLsbD_of_ge q i hi, rfl⟩, s, hs, ?_⟩
    rw [hboth q s, xor_xor_cancel]

/-- An entry, with the bits flipped that a change says. -/
def Entry.flipped (e : Entry) (x : BitVec (32 + 32 + 32 + 32)) : Entry where
  seq := e.seq ^^^ .ofBitVec (x.extractLsb' 96 32)
  state := e.state ^^^ .ofBitVec (x.extractLsb' 64 32)

/-! ### Protected entries -/

/-- **An entry is protected** if elimination, at the places of the bits that are set in its own
words, leaves no change that leads to an admissible entry, but the one that changes nothing. -/
def Entry.Protected (e : Entry) : Prop :=
  ∀ x ∈ sums (avoid e.stored flips), (e.flipped x).Admissible → x = 0#(32 + 32 + 32 + 32)

instance (e : Entry) : Decidable e.Protected := inferInstanceAs (Decidable (∀ x ∈ _, _))

/-- So it is if elimination leaves nothing. -/
theorem protected_of_nil {e : Entry} (h : avoid e.stored flips = []) : e.Protected := by
  intro x hx _
  rw [h] at hx
  exact mem_sums_nil.mp hx

example : Entry.Protected ⟨11, State.new⟩ := protected_of_nil (by decide +kernel)

/-- Bits are raised where they are changed at places only that are not set. -/
theorem or_eq_right_iff {w : ℕ} (a b : BitVec w) : a ||| b = b ↔ a &&& (a ^^^ b) = 0#w := by
  constructor
  · intro h
    rw [← h]
    ext i hi
    cases ha : a[i] <;> simp [ha]
  · intro h
    ext i hi
    have hbit : (a &&& (a ^^^ b))[i] = (0#w)[i] := by rw [h]
    rw [BitVec.getElem_and, BitVec.getElem_xor, BitVec.getElem_zero] at hbit
    rw [BitVec.getElem_or]
    cases ha : a[i] <;> cases hb : b[i] <;> simp_all

theorem append_inj {v w : ℕ} {a a' : BitVec v} {b b' : BitVec w} :
    a ++ b = a' ++ b' ↔ a = a' ∧ b = b' := by
  refine ⟨fun h => ⟨?_, ?_⟩, fun ⟨ha, hb⟩ => ha ▸ hb ▸ rfl⟩
  · rw [← BitVec.extractLsb'_append_eq_left (a := a) (b := b), h,
      BitVec.extractLsb'_append_eq_left]
  · rw [← BitVec.extractLsb'_append_eq_right (a := a) (b := b), h,
      BitVec.extractLsb'_append_eq_right]

/-- The fields of an entry rise to those of another one if what they differ in is zero wherever a
bit of the first is set. -/
theorem rises_iff (e e' : Entry) :
    e.Rises e' ↔ e.stored &&& (e.stored ^^^ e'.stored) = 0#(32 + 32 + 32 + 32) := by
  rw [← or_eq_right_iff, Entry.stored, Entry.stored, BitVec.or_append, BitVec.or_append,
    BitVec.or_append, append_inj, append_inj, append_inj]
  simp only [← UInt32.toBitVec_or, UInt32.toBitVec_inj]
  exact ⟨fun h => ⟨⟨⟨h.seq, h.state⟩, h.extCrc⟩, h.idfCrc⟩, fun h => ⟨h.1.1.1, h.1.1.2, h.1.2, h.2⟩⟩

/-- Where a change leads to. -/
theorem flipped_change (e : Entry) (q s : BitVec 32) :
    e.flipped (change q s) = ⟨e.seq ^^^ .ofBitVec q, e.state ^^^ .ofBitVec s⟩ := by
  have hseq : (change q s).extractLsb' 96 32 = q := by
    rw [change, BitVec.extractLsb'_append_eq_of_le (by decide),
      BitVec.extractLsb'_append_eq_of_le (by decide)]
    exact BitVec.extractLsb'_append_eq_left
  have hstate : (change q s).extractLsb' 64 32 = s := by
    rw [change, BitVec.extractLsb'_append_eq_of_le (by decide),
      BitVec.extractLsb'_append_eq_of_le (by decide)]
    exact BitVec.extractLsb'_append_eq_right
  rw [Entry.flipped, hseq, hstate]

/-- The entry it leads to differs by it. -/
theorem stored_flipped (e : Entry) (q s : BitVec 32) :
    e.stored ^^^ (e.flipped (change q s)).stored = change q s := by
  rw [flipped_change, stored_xor]
  simp only [UInt32.toBitVec_xor, xor_xor_cancel]

/-- What two entries differ in leads from one to the other. -/
theorem flipped_stored (e e' : Entry) : e.flipped (e.stored ^^^ e'.stored) = e' := by
  have hword : ∀ w w' : UInt32, w ^^^ .ofBitVec (w.toBitVec ^^^ w'.toBitVec) = w' := by
    intro w w'
    exact UInt32.toBitVec_inj.mp (xor_xor_cancel w.toBitVec w'.toBitVec)
  rw [stored_xor, flipped_change, hword, hword]

/-- Known states are below 8, and so is what rises to one. -/
theorem getLsbD_state {e e' : Entry} (h : e.Rises e') (hknown : Entry.Known e'.state) {i : ℕ}
    (hi : 3 ≤ i) : (e.state.toBitVec ^^^ e'.state.toBitVec).getLsbD i = false := by
  have hlt : e'.state.toNat < 2 ^ 3 := by
    rcases hknown with h | h | h | h | h <;> rw [h] <;> decide
  have hbit' : e'.state.toBitVec.getLsbD i = false :=
    Nat.testBit_lt_two_pow (hlt.trans_le (Nat.pow_le_pow_right (by decide) hi))
  have hraised : (e.state.toBitVec ||| e'.state.toBitVec).getLsbD i = e'.state.toBitVec.getLsbD i :=
    congrArg (fun w : UInt32 => w.toBitVec.getLsbD i) h.state
  rw [BitVec.getLsbD_or, hbit', Bool.or_false] at hraised
  rw [BitVec.getLsbD_xor, hraised, hbit']
  rfl

/-- **An entry is protected exactly if it does not rise** to another one. -/
theorem protected_iff (e : Entry) :
    e.Protected ↔ ∀ e' : Entry, e'.Admissible → e.Rises e' → e' = e := by
  constructor
  · intro h e' hadm hrises
    have hmem : e.stored ^^^ e'.stored ∈ sums (avoid e.stored flips) :=
      (mem_sums_avoid _ _).mpr ⟨mem_sums_flips.mpr ⟨_, _, fun i => getLsbD_state hrises hadm.known,
        (stored_xor e e').symm⟩, (rises_iff e e').mp hrises⟩
    have hzero := h _ hmem ((flipped_stored e e').symm ▸ hadm)
    have hself := flipped_stored e e
    rw [BitVec.xor_self, ← hzero, flipped_stored] at hself
    exact hself
  · intro h x hx hadm
    obtain ⟨hflips, hmask⟩ := (mem_sums_avoid _ _).mp hx
    obtain ⟨q, s, -, rfl⟩ := mem_sums_flips.mp hflips
    have hrises : e.Rises (e.flipped (change q s)) := by
      rw [rises_iff, stored_flipped]
      exact hmask
    have hdiff := stored_flipped e q s
    rw [h _ hadm hrises, BitVec.xor_self] at hdiff
    exact hdiff.symm

/-- **Which entries the checksums protect**: whatever cells are raised, the content reads as the
entry or as nothing, exactly when elimination leaves nothing that leads elsewhere. -/
theorem reads_same_iff (e : Entry) :
    (∀ r, Covers e.encode r → decode r = .blank ∨ decode r = .corrupt ∨ decode r = .ok e) ↔
      e.Protected := by
  rw [protected_iff]
  constructor
  · intro h e' he' hrises
    have hdec := h e'.encode ((covers_encode_iff e e').mpr hrises)
    rw [decode_encode he'] at hdec
    simpa using hdec
  · intro h r hr
    cases hd : decode r with
    | blank => exact .inl rfl
    | corrupt => exact .inr (.inl rfl)
    | ok e' =>
      obtain ⟨he', rfl⟩ := (decode_eq_ok_iff _ _).mp hd
      rw [h e' he' ((covers_encode_iff e e').mp hr)]
      exact .inr (.inr rfl)

/-- The fields of this unproven entry can be raised to those of the valid entry of
the same sequence. -/
theorem rises_new_valid : Entry.Rises ⟨500786, State.new⟩ ⟨500786, State.valid⟩ :=
  ⟨by decide, by decide, by decide +kernel, by decide⟩

/-- **Not every entry is protected**: one that is written as new, and of which only
bits are raised, can read as valid. -/
theorem new_reads_valid :
    ¬∀ e : Entry, e.Admissible → ∀ r, Covers e.encode r →
      decode r = .blank ∨ decode r = .corrupt ∨ decode r = .ok e := by
  intro h
  have hadm : Entry.Admissible ⟨500786, State.valid⟩ := by decide
  have hdec := h ⟨500786, State.new⟩ (by decide) _ ((covers_encode_iff _ _).mpr rises_new_valid)
  rw [decode_encode hadm] at hdec
  have hne : State.valid ≠ State.new := by decide
  simp [hne] at hdec

end AtomicOta.Otadata
