import AtomicOta.Otadata.Checksum
import AtomicOta.Otadata.Codec

/-!
# Local damage to a committed entry

A content that differs from the encoding of an entry in one place only is read as corrupt
(`AtomicOta.Otadata.decode_damaged`). The place may be as large as two adjacent fields, hence
any field, any bit, and any burst of at most 33 bits.

Nothing here is a matter of probability. Were the damaged content an entry after all, it
would be the encoding of another one, and two encodings are far apart:

* other sequences are other first words and, as checksums of four bytes, other last ones
  (`AtomicOta.Otadata.idfCrc_injective`);
* with the same sequence, other states are other words 6 and, as a checksum in which four
  bytes differ, other words 3 (`AtomicOta.Otadata.extCrc_ne_of_state`).

Neither pair is adjacent (`AtomicOta.Otadata.words_ne`), and neither are the magic and the
commit word, which keep the damaged content from being blank.
-/

namespace AtomicOta

namespace Otadata

/-! ### Two entries -/

/-- The checksum of the sequence tells the sequence. -/
theorem idfCrc_injective : Function.Injective idfCrc := by
  intro q q' h
  have hword := crc32Le_word_injective u32Max [] []
  simp only [List.nil_append, List.append_nil] at hword
  exact hword h

/-- With one sequence, the checksum of the entry tells the state. -/
theorem extCrc_ne_of_state {e e' : Entry} (hseq : e.seq = e'.seq) (hstate : e.state ≠ e'.state) :
    e.extCrc ≠ e'.extCrc := by
  intro h
  rw [Entry.extCrc, Entry.extCrc, hseq] at h
  have hword := crc32Le_word_injective u32Max (toLeBytes e'.seq) (magic ++ toLeBytes formatVersion)
  simp only [← List.append_assoc] at hword
  exact hstate (hword h)

/-- With one state, it tells the sequence. -/
theorem extCrc_ne_of_seq {e e' : Entry} (hseq : e.seq ≠ e'.seq) (hstate : e.state = e'.state) :
    e.extCrc ≠ e'.extCrc := by
  intro h
  rw [Entry.extCrc, Entry.extCrc, hstate] at h
  have hword := crc32Le_word_injective u32Max []
    (toLeBytes e'.state ++ magic ++ toLeBytes formatVersion)
  simp only [← List.append_assoc, List.nil_append] at hword
  exact hseq (hword h)

/-- **Two entries are far apart**: two of the words of their encodings differ that are not
adjacent. -/
theorem words_ne {e e' : Entry} (hne : e ≠ e') :
    ∃ i j : Fin 8, (i : ℕ) + 2 ≤ j ∧ e.words i ≠ e'.words i ∧ e.words j ≠ e'.words j := by
  by_cases hseq : e.seq = e'.seq
  · have hstate : e.state ≠ e'.state := fun h => hne (by cases e; cases e'; simp_all)
    exact ⟨3, 6, by decide, extCrc_ne_of_state hseq hstate, hstate⟩
  · exact ⟨0, 7, by decide, hseq, fun h => hseq (idfCrc_injective h)⟩

/-! ### Where two contents differ -/

/-- Two contents are the same but for the bytes from `lo` up to `hi`. -/
def Confined (r r' : Raw) (lo hi : ℕ) : Prop := ∀ i : Fin entrySize, ↑i < lo ∨ hi ≤ ↑i → r i = r' i

theorem Confined.mono {r r' : Raw} {lo hi lo' hi' : ℕ} (h : Confined r r' lo hi) (hlo : lo' ≤ lo)
    (hhi : hi ≤ hi') : Confined r r' lo' hi' := by
  intro i hi'
  exact h i (by omega)

/-- Outside of where two contents differ, they have the same words. -/
theorem Confined.word {r r' : Raw} {lo hi : ℕ} (h : Confined r r' lo hi) (k : Fin 8)
    (hk : 4 * (k : ℕ) + 4 ≤ lo ∨ hi ≤ 4 * k) : word r (4 * k) = word r' (4 * k) := by
  have hbyte : ∀ j, j < 4 → byteAt r (4 * k + j) = byteAt r' (4 * k + j) := by
    intro j hj
    have hlt : 4 * (k : ℕ) + j < 32 := by omega
    rw [byteAt_of_lt r hlt, byteAt_of_lt r' hlt]
    refine h ⟨_, hlt⟩ ?_
    dsimp only
    omega
  have h0 := hbyte 0 (by omega)
  rw [Nat.add_zero] at h0
  rw [Otadata.word, Otadata.word, h0, hbyte 1 (by omega), hbyte 2 (by omega), hbyte 3 (by omega)]

/-- Bits that stand close together lie in two adjacent words. -/
theorem confined_of_burst {r r' : Raw} (order : Fin 8 → Fin 8) (p : ℕ)
    (h : ∀ (i : Fin entrySize) (b : Fin 8),
      8 * (i : ℕ) + order b < p ∨ p + 33 ≤ 8 * (i : ℕ) + order b →
        (r i).toBitVec.getLsb b = (r' i).toBitVec.getLsb b) :
    ∃ k, Confined r r' (4 * k) (4 * k + 8) := by
  refine ⟨min (p / 32) 6, fun i hi => ?_⟩
  have hlt : (i : ℕ) < 32 := i.isLt
  apply UInt8.toBitVec_inj.mp
  apply BitVec.eq_of_getLsbD_eq
  intro b hb
  have hbit := (order ⟨b, hb⟩).isLt
  exact h i ⟨b, hb⟩ (by omega)

/-! ### Damage -/

/-- **Two adjacent words are too few** to turn an entry into anything that is not corrupt. -/
theorem decode_confined {e : Entry} {r : Raw} (hne : r ≠ e.encode) {k : ℕ}
    (h : Confined r e.encode (4 * k) (4 * k + 8)) : decode r = .corrupt := by
  have hword : ∀ j : Fin 8, (j : ℕ) < k ∨ k + 2 ≤ j → word r (4 * j) = e.words j := by
    intro j hj
    rw [h.word j (by omega), word_encode]
  cases hd : decode r with
  | corrupt => rfl
  | blank =>
    -- neither the magic nor the commit word is erased, and they are not adjacent
    exfalso
    cases (decode_eq_blank_iff r).mp hd
    rcases Nat.lt_or_ge k 4 with hk | hk
    · have h5 := (word_blank 5).symm.trans (hword 5 (.inr (by dsimp; omega)))
      exact absurd h5 (show u32Max ≠ commit by decide)
    · have h1 := (word_blank 1).symm.trans (hword 1 (.inl (by dsimp; omega)))
      exact absurd h1 (show u32Max ≠ magicWord by decide)
  | ok e' =>
    exfalso
    obtain ⟨-, rfl⟩ := (decode_eq_ok_iff r e').mp hd
    obtain ⟨i, j, hij, hi, hj⟩ := words_ne fun heq : e' = e => hne (congrArg Entry.encode heq)
    by_cases hout : (i : ℕ) < k
    · exact hi ((word_encode e' i).symm.trans (hword i (.inl hout)))
    · exact hj ((word_encode e' j).symm.trans (hword j (.inr (by omega))))

/-- **Local damage is detected.** A content that is not the encoding of the entry `e`, but
differs from it only within two adjacent words – or only within one, or in one bit, or in a
burst of at most 33 consecutive bits, in whichever order the bits of a byte are counted – is
corrupt. And what makes it so: other sequences are other first and last words, other states
are other words for the state, and if only one of the two differs, so does the checksum of
both. None of this needs the entries to be admissible. -/
theorem decode_damaged (e : Entry) :
    (∀ r, r ≠ e.encode →
      (∀ k, k ≤ 6 → Confined r e.encode (4 * k) (4 * k + 8) → decode r = .corrupt) ∧
      (∀ k, k ≤ 7 → Confined r e.encode (4 * k) (4 * k + 4) → decode r = .corrupt) ∧
      (∀ (i : Fin entrySize) (b : Fin 8),
        (∀ i' b', (i', b') ≠ (i, b) →
          (r i').toBitVec.getLsb b' = (e.encode i').toBitVec.getLsb b') → decode r = .corrupt) ∧
      ∀ (order : Equiv.Perm (Fin 8)) (p : ℕ),
        (∀ (i : Fin entrySize) (b : Fin 8),
          8 * (i : ℕ) + order b < p ∨ p + 33 ≤ 8 * (i : ℕ) + order b →
            (r i).toBitVec.getLsb b = (e.encode i).toBitVec.getLsb b) → decode r = .corrupt) ∧
    ∀ e' : Entry,
      (e.seq ≠ e'.seq → word e.encode offSeq ≠ word e'.encode offSeq ∧
        word e.encode offIdfCrc ≠ word e'.encode offIdfCrc) ∧
      (e.state ≠ e'.state → word e.encode offState ≠ word e'.encode offState) ∧
      ((e.seq ≠ e'.seq ∧ e.state = e'.state ∨ e.seq = e'.seq ∧ e.state ≠ e'.state) →
        word e.encode offExtCrc ≠ word e'.encode offExtCrc) := by
  have hburst : ∀ r, r ≠ e.encode → ∀ (order : Fin 8 → Fin 8) (p : ℕ),
      (∀ (i : Fin entrySize) (b : Fin 8),
        8 * (i : ℕ) + order b < p ∨ p + 33 ≤ 8 * (i : ℕ) + order b →
          (r i).toBitVec.getLsb b = (e.encode i).toBitVec.getLsb b) → decode r = .corrupt := by
    intro r hne order p h
    obtain ⟨k, hk⟩ := confined_of_burst order p h
    exact decode_confined hne hk
  refine ⟨fun r hne => ⟨fun k _ h => decode_confined hne h, fun k _ h => ?_, fun i b h => ?_,
    fun order => hburst r hne order⟩, fun e' => ⟨?_, ?_, ?_⟩⟩
  · exact decode_confined hne (h.mono le_rfl (by omega))
  · refine hburst r hne id (8 * i + b) fun i' b' hout => h i' b' fun heq => ?_
    obtain ⟨rfl, rfl⟩ := Prod.mk.inj heq
    simp only [id_eq] at hout
    omega
  · intro hseq
    rw [show offSeq = 4 * (0 : Fin 8) from rfl, show offIdfCrc = 4 * (7 : Fin 8) from rfl]
    rw [word_encode, word_encode, word_encode, word_encode]
    exact ⟨hseq, fun h => hseq (idfCrc_injective h)⟩
  · intro hstate
    rw [show offState = 4 * (6 : Fin 8) from rfl, word_encode, word_encode]
    exact hstate
  · rw [show offExtCrc = 4 * (3 : Fin 8) from rfl, word_encode, word_encode]
    rintro (⟨hseq, hstate⟩ | ⟨hseq, hstate⟩)
    · exact extCrc_ne_of_seq hseq hstate
    · exact extCrc_ne_of_state hseq hstate

end Otadata

end AtomicOta
