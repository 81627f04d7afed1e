import AtomicOta.Otadata.Entry
import Mathlib.Data.Fin.VecNotation
import Mathlib.Tactic.FinCases

/-!
# The codec

What `AtomicOta.Otadata.decode` accepts: exactly the encodings of the admissible
entries (`AtomicOta.Otadata.decode_eq_ok_iff`).

The argument is made on the eight aligned words of an entry rather than on its
bytes. Two contents with the same words are the same content
(`AtomicOta.Otadata.raw_ext`), every field of the layout is one word, and the words of
an encoding are a table, `AtomicOta.Otadata.Entry.words`, which the writer fills and
the reader checks one entry at a time.
-/

namespace AtomicOta

namespace Otadata

/-! ### The words of a stored entry -/

theorem byteAt_of_lt (raw : Raw) {i : ℕ} (h : i < entrySize) : byteAt raw i = raw ⟨i, h⟩ :=
  congrArg raw (Fin.ext (Nat.mod_eq_of_lt h))

/-- **A content is its eight words.** -/
theorem raw_ext {r r' : Raw} (h : ∀ k : Fin 8, word r (4 * k) = word r' (4 * k)) : r = r' := by
  funext i
  have hlt : (i : ℕ) < 32 := i.isLt
  have hk := fromLeBytes_inj (h ⟨i / 4, by omega⟩)
  have hbyte : ∀ j : Fin 4, byteAt r (4 * (i / 4) + j) = byteAt r' (4 * (i / 4) + j) := by
    intro j
    fin_cases j
    exacts [hk.1, hk.2.1, hk.2.2.1, hk.2.2.2]
  have hi := hbyte ⟨i % 4, Nat.mod_lt _ (by omega)⟩
  rwa [Nat.div_add_mod, byteAt_of_lt r i.isLt, byteAt_of_lt r' i.isLt] at hi

theorem word_or (raw late : Raw) (off : ℕ) :
    word (fun i => raw i ||| late i) off = word raw off ||| word late off :=
  fromLeBytes_or ..

theorem byteAt_splice (raw : Raw) (off : ℕ) (bytes : List UInt8) {i : ℕ} (h : i < entrySize) :
    byteAt (splice raw off bytes) i =
      if off ≤ i ∧ i < off + bytes.length then bytes.getD (i - off) 0 else byteAt raw i := by
  rw [byteAt_of_lt _ h, byteAt_of_lt _ h, splice]

/-- **A word copied into a content** reads back, and leaves the other words
alone. -/
theorem word_splice (raw : Raw) (k k' : Fin 8) (w : UInt32) :
    word (splice raw (4 * k) (toLeBytes w)) (4 * k') = if k' = k then w else word raw (4 * k') := by
  have hb : ∀ j, j < 4 → byteAt (splice raw (4 * k) (toLeBytes w)) (4 * k' + j) =
      if k' = k then (toLeBytes w).getD j 0 else byteAt raw (4 * k' + j) := by
    intro j hj
    rw [byteAt_splice _ _ _ (show 4 * (k' : ℕ) + j < 32 by omega), length_toLeBytes]
    rcases eq_or_ne k' k with rfl | hne
    · rw [if_pos (by omega), if_pos rfl, Nat.add_sub_cancel_left]
    · have hval : (k' : ℕ) ≠ k := fun h => hne (Fin.ext h)
      rw [if_neg (by omega), if_neg hne]
  have h0 := hb 0 (by omega)
  rw [Nat.add_zero] at h0
  rw [word, h0, hb 1 (by omega), hb 2 (by omega), hb 3 (by omega)]
  split_ifs
  · exact fromLeBytes_toUInt8 w
  · rfl

/-- The magic as a word. -/
def magicWord : UInt32 := 0x54425745

theorem toLeBytes_magicWord : toLeBytes magicWord = magic := by decide

/-- The magic is checked as four bytes; it is one word of the entry all the
same. -/
theorem slice_magic_iff (raw : Raw) :
    slice raw offMagic 4 = magic ↔ word raw offMagic = magicWord := by
  have hslice : slice raw offMagic 4 = toLeBytes (word raw offMagic) := by
    rw [word, toLeBytes_fromLeBytes]
    rfl
  rw [hslice, ← toLeBytes_magicWord]
  constructor
  · intro h
    have hw : ∀ w : UInt32, w = fromLeBytes ((toLeBytes w).getD 0 0) ((toLeBytes w).getD 1 0)
        ((toLeBytes w).getD 2 0) ((toLeBytes w).getD 3 0) := fun w => (fromLeBytes_toUInt8 w).symm
    rw [hw (word raw offMagic), hw magicWord, h]
  · exact congrArg toLeBytes

namespace Entry

/-- **The layout of a committed entry**, word by word. -/
def words (e : Entry) : Fin 8 → UInt32
  | 0 => e.seq
  | 1 => magicWord
  | 2 => formatVersion
  | 3 => e.extCrc
  | 4 => u32Max
  | 5 => commit
  | 6 => e.state
  | 7 => idfCrc e.seq

/-- The layout of a body: the commit word is still erased. -/
def bodyWords (e : Entry) (k : Fin 8) : UInt32 := if k = 5 then u32Max else e.words k

/-- A body lacks only the commit word. -/
theorem bodyWords_of_ne {e : Entry} {k : Fin 8} (h : k ≠ 5) : e.bodyWords k = e.words k :=
  if_neg h

end Entry

theorem word_blank (k : Fin 8) : word blank (4 * k) = u32Max := by
  fin_cases k <;> decide

/-- The writer, with its offsets as word indices. -/
theorem body_eq (e : Entry) :
    e.body = splice (splice (splice (splice (splice (splice blank
      (4 * (0 : Fin 8)) (toLeBytes e.seq)) (4 * (1 : Fin 8)) (toLeBytes magicWord))
      (4 * (2 : Fin 8)) (toLeBytes formatVersion)) (4 * (3 : Fin 8)) (toLeBytes e.extCrc))
      (4 * (6 : Fin 8)) (toLeBytes e.state)) (4 * (7 : Fin 8)) (toLeBytes (idfCrc e.seq)) :=
  rfl

theorem word_body (e : Entry) (k : Fin 8) : word e.body (4 * k) = e.bodyWords k := by
  rw [body_eq]
  simp only [word_splice, word_blank]
  fin_cases k <;> rfl

theorem word_encode (e : Entry) (k : Fin 8) : word e.encode (4 * k) = e.words k := by
  have henc : e.encode = splice e.body (4 * (5 : Fin 8)) (toLeBytes commit) := rfl
  rw [henc, word_splice, word_body]
  fin_cases k <;> rfl

/-- No encoding is blank: its commit word is programmed. -/
theorem encode_ne_blank (e : Entry) : e.encode ≠ blank := by
  intro h
  have hw := word_encode e 5
  rw [h, word_blank] at hw
  exact absurd hw (show u32Max ≠ commit by decide)

/-- An acceptable content is one whose words are those of the entry it reads
as. -/
theorem decode_eq_ok_iff_words (raw : Raw) (e : Entry) :
    decode raw = .ok e ↔ e.Admissible ∧ ∀ k : Fin 8, word raw (4 * k) = e.words k := by
  unfold decode
  constructor
  · intro h
    dsimp only at h
    split_ifs at h with hb hexact
    obtain ⟨h0, hmax, hknown, hmagic, hversion, hext, hreserved, hcommit, hidf⟩ := hexact
    cases h
    refine ⟨⟨h0, hmax, hknown⟩, fun k => ?_⟩
    fin_cases k
    exacts [rfl, (slice_magic_iff raw).mp hmagic, hversion, hext, hreserved, hcommit, rfl, hidf]
  · rintro ⟨hadm, hw⟩
    have hraw : raw = e.encode := raw_ext fun k => (hw k).trans (word_encode e k).symm
    rw [if_neg (hraw ▸ encode_ne_blank e)]
    have hseq : word raw offSeq = e.seq := hw 0
    have hstate : word raw offState = e.state := hw 6
    simp only [hseq, hstate]
    exact if_pos ⟨hadm.seq_ne_zero, hadm.seq_ne_max, hadm.known, (slice_magic_iff raw).mpr (hw 1),
      hw 2, hw 3, hw 4, hw 5, hw 7⟩

/-- **The reader accepts exactly what the writer writes**: the encodings of the
admissible entries. -/
theorem decode_eq_ok_iff (raw : Raw) (e : Entry) :
    decode raw = .ok e ↔ e.Admissible ∧ raw = e.encode := by
  rw [decode_eq_ok_iff_words]
  refine and_congr_right fun _ => ⟨fun h => ?_, fun h k => h ▸ word_encode e k⟩
  exact raw_ext fun k => (h k).trans (word_encode e k).symm

theorem decode_encode {e : Entry} (h : e.Admissible) : decode e.encode = .ok e :=
  (decode_eq_ok_iff _ e).mpr ⟨h, rfl⟩

/-- Only an erased content reads as blank. -/
theorem decode_eq_blank_iff (raw : Raw) : decode raw = .blank ↔ raw = blank := by
  unfold decode
  dsimp only
  split_ifs with hb <;> simp [hb]

@[simp] theorem decode_blank : decode blank = .blank := (decode_eq_blank_iff blank).mpr rfl

/-- Two entries with the same encoding are the same entry. -/
theorem encode_injective : Function.Injective Entry.encode := by
  intro e e' h
  have hseq := (word_encode e 0).symm.trans ((congrArg (word · _) h).trans (word_encode e' 0))
  have hstate := (word_encode e 6).symm.trans ((congrArg (word · _) h).trans (word_encode e' 6))
  cases e
  cases e'
  exact Entry.mk.injEq .. ▸ ⟨hseq, hstate⟩

/-! ### What a sector has to say -/

/-- The entry a content is accepted as, if it is accepted at all: to every
decision of this development, a blank content and a corrupt one say the same,
namely nothing. -/
def accepted (raw : Raw) : Option Entry :=
  match decode raw with
  | .ok e => some e
  | _ => none

theorem accepted_eq_some {raw : Raw} {e : Entry} : accepted raw = some e ↔ decode raw = .ok e := by
  unfold accepted
  split <;> simp_all

@[simp] theorem accepted_blank : accepted blank = none := by
  rw [accepted, decode_blank]

/-- What an entry reads back as once it is committed: itself, if the reader
admits it. -/
def admitted (e : Entry) : Option Entry := if e.Admissible then some e else none

theorem accepted_encode (e : Entry) : accepted e.encode = admitted e := by
  unfold admitted
  split_ifs with h
  · exact accepted_eq_some.mpr (decode_encode h)
  · refine Option.eq_none_iff_forall_ne_some.mpr fun e' he' => h ?_
    obtain ⟨hadm, henc⟩ := (decode_eq_ok_iff _ _).mp (accepted_eq_some.mp he')
    rwa [encode_injective henc]

theorem admitted_eq_some {e e' : Entry} : admitted e = some e' ↔ e.Admissible ∧ e' = e := by
  unfold admitted
  split_ifs with h <;> simp [h, eq_comm]

theorem admissible_of_accepted {raw : Raw} {e : Entry} (h : accepted raw = some e) :
    e.Admissible :=
  ((decode_eq_ok_iff _ _).mp (accepted_eq_some.mp h)).1

/-! ### The format -/

/-- A body is not an entry: its commit word is still erased. -/
theorem decode_body_ne (e e' : Entry) : decode e.body ≠ .ok e' := by
  intro h
  have h5 := ((decode_eq_ok_iff_words _ _).mp h).2 5
  rw [word_body] at h5
  exact absurd h5 (show u32Max ≠ commit by decide)

/-- **The reader and the writer agree on the format, content by content**: what is
accepted is the encoding of an admissible entry, what is blank is erased, and
neither loses anything of the other. -/
theorem decode_exact :
    (∀ (raw : Raw) (e : Entry), decode raw = .ok e ↔
      raw = e.encode ∧ e.seq ≠ 0 ∧ e.seq ≠ u32Max ∧
        (e.state = State.new ∨ e.state = State.pendingVerify ∨ e.state = State.valid ∨
          e.state = State.invalid ∨ e.state = State.aborted)) ∧
      (∀ raw : Raw, decode raw = .blank ↔ ∀ i, raw i = 0xFF) ∧
      (∀ e : Entry, e.Admissible → decode e.encode = .ok e) ∧
      (∀ (raw : Raw) (e : Entry), decode raw = .ok e → e.encode = raw) ∧
      ∀ e e' : Entry, decode e.body ≠ .ok e' := by
  refine ⟨fun raw e => ?_, fun raw => ?_, fun e he => decode_encode he, fun raw e h => ?_,
    decode_body_ne⟩
  · rw [decode_eq_ok_iff, Entry.admissible_iff, and_comm]
    rfl
  · rw [decode_eq_blank_iff]
    constructor
    · rintro rfl i
      rfl
    · intro h
      funext i
      exact h i
  · exact ((decode_eq_ok_iff raw e).mp h).2.symm

end Otadata

end AtomicOta
