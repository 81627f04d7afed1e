import AtomicOta.Otadata.Codec
import AtomicOta.Crash.Device
import Mathlib.Logic.Function.Basic

/-!
# The flash under the entries

The two `otadata` sectors as a device of `AtomicOta.Crash.Device`. An entry update
(`AtomicOta.Otadata.Write`) is three commands – erase, program the body, program the
commit word – and any of them may be cut:

* a cut program leaves any subset of the bits it clears cleared, in no order;
* a cut erase leaves each of the eight aligned words of the entry old or erased.

## What a cut history can leave

Tears accumulate: the next attempt at an update starts with another erase, which
may be cut in its turn. The contents that can arise are described by
`AtomicOta.Otadata.Residue`: the commit word is not the commit mark, or the content is
a committed entry some of whose words are erased. The point of that description
is `AtomicOta.Otadata.Residue.accepted_eraseExcept`: whatever words a further cut
erases, a residue reads as what it read before or as nothing – it never *becomes*
an entry. A content that is not a residue can: take a committed entry and break
the reserved word, which an erase repairs.
-/

namespace AtomicOta.Otadata

/-- The two sectors of `otadata`. -/
abbrev Flash : Type := Sector → Raw

/-- One entry update. -/
structure Write where
  sector : Sector
  entry : Entry
  deriving DecidableEq, Repr

/-- A single flash command of a write. -/
inductive Op where
  | erase (sector : Sector)
  /-- Program `data[..len]` at `offset` within the sector's entry. -/
  | program (sector : Sector) (offset len : ℕ) (data : Raw)

/-- The sector a command addresses. -/
def Op.sector : Op → Sector
  | .erase s => s
  | .program s _ _ _ => s

/-- What the second program command of a write puts in the commit word. -/
def commitData : Raw := splice (fun _ => 0) 0 (toLeBytes commit)

/-- The commands of a write, in order. -/
def Write.ops (w : Write) : List Op :=
  [.erase w.sector,
    .program w.sector 0 entrySize w.entry.body,
    .program w.sector offCommit 4 commitData]

/-! ### Commands, complete and cut -/

/-- Programming a content: it only clears bits. -/
def programRaw (offset len : ℕ) (data raw : Raw) : Raw := fun i =>
  if offset ≤ (i : ℕ) ∧ (i : ℕ) < offset + len then raw i &&& byteAt data ((i : ℕ) - offset)
  else raw i

/-- An erase that reached only some of the words. -/
def eraseExcept (old : Fin 8 → Bool) (raw : Raw) : Raw := fun i =>
  if old ⟨(i : ℕ) / 4, Nat.div_lt_of_lt_mul i.isLt⟩ then raw i else 0xFF

/-- The complete effect of a command. -/
def applyOp : Op → Flash → Flash
  | .erase s, f => Function.update f s blank
  | .program s offset len data, f => Function.update f s (programRaw offset len data (f s))

/-- What a command that is cut may leave. -/
inductive TornOp : Op → Flash → Flash → Prop
  /-- Each aligned word is old or erased. -/
  | erase (s : Sector) (f : Flash) (old : Fin 8 → Bool) :
    TornOp (.erase s) f (Function.update f s (eraseExcept old (f s)))
  /-- Any subset of the bits to clear is cleared: `late` are the bits not reached. -/
  | program (s : Sector) (offset len : ℕ) (data : Raw) (f : Flash) (late : Raw) :
    TornOp (.program s offset len data) f
      (Function.update f s (programRaw offset len (fun i => data i ||| late i) (f s)))

/-- A command that is cut leaves the other sectors alone. -/
theorem TornOp.frame {op : Op} {f f' : Flash} (h : TornOp op f f') {t : Sector}
    (ht : t ≠ op.sector) : f' t = f t := by
  cases h with
  | erase _ _ old => exact Function.update_of_ne ht ..
  | program _ _ _ _ _ late => exact Function.update_of_ne ht ..

/-- The flash as a device. -/
def flashDevice : Crash.Device Flash Op where
  apply := applyOp
  Torn := TornOp

@[simp] theorem flashDevice_apply (op : Op) (f : Flash) :
    flashDevice.apply op f = applyOp op f := rfl

/-- What a list of writes leaves when all their commands complete. -/
def execWrites (f : Flash) (writes : List Write) : Flash :=
  flashDevice.run (writes.flatMap Write.ops) f

/-! ### The words a command leaves -/

theorem word_eraseExcept (old : Fin 8 → Bool) (raw : Raw) (k : Fin 8) :
    word (eraseExcept old raw) (4 * k) = if old k then word raw (4 * k) else u32Max := by
  have hb : ∀ j, j < 4 → byteAt (eraseExcept old raw) (4 * k + j) =
      if old k then byteAt raw (4 * k + j) else 0xFF := by
    intro j hj
    have hlt : 4 * (k : ℕ) + j < entrySize := show 4 * (k : ℕ) + j < 32 by omega
    have hk : (⟨(4 * k + j) / 4, by omega⟩ : Fin 8) = k :=
      Fin.ext (show (4 * k + j) / 4 = _ by omega)
    rw [byteAt_of_lt _ hlt, byteAt_of_lt _ hlt, eraseExcept]
    simp only [hk]
  have h0 := hb 0 (by omega)
  rw [Nat.add_zero] at h0
  rw [word, h0, hb 1 (by omega), hb 2 (by omega), hb 3 (by omega)]
  split_ifs
  · rfl
  · decide

theorem byteAt_programRaw (offset len : ℕ) (data raw : Raw) {i : ℕ} (h : i < entrySize) :
    byteAt (programRaw offset len data raw) i =
      if offset ≤ i ∧ i < offset + len then byteAt raw i &&& byteAt data (i - offset)
      else byteAt raw i := by
  rw [byteAt_of_lt _ h, byteAt_of_lt _ h, programRaw]

theorem and_allOnes_left (b : UInt8) : (0xFF : UInt8) &&& b = b := by
  rw [← UInt8.toBitVec_inj, UInt8.toBitVec_and]
  exact BitVec.allOnes_and

/-- A program on an erased content leaves the data. -/
theorem programRaw_blank (data : Raw) : programRaw 0 entrySize data blank = data := by
  funext i
  have hi : (0 : ℕ) ≤ (i : ℕ) ∧ (i : ℕ) < 0 + entrySize :=
    ⟨Nat.zero_le _, by rw [Nat.zero_add]; exact i.isLt⟩
  rw [programRaw, if_pos hi, blank, and_allOnes_left, Nat.sub_zero, byteAt_of_lt _ i.isLt]

/-- The commit command touches the commit word alone. -/
theorem word_program_commit (data raw : Raw) {k : Fin 8} (h : k ≠ 5) :
    word (programRaw offCommit 4 data raw) (4 * k) = word raw (4 * k) := by
  have hk : (k : ℕ) ≠ 5 := fun h5 => h (Fin.ext h5)
  have hb : ∀ j, j < 4 →
      byteAt (programRaw offCommit 4 data raw) (4 * k + j) = byteAt raw (4 * k + j) := by
    intro j hj
    rw [byteAt_programRaw _ _ _ _ (show 4 * (k : ℕ) + j < 32 by omega), if_neg]
    show ¬(20 ≤ 4 * (k : ℕ) + j ∧ 4 * (k : ℕ) + j < 20 + 4)
    omega
  have h0 := hb 0 (by omega)
  rw [Nat.add_zero] at h0
  rw [word, h0, hb 1 (by omega), hb 2 (by omega), hb 3 (by omega), word]

/-- On an erased commit word, the commit command leaves what it programs. -/
theorem word_program_commit_self (data raw : Raw) (h : word raw offCommit = u32Max) :
    word (programRaw offCommit 4 data raw) offCommit = word data 0 := by
  have hff : u32Max = fromLeBytes 0xFF 0xFF 0xFF 0xFF := by decide
  obtain ⟨h0, h1, h2, h3⟩ := fromLeBytes_inj (h.trans hff)
  rw [word, word, byteAt_programRaw _ _ _ _ (by decide), byteAt_programRaw _ _ _ _ (by decide),
    byteAt_programRaw _ _ _ _ (by decide), byteAt_programRaw _ _ _ _ (by decide),
    h0, h1, h2, h3]
  simp only [and_allOnes_left]
  rfl

/-- **A commit over a complete body is all or nothing**: if the commit word
reads complete, the content is the committed entry. -/
theorem programRaw_body_of_word {e : Entry} {data : Raw}
    (h : word (programRaw offCommit 4 data e.body) offCommit = commit) :
    programRaw offCommit 4 data e.body = e.encode := by
  refine raw_ext fun k => ?_
  rcases eq_or_ne k 5 with rfl | hne
  · have h5 : word e.encode offCommit = commit := word_encode e 5
    exact h.trans h5.symm
  · rw [word_program_commit _ _ hne, word_body, word_encode, Entry.bodyWords_of_ne hne]

theorem word_commitData : word commitData 0 = commit := by decide

/-- The commit command, completed over a complete body. -/
theorem programRaw_body (e : Entry) : programRaw offCommit 4 commitData e.body = e.encode :=
  programRaw_body_of_word
    ((word_program_commit_self _ _ (word_body e 5)).trans word_commitData)

/-- **An update whose three commands complete leaves exactly the encoded entry**,
whatever the sector held. -/
theorem run_ops (w : Write) (f : Flash) :
    flashDevice.run w.ops f = Function.update f w.sector w.entry.encode := by
  simp only [Write.ops, Crash.Device.run_cons, Crash.Device.run_nil, flashDevice_apply, applyOp,
    Function.update_self, Function.update_idem, programRaw_blank, programRaw_body]

@[simp] theorem execWrites_nil (f : Flash) : execWrites f [] = f := rfl

@[simp] theorem execWrites_cons (f : Flash) (w : Write) (ws : List Write) :
    execWrites f (w :: ws) = execWrites (Function.update f w.sector w.entry.encode) ws := by
  rw [execWrites, List.flatMap_cons, Crash.Device.run_append, run_ops, execWrites]

/-! ### Residues -/

/-- **What a history of interrupted updates may leave in a sector**: a content
without the commit mark, or a committed entry some of whose words are erased. -/
def Residue (raw : Raw) : Prop :=
  word raw offCommit ≠ commit ∨ ∃ (e : Entry) (old : Fin 8 → Bool), raw = eraseExcept old e.encode

theorem residue_of_word {raw : Raw} (h : word raw offCommit = u32Max) : Residue raw :=
  Or.inl (h ▸ by decide)

theorem residue_blank : Residue blank := residue_of_word (word_blank 5)

theorem residue_body (e : Entry) : Residue e.body := residue_of_word (word_body e 5)

theorem eraseExcept_all (raw : Raw) : eraseExcept (fun _ => true) raw = raw := by
  funext i
  rw [eraseExcept, if_pos rfl]

theorem residue_encode (e : Entry) : Residue e.encode :=
  Or.inr ⟨e, _, (eraseExcept_all _).symm⟩

theorem eraseExcept_eraseExcept (old old' : Fin 8 → Bool) (raw : Raw) :
    eraseExcept old (eraseExcept old' raw) = eraseExcept (fun k => old k && old' k) raw := by
  refine raw_ext fun k => ?_
  simp only [word_eraseExcept, Bool.and_eq_true]
  split_ifs <;> simp_all

/-- Residues are closed under interrupted erases: tears accumulate. -/
theorem Residue.eraseExcept {raw : Raw} (h : Residue raw) (old : Fin 8 → Bool) :
    Residue (eraseExcept old raw) := by
  rcases h with h | ⟨e, old', rfl⟩
  · refine Or.inl ?_
    rw [show offCommit = 4 * ((5 : Fin 8) : ℕ) from rfl, word_eraseExcept]
    split_ifs
    · exact h
    · decide
  · exact Or.inr ⟨e, _, eraseExcept_eraseExcept old old' _⟩

/-- A committed entry of which words were erased is accepted only if none that
matters was: then it is the committed entry itself. -/
theorem eraseExcept_encode_eq {e e' : Entry} {old : Fin 8 → Bool} (he' : e'.Admissible)
    (h : Otadata.eraseExcept old e.encode = e'.encode) : e = e' := by
  have hw : ∀ k, (if old k then e.words k else u32Max) = e'.words k := by
    intro k
    rw [← word_encode, ← word_encode, ← h, word_eraseExcept]
  have hseq := hw 0
  have hstate := hw 6
  split_ifs at hseq with h0
  · split_ifs at hstate with h6
    · cases e
      cases e'
      exact Entry.mk.injEq .. ▸ ⟨hseq, hstate⟩
    · have hknown := he'.known
      rw [show e'.state = u32Max from hstate.symm] at hknown
      exact absurd hknown (by decide)
  · exact absurd hseq.symm he'.seq_ne_max

/-- **A further cut never makes an entry of a residue**: whatever words an
interrupted erase reaches, the content is accepted only as the entry it was
accepted as before. -/
theorem Residue.accepted_eraseExcept {raw : Raw} (h : Residue raw) (old : Fin 8 → Bool) :
    accepted (Otadata.eraseExcept old raw) = accepted raw ∨
      accepted (Otadata.eraseExcept old raw) = none := by
  rcases hacc : accepted (Otadata.eraseExcept old raw) with _ | e
  · exact Or.inr rfl
  refine Or.inl ?_
  obtain ⟨hadm, henc⟩ := (decode_eq_ok_iff _ _).mp (accepted_eq_some.mp hacc)
  have hw : ∀ k, (if old k then word raw (4 * k) else u32Max) = e.words k := by
    intro k
    rw [← word_encode, ← henc, word_eraseExcept]
  rcases h with h | ⟨e', old', rfl⟩
  · -- the commit mark is not there, and no erase puts it there
    have h5 := hw 5
    split_ifs at h5
    · exact absurd h5 h
    · exact absurd h5 (show u32Max ≠ commit by decide)
  · -- the entry is the one that was committed; a word erased earlier is one it has all ones in
    obtain rfl : e' = e := by
      rw [eraseExcept_eraseExcept] at henc
      exact eraseExcept_encode_eq hadm henc
    have hraw : Otadata.eraseExcept old' e'.encode = e'.encode := by
      refine raw_ext fun k => ?_
      have hk := hw k
      simp only [word_eraseExcept, word_encode] at hk ⊢
      split_ifs at hk ⊢ <;> simp_all
    rw [hraw]
    exact (accepted_eq_some.mpr (decode_encode hadm)).symm

end AtomicOta.Otadata
