import AtomicOta.Otadata.Damage
import AtomicOta.Otadata.LastValid
import AtomicOta.Otadata.Medium

/-!
# Erases that leave garbage

A medium that is rougher than the one that erases word by word (`AtomicOta.Otadata.rough`). On it a
cut erase may leave

| content | as after an erase that |
|---|---|
| anything without the commit mark | leaves garbage |
| anything without a sequence number | went through the entry in order |
| an entry with any bits of its sequence number raised | was cut in its first bytes |

and of an entry any words erased. These are all the contents that the simulation of the source
tries (`AtomicOta.Otadata.garbled_of_variant`). The last row is the one with an argument to it: a
raised sequence number would need its own checksum, and the only number whose checksum is all ones
is 0, which no entry has.

So what is true of the chain on every medium is true of it here. The last validated image
(`AtomicOta.Otadata.outlives_garbage`) is one example.
-/

namespace AtomicOta.Otadata

/-! ### A rough medium -/

/-- What is not accepted, and will not be whatever an erase does to it: the commit mark is gone, or
the sequence number is. -/
def Spoiled (raw : Raw) : Prop := word raw offCommit ≠ commit ∨ word raw offSeq = u32Max

/-- **Wear**: any bits of the sequence number are raised, and each other word is old or erased. -/
structure Worn (raw raw' : Raw) : Prop where
  raised : word raw offSeq ||| word raw' offSeq = word raw' offSeq
  kept : ∀ k : Fin 8, k ≠ 0 → word raw' (4 * k) = word raw (4 * k) ∨ word raw' (4 * k) = u32Max

/-- What a cut erase may leave of a content: garbage, or wear. -/
def Garbled (raw raw' : Raw) : Prop := Spoiled raw' ∨ Worn raw raw'

/-- What arises from cut erases. -/
def Scarred (raw : Raw) : Prop := Spoiled raw ∨ ∃ e : Entry, Worn e.encode raw

section Wear

variable {raw raw' raw'' : Raw} {e e' : Entry}

theorem Worn.trans (h : Worn raw raw') (h' : Worn raw' raw'') : Worn raw raw'' := by
  refine ⟨?_, fun k hk => ?_⟩
  · rw [← h'.raised, ← UInt32.or_assoc, h.raised]
  · rcases h'.kept k hk with hk' | hk'
    · rw [hk']
      exact h.kept k hk
    · exact .inr hk'

/-- Wear only goes one way. -/
theorem Worn.antisymm (h : Worn raw raw') (h' : Worn raw' raw) : raw = raw' := by
  refine raw_ext fun k => ?_
  rcases eq_or_ne k 0 with rfl | hk
  · have hback := h'.raised
    rw [UInt32.or_comm] at hback
    exact hback.symm.trans h.raised
  · rcases h.kept k hk with hsame | hmax
    · exact hsame.symm
    · rcases h'.kept k hk with hsame | hmax'
      exacts [hsame, hmax'.trans hmax.symm]

/-- Erasing word by word is wear. -/
theorem worn_eraseExcept (old : Fin 8 → Bool) (raw : Raw) : Worn raw (eraseExcept old raw) := by
  have hword := word_eraseExcept old raw
  refine ⟨?_, fun k _ => ?_⟩
  · have h0 : word (eraseExcept old raw) offSeq = if old 0 then word raw offSeq else u32Max :=
      hword 0
    rw [h0]
    split_ifs
    · exact UInt32.or_self
    · rw [UInt32.or_comm, allOnes_or_left]
  · rw [hword]
    split_ifs
    exacts [.inl rfl, .inr rfl]

theorem Spoiled.accepted (h : Spoiled raw) : accepted raw = none := by
  rcases h with hmark | hseq
  · exact accepted_of_word hmark
  · refine Option.eq_none_iff_forall_ne_some.mpr fun e he => ?_
    obtain ⟨hadm, hwords⟩ := (decode_eq_ok_iff_words _ _).mp (accepted_eq_some.mp he)
    exact hadm.seq_ne_max ((hwords 0).symm.trans hseq)

/-- What is spoiled stays spoiled. -/
theorem Spoiled.worn (h : Spoiled raw) (hw : Worn raw raw') : Spoiled raw' := by
  rcases h with hmark | hseq
  · refine .inl fun hcommit => ?_
    rcases hw.kept 5 (by decide) with hsame | hmax
    · exact hmark (hsame.symm.trans hcommit)
    · exact absurd (hmax.symm.trans hcommit) (show u32Max ≠ commit by decide)
  · refine .inr ?_
    rw [← hw.raised, hseq, allOnes_or_left]

/-- The checksum of no sequence number of an entry is all ones. -/
theorem idfCrc_ne_max (h : e.Admissible) : idfCrc e.seq ≠ u32Max := by
  have hzero : idfCrc 0 = u32Max := by decide
  exact fun hmax => h.seq_ne_zero (idfCrc_injective (hmax.trans hzero.symm))

/-- **A worn entry is not accepted as another one.** Its sequence number is the one that was
committed, as the checksum of it has not been erased; and neither has its state. -/
theorem Worn.eq_of_accepted (h : Worn e.encode raw) (hacc : accepted raw = some e') : e' = e := by
  obtain ⟨hadm, hwords⟩ := (decode_eq_ok_iff_words _ _).mp (accepted_eq_some.mp hacc)
  have hold : ∀ k : Fin 8, k ≠ 0 → e'.words k = e.words k ∨ e'.words k = u32Max := by
    intro k hk
    rw [← hwords, ← word_encode]
    exact h.kept k hk
  have hseq : e'.seq = e.seq := by
    rcases hold 7 (by decide) with hsame | hmax
    · exact idfCrc_injective hsame
    · exact absurd hmax (idfCrc_ne_max hadm)
  have hstate : e'.state = e.state := by
    rcases hold 6 (by decide) with hsame | hmax
    · exact hsame
    · have hknown := hadm.known
      rw [show e'.state = u32Max from hmax] at hknown
      exact absurd hknown (by decide)
  cases e
  cases e'
  exact Entry.mk.injEq .. ▸ ⟨hseq, hstate⟩

/-- Nor does it become acceptable again once it has not been. -/
theorem Worn.accepted (he : Worn e.encode raw) (h : Worn raw raw') :
    accepted raw' = accepted raw ∨ accepted raw' = none := by
  rcases hacc : Otadata.accepted raw' with _ | e'
  · exact .inr rfl
  · obtain rfl := (he.trans h).eq_of_accepted hacc
    have hraw' : raw' = e'.encode := ((decode_eq_ok_iff _ _).mp (accepted_eq_some.mp hacc)).2
    have hraw : raw = raw' := h.antisymm (hraw' ▸ he)
    rw [hraw, hacc]
    exact .inl rfl

theorem Residue.scarred (h : Residue raw) : Scarred raw := by
  rcases h with hmark | ⟨e, old, rfl⟩
  · exact .inl (.inl hmark)
  · exact .inr ⟨e, worn_eraseExcept old e.encode⟩

theorem Scarred.garbled (h : Scarred raw) (hg : Garbled raw raw') :
    Scarred raw' ∧ (accepted raw' = accepted raw ∨ accepted raw' = none) := by
  rcases hg with hspoiled | hw
  · exact ⟨.inl hspoiled, .inr hspoiled.accepted⟩
  · rcases h with hspoiled | ⟨e, he⟩
    · exact ⟨.inl (hspoiled.worn hw), .inr (hspoiled.worn hw).accepted⟩
    · exact ⟨.inr ⟨e, he.trans hw⟩, he.accepted hw⟩

end Wear

/-- **A medium on which a cut erase may leave garbage.** -/
def rough : Medium where
  Wears := Garbled
  Arises := Scarred
  arises_of_residue _ := Residue.scarred
  arises_of_wears _ _ h hg := (h.garbled hg).1
  accepted_of_wears _ _ h hg := (h.garbled hg).2

/-! ### The variants of the simulation -/

/-- The first `n` bytes erased. -/
def eraseBelow (n : ℕ) (raw : Raw) : Raw := fun i => if (i : ℕ) < n then 0xFF else raw i

/-- `erase_variants`: what the simulation of the source tries for a cut erase, at any length and
with any byte. -/
inductive EraseVariant (raw : Raw) : Raw → Prop
  /-- The first bytes are erased. -/
  | start (n : ℕ) : EraseVariant raw (eraseBelow n raw)
  /-- One byte is everywhere. -/
  | pattern (b : UInt8) : EraseVariant raw fun _ => b
  /-- Some of the fields are erased. -/
  | fields (old : Fin 8 → Bool) : EraseVariant raw (eraseExcept old raw)

theorem byteAt_eraseBelow (n : ℕ) (raw : Raw) {i : ℕ} (h : i < entrySize) :
    byteAt (eraseBelow n raw) i = if i < n then 0xFF else byteAt raw i := by
  rw [byteAt_of_lt _ h, byteAt_of_lt _ h, eraseBelow]

/-- An erase that goes through the bytes in order, cut at any of them. -/
theorem garbled_eraseBelow (n : ℕ) (raw : Raw) : Garbled raw (eraseBelow n raw) := by
  by_cases hn : 4 ≤ n
  · -- the sequence number is among them
    have hff : ∀ i, i < 4 → byteAt (eraseBelow n raw) i = 0xFF := by
      intro i hi
      rw [byteAt_eraseBelow n raw (hi.trans (by decide)), if_pos (by omega)]
    refine .inl (.inr ?_)
    rw [word, hff _ (by decide), hff _ (by decide), hff _ (by decide), hff _ (by decide)]
    decide
  · refine .inr ⟨?_, fun k hk => .inl ?_⟩
    · rw [← word_or]
      congr 1
      funext i
      rw [eraseBelow]
      split_ifs
      · exact UInt8.or_neg_one
      · exact UInt8.or_self
    · -- no byte of the other words is
      have hpos : (k : ℕ) ≠ 0 := fun h => hk (Fin.ext h)
      have hold : ∀ j, j < 4 → byteAt (eraseBelow n raw) (4 * k + j) = byteAt raw (4 * k + j) := by
        intro j hj
        rw [byteAt_eraseBelow n raw (show 4 * (k : ℕ) + j < 32 by omega), if_neg (by omega)]
      have h0 := hold 0 (by omega)
      rw [Nat.add_zero] at h0
      rw [word, h0, hold 1 (by omega), hold 2 (by omega), hold 3 (by omega), word]

/-- No byte repeated is the commit mark. -/
theorem spoiled_pattern (b : UInt8) : Spoiled fun _ => b := by
  refine .inl fun h => ?_
  have hcommit : commit = fromLeBytes 0x3C 0xA5 0xC3 0x5A := by decide
  obtain ⟨h0, h1, -⟩ := fromLeBytes_inj (h.trans hcommit)
  exact absurd (h0.symm.trans h1) (by decide)

/-- **The rough medium leaves whatever the simulation tries.** -/
theorem garbled_of_variant {raw raw' : Raw} (h : EraseVariant raw raw') : Garbled raw raw' := by
  cases h with
  | start n => exact garbled_eraseBelow n raw
  | pattern b => exact .inl (spoiled_pattern b)
  | fields old => exact .inr (worn_eraseExcept old raw)

/-! ### The last validated image -/

/-- The chain on the rough medium in which the image validated last is bootable, and the agent acts
whenever it likes. -/
abbrev roughChain (n : UInt8) : Crash.Machine Chip Cmd (Option Running) :=
  rough.chain n (TrustsLast n) fun _ => True

/-- An update in the other sector leaves the last validation the last one, or is a confirmation. -/
theorem lastValid_cons_of_spared {log : List Request} {v r : Request}
    (hv : lastValid log = some v) (hne : r.write.sector ≠ v.write.sector)
    (hconfirm : r.write.entry.state = State.valid → ∃ image, r.origin = .confirm image) :
    lastValid (r :: log) = some v ∨
      ∃ v' image, lastValid (r :: log) = some v' ∧ v'.origin = .confirm image ∧
        v'.write.sector = other v.write.sector := by
  by_cases hvalid : r.write.entry.state = State.valid
  · obtain ⟨image, himage⟩ := hconfirm hvalid
    exact .inr ⟨r, image, lastValid_cons_of_valid _ hvalid, himage, eq_other_of_ne hne⟩
  · exact .inl ((lastValid_cons_of_ne _ hvalid).trans hv)

/-- **The last validated image outlives garbage.** At every moment of every run the flash holds the
entry validated last, byte for byte, whatever the erases that were cut have left; the command that
comes next is not in its sector; the next step leaves it the last one, or completes a confirmation
in the other sector; and a boot attempt made now falls back to it. -/
theorem outlives_garbage (n : UInt8) (c : Crash.Config Chip Cmd (Option Running))
    (hc : (roughChain n).Reaches (atRest Chip.blank) c) (v : Request)
    (hv : lastValid c.state.log = some v) :
    (c.state.flash v.write.sector = v.write.entry.encode ∧
      decode (c.state.flash v.write.sector) = .ok v.write.entry) ∧
    (∀ cmd cmds, c.todo = cmd :: cmds → cmd.op.sector ≠ v.write.sector) ∧
    (∀ c', (roughChain n).Step c c' → lastValid c'.state.log = some v ∨
      ∃ v' image, lastValid c'.state.log = some v' ∧ v'.origin = .confirm image ∧
        v'.write.sector = other v.write.sector) ∧
    ∀ ok : ImageOk, (∀ k, ok k (slotOf v.write.entry.seq n) = true) →
      FallsBackTo v.write c.state.flash n (planBoot c.state.flash n ok) := by
  have hkeeps : (roughChain n).Keeps _ _ := Medium.keeps_chain (keeps_kept n)
  have hblank : (roughChain n).Holds _ _ (atRest Chip.blank) :=
    Crash.Machine.holds_idle hkeeps ⟨Medium.sound_blank, .inl ⟨rfl, fun _ => accepted_blank⟩⟩
  have hholds := hkeeps.reaches hblank hc
  obtain ⟨v', hkeep⟩ : ∃ v, Keeping v c.state.read := by
    rcases hholds.instant.2 with ⟨hlast, -⟩ | h
    · exact absurd (hlast.symm.trans hv) (by simp)
    · exact h
  obtain rfl : v' = v := Option.some.inj (hkeep.last.symm.trans hv)
  have hdec : decode (c.state.flash v'.write.sector) = .ok v'.write.entry :=
    accepted_eq_some.mp hkeep.guarded.entry
  refine ⟨⟨((decode_eq_ok_iff _ _).mp hdec).2, hdec⟩, fun cmd cmds htodo => ?_, fun c' hstep => ?_,
    fun ok hok => hkeep.fallsBackTo hok⟩
  · rw [sector_op]
    exact (hholds.next htodo v' hv).1
  · -- a step records one update at most, and that one was permitted when it began
    rcases Medium.log_of_step hstep with hlog | ⟨cmd, cmds, htodo, hlog⟩
    · exact .inl (hlog ▸ hv)
    · obtain ⟨hne, hconfirm⟩ := hholds.next htodo v' hv
      exact hlog ▸ lastValid_cons_of_spared hv hne hconfirm

/-! ### A first boot that leaves garbage -/

/-- Garbage in sector 0. -/
def Chip.garbled : Chip := ⟨Function.update (fun _ => Otadata.blank) 0 fun _ => 0xA5, []⟩

section FirstBoot

variable {n : UInt8} {mayBoot : List Request → ImageOk → Prop} {mayAct : Option Running → Prop}

/-- A first boot is cut in its first erase, which leaves garbage. -/
theorem reaches_garbled (h : mayBoot [] fun _ _ => true) :
    (rough.chain n mayBoot mayAct).Reaches (atRest Chip.blank) (atRest Chip.garbled) := by
  have hstart : Start n mayBoot mayAct none Chip.blank _ _ := start_seed (fun _ => accepted_blank) h
  have htorn : rough.device.Torn ⟨seedRequest, .erase⟩ Chip.blank Chip.garbled :=
    ⟨_, .erase 0 _ (garbled_of_variant (.pattern 0xA5)), rfl⟩
  exact .head (.start hstart) (.single (.torn _ _ htorn))

/-- The next one seeds the slot all the same. -/
theorem reaches_seeded_garbled (h : mayBoot [] fun _ _ => true) :
    (rough.chain n mayBoot mayAct).Reaches (atRest Chip.blank)
      ⟨Chip.seeded, [], some ⟨0, 0, 1⟩⟩ := by
  have hnone : ∀ t, view Chip.garbled.flash t = none := by
    intro t
    rw [Chip.garbled, view_update, (spoiled_pattern 0xA5).accepted]
    rcases eq_or_ne t 0 with rfl | hne
    · rw [Function.update_self]
    · rw [Function.update_of_ne hne]
      exact accepted_blank
  have hrun : rough.device.run (commands [seedRequest]) Chip.garbled = Chip.seeded := by
    rw [Medium.run_eq]
    refine (run_cmds seedRequest Chip.garbled).trans ?_
    rw [Chip.garbled, Chip.seeded, seedRequest, Function.update_idem]
  have hreach := Crash.Machine.reaches_done (M := rough.chain n mayBoot mayAct)
    (start_seed hnone h)
  rw [show (rough.chain n mayBoot mayAct).device = rough.device from rfl, hrun] at hreach
  exact (reaches_garbled h).trans hreach

end FirstBoot

/-- The refinement, at the moment that the garbage is there. -/
theorem refines_ledger_garbled :
    let machine := ledgerMachine 2 (fun _ _ => True) fun _ => True
    machine.Reaches ⟨Chip.blank.read, [], none⟩ ⟨Chip.garbled.read, [], none⟩ ∧
      (([] : List Cmd) = [] →
        machine.Reaches ⟨Chip.blank.read, [], none⟩ ⟨Chip.garbled.read, [], none⟩) :=
  Medium.refines_ledger (M := rough) (c := atRest Chip.garbled) Medium.sound_blank
    (reaches_garbled trivial)

/-- The seed, once it has been written over the garbage. -/
theorem outlives_garbage_seeded :
    let v := seedRequest
    let c : Crash.Config Chip Cmd (Option Running) := ⟨Chip.seeded, [], some ⟨0, 0, 1⟩⟩
    (c.state.flash v.write.sector = v.write.entry.encode ∧
      decode (c.state.flash v.write.sector) = .ok v.write.entry) ∧
    (∀ cmd cmds, c.todo = cmd :: cmds → cmd.op.sector ≠ v.write.sector) ∧
    (∀ c', (roughChain 2).Step c c' → lastValid c'.state.log = some v ∨
      ∃ v' image, lastValid c'.state.log = some v' ∧ v'.origin = .confirm image ∧
        v'.write.sector = other v.write.sector) ∧
    ∀ ok : ImageOk, (∀ k, ok k (slotOf v.write.entry.seq 2) = true) →
      FallsBackTo v.write c.state.flash 2 (planBoot c.state.flash 2 ok) :=
  outlives_garbage 2 _ (reaches_seeded_garbled fun _ h => absurd h (by simp [lastValid]))
    seedRequest rfl

end AtomicOta.Otadata
