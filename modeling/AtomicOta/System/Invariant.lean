import AtomicOta.Otadata.Acceptable
import AtomicOta.Otadata.Fallback
import AtomicOta.Otadata.LastValid
import AtomicOta.System.Appliance

/-!
# What an appliance keeps

The invariant that ties the three persistent parts together, and each of the changes that a
job makes to them, one at a time. The jobs themselves are `AtomicOta.System.Job`'s.

What is kept (`AtomicOta.System.Core`) is said with the entry `v` to fall back to:

* it is guarded, and its slot holds an image that the validator accepts;
* an entry beside it that may still be started or confirmed is that of the recorded
  activation, was written by it, and is for another slot;
* the slot of a recorded artifact holds bytes of its digest;
* that slot is not the one of `v`, unless what is recorded is the activation that wrote `v`, and
  that was confirmed.

The last one is what makes the rest go through. That the bytes of a slot are not touched while
something rests on them is clear of the slot of `v` and of that of a record, as a session is
begun for neither; but a confirmation moves `v` into the slot of the record, and what is then
still recorded has to be recognised as done.
-/

namespace AtomicOta.System

open Artifact Esp Otadata Transaction

section Parts

variable {TxId ArtifactId : Type}

/-- The activation of a slot is recorded. -/
def Requested (store : Option (SlotRecord TxId ArtifactId)) (slot : UInt8) : Prop :=
  ∃ r, store = some r ∧ r.state = .activating ∧ r.target = some slot

/-- **The bytes of a record are in its slot**: they have the digest that it has. -/
def Verified (B : Bootloader) (mem : Memory) (r : SlotRecord TxId ArtifactId) : Prop :=
  ∃ artifact, r.artifacts = [artifact] ∧ artifact.target < B.slotCount ∧
    artifact.size ≤ (B.size artifact.target).toNat ∧
    B.sha256 (window mem (B.start artifact.target).toNat artifact.size) = artifact.digest

/-- **What is kept**, with `v` the entry to fall back to. -/
structure Core (B : Bootloader) (v : Write) (store : Option (SlotRecord TxId ArtifactId))
    (mem : Memory) (l : Ledger) : Prop where
  guarded : Guarded v l.book
  admissible : ∀ s e, l.book s = some e → e.Admissible
  bootable : B.Bootable mem (slotOf v.entry.seq B.slotCount)
  /-- What is open beside it is what the recorded activation asked for. -/
  asked : ∀ e, l.book (other v.sector) = some e → e.Open →
    Requested store (slotOf e.seq B.slotCount) ∧ Own l.log (other v.sector) e.seq
  /-- It is for another slot. -/
  elsewhere : ∀ e, l.book (other v.sector) = some e → e.Open →
    slotOf e.seq B.slotCount ≠ slotOf v.entry.seq B.slotCount
  verified : ∀ r, store = some r → Verified B mem r
  /-- A record is for another slot, or is that of the activation of `v`, which was confirmed. -/
  apart : ∀ r, store = some r → r.target = some (slotOf v.entry.seq B.slotCount) →
    r.state = .activating ∧ OwnConfirmed l.log v.sector v.entry.seq

/-- Before the first boot: there is nothing but an image in slot 0. -/
structure Fresh (B : Bootloader) (store : Option (SlotRecord TxId ArtifactId)) (mem : Memory)
    (l : Ledger) : Prop where
  blank : ∀ s, l.book s = none
  unstaged : store = none
  bootable : B.Bootable mem 0

/-- What holds at every moment. -/
def Settled (B : Bootloader) (store : Option (SlotRecord TxId ArtifactId)) (mem : Memory)
    (l : Ledger) : Prop :=
  Fresh B store mem l ∨ ∃ v, Core B v store mem l

/-! ### What each mode adds -/

/-- The image that runs is the one to fall back to. -/
def Runs (n : UInt8) (v : Write) (image : Running) : Prop :=
  image = ⟨slotOf v.entry.seq n, v.sector, v.entry.seq⟩

/-- The image that runs is the one beside it, on trial: its entry is pending. -/
structure Trial (B : Bootloader) (v : Write) (mem : Memory) (l : Ledger) (image : Running) :
    Prop where
  sector : image.sector = other v.sector
  slot : image.slot = slotOf image.seq B.slotCount
  pending : l.book (other v.sector) = some ⟨image.seq, State.pendingVerify⟩
  bootable : B.Bootable mem image.slot

/-- What a phase of the agent's program adds. -/
def AtPhase (B : Bootloader) (v : Write) (store : Option (SlotRecord TxId ArtifactId))
    (mem : Memory) (l : Ledger) : Phase → Prop
  | .off => True
  | .booted image => (Runs B.slotCount v image ∧ Quiet v l.book) ∨ Trial B v mem l image
  | .awaiting image => Trial B v mem l image
  | .unaccounted _ => False
  | .finishing _ => Quiet v l.book
  | .clearing _ => Quiet v l.book
  | .idle _ => True
  | .activating _ => Quiet v l.book ∧
    ∀ r, store = some r → r.target ≠ some (slotOf v.entry.seq B.slotCount)

/-- A session at work on a slot: what it has hashed is there. -/
structure Writing (B : Bootloader) (mem : Memory) (slot : UInt8) (w : WriteSession) : Prop where
  holds : ∃ A, w.Holds A
  received_le : w.received ≤ w.total
  total_le : w.total ≤ (B.size slot).toNat
  stored : window mem (B.start slot).toNat w.durable = w.hasher

/-- What a mode adds. -/
def AtMode (B : Bootloader) (v : Write) (store : Option (SlotRecord TxId ArtifactId))
    (mem : Memory) (l : Ledger) : Mode → Prop
  | .agent phase => AtPhase B v store mem l phase
  | .uploading _ slot w => slot < B.slotCount ∧ slotOf v.entry.seq B.slotCount ≠ slot ∧
    store = none ∧ Writing B mem slot w

/-! ### Changes to the flash -/

variable {B : Bootloader} {v : Write} {store : Option (SlotRecord TxId ArtifactId)}
  {mem : Memory} {l : Ledger}

/-- The slot of the entry to fall back to is one of the slots. -/
theorem Core.slot_lt (h : Core B v store mem l) :
    slotOf v.entry.seq B.slotCount < B.slotCount :=
  slotOf_lt B.pos (h.admissible _ _ h.guarded.entry).seq_ne_zero

/-- The sector beside the guarded entry is lost. -/
theorem Core.drop (h : Core B v store mem l) {r : Request} (hr : r.write.sector ≠ v.sector) :
    Core B v store mem (l.drop r) where
  guarded := h.guarded.erase hr
  admissible := admissible_drop h.admissible r
  bootable := h.bootable
  asked e he := h.asked e (Ledger.book_of_drop he).2
  elsewhere e he := h.elsewhere e (Ledger.book_of_drop he).2
  verified := h.verified
  apart := h.apart

/-- An update that asks for what is recorded: it is for the slot of the record, which is not the
one to fall back to. -/
structure Asks (B : Bootloader) (v : Write) (store : Option (SlotRecord TxId ArtifactId))
    (r : Request) : Prop where
  requested : Requested store (slotOf r.write.entry.seq B.slotCount)
  elsewhere : slotOf r.write.entry.seq B.slotCount ≠ slotOf v.entry.seq B.slotCount

/-- An update beside the guarded entry; one that leaves it open is asked for. -/
theorem Core.commit (h : Core B v store mem l) {r : Request} (hr : Beside v r.write)
    (hasked : r.write.entry.Open → Asks B v store r ∧
      Own (r :: l.log) r.write.sector r.write.entry.seq) : Core B v store mem (l.commit r) where
  guarded := h.guarded.write hr
  admissible := admissible_commit h.admissible r
  bootable := h.bootable
  asked e he hopen := by
    rcases Ledger.book_commit_cases he with ⟨hne, -⟩ | ⟨hsector, rfl, -⟩
    · exact absurd hr.sector.symm hne
    · rw [hsector]
      exact ⟨(hasked hopen).1.requested, (hasked hopen).2⟩
  elsewhere e he hopen := by
    rcases Ledger.book_commit_cases he with ⟨hne, -⟩ | ⟨-, rfl, -⟩
    · exact absurd hr.sector.symm hne
    · exact (hasked hopen).1.elsewhere
  verified := h.verified
  apart r' hr' ht := by
    obtain ⟨hstate, hown⟩ := h.apart r' hr' ht
    exact ⟨hstate, hown.append [r]⟩

/-- **A confirmation**: the entry it confirms is the one to fall back to. -/
theorem Core.confirm (h : Core B v store mem l) {w : Write} {e : Entry}
    (he : IsHighest .pending l.book w.sector e) (hw : w.entry = ⟨e.seq, State.valid⟩)
    (hok : B.Bootable mem (slotOf e.seq B.slotCount)) (image : Option Running) :
    Core B w store mem (l.commit ⟨w, .confirm image⟩) ∧
      Quiet w (l.commit ⟨w, .confirm image⟩).book := by
  have hsector := (h.guarded.pending he).1
  have hadm := h.admissible _ _ he.entry
  obtain ⟨hrequested, hown⟩ := h.asked e (hsector ▸ he.entry) (.inl he.trust)
  have hquiet : Quiet w (l.commit ⟨w, .confirm image⟩).book := by
    intro e' he' hopen
    rcases Ledger.book_commit_cases he' with ⟨-, he'⟩ | ⟨hsame, -, -⟩
    · -- beside it is the entry that was the one to fall back to
      rw [hsector, other_other, h.guarded.entry] at he'
      rw [← Option.some.inj he', Entry.Open, h.guarded.valid] at hopen
      exact absurd hopen (by decide)
    · exact absurd hsame (other_ne _)
  refine ⟨⟨?_, admissible_commit h.admissible _, ?_, fun e' he' ho => absurd ho (hquiet e' he'),
    fun e' he' ho => absurd ho (hquiet e' he'), h.verified, fun r hr _ => ?_⟩, hquiet⟩
  · exact h.guarded.confirm he hadm hw
  · rw [hw]
    exact hok
  · obtain ⟨r', hr', hstate, -⟩ := hrequested
    obtain rfl : r' = r := Option.some.inj (hr'.symm.trans hr)
    obtain ⟨w', hmem, hs, hq⟩ := hown
    have hentry : (⟨w.entry.seq, State.valid⟩ : Entry) = w.entry := by rw [hw]
    refine ⟨hstate, w', image, hs.trans hsector.symm, hq.trans (congrArg Entry.seq hw).symm, ?_⟩
    rw [hentry]
    exact (List.singleton_sublist.mpr hmem).cons_cons _

/-- **The seed of a first boot** is the first one to fall back to. -/
theorem Fresh.seed (h : Fresh B store mem l) :
    Core B ⟨0, ⟨1, State.valid⟩⟩ store mem (l.commit seedRequest) ∧
      Quiet ⟨0, ⟨1, State.valid⟩⟩ (l.commit seedRequest).book := by
  have hquiet : Quiet ⟨0, ⟨1, State.valid⟩⟩ (l.commit seedRequest).book := by
    intro e he
    rcases Ledger.book_commit_cases he with ⟨-, he⟩ | ⟨hsame, -, -⟩
    · exact absurd he (ne_some_of_none h.blank)
    · exact absurd hsame (other_ne _)
  refine ⟨⟨guarded_seed h.blank, ?_, ?_, fun e he ho => absurd ho (hquiet e he),
    fun e he ho => absurd ho (hquiet e he), fun r hr => ?_, fun r hr => ?_⟩, hquiet⟩
  · exact admissible_commit (fun s e he => absurd he (ne_some_of_none h.blank)) _
  · exact (slotOf_one B.slotCount).symm ▸ h.bootable
  · exact absurd (h.unstaged.symm.trans hr) (by simp)
  · exact absurd (h.unstaged.symm.trans hr) (by simp)

/-! ### Changes to the store and to the memory -/

/-- While a record is staged, or nothing is, nothing is open. -/
theorem Core.quiet (h : Core B v store mem l) (hstore : ∀ r, store = some r → r.state = .staged) :
    Quiet v l.book := by
  intro e he hopen
  obtain ⟨r, hr, hstate, -⟩ := (h.asked e he hopen).1
  exact absurd (hstate.symm.trans (hstore r hr)) (by simp)

/-- Another record, while nothing is open. -/
theorem Core.publish (h : Core B v store mem l) (hquiet : Quiet v l.book)
    {store' : Option (SlotRecord TxId ArtifactId)}
    (hverified : ∀ r, store' = some r → Verified B mem r)
    (hapart : ∀ r, store' = some r → r.target ≠ some (slotOf v.entry.seq B.slotCount))
    (log : List Request) : Core B v store' mem ⟨l.book, log⟩ where
  guarded := h.guarded
  admissible := h.admissible
  bootable := h.bootable
  asked e he hopen := absurd hopen (hquiet e he)
  elsewhere e he hopen := absurd hopen (hquiet e he)
  verified := hverified
  apart r hr ht := absurd ht (hapart r hr)

/-- No record, while nothing is open. -/
theorem Core.publish_none (h : Core B v store mem l) (hquiet : Quiet v l.book) :
    Core B v (none : Option (SlotRecord TxId ArtifactId)) mem l :=
  h.publish hquiet (fun _ hr => by cases hr) (fun _ hr => by cases hr) l.log

/-- Another content of a slot that nothing rests on. -/
theorem Core.refill (h : Core B v store mem l) (hstore : store = none) {slot : UInt8}
    (hslot : slot < B.slotCount) (hne : slotOf v.entry.seq B.slotCount ≠ slot) (offset : ℕ)
    (content : Memory) : Core B v store (B.refill slot offset content mem) l where
  guarded := h.guarded
  admissible := h.admissible
  bootable := h.bootable.congr h.slot_lt fun _ hi =>
    (refill_of_other hi hslot h.slot_lt hne.symm).symm
  asked := h.asked
  elsewhere := h.elsewhere
  verified r hr := absurd (hstore.symm.trans hr) (by simp)
  apart := h.apart

end Parts

/-! ### A session and its slot -/

section Sessions

variable {B : Bootloader} {slot : UInt8} {w : WriteSession} {mem : Memory} {ε : Type}
  {S : ArtifactStorage Memory ε}

theorem writing_start {total : ℕ} (htotal : total ≤ (B.size slot).toNat) (expectedDigest : Digest)
    (mem : Memory) : Writing B mem slot (.start total expectedDigest) :=
  ⟨⟨[], WriteSession.holds_start _ _⟩, Nat.zero_le _, htotal, rfl⟩

/-- **What a session takes from a report is stored**, if the way of writing that reports it
lands: the bytes it moves to the hasher are those the report covers. -/
theorem stored_of_advance {put : ℕ → List UInt8 → Memory → Except ε ℕ × Memory}
    (hput : B.Lands slot put) (hstored : window mem (B.start slot).toNat w.durable = w.hasher)
    (newDurable : ℕ) (hanswer : (put w.durable w.pending mem).1 = .ok newDurable) :
    let w' := (w.advance newDurable : Except (Error ε) Unit × WriteSession).2
    window (put w.durable w.pending mem).2 (B.start slot).toNat w'.durable = w'.hasher := by
  have hold : window (put w.durable w.pending mem).2 (B.start slot).toNat w.durable =
      w.hasher := by
    rw [← hstored]
    exact window_congr fun i _ hi =>
      hput.frame _ _ _ _ fun hmem => absurd hmem.2 (Nat.not_le.mpr hi)
  unfold WriteSession.advance
  split_ifs with hback
  · exact hold
  · dsimp only
    split_ifs with hpast
    · exact hold
    · -- the report is one the session trusts
      obtain ⟨k, rfl⟩ := Nat.exists_eq_add_of_le (Nat.not_lt.mp hback)
      rw [Nat.add_sub_cancel_left] at hpast ⊢
      have hnew := hput.stored _ _ _ _ (Nat.not_lt.mp hpast) hanswer
      dsimp only
      rw [window_add, hold, hnew]

/-- **An append keeps a session at work**, whatever becomes of it. -/
theorem Writing.append (h : Writing B mem slot w) (hS : B.Backs slot S) (data : List UInt8) :
    Writing B (w.append S data mem).2.2 slot (w.append S data mem).2.1 := by
  obtain ⟨A, hA⟩ := h.holds
  rcases WriteSession.append_cases S hA data mem with ⟨-, heq⟩ | ⟨-, hholds, hfits, hlater, -⟩
  · rw [heq]
    exact h
  · refine ⟨⟨_, hholds⟩, ?_, ?_, ?_⟩
    · rw [hholds.received, List.length_append, ← hA.received, hlater.total]
      exact hfits
    · rw [hlater.total]
      exact h.total_le
    · -- the chunk is taken before the backend is asked, and leaves what is stored alone
      unfold WriteSession.append
      cases checkedAdd64 w.received data.length with
      | none => exact h.stored
      | some stop =>
        dsimp only
        split_ifs with hlarge
        · exact h.stored
        · have hstored : window mem (B.start slot).toNat (w.extend data stop).durable =
              (w.extend data stop).hasher := h.stored
          have hadvance := stored_of_advance hS.write hstored
          have hframe : window (S.write w.durable (w.pending ++ data) mem).2
              (B.start slot).toNat w.durable = w.hasher := by
            rw [← h.stored]
            exact window_congr fun i _ hi =>
              hS.write.frame _ _ _ _ fun hmem => absurd hmem.2 (Nat.not_le.mpr hi)
          rcases hwrite : S.write (w.extend data stop).durable (w.extend data stop).pending mem
            with ⟨⟨e⟩ | newDurable, mem'⟩
          · exact (congrArg (fun r => window r.2 (B.start slot).toNat w.durable) hwrite).symm.trans
              hframe
          · have hmem' := hadvance newDurable (by rw [hwrite])
            rw [hwrite] at hmem'
            exact hmem'

/-- What an append leaves of the memory is a filling from the durable offset on. -/
theorem refill_append (h : Writing B mem slot w) (hS : B.Backs slot S) (data : List UInt8) :
    B.refill slot w.durable (w.append S data mem).2.2 mem = (w.append S data mem).2.2 := by
  obtain ⟨A, hA⟩ := h.holds
  rcases WriteSession.append_cases S hA data mem with ⟨-, heq⟩ | ⟨-, -, -, -, heq⟩
  · rw [heq]
    exact refill_self
  · rw [heq]
    exact hS.write.refill_eq w.durable (w.pending ++ data)

/-- So is what a last flush leaves. -/
theorem refill_finish (h : Writing B mem slot w) (hS : B.Backs slot S) :
    B.refill slot w.durable (w.finish S B.sha256 mem).2 mem = (w.finish S B.sha256 mem).2 := by
  obtain ⟨A, hA⟩ := h.holds
  rw [(WriteSession.finish_cases S B.sha256 hA mem).1]
  split_ifs
  · exact refill_self
  · exact hS.finish.refill_eq w.durable w.pending

/-- **What is committed is stored**: the slot starts with the bytes of the digest. -/
theorem Writing.finish (h : Writing B mem slot w) (hS : B.Backs slot S) {c : Committed}
    (hc : (w.finish S B.sha256 mem).1 = .ok c) :
    c.size ≤ (B.size slot).toNat ∧
      B.sha256 (window (w.finish S B.sha256 mem).2 (B.start slot).toNat c.size) = c.digest := by
  obtain ⟨A, hA⟩ := h.holds
  have hcommitted := (WriteSession.finish_cases S B.sha256 hA mem).2 c hc
  obtain ⟨hall, hsize, hdigest, -⟩ := hcommitted
  refine ⟨hsize ▸ h.total_le, ?_⟩
  rw [hdigest, hsize, ← hall]
  refine congrArg B.sha256 ?_
  have hreceived : w.durable + w.pending.length = A.length := by rw [← hA.received_eq, hA.received]
  by_cases hnil : w.pending = []
  · -- nothing is left to flush
    rw [(WriteSession.finish_cases S B.sha256 hA mem).1, if_pos hnil]
    rw [hnil, List.length_nil, Nat.add_zero] at hreceived
    rw [← hreceived, h.stored, hA.hasher_eq_of_durable hreceived]
  · rw [(WriteSession.finish_cases S B.sha256 hA mem).1, if_neg hnil]
    unfold WriteSession.finish at hc
    rw [if_neg hnil] at hc
    dsimp only at hc
    have hadvance := stored_of_advance hS.finish h.stored
    have hkeep := fun k => hA.advance (ε := ε) k
    rcases hfinish : S.finish w.durable w.pending mem with ⟨⟨e⟩ | newDurable, mem'⟩
    · rw [hfinish] at hc
      cases hc
    · rw [hfinish] at hc
      dsimp only at hc
      have hmem' := hadvance newDurable (by rw [hfinish])
      rw [hfinish] at hmem'
      rcases hr : (w.advance newDurable : Except (Error ε) Unit × WriteSession) with ⟨⟨e⟩ | _, w'⟩
      · rw [hr] at hc
        cases hc
      · rw [hr] at hc hmem'
        dsimp only at hc hmem' ⊢
        split_ifs at hc with hshort
        have hend : w'.durable = A.length := (not_ne_iff.mp hshort).trans hreceived
        have hw' : w'.Holds A := by
          have := hkeep newDurable
          rwa [hr] at this
        rw [← hend, hmem', hw'.hasher_eq_of_durable hend]

end Sessions

end AtomicOta.System
