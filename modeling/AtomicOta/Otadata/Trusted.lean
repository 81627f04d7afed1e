import AtomicOta.Otadata.Cycle

/-!
# Only a running image is made trusted

A valid entry on the flash is the seed of a first boot, or it was confirmed while the
image that ran was the very one it selects (`AtomicOta.Otadata.valid_was_running`).
The answers about images and the cuts are arbitrary; all that is assumed is that the
agent acts while an image runs.

What has to be shown is that the agent never finds a pending entry but its own
(`AtomicOta.Otadata.OwnPending`): a boot that completes has aborted every other one,
and marked only the entry it starts.
-/

namespace AtomicOta.Otadata

/-- The chain in which the agent acts only while an image runs. -/
abbrev runningChain (n : UInt8) : Crash.Machine Chip Cmd (Option Running) :=
  chain n (fun _ _ => True) fun m => m ≠ none

/-- **Where a valid entry comes from**: the last update of its sector was a first
boot, or a confirmation under the image it selects. -/
def Vouched (n : UInt8) (s : Sector) (e : Entry) (log : List Request) : Prop :=
  ∃ r, lastUpdate s log = some r ∧
    ((r.origin = .boot ∧ r.write = ⟨0, ⟨1, State.valid⟩⟩) ∨
      (r.origin = .confirm (some ⟨slotOf e.seq n, s, e.seq⟩) ∧ r.write.entry = e))

/-- Every valid entry is vouched for. -/
def AllVouched (n : UInt8) (l : Ledger) : Prop :=
  ∀ s e, l.book s = some e → e.trust = .valid → Vouched n s e l.log

/-- The only entry that may be pending while an image runs is its own. -/
def OwnPending (n : UInt8) (m : Option Running) (l : Ledger) : Prop :=
  ∀ i, m = some i → ∀ s e, l.book s = some e → e.trust = .pending →
    i = ⟨slotOf e.seq n, s, e.seq⟩

variable {n : UInt8}

theorem AllVouched.drop {l : Ledger} (h : AllVouched n l) (r : Request) :
    AllVouched n (l.drop r) :=
  fun s e he ht => h s e (Ledger.book_of_drop he).2 ht

theorem AllVouched.commit {l : Ledger} (h : AllVouched n l) {r : Request}
    (hr : r.write.entry.trust = .valid →
      Vouched n r.write.sector r.write.entry (r :: l.log)) : AllVouched n (l.commit r) := by
  intro s e he ht
  rcases Ledger.book_commit_cases he with ⟨hne, he⟩ | ⟨rfl, rfl, -⟩
  · obtain ⟨r', hr', hcase⟩ := h s e he ht
    exact ⟨r', (lastUpdate_cons_of_ne _ hne).trans hr', hcase⟩
  · exact hr ht

/-- A job whose validations are vouched for keeps every valid entry vouched for. -/
theorem AllVouched.safe {l : Ledger} (h : AllVouched n l) {rs : List Request}
    (hrs : ∀ r ∈ rs, r.write.entry.trust = .valid → ∀ log,
      Vouched n r.write.sector r.write.entry (r :: log)) :
    ledgerDevice.Safe (fun _ _ => True) (AllVouched n) rs l :=
  ledger_safe_of_preserved (fun r hr _ hl =>
    ⟨trivial, hl.drop r, hl.commit fun ht => hrs r hr ht _⟩) h

/-- **Every job vouches for what it validates.** -/
theorem vouched_of_start {m m' : Option Running} {l : Ledger} {rs : List Request}
    (hown : OwnPending n m l)
    (hstart : LedgerStart n (fun _ _ => True) (fun m => m ≠ none) m l rs m') :
    ∀ r ∈ rs, r.write.entry.trust = .valid → ∀ log,
      Vouched n r.write.sector r.write.entry (r :: log) := by
  intro r hr ht log
  refine ⟨r, lastUpdate_cons_self r log, ?_⟩
  cases hstart with
  | boot _ hp =>
    -- the only valid entry that a boot writes is the seed
    obtain ⟨hw, ho⟩ := mem_issue.mp hr
    refine .inl ⟨ho, ?_⟩
    cases hp.reason hw with
    | abort _ _ _ hwe => simp [hwe] at ht
    | invalid _ _ _ _ hwe => simp [hwe] at ht
    | mark _ _ _ _ hwe => simp [hwe] at ht
    | seed _ _ hw => exact hw
  | activate _ _ hnew _ =>
    obtain rfl := List.mem_singleton.mp (mem_issue.mp hr).1
    rw [Entry.trust_eq_unproven.mpr hnew] at ht
    exact absurd ht (by decide)
  | confirm hm he hwe =>
    obtain ⟨hw, ho⟩ := mem_issue.mp hr
    obtain rfl := List.mem_singleton.mp hw
    obtain ⟨i, rfl⟩ := Option.ne_none_iff_exists'.mp hm
    -- what is pending is what the image was started from
    have hi := hown i rfl _ _ he.entry he.trust
    refine .inr ⟨?_, rfl⟩
    rw [ho, hi, hwe]
  | reject _ _ hwe =>
    obtain rfl := List.mem_singleton.mp (mem_issue.mp hr).1
    simp [hwe] at ht

/-- A write that is not a mark makes nothing pending. -/
theorem OwnPending.commit {m : Option Running} {l : Ledger} (h : OwnPending n m l) {r : Request}
    (hr : r.write.entry.trust ≠ .pending) : OwnPending n m (l.commit r) := by
  intro i hi s e he ht
  rcases Ledger.book_commit_cases he with ⟨-, he⟩ | ⟨-, rfl, -⟩
  · exact h i hi s e he ht
  · exact absurd ht hr

/-- **After a boot that completes, the only pending entry is the one it started.** -/
theorem ownPending_boot {l : Ledger} {ok : ImageOk} {p : Plan} (hp : Decides l.book n ok p) :
    OwnPending n p.boot.running (ledgerDevice.run (issue .boot p.writes) l) := by
  have hpairwise := issue_pairwise (o := .boot) hp.pairwise
  intro i hi s e he ht
  by_cases hs : ∃ r ∈ issue .boot p.writes, r.write.sector = s
  · -- the sector was written: the entry is the mark of the one that is booted
    obtain ⟨r, hr, rfl⟩ := hs
    rw [book_run_of_mem hpairwise hr, admitted_eq_some] at he
    obtain rfl := he.2
    cases hp.reason (mem_issue.mp hr).1 with
    | abort _ _ _ hwe => simp [hwe] at ht
    | invalid _ _ _ _ hwe => simp [hwe] at ht
    | mark _ _ _ hboot hwe =>
      rw [hboot] at hi
      rw [hwe]
      exact (Option.some.inj hi).symm
    | seed _ _ hw => simp [hw] at ht
  · -- it was not: the entry was pending before, so it was aborted
    rw [book_run_of_ne fun r hr heq => hs ⟨r, hr, heq⟩] at he
    exact absurd
      ⟨⟨⟨s, ⟨e.seq, State.aborted⟩⟩, .boot⟩, mem_issue.mpr ⟨hp.abort_mem he ht, rfl⟩, rfl⟩ hs

theorem keeps_vouched (n : UInt8) :
    (ledgerMachine n (fun _ _ => True) fun m => m ≠ none).Keeps (fun _ _ => True)
      fun m l => AllVouched n l ∧ OwnPending n m l := by
  have hoff : ∀ l : Ledger, OwnPending n none l := fun _ _ h => absurd h (by simp)
  refine ⟨fun m l h => ⟨h.1, hoff l⟩, fun m l rs m' h hstart => ?_, fun m l rs m' h hstart => ?_⟩
  · exact (h.1.safe (vouched_of_start h.2 hstart)).mono (fun _ _ hG => hG)
      fun l hl => ⟨hl, hoff l⟩
  · refine ⟨(h.1.safe (vouched_of_start h.2 hstart)).run, ?_⟩
    cases hstart with
    | boot _ hp => exact ownPending_boot hp
    | activate _ _ hnew _ =>
      refine h.2.commit ?_
      rw [Entry.trust_eq_unproven.mpr hnew]
      decide
    | confirm _ _ hwe => exact h.2.commit (by simp [hwe])
    | reject _ _ hwe => exact h.2.commit (by simp [hwe])

/-- **Only a running image can make itself trusted**: at every moment of every run, the
last update of a sector that holds a valid entry was the seed of a first boot, or a
confirmation asked for while the image started from that sector, with that sequence,
was running. -/
theorem valid_was_running (n : UInt8) (c : Crash.Config Chip Cmd (Option Running))
    (hc : (runningChain n).Reaches (atRest Chip.blank) c) (s : Sector) (e : Entry)
    (he : decode (c.state.flash s) = .ok e) (hstate : e.state = State.valid) :
    ∃ r, lastUpdate s c.state.log = some r ∧
      ((r.origin = .boot ∧ r.write = ⟨0, ⟨1, State.valid⟩⟩) ∨
        (r.origin = .confirm (some ⟨slotOf e.seq n, s, e.seq⟩) ∧ r.write.entry = e)) := by
  have hnone : ∀ s, Chip.blank.read.book s = none := fun _ => accepted_blank
  have hstart : (runningChain n).Holds (fun _ _ => True)
      (fun m s => Sound Set.univ s.flash ∧ AllVouched n s.read ∧ OwnPending n m s.read)
      (atRest Chip.blank) :=
    Crash.Machine.holds_idle (keeps_chain (G := fun _ _ => True) (keeps_vouched n))
      ⟨fun _ _ => residue_blank, fun s e h => absurd h (ne_some_of_none hnone),
        fun _ _ s e h => absurd h (ne_some_of_none hnone)⟩
  have hholds := (keeps_chain (G := fun _ _ => True) (keeps_vouched n)).reaches hstart hc
  exact hholds.instant.2.1 s e (accepted_eq_some.mpr he) (Entry.trust_eq_valid.mpr hstate)

/-- The same for an image that was installed and confirmed. -/
theorem valid_was_running_updated :
    ∃ r, lastUpdate 1 Chip.updated.log = some r ∧
      ((r.origin = .boot ∧ r.write = ⟨0, ⟨1, State.valid⟩⟩) ∨
        (r.origin = .confirm (some ⟨slotOf 2 2, 1, 2⟩) ∧
          r.write.entry = ⟨2, State.valid⟩)) :=
  valid_was_running 2 ⟨Chip.updated, [], some ⟨1, 1, 2⟩⟩
    (reaches_updated (fun _ => trivial) (fun _ => by simp)) 1 ⟨2, State.valid⟩
    (decode_encode (by decide)) rfl

end AtomicOta.Otadata
