import AtomicOta.Otadata.Cycle
import AtomicOta.Transaction.Station

/-!
# When an activation is reported as finished

After a restart, `AtomicOta.Transaction.reconcile` answers that an interrupted activation
is to be finished when the record is activating and the entry that runs is valid and
selects the slot of the record. It compares *slots*: nothing in the record says which
entry the boot chain was asked for.

`AtomicOta.Transaction.finish_only_confirmed` says that the answer can be trusted in the
runs whose boots are accounted for (`AtomicOta.Transaction.Accounted`): while an activation
is recorded, no boot starts its slot from an entry it did not write. What carries it is
`AtomicOta.Transaction.Traced` – a valid entry that the transaction wrote has been
confirmed – and what a boot that completes leaves in `AtomicOta.Transaction.Station.Tracked`.

Otherwise an older entry will do. The slot that is being updated has, as a rule, a valid
entry of its own, from the image that was there before, and a boot that falls back to it
before the new entry is even written is taken for a confirmation
(`AtomicOta.Transaction.finishes_unconfirmed`).
-/

namespace AtomicOta.Transaction

open Otadata

/-! ### Whose entry it is -/

/-- The entry of a sector, of a given sequence, was written by the activation of the
transaction that is recorded. -/
def Own (log : List Request) (s : Sector) (q : UInt32) : Prop :=
  ∃ w, (⟨w, .activate⟩ : Request) ∈ log ∧ w.sector = s ∧ w.entry.seq = q

/-- It was, and it was confirmed after that: the history has the newest first. -/
def OwnConfirmed (log : List Request) (s : Sector) (q : UInt32) : Prop :=
  ∃ w image, w.sector = s ∧ w.entry.seq = q ∧
    List.Sublist [⟨⟨s, ⟨q, State.valid⟩⟩, .confirm image⟩, ⟨w, .activate⟩] log

theorem Own.append {log : List Request} {s : Sector} {q : UInt32} (h : Own log s q)
    (log' : List Request) : Own (log' ++ log) s q := by
  obtain ⟨w, hw, hs, hq⟩ := h
  exact ⟨w, List.mem_append_right _ hw, hs, hq⟩

theorem OwnConfirmed.append {log : List Request} {s : Sector} {q : UInt32}
    (h : OwnConfirmed log s q) (log' : List Request) : OwnConfirmed (log' ++ log) s q := by
  obtain ⟨w, image, hs, hq, hsub⟩ := h
  exact ⟨w, image, hs, hq, hsub.trans (List.sublist_append_right _ _)⟩

/-- An own entry is in the history before it is updated again. -/
theorem Own.of_cons {r : Request} {log : List Request} {s : Sector} {q : UInt32}
    (h : Own (r :: log) s q) (hr : ∀ w, r = ⟨w, .activate⟩ → w.sector = s → w.entry.seq ≠ q) :
    Own log s q := by
  obtain ⟨w, hw, hs, hq⟩ := h
  rcases List.mem_cons.mp hw with heq | hw
  · exact absurd hq (hr w heq.symm hs)
  · exact ⟨w, hw, hs, hq⟩

/-! ### On the ledger -/

/-- **A valid entry that the transaction wrote has been confirmed.** No activation writes
the sequence of the seed, which would be valid without. -/
structure Traced (l : Ledger) : Prop where
  valid : ∀ s e, l.book s = some e → e.trust = .valid → Own l.log s e.seq →
    OwnConfirmed l.log s e.seq
  seq : ∀ w, (⟨w, .activate⟩ : Request) ∈ l.log → w.entry.seq ≠ 1

/-- An update that validates is a confirmation, or the seed. -/
structure Sincere (r : Request) : Prop where
  valid : r.write.entry.trust = .valid →
    (∃ image, r.origin = .confirm image) ∨ (r.origin = .boot ∧ r.write.entry.seq = 1)
  seq : r.origin = .activate → r.write.entry.seq ≠ 1

/-- Nothing is traced to a transaction that has just been recorded. -/
theorem traced_nil (b : Book) : Traced ⟨b, []⟩ :=
  ⟨fun _ _ _ _ ⟨_, hw, _⟩ => absurd hw List.not_mem_nil, fun _ hw => absurd hw List.not_mem_nil⟩

theorem Traced.drop {l : Ledger} (h : Traced l) (r : Request) : Traced (l.drop r) :=
  ⟨fun s e he => h.valid s e (Ledger.book_of_drop he).2, h.seq⟩

theorem Traced.commit {l : Ledger} (h : Traced l) {r : Request} (hr : Sincere r) :
    Traced (l.commit r) := by
  refine ⟨fun s e he ht hown => ?_, fun w hw => ?_⟩
  · rw [Ledger.log_commit] at hown ⊢
    rcases Ledger.book_commit_cases he with ⟨hne, he⟩ | ⟨rfl, rfl, -⟩
    · -- another sector: its entry is as before, and so is where it comes from
      have hold : Own l.log s e.seq := hown.of_cons fun w hw hs => absurd (hw ▸ hs.symm) hne
      exact (h.valid s e he ht hold).append [r]
    · have hstate := Entry.trust_eq_valid.mp ht
      obtain ⟨⟨sector, q, state⟩, origin⟩ := r
      obtain rfl : state = State.valid := hstate
      rcases hr.valid ht with ⟨image, horigin⟩ | ⟨horigin, hone⟩
      · -- a confirmation: the activation came before it
        obtain rfl : origin = .confirm image := horigin
        obtain ⟨w, hw, hs, hq⟩ :=
          hown.of_cons fun w hw => absurd (congrArg Request.origin hw) (by simp)
        exact ⟨w, image, hs, hq, (List.singleton_sublist.mpr hw).cons_cons _⟩
      · obtain rfl : origin = .boot := horigin
        obtain ⟨w, hw, -, hq⟩ :=
          hown.of_cons fun w hw => absurd (congrArg Request.origin hw) (by simp)
        exact absurd (hq.trans hone) (h.seq w hw)
  · rcases List.mem_cons.mp hw with rfl | hw
    · exact hr.seq rfl
    · exact h.seq w hw

/-- The updates of a boot are sincere. -/
theorem sincere_of_boot {b : Book} {n : UInt8} {ok : ImageOk} {p : Plan} (hp : Decides b n ok p) :
    ∀ r ∈ issue .boot p.writes, Sincere r := by
  intro r hr
  obtain ⟨hw, ho⟩ := mem_issue.mp hr
  refine ⟨fun ht => .inr ⟨ho, ?_⟩, fun h => absurd (ho.symm.trans h) (by simp)⟩
  cases hp.reason hw with
  | abort _ _ _ hwe => simp [hwe] at ht
  | invalid _ _ _ _ hwe => simp [hwe] at ht
  | mark _ _ _ _ hwe => simp [hwe] at ht
  | seed _ _ hw => rw [hw]

/-- So is the one of an activation: its sequence is above that of a valid entry. -/
theorem sincere_of_activate {f : Flash} {n target : UInt8} {w : Write}
    (hw : Otadata.activate f n target = .ok w) : ∀ r ∈ issue .activate [w], Sincere r := by
  intro r hr
  obtain ⟨hmem, ho⟩ := mem_issue.mp hr
  obtain rfl := List.mem_singleton.mp hmem
  obtain ⟨e, he, hnew, -, habove⟩ := activate_ok hw
  refine ⟨fun ht => ?_, fun _ hone => ?_⟩
  · rw [Entry.trust_eq_unproven.mpr hnew] at ht
    exact absurd ht (by decide)
  · have hlt := habove _ _ he.entry
    rw [hone, UInt32.toNat_one] at hlt
    exact (admissible_of_accepted he.entry).seq_ne_zero (UInt32.toNat.inj (by simpa using hlt))

/-- So are those of a confirmation and of a rejection. -/
theorem sincere_of_confirm {f : Flash} (image : Option Running) :
    ∀ r ∈ issue (.confirm image) (Otadata.confirm f).toList, Sincere r := by
  intro r hr
  obtain ⟨-, ho⟩ := mem_issue.mp hr
  exact ⟨fun _ => .inl ⟨image, ho⟩, fun h => absurd (ho.symm.trans h) (by simp)⟩

theorem sincere_of_reject {f : Flash} :
    ∀ r ∈ issue .reject (Otadata.reject f).toList, Sincere r := by
  intro r hr
  obtain ⟨hw, ho⟩ := mem_issue.mp hr
  obtain ⟨e, -, hwe⟩ := reject_some (Option.mem_toList.mp hw)
  exact ⟨fun ht => by simp [hwe] at ht, fun h => absurd (ho.symm.trans h) (by simp)⟩

/-! ### On the station -/

section Runs

variable {TxId ArtifactId : Type}

/-- The entries that the flash reads as are traced. -/
def Station.Traced (st : Station TxId ArtifactId) : Prop :=
  Sound Set.univ st.chip.flash ∧ Transaction.Traced st.chip.read

/-- **Whose entry an image was started from**: if its slot is the one of the recorded
activation, the entry is the transaction's own – or that was confirmed before. -/
def Station.Tracked (m : Phase) (st : Station TxId ArtifactId) : Prop :=
  ∀ image, m = .booted image → st.Activating image.slot →
    Own st.chip.log image.sector image.seq ∨ ∃ s q, OwnConfirmed st.chip.log s q

/-- **A boot that is accounted for**: while an activation is recorded, and its entry not
yet confirmed, the boot does not start its slot from any other entry. It would be one of
the candidates, whose images are asked for one after the other, or the seed. -/
def Accounted (n : UInt8) (st : Station TxId ArtifactId) (ok : ImageOk) : Prop :=
  (∃ s q, OwnConfirmed st.chip.log s q) ∨
  ∀ slot, st.Activating slot →
    (slot = 0 → (∀ s, view st.chip.flash s = none) → ok 0 0 = false) ∧
    ∀ i c, (ranked (view st.chip.flash))[i]? = some c → slotOf c.seq n = slot →
      Own st.chip.log c.sector c.seq ∨ ok i slot = false ∨
      ∃ j < i, ∃ d, (ranked (view st.chip.flash))[j]? = some d ∧ ok j (slotOf d.seq n) = true

/-- **The rule**, for the runs whose boots satisfy a condition: an interrupted activation
is reported as finished only if its own entry has been confirmed. -/
def FinishOnlyConfirmed (TxId ArtifactId : Type) [DecidableEq TxId] (n : UInt8)
    (mayBoot : Station TxId ArtifactId → ImageOk → Prop) : Prop :=
  ∀ (c : Crash.Config (Station TxId ArtifactId) (StationOp TxId ArtifactId) Phase)
    (image : Running), (station n mayBoot).Reaches ⟨.blank, [], .off⟩ c → c.todo = [] →
    c.mode = .booted image → c.state.answer image = .finishInterruptedActivation →
    ∃ s q, OwnConfirmed c.state.chip.log s q

variable {n : UInt8} {st : Station TxId ArtifactId} {m m' : Phase}
  {ops : List (StationOp TxId ArtifactId)}

/-- Sincere updates keep the entries traced, at every moment. -/
theorem safe_of_sincere (h : st.Traced) {rs : List Request} (hrs : ∀ r ∈ rs, Sincere r) :
    stationDevice.Safe (fun _ _ => True) Station.Traced (flashJob rs) st :=
  safe_flashJob h.1 <| ledger_safe_of_preserved
    (fun r hr _ hl => ⟨trivial, hl.drop r, hl.commit (hrs r hr)⟩) h.2

/-- So does publishing a record: the history stays, or nothing is left of it. -/
theorem safe_of_publish (h : st.Traced) (r : Option (SlotRecord TxId ArtifactId)) :
    stationDevice.Safe (fun _ _ => True) Station.Traced [.publish r] st := by
  have hdone : (StationOp.apply (.publish r) st).Traced := by
    rw [StationOp.apply]
    split_ifs
    · exact ⟨h.1, traced_nil _⟩
    · exact h
  refine ⟨h, trivial, fun st' ht => ?_, hdone⟩
  cases ht with
  | unpublished => exact h
  | published => exact hdone

/-- The history after a job on the flash that completes. -/
theorem log_flashJob (rs : List Request) (st : Station TxId ArtifactId) :
    (stationDevice.run (flashJob rs) st).chip.log = rs.reverse ++ st.chip.log := by
  rw [run_flashJob]
  exact (congrArg Ledger.log (read_run rs st.chip)).trans (log_run rs _)

/-- **After a boot that is accounted for, the image is tracked.** -/
theorem tracked_boot {ok : ImageOk} (h : Accounted n st ok) :
    (stationDevice.run (flashJob (issue .boot (planBoot st.chip.flash n ok).writes)) st).Tracked
      (.ofBoot (planBoot st.chip.flash n ok).boot) := by
  intro image hm hact
  rw [log_flashJob]
  have hact : st.Activating image.slot := by
    rw [run_flashJob] at hact
    exact hact
  have hboot : (planBoot st.chip.flash n ok).boot = .slot image.slot image.sector image.seq := by
    cases hb : (planBoot st.chip.flash n ok).boot <;> rw [hb] at hm <;> cases hm
    rfl
  rcases h with ⟨s, q, h⟩ | h
  · exact .inr ⟨s, q, h.append _⟩
  obtain ⟨hseed, hcand⟩ := h image.slot hact
  -- what was started is what the answers let through, and the condition is about those
  rcases planBoot_slot hboot with ⟨hnone, hok, hzero⟩ | ⟨i, c, hi, hs, hq, hslot, hyes, hno⟩
  · rw [hseed hzero hnone] at hok
    exact absurd hok (by decide)
  rcases hcand i c hi hslot with hown | hrefused | ⟨j, hj, d, hd, hok⟩
  · rw [← hs, ← hq]
    exact .inl (hown.append _)
  · exact absurd (hrefused.symm.trans hyes) (by decide)
  · exact absurd ((hno j hj d hd).symm.trans hok) (by decide)

/-- What the answer is based on. -/
theorem answer_eq_finish {image : Running} (h : st.answer image = .finishInterruptedActivation) :
    st.Activating image.slot ∧ view st.chip.flash image.sector = some ⟨image.seq, State.valid⟩ := by
  obtain ⟨hstate, hout, hsame⟩ := reconcile_eq_finish.mp h
  obtain ⟨r, hr, hstate⟩ := Option.map_eq_some_iff.mp hstate
  refine ⟨⟨r, hr, hstate, ?_⟩, ?_⟩
  · simpa [hr] using hsame
  · unfold Station.outcome at hout
    split at hout
    · rename_i e he
      split_ifs at hout with hpending hvalid
      rw [← hvalid]
      exact accepted_eq_some.mpr he
    · cases hout

variable [DecidableEq TxId]

/-- **Every job keeps the entries traced**, at every moment. -/
theorem safe_of_start {mayBoot : Station TxId ArtifactId → ImageOk → Prop} (h : st.Traced)
    (hstart : StationStart n mayBoot m st ops m') :
    stationDevice.Safe (fun _ _ => True) Station.Traced ops st := by
  cases hstart with
  | boot ok _ => exact safe_of_sincere h (sincere_of_boot (decides_planBoot _ _ _))
  | reconcile _ => exact h
  | confirm image => exact safe_of_sincere h (sincere_of_confirm _)
  | reject image => exact safe_of_sincere h sincere_of_reject
  | rollback image => exact safe_of_sincere h sincere_of_reject
  | finish image => exact safe_of_publish h _
  | clear image => exact safe_of_publish h _
  | stage image => exact safe_of_publish h _
  | activate image => exact safe_of_publish h _
  | switch image _ _ hw => exact safe_of_sincere h (sincere_of_activate hw)
  | revert image => exact safe_of_publish h _

theorem keeps_traced (n : UInt8) :
    (@station TxId ArtifactId _ n (Accounted n)).Keeps (fun _ _ => True)
      fun m st => st.Traced ∧ st.Tracked m := by
  have hoff : ∀ st : Station TxId ArtifactId, st.Tracked .off := fun _ _ h => by cases h
  refine ⟨fun m st h => ⟨h.1, hoff st⟩, fun m st ops m' h hstart => ?_,
    fun m st ops m' h hstart => ⟨(safe_of_start h.1 hstart).run, ?_⟩⟩
  · exact (safe_of_start h.1 hstart).mono (fun _ _ hG => hG) fun st hst => ⟨hst, hoff st⟩
  · -- only a boot ends with an image that has just been booted
    cases hstart with
    | boot _ _ _ hok => exact tracked_boot hok
    | reconcile image =>
      intro i hi
      cases hans : st.answer image <;> rw [hans] at hi <;> cases hi
    | confirm | reject | rollback | finish | clear | stage | activate | switch | revert =>
      intro i hi
      cases hi

/-- **An activation is reported as finished only if its own entry has been confirmed**, in
every run whose boots are accounted for. -/
theorem finish_only_confirmed (n : UInt8) :
    FinishOnlyConfirmed TxId ArtifactId n (Accounted n) := by
  intro c image hc htodo hmode hans
  have hnone : ∀ s, (Station.blank : Station TxId ArtifactId).chip.read.book s = none :=
    fun _ => accepted_blank
  have hstart : (@station TxId ArtifactId _ n (Accounted n)).Holds
      (fun _ _ => True) (fun m st => st.Traced ∧ st.Tracked m) ⟨.blank, [], .off⟩ :=
    Crash.Machine.holds_idle (keeps_traced n)
      ⟨⟨fun _ _ => residue_blank, traced_nil _⟩, fun _ h => by cases h⟩
  obtain ⟨htraced, htracked⟩ := ((keeps_traced n).reaches hstart hc).idle htodo
  obtain ⟨hact, hentry⟩ := answer_eq_finish hans
  rcases htracked image hmode hact with hown | hconfirmed
  · exact ⟨_, _, htraced.2.valid _ _ hentry rfl hown⟩
  · exact hconfirmed

end Runs

/-! ### Two runs -/

section Examples

variable {mayBoot : Station Unit Unit → ImageOk → Prop} {m m' : Phase} {st : Station Unit Unit}

/-- A job on the flash runs to its end. -/
theorem reaches_flash {o : Origin} {ws : List Write} {f : Flash}
    (h : StationStart 2 mayBoot m st (flashJob (issue o ws)) m')
    (hf : execWrites st.chip.flash ws = f) :
    (station 2 mayBoot).Reaches ⟨st, [], m⟩
      ⟨⟨⟨f, (issue o ws).reverse ++ st.chip.log⟩, st.store⟩, [], m'⟩ := by
  have hreach := Crash.Machine.reaches_done (M := station 2 mayBoot) h
  have hrun : stationDevice.run (flashJob (issue o ws)) st =
      ⟨⟨f, (issue o ws).reverse ++ st.chip.log⟩, st.store⟩ := by
    rw [run_flashJob, run_commands, hf]
  exact hrun ▸ hreach

/-- A boot, from a plan that is known. -/
theorem reaches_boot {ok : ImageOk} {p : Plan} {f : Flash} (m : Phase) (hok : mayBoot st ok)
    (hp : planBoot st.chip.flash 2 ok = p) (hf : execWrites st.chip.flash p.writes = f) :
    (station 2 mayBoot).Reaches ⟨st, [], m⟩
      ⟨⟨⟨f, (issue .boot p.writes).reverse ++ st.chip.log⟩, st.store⟩, [], .ofBoot p.boot⟩ := by
  subst hp
  exact reaches_flash (.boot m st ok hok) hf

/-- An answer. -/
theorem reaches_answer {image : Running} {a : Action} (h : st.answer image = a) :
    (station 2 mayBoot).Reaches ⟨st, [], .booted image⟩ ⟨st, [], .ofAction image a⟩ := by
  subst h
  exact .single (.start (.reconcile image st))

/-- What is recorded when the activation of a slot begins. -/
def activatingIn (slot : UInt8) : SlotRecord Unit Unit :=
  (TransactionRecord.staged () ⟨(), 1, fun _ => 0, slot⟩).withState .activating

/-- A transaction is staged into another slot, and its activation is recorded. -/
theorem reaches_activating {image : Running} {slot : UInt8} (h : slot ≠ image.slot) :
    (station 2 mayBoot).Reaches ⟨st, [], .idle image⟩
      ⟨⟨⟨st.chip.flash, []⟩, some (activatingIn slot)⟩, [], .activating image⟩ := by
  have hstage : StationStart 2 mayBoot (.idle image) st
      [.publish (some (.staged () ⟨(), 1, fun _ => 0, slot⟩))] (.idle image) :=
    .stage image st () ⟨(), 1, fun _ => 0, slot⟩ h
  refine (Crash.Machine.reaches_done (M := station 2 mayBoot) hstage).trans ?_
  exact Crash.Machine.reaches_done (M := station 2 mayBoot) (.activate image _ () rfl)

/-- The device once slot 1 has been activated for the first time. -/
def Station.switched : Station Unit Unit :=
  ⟨⟨pair ⟨1, State.valid⟩ ⟨2, State.new⟩, [⟨⟨1, ⟨2, State.new⟩⟩, .activate⟩]⟩,
    some (activatingIn 1)⟩

theorem reaches_switched (h : mayBoot .blank allBootable) :
    (station 2 mayBoot).Reaches ⟨.blank, [], .off⟩ ⟨.switched, [], .idle ⟨0, 0, 1⟩⟩ := by
  have hplan : planBoot (Station.blank : Station Unit Unit).chip.flash 2 allBootable = seedPlan :=
    planBoot_of_none (fun _ => accepted_blank) rfl
  refine (reaches_boot .off h hplan (f := Chip.seeded.flash) ?_).trans ?_
  · rw [seedPlan, execWrites_cons, execWrites_nil, flash_seeded]
    rfl
  refine (reaches_answer (a := .nothing) (by decide +kernel)).trans ?_
  let recorded : Station Unit Unit := ⟨⟨Chip.seeded.flash, []⟩, some (activatingIn 1)⟩
  have hrecorded : (station 2 mayBoot).Reaches ⟨⟨Chip.seeded, none⟩, [], .idle ⟨0, 0, 1⟩⟩
      ⟨recorded, [], .activating ⟨0, 0, 1⟩⟩ := reaches_activating (by decide)
  refine hrecorded.trans ?_
  have hslot : recorded.Activating 1 := ⟨_, rfl, rfl, rfl⟩
  exact reaches_flash (.switch ⟨0, 0, 1⟩ recorded hslot activate_seeded) (execWrites_seeded _)

/-- The device once the image of slot 1 has been confirmed. -/
def Station.confirmed : Station Unit Unit :=
  ⟨⟨pair ⟨1, State.valid⟩ ⟨2, State.valid⟩,
    [⟨⟨1, ⟨2, State.valid⟩⟩, .confirm (some ⟨1, 1, 2⟩)⟩, ⟨⟨1, ⟨2, State.pendingVerify⟩⟩, .boot⟩,
      ⟨⟨1, ⟨2, State.new⟩⟩, .activate⟩]⟩, some (activatingIn 1)⟩

theorem planBoot_pair_valid : planBoot (pair ⟨1, State.valid⟩ ⟨2, State.valid⟩) 2 allBootable =
    ⟨.slot 1 1 2, []⟩ := by
  decide +kernel

theorem reaches_confirmed (h : mayBoot .blank allBootable) (h' : mayBoot .switched allBootable) :
    (station 2 mayBoot).Reaches ⟨.blank, [], .off⟩ ⟨.confirmed, [], .finishing ⟨1, 1, 2⟩⟩ := by
  refine (reaches_switched h).trans ?_
  refine (reaches_boot (.idle ⟨0, 0, 1⟩) h' planBoot_pair_new (execWrites_pair _ _ _)).trans ?_
  refine (reaches_answer (a := .awaitConfirmation) (by decide +kernel)).trans ?_
  let pending : Station Unit Unit :=
    ⟨⟨pair ⟨1, State.valid⟩ ⟨2, State.pendingVerify⟩, [⟨⟨1, ⟨2, State.pendingVerify⟩⟩, .boot⟩,
      ⟨⟨1, ⟨2, State.new⟩⟩, .activate⟩]⟩, some (activatingIn 1)⟩
  have hconfirm : StationStart 2 mayBoot (.awaiting ⟨1, 1, 2⟩) pending
      (flashJob (issue (.confirm (some ⟨1, 1, 2⟩)) (confirm pending.chip.flash).toList))
      (.finishing ⟨1, 1, 2⟩) := .confirm ⟨1, 1, 2⟩ pending
  rw [confirm_pair] at hconfirm
  exact reaches_flash hconfirm (execWrites_pair _ _ _)

/-- The own entry that was confirmed. -/
theorem ownConfirmed_confirmed : OwnConfirmed Station.confirmed.chip.log 1 2 :=
  ⟨⟨1, ⟨2, State.new⟩⟩, some ⟨1, 1, 2⟩, rfl, rfl, by simp [Station.confirmed]⟩

/-- The boots of this run are accounted for: the only entry that selects slot 1 is the
transaction's own. -/
theorem accounted_switched : Accounted 2 Station.switched allBootable := by
  refine .inr ?_
  rintro slot ⟨r, hr, -, hslot⟩
  obtain rfl := Option.some.inj hr
  obtain rfl : (1 : UInt8) = slot := Option.some.inj hslot
  refine ⟨fun h => absurd h (by decide), fun i c hi hslot => .inl ?_⟩
  obtain ⟨e, he, -, hseq, -⟩ := mem_ranked.mp (List.mem_of_getElem? hi)
  rw [Station.switched, view_pair (by decide) (by decide)] at he
  obtain rfl := Option.some.inj he
  by_cases h0 : c.sector = 0
  · rw [hseq, if_pos h0] at hslot
    exact absurd hslot (by decide)
  · rw [if_neg h0] at hseq
    exact ⟨⟨1, ⟨2, State.new⟩⟩, List.mem_singleton.mpr rfl, (eq_other_of_ne h0).symm, hseq.symm⟩

/-- A confirmation that is interrupted before it is recorded is found, and the activation
finished. -/
theorem finish_only_confirmed_interrupted : ∃ s q, OwnConfirmed Station.confirmed.chip.log s q := by
  have hblank : Accounted 2 (.blank : Station Unit Unit) allBootable :=
    .inr fun slot ⟨r, hr, _⟩ => by cases hr
  have hcut := Crash.Machine.Step.cut (M := station 2 (Accounted 2)) Station.confirmed []
    (.finishing ⟨1, 1, 2⟩)
  have hplan : planBoot Station.confirmed.chip.flash 2 allBootable = ⟨.slot 1 1 2, []⟩ :=
    planBoot_pair_valid
  have hboot : (station 2 (Accounted 2)).Reaches ⟨.confirmed, [], .off⟩
      ⟨.confirmed, [], .booted ⟨1, 1, 2⟩⟩ :=
    reaches_boot .off (.inl ⟨1, 2, ownConfirmed_confirmed⟩) hplan (execWrites_nil _)
  have hreach := ((reaches_confirmed hblank accounted_switched).tail hcut).trans hboot
  exact finish_only_confirmed 2 _ ⟨1, 1, 2⟩ hreach rfl rfl (by decide +kernel)

theorem planBoot_pair_damaged :
    planBoot (pair ⟨1, State.valid⟩ ⟨2, State.valid⟩) 2 (fixed fun slot => slot ≠ 1) =
      ⟨.slot 0 0 1, [⟨1, ⟨2, State.invalid⟩⟩]⟩ := by
  decide +kernel

/-- **An activation may be reported as finished though nothing was confirmed**: slot 0 is
to be updated from slot 1, and still has a valid entry; the activation is recorded, the
power goes before the boot chain is asked for it, and the image of slot 1 is not bootable
any more. -/
theorem finishes_unconfirmed :
    ¬∀ n : UInt8, 2 ≤ n → FinishOnlyConfirmed Unit Unit n fun _ _ => True := by
  intro hall
  let recorded : Station Unit Unit := ⟨⟨Station.confirmed.chip.flash, []⟩, some (activatingIn 0)⟩
  let fallen : Station Unit Unit :=
    ⟨⟨pair ⟨1, State.valid⟩ ⟨2, State.invalid⟩, [⟨⟨1, ⟨2, State.invalid⟩⟩, .boot⟩]⟩,
      some (activatingIn 0)⟩
  let M := @station Unit Unit _ 2 fun _ _ => True
  have hconfirmed : M.Reaches ⟨.blank, [], .off⟩ ⟨.confirmed, [], .finishing ⟨1, 1, 2⟩⟩ :=
    reaches_confirmed trivial trivial
  have hfinish : M.Reaches ⟨.confirmed, [], .finishing ⟨1, 1, 2⟩⟩
      ⟨⟨Station.confirmed.chip, none⟩, [], .idle ⟨1, 1, 2⟩⟩ :=
    Crash.Machine.reaches_done (M := M) (.finish ⟨1, 1, 2⟩ .confirmed)
  have hrecorded : M.Reaches ⟨⟨Station.confirmed.chip, none⟩, [], .idle ⟨1, 1, 2⟩⟩
      ⟨recorded, [], .activating ⟨1, 1, 2⟩⟩ :=
    reaches_activating (by decide)
  have hcut := Crash.Machine.Step.cut (M := M) recorded [] (.activating ⟨1, 1, 2⟩)
  have hplan : planBoot recorded.chip.flash 2 (fixed fun slot => slot ≠ 1) =
      ⟨.slot 0 0 1, [⟨1, ⟨2, State.invalid⟩⟩]⟩ := planBoot_pair_damaged
  have hflash : execWrites recorded.chip.flash [⟨1, ⟨2, State.invalid⟩⟩] =
      pair ⟨1, State.valid⟩ ⟨2, State.invalid⟩ := execWrites_pair _ _ _
  have hboot : M.Reaches ⟨recorded, [], .off⟩ ⟨fallen, [], .booted ⟨0, 0, 1⟩⟩ :=
    reaches_boot .off trivial hplan hflash
  have hreach := (((hconfirmed.trans hfinish).trans hrecorded).tail hcut).trans hboot
  -- all there is in the history since then is the rejection of the entry of slot 1
  obtain ⟨s, q, w, image, -, -, hsub⟩ :=
    hall 2 (by decide) _ ⟨0, 0, 1⟩ hreach rfl rfl (by decide +kernel)
  exact absurd hsub.length_le (by simp [fallen])

end Examples

end AtomicOta.Transaction
