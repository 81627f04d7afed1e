import AtomicOta.Transaction.Record

/-!
# The life of the staged transaction

Runs of the five operations on the transaction store – stage, activate, revert, finish,
clear – in any order, with a restart between any two, over a store whose calls may fail at
any moment (`AtomicOta.Transaction.AtomicStore`).

The argument separates what the store does from what the operations mean. A run leaves a
history of what was asked and answered (`AtomicOta.Transaction.Event`), and:

* the store is the history: what it holds is what the last event that published anything
  published (`AtomicOta.Transaction.Run.stored_eq`), failures and restarts publishing
  nothing;
* the history is lawful (`AtomicOta.Transaction.Lawful`): an activation that succeeded found
  a staged record of the identity it expected, and a revert puts back the record of the
  latest activation.

Everything else is about lawful histories, and never mentions the store
(`AtomicOta.Transaction.lifecycle`).
-/

namespace AtomicOta.Transaction

/-! ### The store -/

/-- **A store that publishes in one piece**: `stored` is what was durably published, `load`
reads it or fails, and `commit` replaces it or fails and leaves it. -/
structure AtomicStore (σ ε ρ : Type) extends TransactionMetadata σ ε ρ where
  stored : σ → Option ρ
  stored_load : ∀ s, stored (load s).2 = stored s
  load_ok : ∀ s r, (load s).1 = .ok r → r = stored s
  stored_commit_ok : ∀ r s, (commit r s).1 = .ok () → stored (commit r s).2 = r
  stored_commit_error : ∀ r s e, (commit r s).1 = .error e → stored (commit r s).2 = stored s

section Runs

variable {σ ε TxId ArtifactId Target : Type}

/-! ### Events -/

variable (ε TxId ArtifactId Target) in
/-- Something that happened to the store, with the answer it got. -/
inductive Event where
  /-- A freshly staged transaction is committed. -/
  | stage (id : TxId) (artifact : ArtifactRecord ArtifactId Target) (answer : Except ε Unit)
  | activate (expectedId : TxId)
    (answer : Except (Error ε) (TransactionRecord TxId ArtifactId Target))
  /-- The record of an activation is committed in its staged form. -/
  | revert (record : TransactionRecord TxId ArtifactId Target) (answer : Except ε Unit)
  | finish (answer : Except (Error ε) Unit)
  | clearStale (answer : Except (Error ε) Unit)
  | restart

namespace Event

/-- The operation answered with an error. -/
def Failed : Event ε TxId ArtifactId Target → Prop
  | .stage _ _ answer => ∃ e, answer = .error e
  | .activate _ answer => ∃ e, answer = .error e
  | .revert _ answer => ∃ e, answer = .error e
  | .finish answer => ∃ e, answer = .error e
  | .clearStale answer => ∃ e, answer = .error e
  | .restart => False

/-- What the event published, if it published anything. -/
def published : Event ε TxId ArtifactId Target →
    Option (Option (TransactionRecord TxId ArtifactId Target))
  | .stage id artifact (.ok ()) => some (some (.staged id artifact))
  | .activate _ (.ok record) => some (some record)
  | .revert record (.ok ()) => some (some (record.withState .staged))
  | .finish (.ok ()) => some none
  | .clearStale (.ok ()) => some none
  | _ => none

/-- What failed published nothing. -/
theorem Failed.published {e : Event ε TxId ArtifactId Target} (h : e.Failed) :
    e.published = none := by
  cases e with
  | restart => exact h.elim
  | _ => obtain ⟨err, rfl⟩ := h; rfl

/-- The event made a record stand for activation: it was staged, or put back. -/
inductive Stages : Event ε TxId ArtifactId Target → Prop
  | stage (id : TxId) (artifact : ArtifactRecord ArtifactId Target) :
    Stages (.stage id artifact (.ok ()))
  | revert (record : TransactionRecord TxId ArtifactId Target) : Stages (.revert record (.ok ()))

end Event

/-- What happened, newest first. -/
abbrev History (ε TxId ArtifactId Target : Type) : Type := List (Event ε TxId ArtifactId Target)

/-- What the last event that published anything published. -/
def current : History ε TxId ArtifactId Target →
    Option (TransactionRecord TxId ArtifactId Target)
  | [] => none
  | e :: hist => e.published.getD (current hist)

/-- The record the caller may put back: the one the latest successful activation returned,
if nothing was published since. -/
def revertible : History ε TxId ArtifactId Target →
    Option (TransactionRecord TxId ArtifactId Target)
  | [] => none
  | .activate _ (.ok record) :: _ => some record
  | e :: hist => if e.published.isSome then none else revertible hist

/-! ### Runs -/

/-- **One operation on the store**, after a history. -/
inductive Step [DecidableEq TxId]
    (M : AtomicStore σ ε (TransactionRecord TxId ArtifactId Target))
    (hist : History ε TxId ArtifactId Target) (s : σ) :
    Event ε TxId ArtifactId Target → σ → Prop
  | stage (id : TxId) (artifact : ArtifactRecord ArtifactId Target) :
    Step M hist s (.stage id artifact (M.commit (some (.staged id artifact)) s).1)
      (M.commit (some (.staged id artifact)) s).2
  | activate (expectedId : TxId) :
    Step M hist s (.activate expectedId (activate M.toTransactionMetadata expectedId s).1)
      (activate M.toTransactionMetadata expectedId s).2
  | revert (record : TransactionRecord TxId ArtifactId Target)
    (h : revertible hist = some record) :
    Step M hist s (.revert record (M.commit (some (record.withState .staged)) s).1)
      (M.commit (some (record.withState .staged)) s).2
  | finish : Step M hist s (.finish (finish M.toTransactionMetadata s).1)
      (finish M.toTransactionMetadata s).2
  | clearStale : Step M hist s (.clearStale (clearStale M.toTransactionMetadata s).1)
      (clearStale M.toTransactionMetadata s).2
  /-- A restart loses nothing that was durably published. -/
  | restart (s' : σ) (h : M.stored s' = M.stored s) : Step M hist s .restart s'

/-- **A run**, from a state of the store. -/
inductive Run [DecidableEq TxId]
    (M : AtomicStore σ ε (TransactionRecord TxId ArtifactId Target)) (s₀ : σ) :
    History ε TxId ArtifactId Target → σ → Prop
  | nil : Run M s₀ [] s₀
  | cons {hist : History ε TxId ArtifactId Target} {s s' : σ}
    {e : Event ε TxId ArtifactId Target} (h : Run M s₀ hist s) (hs : Step M hist s e s') :
    Run M s₀ (e :: hist) s'

/-! ### What one operation does -/

section Operations

variable {M : AtomicStore σ ε (TransactionRecord TxId ArtifactId Target)}

/-- What a commit leaves. -/
theorem stored_commit (M : AtomicStore σ ε (TransactionRecord TxId ArtifactId Target))
    (r : Option (TransactionRecord TxId ArtifactId Target)) (s : σ) :
    ((M.commit r s).1 = .ok () ∧ M.stored (M.commit r s).2 = r) ∨
      (∃ e, (M.commit r s).1 = .error e) ∧ M.stored (M.commit r s).2 = M.stored s := by
  rcases hc : (M.commit r s).1 with err | _
  · exact .inr ⟨⟨err, rfl⟩, M.stored_commit_error r s err hc⟩
  · exact .inl ⟨rfl, M.stored_commit_ok r s hc⟩

/-- What clearing the store leaves. -/
theorem stored_clear (M : AtomicStore σ ε (TransactionRecord TxId ArtifactId Target)) (s : σ) :
    ((clear M.toTransactionMetadata s).1 = .ok () ∧
        M.stored (clear M.toTransactionMetadata s).2 = none) ∨
      (∃ e, (clear M.toTransactionMetadata s).1 = .error e) ∧
        M.stored (clear M.toTransactionMetadata s).2 = M.stored s := by
  have hcommit := stored_commit M none s
  unfold clear
  rcases hc : M.commit none s with ⟨⟨err⟩ | _, t⟩ <;> rw [hc] at hcommit
  · exact .inr ⟨⟨_, rfl⟩, hcommit.elim (fun h => by cases h.1) And.right⟩
  · exact .inl ⟨rfl, hcommit.elim And.right fun ⟨⟨_, he⟩, _⟩ => by cases he⟩

/-- **What an activation leaves**: an error, and the store as it was; or the staged record
it found, of the identity that was expected, now activating. -/
theorem stored_activate [DecidableEq TxId]
    (M : AtomicStore σ ε (TransactionRecord TxId ArtifactId Target)) (expectedId : TxId) (s : σ) :
    ((∃ e, (activate M.toTransactionMetadata expectedId s).1 = .error e) ∧
        M.stored (activate M.toTransactionMetadata expectedId s).2 = M.stored s) ∨
      ∃ record, M.stored s = some record ∧ record.state = .staged ∧ record.id = expectedId ∧
        (activate M.toTransactionMetadata expectedId s).1 = .ok (record.withState .activating) ∧
        M.stored (activate M.toTransactionMetadata expectedId s).2 =
          some (record.withState .activating) := by
  have hstored := M.stored_load s
  have hload := M.load_ok s
  unfold activate
  rcases hl : M.load s with ⟨⟨err⟩ | ⟨_ | record⟩, t⟩ <;> rw [hl] at hstored hload
  · exact .inl ⟨⟨_, rfl⟩, hstored⟩
  · exact .inl ⟨⟨_, rfl⟩, hstored⟩
  · have hrecord : M.stored s = some record := (hload _ rfl).symm
    dsimp only at hstored ⊢
    -- the three refusals come before anything is committed
    split_ifs with hstate hempty hid
    · exact .inl ⟨⟨_, rfl⟩, hstored⟩
    · exact .inl ⟨⟨_, rfl⟩, hstored⟩
    · exact .inl ⟨⟨_, rfl⟩, hstored⟩
    · have hcommit := stored_commit M (some (record.withState .activating)) t
      rcases hc : M.commit (some (record.withState .activating)) t with ⟨⟨err⟩ | _, u⟩ <;>
        rw [hc] at hcommit
      · exact .inl ⟨⟨_, rfl⟩, (hcommit.elim (fun h => by cases h.1) And.right).trans hstored⟩
      · exact .inr ⟨record, hrecord, not_ne_iff.mp hstate, not_ne_iff.mp hid, rfl,
          hcommit.elim And.right fun ⟨⟨_, he⟩, _⟩ => by cases he⟩

variable [DecidableEq TxId] {hist : History ε TxId ArtifactId Target} {s s' : σ}
  {e : Event ε TxId ArtifactId Target}

/-- **What an operation stores**: what it published, and otherwise what was there. -/
theorem Step.stored_eq (h : Step M hist s e s') :
    M.stored s' = e.published.getD (M.stored s) := by
  cases h with
  | stage id artifact =>
    rcases stored_commit M (some (.staged id artifact)) s with ⟨hans, hst⟩ | ⟨⟨err, hans⟩, hst⟩ <;>
      rw [hst, hans] <;> rfl
  | activate expectedId =>
    rcases stored_activate M expectedId s with ⟨⟨err, hans⟩, hst⟩ | ⟨r, -, -, -, hans, hst⟩ <;>
      rw [hst, hans] <;> rfl
  | revert record _ =>
    rcases stored_commit M (some (record.withState .staged)) s with
      ⟨hans, hst⟩ | ⟨⟨err, hans⟩, hst⟩ <;> rw [hst, hans] <;> rfl
  | finish =>
    rcases stored_clear M s with ⟨hans, hst⟩ | ⟨⟨err, hans⟩, hst⟩ <;>
      rw [Transaction.finish, hst, hans] <;> rfl
  | clearStale =>
    rcases stored_clear M s with ⟨hans, hst⟩ | ⟨⟨err, hans⟩, hst⟩ <;>
      rw [Transaction.clearStale, hst, hans] <;> rfl
  | restart _ h => exact h

/-! ### Lawful histories -/

/-- **A lawful history**: every activation that succeeded found a staged record of the
identity it expected, and every revert is of the latest activation. -/
inductive Lawful : History ε TxId ArtifactId Target → Prop
  | nil : Lawful []
  | cons {hist : History ε TxId ArtifactId Target} {e : Event ε TxId ArtifactId Target}
    (h : Lawful hist)
    (hactivate : ∀ expectedId r, e = .activate expectedId (.ok r) →
      ∃ record, current hist = some record ∧ record.state = .staged ∧ record.id = expectedId ∧
        r = record.withState .activating)
    (hrevert : ∀ record answer, e = .revert record answer → revertible hist = some record) :
    Lawful (e :: hist)

/-- An operation on the store extends a history lawfully. -/
theorem Step.lawful (h : Step M hist s e s') (hlawful : Lawful hist)
    (hcurrent : M.stored s = current hist) : Lawful (e :: hist) := by
  refine .cons hlawful (fun expectedId r he => ?_) fun record answer he => ?_
  · cases h with
    | activate id =>
      obtain ⟨rfl, hanswer⟩ := Event.activate.inj he
      rcases stored_activate M id s with ⟨⟨err, hans⟩, -⟩ | ⟨record, hst, hstate, hid, hans, -⟩
      · rw [hans] at hanswer
        cases hanswer
      · rw [hans] at hanswer
        exact ⟨record, hcurrent.symm.trans hst, hstate, hid, (Except.ok.inj hanswer).symm⟩
    | _ => cases he
  · cases h with
    | revert record' hrev =>
      obtain ⟨rfl, -⟩ := Event.revert.inj he
      exact hrev
    | _ => cases he

/-- **The store is its history**, and the history is lawful. -/
theorem Run.stored_eq {s₀ : σ} (h : Run M s₀ hist s) (h₀ : M.stored s₀ = none) :
    Lawful hist ∧ M.stored s = current hist := by
  induction h with
  | nil => exact ⟨.nil, h₀⟩
  | cons _ hs ih =>
    obtain ⟨hlawful, hcurrent⟩ := ih
    refine ⟨hs.lawful hlawful hcurrent, ?_⟩
    rw [hs.stored_eq, hcurrent]
    rfl

end Operations

section Histories

variable {hist older : History ε TxId ArtifactId Target} {e : Event ε TxId ArtifactId Target}
  {r : TransactionRecord TxId ArtifactId Target}

theorem current_of_none (h : e.published = none) : current (e :: hist) = current hist := by
  rw [current, h, Option.getD_none]

theorem current_of_some {o : Option (TransactionRecord TxId ArtifactId Target)}
    (h : e.published = some o) : current (e :: hist) = o := by
  rw [current, h, Option.getD_some]

theorem revertible_of_none (h : e.published = none) :
    revertible (e :: hist) = revertible hist := by
  rcases e with _ | ⟨_, _ | _⟩ | _ | _ | _ | _ <;> simp_all [revertible, Event.published]

/-- Only an activation leaves something to put back. -/
theorem revertible_of_some {o : Option (TransactionRecord TxId ArtifactId Target)}
    (h : e.published = some o) (hr : revertible (e :: hist) = some r) :
    ∃ expectedId, e = .activate expectedId (.ok r) := by
  rcases e with ⟨_, _, _ | _⟩ | ⟨_, _ | _⟩ | ⟨_, _ | _⟩ | ⟨_ | _⟩ | ⟨_ | _⟩ | _ <;>
    simp_all [revertible, Event.published]

/-- What an event that published something published. -/
theorem published_cases {o : Option (TransactionRecord TxId ArtifactId Target)}
    (h : e.published = some o) :
    (∃ id artifact, e = .stage id artifact (.ok ()) ∧ o = some (.staged id artifact)) ∨
      (∃ expectedId record, e = .activate expectedId (.ok record) ∧ o = some record) ∨
      (∃ record, e = .revert record (.ok ()) ∧ o = some (record.withState .staged)) ∨
      o = none := by
  rcases e with ⟨id, artifact, _ | _⟩ | ⟨id, _ | _⟩ | ⟨record, _ | _⟩ | ⟨_ | _⟩ | ⟨_ | _⟩ | _ <;>
    simp_all [Event.published, eq_comm]

theorem Lawful.tail (h : Lawful (e :: hist)) : Lawful hist := by
  cases h
  assumption

theorem Lawful.drop (newer : History ε TxId ArtifactId Target) (h : Lawful (newer ++ hist)) :
    Lawful hist := by
  induction newer with
  | nil => exact h
  | cons e newer ih => exact ih h.tail

/-- What a successful activation of a lawful history found. -/
theorem Lawful.found {expectedId : TxId} (h : Lawful (.activate expectedId (.ok r) :: hist)) :
    ∃ record, current hist = some record ∧ record.state = .staged ∧ record.id = expectedId ∧
      r = record.withState .activating := by
  cases h with
  | cons _ hactivate _ => exact hactivate expectedId r rfl

/-- **What may be put back is what the store holds**: the record of an activation of its
identity, since which nothing was published. -/
theorem Lawful.revertible_some (h : Lawful hist) (hr : revertible hist = some r) :
    current hist = some r ∧ ∃ newer older, hist = newer ++ .activate r.id (.ok r) :: older ∧
      ∀ e ∈ newer, e.published = none := by
  induction h with
  | nil => cases hr
  | @cons hist e h hactivate hrevert ih =>
    rcases hp : e.published with _ | o
    · rw [revertible_of_none hp] at hr
      obtain ⟨hcurrent, newer, older, rfl, hnewer⟩ := ih hr
      refine ⟨(current_of_none hp).trans hcurrent, e :: newer, older, rfl, ?_⟩
      rintro e' he'
      rcases List.mem_cons.mp he' with rfl | hmem
      · exact hp
      · exact hnewer e' hmem
    · obtain ⟨expectedId, rfl⟩ := revertible_of_some hp hr
      obtain ⟨record, -, -, rfl, rfl⟩ := hactivate expectedId r rfl
      exact ⟨rfl, [], hist, rfl, by simp⟩

/-- **What the store holds was staged**, whatever became of its state. -/
theorem Lawful.staged (h : Lawful hist) (hr : current hist = some r) :
    ∃ id artifact, .stage id artifact (.ok ()) ∈ hist ∧ r.id = id ∧ r.artifacts = [artifact] := by
  induction h generalizing r with
  | nil => cases hr
  | @cons hist e h hactivate hrevert ih =>
    have hold : ∀ record : TransactionRecord TxId ArtifactId Target,
        current hist = some record → ∃ id artifact, .stage id artifact (.ok ()) ∈ e :: hist ∧
          record.id = id ∧ record.artifacts = [artifact] := by
      intro record hrecord
      obtain ⟨id, artifact, hmem, hid, hartifacts⟩ := ih hrecord
      exact ⟨id, artifact, List.mem_cons_of_mem _ hmem, hid, hartifacts⟩
    rcases hp : e.published with _ | o
    · exact hold r ((current_of_none hp).symm.trans hr)
    · rw [current_of_some hp] at hr
      -- staged just now, or another state of a record that was there
      rcases published_cases hp with ⟨id, artifact, rfl, rfl⟩ | ⟨id, record, rfl, rfl⟩ |
        ⟨record, rfl, rfl⟩ | rfl
      · cases hr
        exact ⟨id, artifact, List.mem_cons_self, rfl, rfl⟩
      · obtain ⟨record', hrecord', -, -, rfl⟩ := hactivate id record rfl
        cases hr
        exact hold record' hrecord'
      · obtain ⟨hcurrent, -⟩ := h.revertible_some (hrevert record _ rfl)
        cases hr
        exact hold record hcurrent
      · cases hr

/-- **What the store holds as activating is the latest activation**, with nothing published
since. -/
theorem Lawful.activating (h : Lawful hist) (hr : current hist = some r)
    (hstate : r.state = .activating) : revertible hist = some r := by
  induction h with
  | nil => cases hr
  | @cons hist e h hactivate hrevert ih =>
    rcases hp : e.published with _ | o
    · rw [revertible_of_none hp]
      exact ih ((current_of_none hp).symm.trans hr)
    · rw [current_of_some hp] at hr
      rcases published_cases hp with ⟨id, artifact, rfl, rfl⟩ | ⟨id, record, rfl, rfl⟩ |
        ⟨record, rfl, rfl⟩ | rfl
      · cases hr
        cases hstate
      · cases hr
        rfl
      · cases hr
        cases hstate
      · cases hr

/-- **Until something is staged or put back, an activation stays**: what the store holds, if
anything, is activating. -/
theorem Lawful.stays {between : History ε TxId ArtifactId Target} {expectedId : TxId}
    {r₁ : TransactionRecord TxId ArtifactId Target}
    (h : Lawful (between ++ .activate expectedId (.ok r₁) :: older))
    (hno : ∀ e ∈ between, ¬e.Stages)
    (hr : current (between ++ .activate expectedId (.ok r₁) :: older) = some r) :
    r.state = .activating := by
  induction between with
  | nil =>
    obtain ⟨record, -, -, -, rfl⟩ := h.found
    cases hr
    rfl
  | cons e between ih =>
    have hlater := ih h.tail fun e' he' => hno e' (List.mem_cons_of_mem _ he')
    have hhead := hno e List.mem_cons_self
    rcases hp : e.published with _ | o
    · exact hlater ((current_of_none hp).symm.trans hr)
    · rw [List.cons_append, current_of_some hp] at hr
      rcases published_cases hp with ⟨id, artifact, rfl, rfl⟩ | ⟨id, record, rfl, rfl⟩ |
        ⟨record, rfl, rfl⟩ | rfl
      · exact absurd (.stage id artifact) hhead
      · obtain ⟨record', -, -, -, rfl⟩ := h.found
        cases hr
        rfl
      · exact absurd (.revert record) hhead
      · cases hr

end Histories

/-- **The life of the staged transaction, in any order and with failures anywhere**: an
operation that fails changes nothing; what is stored was staged, and only its state ever
changes; it is activating only by an activation that expected it, with nothing published
since; and between two activations something was staged or put back. -/
theorem lifecycle [DecidableEq TxId]
    (M : AtomicStore σ ε (TransactionRecord TxId ArtifactId Target)) (s₀ : σ)
    (h₀ : M.stored s₀ = none) (hist : History ε TxId ArtifactId Target) (s : σ)
    (h : Run M s₀ hist s) :
    (∀ e s', Step M hist s e s' → e.Failed → M.stored s' = M.stored s) ∧
    (∀ r, M.stored s = some r → ∃ id artifact, .stage id artifact (.ok ()) ∈ hist ∧
      r = (TransactionRecord.staged id artifact).withState r.state) ∧
    (∀ r, M.stored s = some r → r.state = .activating →
      ∃ newer older, hist = newer ++ .activate r.id (.ok r) :: older ∧
        ∀ e ∈ newer, e.published = none) ∧
    ∀ newer between older id₁ id₂ r₁ r₂,
      hist = newer ++ .activate id₂ (.ok r₂) :: (between ++ .activate id₁ (.ok r₁) :: older) →
        ∃ e ∈ between, e.Stages := by
  obtain ⟨hlawful, hcurrent⟩ := h.stored_eq h₀
  refine ⟨fun e s' hs hf => ?_, fun r hr => ?_, fun r hr hstate => ?_, ?_⟩
  · rw [hs.stored_eq, hf.published, Option.getD_none]
  · obtain ⟨id, artifact, hmem, hid, hartifacts⟩ := hlawful.staged (hcurrent.symm.trans hr)
    refine ⟨id, artifact, hmem, ?_⟩
    rw [TransactionRecord.withState, TransactionRecord.staged, ← hid, ← hartifacts]
  · have hrevertible := hlawful.activating (hcurrent.symm.trans hr) hstate
    exact (hlawful.revertible_some hrevertible).2
  · rintro newer between older id₁ id₂ r₁ r₂ rfl
    have hsecond := hlawful.drop newer
    by_contra hno
    -- the second activation found a staged record, and none is left after the first
    obtain ⟨record, hfound, hstate, -, -⟩ := hsecond.found
    have hactivating := hsecond.tail.stays (fun e he hst => hno ⟨e, he, hst⟩) hfound
    rw [hstate] at hactivating
    cases hactivating

end Runs

/-! ### A store that fails -/

/-- A store with a list of the calls to come: `true` is one that fails. -/
def flaky (ρ : Type) : AtomicStore (Option ρ × List Bool) Unit ρ where
  load s := (if s.2.head? = some true then .error () else .ok s.1, s.1, s.2.tail)
  commit r s :=
    if s.2.head? = some true then (.error (), s.1, s.2.tail) else (.ok (), r, s.2.tail)
  stored := Prod.fst
  stored_load _ := rfl
  load_ok s r h := by
    dsimp only at h
    split_ifs at h
    exact (Except.ok.inj h).symm
  stored_commit_ok r s h := by
    split_ifs with hfail
    · rw [if_pos hfail] at h
      cases h
    · rfl
  stored_commit_error r s e h := by
    split_ifs with hfail
    · rfl
    · rw [if_neg hfail] at h
      cases h

/-- Staged at the second attempt, activated at the second one, put back, and activated
again. -/
theorem lifecycle_flaky :
    let artifact : ArtifactRecord Unit Unit := ⟨(), 1, fun _ => 0, ()⟩
    let activated : TransactionRecord ℕ Unit Unit := ⟨7, .activating, [artifact]⟩
    let between : History Unit ℕ Unit Unit := [.restart, .revert activated (.ok ())]
    ∃ e ∈ between, e.Stages := by
  intro artifact activated between
  let M := flaky (TransactionRecord ℕ Unit Unit)
  let older : History Unit ℕ Unit Unit :=
    [.activate 7 (.error (.backend ())), .stage 7 artifact (.ok ()), .stage 7 artifact (.error ())]
  have h₁ : Run M (none, [true, false, true]) older (some (.staged 7 artifact), []) :=
    .cons (.cons (.cons .nil (.stage 7 artifact)) (.stage 7 artifact)) (.activate 7)
  have h₂ : Run M (none, [true, false, true]) (.activate 7 (.ok activated) :: older)
      (some activated, []) :=
    .cons h₁ (.activate 7)
  have h₃ : Run M (none, [true, false, true])
      (.activate 7 (.ok activated) :: (between ++ .activate 7 (.ok activated) :: older))
      (some activated, []) :=
    .cons (.cons (.cons h₂ (.revert activated rfl)) (.restart _ rfl)) (.activate 7)
  exact (lifecycle M _ rfl _ _ h₃).2.2.2 [] between older 7 7 activated activated rfl

end AtomicOta.Transaction
