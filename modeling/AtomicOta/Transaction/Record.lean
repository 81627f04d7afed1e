import AtomicOta.Error

/-!
# The staged transaction

The record of a staged transaction, the three operations that publish it –
`AtomicOta.Transaction.activate`, `AtomicOta.Transaction.finish`,
`AtomicOta.Transaction.clearStale` – and the decision taken after a restart,
`AtomicOta.Transaction.reconcile`.

The metadata store is a parameter (`AtomicOta.Transaction.TransactionMetadata`), with its
own state and its own error. The identities of transactions and of artifacts are never
interpreted, and neither are targets, so all three are type variables; a transaction is
only ever compared with the one the caller expects.
-/

namespace AtomicOta.Transaction

/-- Where a staged transaction stands. -/
inductive TransactionState where
  /-- Every artifact is written; the backend has not been asked to activate it. -/
  | staged
  /-- Activation is recorded, and handed to the backend; not confirmed yet. -/
  | activating
  deriving DecidableEq, Repr

/-- What the backend reports about what it runs. -/
inductive BackendOutcome where
  | pendingConfirmation
  | confirmed
  | other
  deriving DecidableEq, Repr

/-- What the caller of `reconcile` must do. -/
inductive Action where
  | nothing
  | awaitConfirmation
  | rollbackUnaccounted
  | finishInterruptedActivation
  | clearStale
  | keepStaged
  deriving DecidableEq, Repr

/-- One artifact of a transaction. -/
structure ArtifactRecord (ArtifactId Target : Type) where
  id : ArtifactId
  size : ℕ
  digest : Digest
  target : Target
  deriving DecidableEq

/-- The staged transaction. -/
structure TransactionRecord (TxId ArtifactId Target : Type) where
  id : TxId
  state : TransactionState
  artifacts : List (ArtifactRecord ArtifactId Target)
  deriving DecidableEq

section Records

variable {TxId ArtifactId Target : Type}

/-- `TransactionRecord::staged`: a freshly staged transaction of one artifact. -/
def TransactionRecord.staged (id : TxId) (artifact : ArtifactRecord ArtifactId Target) :
    TransactionRecord TxId ArtifactId Target :=
  { id, state := .staged, artifacts := [artifact] }

/-- `TransactionRecord::with_state`. -/
def TransactionRecord.withState (r : TransactionRecord TxId ArtifactId Target)
    (state : TransactionState) : TransactionRecord TxId ArtifactId Target :=
  { r with state }

/-- The decision after a restart: what is staged, what the backend reports, and whether the
running target is the one of the staged transaction, if that is known. -/
def reconcile (staged : Option TransactionState) (outcome : BackendOutcome)
    (runningMatchesStaged : Option Bool) : Action :=
  match outcome, runningMatchesStaged with
  | .pendingConfirmation, none => .awaitConfirmation
  | .pendingConfirmation, some true =>
    if staged = some .activating then .awaitConfirmation else .rollbackUnaccounted
  | .pendingConfirmation, some false => .rollbackUnaccounted
  | _, none => .nothing
  | _, some same =>
    match staged with
    | none => .nothing
    | some .staged => if same then .clearStale else .keepStaged
    | some .activating =>
      if same ∧ outcome = .confirmed then .finishInterruptedActivation else .clearStale

/-- An activation is finished after a restart only if it was recorded and the running
target is its own, confirmed. -/
theorem reconcile_eq_finish {staged : Option TransactionState} {outcome : BackendOutcome}
    {same : Option Bool} :
    reconcile staged outcome same = .finishInterruptedActivation ↔
      staged = some .activating ∧ outcome = .confirmed ∧ same = some true := by
  rcases staged with _ | _ | _ <;> rcases outcome with _ | _ | _ <;> rcases same with _ | _ | _ <;>
    decide

/-- A small record that is published in one piece: a store with state `σ`, errors `ε` and
records `ρ`. -/
structure TransactionMetadata (σ ε ρ : Type) where
  load : σ → Except ε (Option ρ) × σ
  commit : Option ρ → σ → Except ε Unit × σ

variable {σ ε : Type} (M : TransactionMetadata σ ε (TransactionRecord TxId ArtifactId Target))

/-- `activate`: records the intent to activate the staged transaction. -/
def activate [DecidableEq TxId] (expectedId : TxId) (s : σ) :
    Except (Error ε) (TransactionRecord TxId ArtifactId Target) × σ :=
  match M.load s with
  | (.error e, s) => (.error (.backend e), s)
  | (.ok none, s) => (.error .notStaged, s)
  | (.ok (some record), s) =>
    if record.state ≠ .staged then (.error .notStaged, s)
    else if record.artifacts.isEmpty then (.error .notStaged, s)
    else if record.id ≠ expectedId then (.error .identityMismatch, s)
    else
      let activating := record.withState .activating
      match M.commit (some activating) s with
      | (.error e, s) => (.error (.backend e), s)
      | (.ok (), s) => (.ok activating, s)

/-- What `finish` and `clear_stale` both do: publish that nothing is staged. -/
def clear (s : σ) : Except (Error ε) Unit × σ :=
  match M.commit none s with
  | (.error e, s) => (.error (.backend e), s)
  | (.ok (), s) => (.ok (), s)

/-- `finish`: the activation is confirmed. -/
def finish (s : σ) : Except (Error ε) Unit × σ := clear M s

/-- `clear_stale`: the staged record describes nothing any more. -/
def clearStale (s : σ) : Except (Error ε) Unit × σ := clear M s

end Records

end AtomicOta.Transaction
