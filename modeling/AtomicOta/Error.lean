import Mathlib.Data.Fintype.Basic
import Mathlib.Data.Fintype.Pi

/-!
# The errors of the engine

Over the error type of the backend, `AtomicOta.Error` adds the outcomes that are the
engine's own to decide. The two parts of the engine that can fail – a write session and
the staged transaction – share it.
-/

namespace AtomicOta

/-- A SHA-256 digest. -/
abbrev Digest : Type := Fin 32 → UInt8

inductive Error (ε : Type) where
  /-- The backend reported a failure of its own. -/
  | backend (e : ε)
  /-- The declared size does not fit. -/
  | tooLarge
  /-- Another write, or an activation, is in flight. -/
  | busy
  /-- The digest that was computed is not the expected one. -/
  | digestMismatch (computed : Digest)
  /-- The session ended short of the declared size. -/
  | incomplete (durable : ℕ)
  /-- There is nothing staged to act on. -/
  | notStaged
  /-- The caller asks for another transaction than the staged one. -/
  | identityMismatch
  /-- The state of the transaction does not allow the transition. -/
  | noTransition
  /-- The backend answered with a watermark that cannot be. -/
  | invalidDurabilityReport
  deriving DecidableEq

end AtomicOta
