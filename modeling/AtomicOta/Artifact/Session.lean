import AtomicOta.Error
import Mathlib.Data.List.Basic

/-!
# One write session

The streaming write of an artifact: `AtomicOta.Artifact.WriteSession` with its three
operations, `append`, `finish` and the `advance` both use, and the two decisions about
offsets that the caller makes around them, `AtomicOta.Artifact.resumePlan` and
`AtomicOta.Artifact.isComplete`.

* The backend is a parameter, `AtomicOta.Artifact.ArtifactStorage`, with its own state and
  its own error; what its documentation promises is `AtomicOta.Artifact.ArtifactStorage.Keeps`,
  and only results that need the promise assume it.
* SHA-256 is opaque. Hashing in pieces is hashing the concatenation, so the live hasher is
  modelled by the bytes it has absorbed, and the digest is taken of them at the end by a
  function `sha256` that stands for the algorithm.
* Offsets and lengths are natural numbers; the two additions the source checks against the
  range of `u64` are `AtomicOta.Artifact.checkedAdd64`.

A session at work is described by `AtomicOta.Artifact.WriteSession.Holds`: what it has
hashed, followed by what is pending, is what it was given. Every operation keeps that,
whatever the backend answers.
-/

namespace AtomicOta.Artifact

/-- `u64::checked_add`. -/
def checkedAdd64 (a b : ℕ) : Option ℕ := if a + b < 2 ^ 64 then some (a + b) else none

/-- Bulk artifact bytes, written once: a backend with state `σ` and errors `ε`. Each
operation is given the durable offset and the pending bytes, and answers with a
watermark. -/
structure ArtifactStorage (σ ε : Type) where
  write : ℕ → List UInt8 → σ → Except ε ℕ × σ
  finish : ℕ → List UInt8 → σ → Except ε ℕ × σ

/-- **What a backend promises**: a write makes some prefix of the pending bytes durable,
the last flush all of them, and neither fails. -/
structure ArtifactStorage.Keeps {σ ε : Type} (B : ArtifactStorage σ ε) : Prop where
  write : ∀ durable pending s, ∃ k ≤ pending.length,
    (B.write durable pending s).1 = .ok (durable + k)
  finish : ∀ durable pending s, (B.finish durable pending s).1 = .ok (durable + pending.length)

/-! ### The decisions about offsets -/

inductive ResumePlan where
  /-- Start a new session. -/
  | begin
  /-- The claim does not match the session: reject, and report `durable` back. -/
  | resync
  /-- The claim matches: append to the session in progress. -/
  | continue
  deriving DecidableEq, Repr

/-- `resume_plan`. -/
def resumePlan (claimsProgress : Bool) (claimedOffset : ℕ) (sessionActive : Bool) (durable : ℕ) :
    ResumePlan :=
  if !claimsProgress || claimedOffset == 0 then .begin
  else if !sessionActive || durable != claimedOffset then .resync
  else .continue

/-- `is_complete`: the claimed end is that of the last byte. -/
def isComplete (claimsRange : Bool) (claimedEnd total : ℕ) : Bool :=
  !claimsRange || checkedAdd64 claimedEnd 1 == some total

/-- A claim that is continued is the durable watermark, and not the beginning. -/
theorem resumePlan_eq_continue {claimedOffset durable : ℕ} :
    resumePlan true claimedOffset true durable = .continue ↔
      claimedOffset ≠ 0 ∧ claimedOffset = durable := by
  unfold resumePlan
  rcases eq_or_ne claimedOffset 0 with h0 | h0
  · simp [h0]
  · rcases eq_or_ne claimedOffset durable with rfl | hd
    · simp [h0]
    · simp [h0, hd, hd.symm]

/-- A chunk with its last byte at the end of the artifact is the last one. -/
theorem eq_of_isComplete {claimedEnd total : ℕ} (h : isComplete true claimedEnd total = true) :
    claimedEnd + 1 = total := by
  unfold isComplete checkedAdd64 at h
  split_ifs at h <;> simp at h
  exact h

/-! ### Sessions -/

/-- What `finish` returns. -/
structure Committed where
  size : ℕ
  digest : Digest
  deriving DecidableEq

/-- One streaming write session. The hasher is the bytes it has absorbed. -/
structure WriteSession where
  total : ℕ
  expectedDigest : Digest
  received : ℕ
  durable : ℕ
  pending : List UInt8
  hasher : List UInt8

namespace WriteSession

/-- `begin`. -/
def start (total : ℕ) (expectedDigest : Digest) : WriteSession :=
  { total, expectedDigest, received := 0, durable := 0, pending := [], hasher := [] }

section Operations

variable {σ ε : Type} (B : ArtifactStorage σ ε) (w : WriteSession)

/-- `advance`: hashes the newly durable prefix of `pending` and drains it, after checking
the backend's claim. -/
def advance (newDurable : ℕ) : Except (Error ε) Unit × WriteSession :=
  if newDurable < w.durable then (.error .invalidDurabilityReport, w)
  else
    let consumed := newDurable - w.durable
    if w.pending.length < consumed then (.error .invalidDurabilityReport, w)
    else (.ok (), { w with hasher := w.hasher ++ w.pending.take consumed,
                           pending := w.pending.drop consumed,
                           durable := newDurable })

/-- The session once `append` has taken the bytes, before the backend is asked. -/
def extend (data : List UInt8) (stop : ℕ) : WriteSession :=
  { w with pending := w.pending ++ data, received := stop }

/-- `append`, with the session and the backend it leaves, also when it fails. -/
def append (data : List UInt8) (s : σ) : Except (Error ε) Unit × WriteSession × σ :=
  match checkedAdd64 w.received data.length with
  | none => (.error .tooLarge, w, s)
  | some stop =>
    if w.total < stop then (.error .tooLarge, w, s)
    else
      let w := w.extend data stop
      match B.write w.durable w.pending s with
      | (.error e, s) => (.error (.backend e), w, s)
      | (.ok newDurable, s) =>
        let r : Except (Error ε) Unit × WriteSession := w.advance newDurable
        (r.1, r.2, s)

/-- The checks at the end of `finish`. -/
def close (sha256 : List UInt8 → Digest) : Except (Error ε) Committed :=
  if w.durable ≠ w.total then .error (.incomplete w.durable)
  else
    let digest := sha256 w.hasher
    if digest ≠ w.expectedDigest then .error (.digestMismatch digest)
    else .ok ⟨w.durable, digest⟩

/-- `finish`: flushes what is left, then checks completeness and the digest. The session
is gone afterwards. -/
def finish (sha256 : List UInt8 → Digest) (s : σ) : Except (Error ε) Committed × σ :=
  if w.pending = [] then (w.close sha256, s)
  else
    let expected := w.durable + w.pending.length
    match B.finish w.durable w.pending s with
    | (.error e, s) => (.error (.backend e), s)
    | (.ok newDurable, s) =>
      let r : Except (Error ε) Unit × WriteSession := w.advance newDurable
      match r.1 with
      | .error e => (.error e, s)
      | .ok () =>
        if r.2.durable ≠ expected then (.error (.incomplete r.2.durable), s)
        else (r.2.close sha256, s)

end Operations

/-! ### What a session holds -/

/-- **The bytes a session was given**: hashed, then pending. -/
structure Holds (w : WriteSession) (A : List UInt8) : Prop where
  bytes : w.hasher ++ w.pending = A
  durable : w.durable = w.hasher.length
  received : w.received = A.length

theorem holds_start (total : ℕ) (expectedDigest : Digest) :
    (start total expectedDigest).Holds [] :=
  ⟨rfl, rfl, rfl⟩

section Facts

variable {σ ε : Type} {B : ArtifactStorage σ ε} {w : WriteSession} {A data : List UInt8} {s : σ}
variable {k : ℕ}

theorem Holds.received_eq (h : w.Holds A) : w.received = w.durable + w.pending.length := by
  rw [h.received, h.durable, ← h.bytes, List.length_append]

/-- What the pending bytes are: those taken from the durable offset on. -/
theorem Holds.pending_eq (h : w.Holds A) : w.pending = A.drop w.durable := by
  rw [h.durable, ← h.bytes, List.drop_left]

theorem Holds.hasher_eq (h : w.Holds A) : w.hasher = A.take w.durable := by
  rw [h.durable, ← h.bytes, List.take_left]

/-- A session without pending bytes has hashed all it took. -/
theorem Holds.hasher_eq_of_durable (h : w.Holds A) (hd : w.durable = A.length) : w.hasher = A := by
  rw [h.hasher_eq, hd, List.take_length]

/-- A watermark the session trusts moves bytes from the pending ones to the hashed
ones. -/
theorem advance_ok (hk : k ≤ w.pending.length) :
    (w.advance (w.durable + k) : Except (Error ε) Unit × WriteSession) =
      (.ok (), { w with hasher := w.hasher ++ w.pending.take k,
                        pending := w.pending.drop k,
                        durable := w.durable + k }) := by
  unfold advance
  rw [if_neg (by omega)]
  dsimp only
  rw [Nat.add_sub_cancel_left, if_neg (by omega)]

/-- Whatever the watermark, `advance` keeps what the session holds. -/
theorem Holds.advance (h : w.Holds A) (newDurable : ℕ) :
    (w.advance newDurable : Except (Error ε) Unit × WriteSession).2.Holds A := by
  unfold WriteSession.advance
  split_ifs with hback
  · exact h
  · dsimp only
    split_ifs with hpast
    · exact h
    · refine ⟨?_, ?_, h.received⟩
      · rw [List.append_assoc, List.take_append_drop, h.bytes]
      · have hd := h.durable
        rw [List.length_append, List.length_take]
        change newDurable = _
        omega

theorem Holds.extend (h : w.Holds A) (data : List UInt8) :
    (w.extend data (w.received + data.length)).Holds (A ++ data) := by
  refine ⟨?_, h.durable, ?_⟩
  · change w.hasher ++ (w.pending ++ data) = _
    rw [← List.append_assoc, h.bytes]
  · change w.received + data.length = _
    rw [h.received, List.length_append]

/-- `append` refuses what does not fit, and then nothing changes. -/
theorem append_tooLarge (h : w.total < w.received + data.length) :
    w.append B data s = (.error .tooLarge, w, s) := by
  unfold append checkedAdd64
  split_ifs with hfits
  · dsimp only
    rw [if_pos h]
  · rfl

/-- The session once a chunk was taken and `k` of the pending bytes became durable. -/
def moved (w : WriteSession) (data : List UInt8) (k : ℕ) : WriteSession :=
  { w with received := w.received + data.length,
           hasher := w.hasher ++ (w.pending ++ data).take k,
           pending := (w.pending ++ data).drop k,
           durable := w.durable + k }

theorem moved_holds (h : w.Holds A) (hk : k ≤ (w.pending ++ data).length) :
    (w.moved data k).Holds (A ++ data) := by
  have hadv := (h.extend data).advance (ε := Unit)
    ((w.extend data (w.received + data.length)).durable + k)
  rw [advance_ok hk] at hadv
  exact hadv

/-- **An append that fits, when the backend answers with a watermark within its offer.** -/
theorem append_eq_moved (htotal : w.total < 2 ^ 64) (hfits : w.received + data.length ≤ w.total)
    (hk : k ≤ (w.pending ++ data).length)
    (hwrite : (B.write w.durable (w.pending ++ data) s).1 = .ok (w.durable + k)) :
    w.append B data s =
      (.ok (), w.moved data k, (B.write w.durable (w.pending ++ data) s).2) := by
  have hcheck : checkedAdd64 w.received data.length = some (w.received + data.length) :=
    if_pos (by omega)
  unfold append
  rw [hcheck]
  dsimp only
  rw [if_neg (by omega)]
  change (match B.write w.durable (w.pending ++ data) s with
    | (.error e, s) => _
    | (.ok newDurable, s) => _) = _
  rcases hw : B.write w.durable (w.pending ++ data) s with ⟨r, t⟩
  rw [hw] at hwrite
  dsimp only at hwrite
  subst hwrite
  have hadv := advance_ok (ε := ε) (w := w.extend data (w.received + data.length)) hk
  change (w.extend data _).advance (w.durable + k) = _ at hadv
  dsimp only
  rw [hadv]
  rfl

/-- With a backend that keeps its promise, `append` accepts what fits. -/
theorem append_of_keeps (hB : B.Keeps) (h : w.Holds A) (htotal : w.total < 2 ^ 64)
    (hfits : w.received + data.length ≤ w.total) :
    ∃ w' s', w.append B data s = (.ok (), w', s') ∧ w'.Holds (A ++ data) ∧
      w'.total = w.total ∧ w'.expectedDigest = w.expectedDigest := by
  -- the backend is asked about the session that has already taken the bytes
  obtain ⟨k, hk, hwrite⟩ := hB.write w.durable (w.pending ++ data) s
  exact ⟨_, _, append_eq_moved htotal hfits hk hwrite, moved_holds h hk, rfl, rfl⟩

/-- **A last flush that makes everything durable** leaves the session with all of it
hashed. -/
theorem finish_eq_close (sha256 : List UInt8 → Digest) (h : w.Holds A)
    (hfinish : w.pending ≠ [] → (B.finish w.durable w.pending s).1 =
      .ok (w.durable + w.pending.length)) :
    (w.finish B sha256 s).1 =
      (WriteSession.close ⟨w.total, w.expectedDigest, w.received, A.length, [], A⟩ sha256 :
        Except (Error ε) Committed) := by
  have hall : w.durable + w.pending.length = A.length := by rw [← h.received_eq, h.received]
  unfold finish
  split_ifs with hnil
  · rw [hnil, List.length_nil, Nat.add_zero] at hall
    have hw : w = ⟨w.total, w.expectedDigest, w.received, A.length, [], A⟩ := by
      rw [← hall, ← hnil, ← h.hasher_eq_of_durable hall]
    exact congrArg (fun w => close w sha256) hw
  · specialize hfinish hnil
    rcases hf : B.finish w.durable w.pending s with ⟨r, t⟩
    rw [hf] at hfinish
    dsimp only at hfinish
    subst hfinish
    dsimp only
    rw [advance_ok le_rfl]
    dsimp only
    rw [if_neg (by simp), List.take_length, List.drop_length, h.bytes, hall]

/-- With a backend that keeps its promise, `finish` of a session that was given all its
bytes checks the digest of them. -/
theorem finish_of_keeps (hB : B.Keeps) (h : w.Holds A) (hall : A.length = w.total)
    (sha256 : List UInt8 → Digest) (hdigest : sha256 A = w.expectedDigest) :
    (w.finish B sha256 s).1 = .ok ⟨A.length, sha256 A⟩ := by
  rw [finish_eq_close sha256 h fun _ => hB.finish _ _ _]
  unfold close
  dsimp only
  rw [if_neg (not_not.mpr hall), if_neg (not_not.mpr hdigest)]

end Facts

end WriteSession

end AtomicOta.Artifact
