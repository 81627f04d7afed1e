import AtomicOta.Artifact.Resume
import AtomicOta.Artifact.Run
import Mathlib.Data.List.GetD

/-!
# The outcome of an upload

An upload to a backend that keeps its promise, from the first chunk to the end
(`AtomicOta.Artifact.WriteSession.upload`). How the bytes are cut into chunks, and how far
the backend moves the watermark at each of them, leave no trace in the answer: it is
`AtomicOta.Artifact.outcome` of the bytes (`AtomicOta.Artifact.WriteSession.upload_outcome`).

Nor do they in what is stored. A backend that writes the bytes it reports where they belong
(`AtomicOta.Artifact.ArtifactStorage.storing`, over a memory that holds anything) is offered
each byte until it is durable and never again: at every moment the memory starts with the
bytes that are hashed, and the rest of it is as it was
(`AtomicOta.Artifact.Stored`).
-/

namespace AtomicOta.Artifact

/-! ### A memory -/

/-- A byte-addressed memory. -/
abbrev Memory : Type := ℕ → UInt8

/-- The memory once bytes are written at an offset. -/
def Memory.store (m : Memory) (offset : ℕ) (bytes : List UInt8) : Memory := fun i =>
  if offset ≤ i then bytes.getD (i - offset) (m i) else m i

/-- A memory that starts with some bytes, and is another one after them. -/
def Stored (m₀ : Memory) (bytes : List UInt8) (m : Memory) : Prop :=
  ∀ i, m i = bytes.getD i (m₀ i)

theorem stored_nil (m₀ : Memory) : Stored m₀ [] m₀ := fun _ => rfl

/-- Writing at the end of what is stored. -/
theorem Stored.store {m₀ m : Memory} {bytes : List UInt8} (h : Stored m₀ bytes m)
    (more : List UInt8) : Stored m₀ (bytes ++ more) (m.store bytes.length more) := by
  intro i
  rw [Memory.store]
  split_ifs with hi
  · rw [List.getD_append_right _ _ _ _ hi, h i, List.getD_eq_default _ _ hi]
  · rw [List.getD_append _ _ _ _ (Nat.not_le.mp hi), h i]

section Storing

variable {σ ε : Type}

/-- **A backend that stores what it reports**: the bytes of the pending ones that its
watermark covers, at the durable offset. -/
def ArtifactStorage.storing (B : ArtifactStorage σ ε) : ArtifactStorage (σ × Memory) ε where
  write durable pending s :=
    match B.write durable pending s.1 with
    | (.error e, t) => (.error e, t, s.2)
    | (.ok newDurable, t) =>
      (.ok newDurable, t, s.2.store durable (pending.take (newDurable - durable)))
  finish durable pending s :=
    match B.finish durable pending s.1 with
    | (.error e, t) => (.error e, t, s.2)
    | (.ok newDurable, t) =>
      (.ok newDurable, t, s.2.store durable (pending.take (newDurable - durable)))

/-- The outcome of an upload, from the bytes alone. -/
def outcome (sha256 : List UInt8 → Digest) (total : ℕ) (expectedDigest : Digest)
    (D : List UInt8) : Except (Error ε) Committed :=
  if D.length < total then .error (.incomplete D.length)
  else if sha256 D ≠ expectedDigest then .error (.digestMismatch (sha256 D))
  else .ok ⟨total, sha256 D⟩

/-- What a storing backend leaves when the backend it wraps answers with a watermark. -/
theorem ArtifactStorage.storing_write {B : ArtifactStorage σ ε} {durable k : ℕ}
    {pending : List UInt8} {s : σ × Memory}
    (h : (B.write durable pending s.1).1 = .ok (durable + k)) :
    B.storing.write durable pending s =
      (.ok (durable + k), (B.write durable pending s.1).2,
        s.2.store durable (pending.take k)) := by
  rcases hw : B.write durable pending s.1 with ⟨r, t⟩
  rw [hw] at h
  dsimp only at h
  subst h
  simp only [storing, hw, Nat.add_sub_cancel_left]

theorem ArtifactStorage.storing_finish {B : ArtifactStorage σ ε} {durable k : ℕ}
    {pending : List UInt8} {s : σ × Memory}
    (h : (B.finish durable pending s.1).1 = .ok (durable + k)) :
    B.storing.finish durable pending s =
      (.ok (durable + k), (B.finish durable pending s.1).2,
        s.2.store durable (pending.take k)) := by
  rcases hw : B.finish durable pending s.1 with ⟨r, t⟩
  rw [hw] at h
  dsimp only at h
  subst h
  simp only [storing, hw, Nat.add_sub_cancel_left]

/-- A storing backend keeps the promise of the one it wraps. -/
theorem ArtifactStorage.Keeps.storing {B : ArtifactStorage σ ε} (h : B.Keeps) :
    B.storing.Keeps where
  write durable pending s := by
    obtain ⟨k, hk, hw⟩ := h.write durable pending s.1
    exact ⟨k, hk, by rw [storing_write hw]⟩
  finish durable pending s := by
    rw [storing_finish (h.finish durable pending s.1)]

/-- **A backend whose state follows what is hashed**: an invariant of the bytes that were
hashed and the state that every answer keeps. -/
structure ArtifactStorage.Follows (B : ArtifactStorage σ ε)
    (I : List UInt8 → σ → Prop) : Prop where
  write : ∀ {hashed pending s k}, I hashed s → k ≤ pending.length →
    (B.write hashed.length pending s).1 = .ok (hashed.length + k) →
    I (hashed ++ pending.take k) (B.write hashed.length pending s).2
  finish : ∀ {hashed pending s}, I hashed s →
    (B.finish hashed.length pending s).1 = .ok (hashed.length + pending.length) →
    I (hashed ++ pending) (B.finish hashed.length pending s).2

/-- Any backend follows nothing in particular. -/
theorem ArtifactStorage.follows_trivial (B : ArtifactStorage σ ε) : B.Follows fun _ _ => True :=
  ⟨fun _ _ _ => trivial, fun _ _ => trivial⟩

/-- A storing backend stores what is hashed. -/
theorem ArtifactStorage.follows_stored {B : ArtifactStorage σ ε} (hB : B.Keeps) (m₀ : Memory) :
    B.storing.Follows fun hashed s => Stored m₀ hashed s.2 where
  write {hashed pending s k} hs _ hw := by
    obtain ⟨k', -, hw'⟩ := hB.write hashed.length pending s.1
    rw [storing_write hw'] at hw ⊢
    obtain rfl : k' = k := Nat.add_left_cancel (Except.ok.inj hw)
    exact hs.store _
  finish {hashed pending s} hs _ := by
    rw [storing_finish (hB.finish hashed.length pending s.1), List.take_length]
    exact hs.store _

namespace WriteSession

/-- Begin, append every chunk in order, and finish: the answers on the way, the answer at
the end, and the backend that is left. -/
def upload (B : ArtifactStorage σ ε) (sha256 : List UInt8 → Digest) (total : ℕ)
    (expectedDigest : Digest) (chunks : List (List UInt8)) (s : σ) :
    List (Turn ε) × Except (Error ε) Committed × σ :=
  let r := appendAll B chunks (start total expectedDigest) s
  (r.1, r.2.1.finish B sha256 r.2.2)

variable {B : ArtifactStorage σ ε} {w : WriteSession} {A data : List UInt8} {s : σ} {k : ℕ}

/-- What the last checks say of a session that has hashed all it took. -/
theorem close_eq_outcome {sha256 : List UInt8 → Digest} {total received : ℕ}
    {expectedDigest : Digest} (hle : A.length ≤ total) :
    (WriteSession.close ⟨total, expectedDigest, received, A.length, [], A⟩ sha256 :
      Except (Error ε) Committed) = outcome sha256 total expectedDigest A := by
  unfold close outcome
  dsimp only
  rcases hle.lt_or_eq with hlt | rfl
  · rw [if_pos (by omega), if_pos hlt]
  · rw [if_neg (not_not.mpr rfl), if_neg (lt_irrefl A.length)]

variable {I : List UInt8 → σ → Prop}

/-- **The run**: with a backend that keeps its promise every append that fits is accepted,
the session holds what it was given, and the backend's state follows what is hashed. -/
theorem appendAll_of_keeps (hB : B.Keeps) (hI : B.Follows I) (cs : List (List UInt8))
    (h : w.Holds A) (hs : I w.hasher s) (htotal : w.total < 2 ^ 64)
    (hfits : (A ++ cs.flatten).length ≤ w.total) :
    let r := appendAll B cs w s
    (∀ t ∈ r.1, t.answer = .ok ()) ∧ r.2.1.Holds (A ++ cs.flatten) ∧ w.Later r.2.1 ∧
      I r.2.1.hasher r.2.2 := by
  induction cs generalizing w A s with
  | nil => exact ⟨by simp [appendAll], by simpa [appendAll] using h, .refl w, hs⟩
  | cons c cs ih =>
    rw [List.flatten_cons, ← List.append_assoc] at hfits ⊢
    have hfit : w.received + c.length ≤ w.total := by
      rw [h.received]
      rw [List.length_append, List.length_append] at hfits
      omega
    obtain ⟨k, hk, hwrite⟩ := hB.write w.durable (w.pending ++ c) s
    -- the chunk is taken, and some of the pending bytes become durable
    have hstep := append_eq_moved htotal hfit hk hwrite
    have hs' : I (w.moved c k).hasher (B.write w.durable (w.pending ++ c) s).2 := by
      rw [h.durable] at hwrite ⊢
      exact hI.write hs hk hwrite
    obtain ⟨hanswers, hholds, hlater, hfollow⟩ := ih (w := w.moved c k) (moved_holds h hk) hs'
      htotal hfits
    dsimp only [appendAll]
    rw [hstep]
    refine ⟨?_, hholds, ⟨?_, hlater.total, hlater.expectedDigest⟩, hfollow⟩
    · rintro t ht
      rcases List.mem_cons.mp ht with rfl | hmem
      · rfl
      · exact hanswers t hmem
    · exact (Nat.le_add_right _ _).trans hlater.durable

/-- **The end of the run**: the answer is that of the bytes, and the state follows all of
them. -/
theorem finish_of_follows (hB : B.Keeps) (hI : B.Follows I) (sha256 : List UInt8 → Digest)
    (h : w.Holds A) (hs : I w.hasher s) (hle : A.length ≤ w.total) :
    (w.finish B sha256 s).1 = outcome sha256 w.total w.expectedDigest A ∧
      I A (w.finish B sha256 s).2 := by
  refine ⟨?_, ?_⟩
  · rw [finish_eq_close sha256 h fun _ => hB.finish _ _ s]
    exact close_eq_outcome hle
  · rw [(finish_cases B sha256 h s).1]
    split_ifs with hnil
    · have hA : w.hasher = A := by rw [← h.bytes, hnil, List.append_nil]
      exact hA ▸ hs
    · have hfinish := hB.finish w.durable w.pending s
      rw [h.durable] at hfinish ⊢
      exact h.bytes ▸ hI.finish hs hfinish

/-- The run and its end. -/
theorem upload_of_follows (hB : B.Keeps) (hI : B.Follows I) (sha256 : List UInt8 → Digest)
    {total : ℕ} (htotal : total < 2 ^ 64) (expectedDigest : Digest) (chunks : List (List UInt8))
    (hle : chunks.flatten.length ≤ total) (hs : I [] s) :
    let r := upload B sha256 total expectedDigest chunks s
    (∀ t ∈ r.1, t.answer = .ok ()) ∧
      r.2.1 = outcome sha256 total expectedDigest chunks.flatten ∧ I chunks.flatten r.2.2 := by
  obtain ⟨hanswers, hholds, hlater, hfollow⟩ := appendAll_of_keeps hB hI chunks
    (holds_start total expectedDigest) hs htotal (by rwa [List.nil_append])
  rw [List.nil_append] at hholds
  have hend := finish_of_follows hB hI sha256 hholds hfollow (by rw [hlater.total]; exact hle)
  rw [hlater.total, hlater.expectedDigest] at hend
  exact ⟨hanswers, hend.1, hend.2⟩

/-- **The outcome of an upload depends only on the bytes**: to a backend that keeps its
promise, every append is accepted, the answer is that of the bytes, whatever the chunks and
the watermarks, and what is stored is the bytes. -/
theorem upload_outcome (B : ArtifactStorage σ ε) (hB : B.Keeps) (sha256 : List UInt8 → Digest)
    (total : ℕ) (htotal : total < 2 ^ 64) (expectedDigest : Digest) (s₀ : σ)
    (chunks : List (List UInt8)) (hle : chunks.flatten.length ≤ total) :
    let D := chunks.flatten
    (∀ t ∈ (upload B sha256 total expectedDigest chunks s₀).1, t.answer = .ok ()) ∧
    (upload B sha256 total expectedDigest chunks s₀).2.1 =
      (if D.length < total then .error (.incomplete D.length)
        else if sha256 D ≠ expectedDigest then .error (.digestMismatch (sha256 D))
        else .ok ⟨total, sha256 D⟩) ∧
    (∀ m₀ : Memory,
      Stored m₀ D (upload B.storing sha256 total expectedDigest chunks (s₀, m₀)).2.2.2) ∧
    ∀ (σ' : Type) (B' : ArtifactStorage σ' ε) (s₀' : σ') (chunks' : List (List UInt8)),
      B'.Keeps → chunks'.flatten = D →
      (upload B' sha256 total expectedDigest chunks' s₀').2.1 =
        (upload B sha256 total expectedDigest chunks s₀).2.1 := by
  intro D
  obtain ⟨hanswers, houtcome, -⟩ := upload_of_follows (s := s₀) hB B.follows_trivial sha256 htotal
    expectedDigest chunks hle trivial
  refine ⟨hanswers, houtcome, fun m₀ => ?_, fun σ' B' s₀' chunks' hB' hD => ?_⟩
  · exact (upload_of_follows (s := (s₀, m₀)) hB.storing
      (ArtifactStorage.follows_stored hB m₀) sha256 htotal expectedDigest chunks hle
      (stored_nil m₀)).2.2
  · obtain ⟨-, houtcome', -⟩ := upload_of_follows (s := s₀') hB' B'.follows_trivial sha256 htotal
      expectedDigest chunks' (hD ▸ hle) trivial
    rw [houtcome, houtcome', hD]

/-- Three bytes in two chunks, to a backend that keeps the last byte of every write
pending. -/
theorem upload_outcome_keepsOneBack :
    (upload keepsOneBack (fun _ _ => 7) 3 (fun _ => 7) [[1, 2], [3]] ()).2.1 =
      .ok ⟨3, fun _ => 7⟩ :=
  (upload_outcome keepsOneBack keeps_keepsOneBack (fun _ _ => 7) 3 (by decide) (fun _ => 7) ()
    [[1, 2], [3]] (by decide)).2.1

end WriteSession

end Storing

end AtomicOta.Artifact
