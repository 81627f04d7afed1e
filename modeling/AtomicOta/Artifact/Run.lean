import AtomicOta.Artifact.Session

/-!
# A session against any backend

A write session is a caller's to feed and a backend's to answer, and the backend is not
trusted: it may fail at any call, or report a watermark that has nothing to do with what it
was offered. This file runs a session over any list of chunks
(`AtomicOta.Artifact.WriteSession.appendAll`), keeping the session after every error, and
says what is true of it at every moment.

The reference point is the list of bytes the session *took*: the chunks of the calls that
were not refused as too large (`AtomicOta.Artifact.taken`), in order. A session at work is
these bytes cut in two, at its durable offset: the hasher has the first part and the pending
bytes are the second. An error of the backend, or a watermark it cannot have meant, comes
after the chunk was taken and leaves the cut where it was.

What a backend is offered is part of the statement, so it is run behind a recorder,
`AtomicOta.Artifact.ArtifactStorage.recorded`, that answers as it does and notes the calls
(`AtomicOta.Artifact.WriteSession.appendAll_recorded`).
-/

namespace AtomicOta.Artifact

/-- A call a backend receives: the durable offset and the pending bytes it is offered. -/
inductive Call where
  | write (durable : ℕ) (pending : List UInt8)
  | finish (durable : ℕ) (pending : List UInt8)
  deriving DecidableEq

/-- A backend with a record of the calls it received, oldest first. -/
def ArtifactStorage.recorded {σ ε : Type} (B : ArtifactStorage σ ε) :
    ArtifactStorage (σ × List Call) ε where
  write durable pending s :=
    ((B.write durable pending s.1).1, (B.write durable pending s.1).2,
      s.2 ++ [.write durable pending])
  finish durable pending s :=
    ((B.finish durable pending s.1).1, (B.finish durable pending s.1).2,
      s.2 ++ [.finish durable pending])

/-- An append, with the answer it got. -/
structure Turn (ε : Type) where
  chunk : List UInt8
  answer : Except (Error ε) Unit

/-- Whether an append was refused before anything was done. -/
def Turn.refused {ε : Type} (t : Turn ε) : Bool :=
  match t.answer with
  | .error .tooLarge => true
  | _ => false

theorem refused_eq_false {ε : Type} {answer : Except (Error ε) Unit} (chunk : List UInt8)
    (h : answer ≠ .error .tooLarge) : Turn.refused ⟨chunk, answer⟩ = false := by
  unfold Turn.refused
  split
  · rename_i heq
    exact absurd heq h
  · rfl

/-- **The bytes a session took**: the chunks of the appends that were not refused. -/
def taken {ε : Type} (ts : List (Turn ε)) : List UInt8 :=
  (ts.filter fun t => !t.refused).flatMap Turn.chunk

@[simp] theorem taken_nil {ε : Type} : taken ([] : List (Turn ε)) = [] := rfl

theorem taken_cons {ε : Type} (t : Turn ε) (ts : List (Turn ε)) :
    taken (t :: ts) = (if t.refused then [] else t.chunk) ++ taken ts := by
  rcases h : t.refused <;> simp [taken, h]

namespace WriteSession

section Run

variable {σ ε : Type}

/-- One append after the other, each to the session and the backend the one before left. -/
def appendAll (B : ArtifactStorage σ ε) :
    List (List UInt8) → WriteSession → σ → List (Turn ε) × WriteSession × σ
  | [], w, s => ([], w, s)
  | c :: cs, w, s =>
    let r := w.append B c s
    let rest := appendAll B cs r.2.1 r.2.2
    (⟨c, r.1⟩ :: rest.1, rest.2)

/-! ### One operation -/

/-- What the operations of a session never take back: its watermark does not go down, and
what it was begun for does not change. -/
structure Later (w w' : WriteSession) : Prop where
  durable : w.durable ≤ w'.durable
  total : w'.total = w.total
  expectedDigest : w'.expectedDigest = w.expectedDigest

variable {B : ArtifactStorage σ ε} {w : WriteSession} {A data : List UInt8} {s : σ}

theorem Later.refl (w : WriteSession) : w.Later w := ⟨le_rfl, rfl, rfl⟩

theorem Later.trans {w w' w'' : WriteSession} (h : w.Later w') (h' : w'.Later w'') :
    w.Later w'' :=
  ⟨h.durable.trans h'.durable, h'.total.trans h.total,
    h'.expectedDigest.trans h.expectedDigest⟩

theorem later_advance (w : WriteSession) (newDurable : ℕ) :
    w.Later (w.advance newDurable : Except (Error ε) Unit × WriteSession).2 := by
  unfold advance
  split_ifs with hback
  · exact .refl w
  · dsimp only
    split_ifs with hpast
    · exact .refl w
    · exact ⟨Nat.not_lt.mp hback, rfl, rfl⟩

/-- `advance` refuses a watermark, but never says that something is too large. -/
theorem advance_ne_tooLarge (w : WriteSession) (newDurable : ℕ) :
    (w.advance newDurable : Except (Error ε) Unit × WriteSession).1 ≠ .error .tooLarge := by
  unfold advance
  split_ifs
  · simp
  · dsimp only
    split_ifs <;> simp

/-- **What an append does, whatever the backend answers**: it is refused and nothing
changes, or the session holds the chunk as well, its watermark has not gone back, and the
backend was offered everything it does not call durable. -/
theorem append_cases (B : ArtifactStorage σ ε) (h : w.Holds A) (data : List UInt8) (s : σ) :
    let r := w.append B data s
    (r.1 = .error .tooLarge ∧ r.2 = (w, s)) ∨
      (r.1 ≠ .error .tooLarge ∧ r.2.1.Holds (A ++ data) ∧ w.received + data.length ≤ w.total ∧
        w.Later r.2.1 ∧ r.2.2 = (B.write w.durable (w.pending ++ data) s).2) := by
  intro r
  by_cases hlarge : w.total < w.received + data.length
  · exact .inl (by rw [show r = _ from append_tooLarge hlarge]; exact ⟨rfl, rfl⟩)
  have hr : r = w.append B data s := rfl
  unfold append at hr
  by_cases hfits : w.received + data.length < 2 ^ 64
  · right
    rw [checkedAdd64, if_pos hfits] at hr
    dsimp only at hr
    rw [if_neg hlarge] at hr
    -- the chunk is taken before the backend is asked
    set w₁ := w.extend data (w.received + data.length) with hw₁
    have h₁ : w₁.Holds (A ++ data) := h.extend data
    rcases hwrite : B.write w₁.durable w₁.pending s with ⟨⟨e⟩ | newDurable, s'⟩
    · rw [hwrite] at hr
      rw [hr]
      exact ⟨by simp, h₁, Nat.not_lt.mp hlarge, ⟨le_rfl, rfl, rfl⟩,
        (congrArg Prod.snd hwrite).symm⟩
    · rw [hwrite] at hr
      rw [hr]
      have hlater : w₁.Later (w₁.advance newDurable : Except (Error ε) Unit × WriteSession).2 :=
        later_advance w₁ newDurable
      exact ⟨advance_ne_tooLarge w₁ newDurable, h₁.advance newDurable, Nat.not_lt.mp hlarge,
        ⟨hlater.durable, hlater.total, hlater.expectedDigest⟩, (congrArg Prod.snd hwrite).symm⟩
  · left
    rw [checkedAdd64, if_neg hfits] at hr
    rw [hr]
    exact ⟨rfl, rfl⟩

/-- What the last checks pass. -/
theorem close_ok {sha256 : List UInt8 → Digest} {c : Committed}
    (h : (w.close sha256 : Except (Error ε) Committed) = .ok c) :
    w.durable = w.total ∧ sha256 w.hasher = w.expectedDigest ∧
      c = ⟨w.durable, sha256 w.hasher⟩ := by
  unfold close at h
  split_ifs at h with hd
  dsimp only at h
  split_ifs at h with hdigest
  cases h
  exact ⟨not_ne_iff.mp hd, not_ne_iff.mp hdigest, rfl⟩

/-- What the last checks pass, of a session that has hashed all it took. -/
theorem Holds.close_ok {sha256 : List UInt8 → Digest} {c : Committed} (h : w.Holds A)
    (hd : w.durable = A.length) (hc : (w.close sha256 : Except (Error ε) Committed) = .ok c) :
    A.length = w.total ∧ c.size = w.total ∧ c.digest = sha256 A ∧ c.digest = w.expectedDigest := by
  obtain ⟨htotal, hdigest, rfl⟩ := WriteSession.close_ok hc
  rw [h.hasher_eq_of_durable hd] at hdigest ⊢
  exact ⟨hd.symm.trans htotal, htotal, rfl, hdigest⟩

/-- **What `finish` does, whatever the backend answers**: if something is pending the
backend is asked once, with all of it, and what is committed is what the session took. -/
theorem finish_cases (B : ArtifactStorage σ ε) (sha256 : List UInt8 → Digest) (h : w.Holds A)
    (s : σ) :
    let r := w.finish B sha256 s
    r.2 = (if w.pending = [] then s else (B.finish w.durable w.pending s).2) ∧
      ∀ c, r.1 = .ok c → A.length = w.total ∧ c.size = w.total ∧ c.digest = sha256 A ∧
        c.digest = w.expectedDigest := by
  have hreceived : w.durable + w.pending.length = A.length := by rw [← h.received_eq, h.received]
  unfold finish
  dsimp only
  by_cases hnil : w.pending = []
  · rw [if_pos hnil, if_pos hnil]
    rw [hnil, List.length_nil, Nat.add_zero] at hreceived
    exact ⟨rfl, fun c hc => h.close_ok hreceived hc⟩
  · rw [if_neg hnil, if_neg hnil]
    have hlater := later_advance (ε := ε) w
    rcases hfinish : B.finish w.durable w.pending s with ⟨⟨e⟩ | newDurable, s'⟩
    · exact ⟨rfl, fun c hc => by cases hc⟩
    · dsimp only
      specialize hlater newDurable
      have hadv := h.advance (ε := ε) newDurable
      rcases hr : (w.advance newDurable : Except (Error ε) Unit × WriteSession) with ⟨⟨e⟩ | _, w'⟩
      · exact ⟨rfl, fun c hc => by cases hc⟩
      · rw [hr] at hlater hadv
        dsimp only at hlater hadv ⊢
        split_ifs with hshort
        · exact ⟨rfl, fun c hc => by cases hc⟩
        · refine ⟨rfl, fun c hc => ?_⟩
          rw [← hlater.total, ← hlater.expectedDigest]
          exact hadv.close_ok ((not_ne_iff.mp hshort).trans hreceived) hc

/-! ### A whole run -/

/-- **The invariant of a run**: the session holds the bytes it took, and no more than the
artifact has. -/
theorem appendAll_holds (B : ArtifactStorage σ ε) (cs : List (List UInt8)) (h : w.Holds A)
    (hle : w.received ≤ w.total) (s : σ) :
    let r := appendAll B cs w s
    r.2.1.Holds (A ++ taken r.1) ∧ r.2.1.received ≤ r.2.1.total ∧ w.Later r.2.1 := by
  induction cs generalizing w A s with
  | nil => exact ⟨by simpa [appendAll] using h, hle, .refl w⟩
  | cons c cs ih =>
    dsimp only [appendAll]
    rw [taken_cons]
    rcases append_cases B h c s with ⟨hanswer, heq⟩ | ⟨hanswer, hholds, hfits, hlater, -⟩
    · -- refused: the next append finds the session as it was
      rw [hanswer, heq]
      exact ih h hle s
    · have hrefused := refused_eq_false c hanswer
      have hle' : (w.append B c s).2.1.received ≤ (w.append B c s).2.1.total := by
        rw [hholds.received, List.length_append, ← h.received, hlater.total]
        exact hfits
      obtain ⟨hrest, hbound, hrest'⟩ := ih hholds hle' (w.append B c s).2.2
      rw [hrefused, if_neg (by decide), ← List.append_assoc]
      exact ⟨hrest, hbound, hlater.trans hrest'⟩

/-! ### The recorder -/

/-- The recorder changes nothing for the session, nor for the backend. -/
theorem append_recorded (B : ArtifactStorage σ ε) (w : WriteSession) (data : List UInt8) (s : σ)
    (log : List Call) :
    let r := w.append B.recorded data (s, log)
    r.1 = (w.append B data s).1 ∧ r.2.1 = (w.append B data s).2.1 ∧
      r.2.2.1 = (w.append B data s).2.2 := by
  unfold append
  rcases checkedAdd64 w.received data.length with _ | stop
  · exact ⟨rfl, rfl, rfl⟩
  · dsimp only
    split_ifs
    · exact ⟨rfl, rfl, rfl⟩
    · dsimp only [ArtifactStorage.recorded]
      rcases B.write _ _ s with ⟨⟨e⟩ | newDurable, s'⟩ <;> exact ⟨rfl, rfl, rfl⟩

theorem appendAll_recorded (B : ArtifactStorage σ ε) (cs : List (List UInt8)) (w : WriteSession)
    (s : σ) (log : List Call) :
    let r := appendAll B.recorded cs w (s, log)
    r.1 = (appendAll B cs w s).1 ∧ r.2.1 = (appendAll B cs w s).2.1 ∧
      r.2.2.1 = (appendAll B cs w s).2.2 := by
  induction cs generalizing w s log with
  | nil => exact ⟨rfl, rfl, rfl⟩
  | cons c cs ih =>
    obtain ⟨hanswer, hsession, hstate⟩ := append_recorded B w c s log
    obtain ⟨hrest, hrest'⟩ := ih (w.append B c s).2.1 (w.append B c s).2.2
      (w.append B.recorded c (s, log)).2.2.2
    dsimp only [appendAll]
    rw [hanswer, hsession, ← hrest, ← hrest'.1, ← hrest'.2, ← hstate]
    exact ⟨rfl, rfl, rfl⟩

/-! ### The statement -/

/-- **A session that tracks the bytes it took**: they are cut at the durable offset, what
is before it is hashed and what is after it is pending, and no more was taken than the
artifact has. -/
structure Tracks (w : WriteSession) (A : List UInt8) : Prop where
  received_eq : w.received = A.length
  cut : w.received = w.durable + w.pending.length
  durable_le : w.durable ≤ w.received
  received_le : w.received ≤ w.total
  pending_eq : w.pending = (A.take w.received).drop w.durable
  hasher_eq : w.hasher = A.take w.durable

theorem Holds.tracks (h : w.Holds A) (hle : w.received ≤ w.total) : w.Tracks A := by
  have hcut := h.received_eq
  refine ⟨h.received, hcut, by omega, hle, ?_, h.hasher_eq⟩
  rw [h.received, List.take_length, h.pending_eq]

/-- **A session against any backend**: after any appends it tracks the bytes it took, no
further append takes its watermark back, every call of the backend is offered the durable
offset and all that is pending there, and what is committed in the end is what was taken,
verified. -/
theorem session_tracks (B : ArtifactStorage σ ε) (sha256 : List UInt8 → Digest) (total : ℕ)
    (expectedDigest : Digest) (s₀ : σ) (chunks : List (List UInt8)) :
    let run := appendAll B.recorded chunks (start total expectedDigest) (s₀, [])
    let A := taken run.1
    let w := run.2.1
    let s := run.2.2
    let last := w.finish B.recorded sha256 s
    w.Tracks A ∧ w.total = total ∧
    (∀ data,
      let r := w.append B.recorded data s
      w.durable ≤ r.2.1.durable ∧
        r.2.2.2 = s.2 ++ if (⟨data, r.1⟩ : Turn ε).refused then []
          else [.write w.durable ((A ++ data).drop w.durable)]) ∧
    last.2.2 = s.2 ++ (if w.pending = [] then [] else [.finish w.durable (A.drop w.durable)]) ∧
    ∀ committed, last.1 = .ok committed → A.length = total ∧ committed.size = total ∧
      committed.digest = sha256 A ∧ committed.digest = expectedDigest := by
  intro run A w s last
  obtain ⟨hholds, hle, hlater⟩ :=
    appendAll_holds B.recorded chunks (holds_start total expectedDigest) (Nat.zero_le _) (s₀, [])
  have hw : w.Holds A := hholds
  obtain ⟨hlast, hok⟩ := finish_cases B.recorded sha256 hw s
  refine ⟨hw.tracks hle, hlater.total, fun data => ?_, ?_, fun c hc => ?_⟩
  · rcases append_cases B.recorded hw data s with ⟨hanswer, heq⟩ | ⟨hanswer, -, -, hmore, heq⟩
    · dsimp only
      rw [hanswer, heq]
      exact ⟨le_rfl, (List.append_nil _).symm⟩
    · refine ⟨hmore.durable, ?_⟩
      have hrefused := refused_eq_false data hanswer
      have hdrop : (A ++ data).drop w.durable = w.pending ++ data := by
        rw [List.drop_append_of_le_length, hw.pending_eq]
        rw [hw.durable, ← hw.bytes, List.length_append]
        exact Nat.le_add_right _ _
      rw [hrefused, heq, hdrop]
      rfl
  · rw [show last.2 = _ from hlast, ← hw.pending_eq]
    split_ifs
    · exact (List.append_nil _).symm
    · rfl
  · obtain ⟨hall, hsize, hdigest, hexpected⟩ := hok c hc
    exact ⟨hall.trans hlater.total, hsize.trans hlater.total, hdigest,
      hexpected.trans hlater.expectedDigest⟩

end Run

end WriteSession

end AtomicOta.Artifact
