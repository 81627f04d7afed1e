import AtomicOta.Artifact.Outcome
import Mathlib.Logic.Relation

/-!
# Delivery over a network

An upload that arrives in messages. What becomes of a message is up to two functions of the
source, `AtomicOta.Artifact.resumePlan` and `AtomicOta.Artifact.isComplete`; the receiver
(`AtomicOta.Artifact.Receiver.handle`) does as they say, keeps a session from one message to the
next, and gives it up when the backend fails. The network loses messages, repeats and reorders
them, there may be several senders, and the receiver may restart at any time, which leaves no
session and anything in the storage (`AtomicOta.Artifact.Moves`).

A session may only be resumed while nothing is pending
(`AtomicOta.Artifact.resume_intact_iff`), and it is the senders who have to see to that. A
backend that works in units (`AtomicOta.Artifact.ArtifactStorage.Whole`) keeps nothing back at
the end of a unit. If every message is a piece of one artifact that ends there, or with the
artifact, and one without a range brings all that is left (`AtomicOta.Artifact.Message.Carries`),
then whatever the network does

* no byte is lost or taken twice: every answer is the one that the message deserves, by what the
  backend answers to it, and what is committed is the artifact, in the storage as well
  (`AtomicOta.Artifact.Handled`);
* as long as the backend keeps its promise (`AtomicOta.Artifact.ArtifactStorage.Keeps`), a sender
  that goes on from the offset it is told needs no more messages than there are pieces left
  (`AtomicOta.Artifact.delivery_exact`).
-/

namespace AtomicOta.Artifact

/-! ### The receiver -/

/-- A message, as the caller has decoded it. -/
structure Message where
  claimsProgress : Bool
  claimedOffset : ℕ
  claimsRange : Bool
  /-- The offset of the last byte. -/
  claimedEnd : ℕ
  data : List UInt8

/-- What a message is answered with. -/
inductive Answer (ε : Type) where
  /-- The claim does not match: go on from here. -/
  | resync (durable : ℕ)
  | failed (e : Error ε)
  | accepted (durable : ℕ)
  | finished (result : Except (Error ε) Committed)

/-- A receiver: a session, if one is in progress, and the backend's state. -/
structure Receiver (σ : Type) where
  session : Option WriteSession
  storage : σ

/-- What the receiver reports as durable. -/
def Receiver.durable {σ : Type} (r : Receiver σ) : ℕ := r.session.elim 0 WriteSession.durable

section Receiving

variable {σ ε : Type}

/-- Takes the bytes of a message into a session, and finishes it with the last of them. -/
def receive (B : ArtifactStorage σ ε) (sha256 : List UInt8 → Digest) (w : WriteSession)
    (m : Message) (s : σ) : Answer ε × Receiver σ :=
  match w.append B m.data s with
  | (.error e, _, s) => (.failed e, ⟨none, s⟩)
  | (.ok (), w, s) =>
    if isComplete m.claimsRange m.claimedEnd w.total then
      let r := w.finish B sha256 s
      (.finished r.1, ⟨none, r.2⟩)
    else (.accepted w.durable, ⟨some w, s⟩)

/-- A message arrives. -/
def Receiver.handle (B : ArtifactStorage σ ε) (sha256 : List UInt8 → Digest) (total : ℕ)
    (expectedDigest : Digest) (m : Message) (r : Receiver σ) : Answer ε × Receiver σ :=
  match resumePlan m.claimsProgress m.claimedOffset r.session.isSome r.durable, r.session with
  | .begin, _ => receive B sha256 (.start total expectedDigest) m r.storage
  | .continue, some w => receive B sha256 w m r.storage
  | _, _ => (.resync r.durable, r)

/-- One message after the other: the answers, and what is left. -/
def Receiver.handleAll (B : ArtifactStorage σ ε) (sha256 : List UInt8 → Digest) (total : ℕ)
    (expectedDigest : Digest) : List Message → Receiver σ → List (Answer ε) × Receiver σ
  | [], r => ([], r)
  | m :: ms, r =>
    let h := r.handle B sha256 total expectedDigest m
    let rest := handleAll B sha256 total expectedDigest ms h.2
    (h.1 :: rest.1, rest.2)

/-- **What can happen to a receiver**: one of the messages that were sent arrives, or it
restarts. -/
inductive Moves (B : ArtifactStorage σ ε) (sha256 : List UInt8 → Digest) (total : ℕ)
    (expectedDigest : Digest) (sent : Message → Prop) : Receiver σ → Receiver σ → Prop
  | deliver (r : Receiver σ) (m : Message) (h : sent m) :
    Moves B sha256 total expectedDigest sent r (r.handle B sha256 total expectedDigest m).2
  | restart (r : Receiver σ) (s : σ) : Moves B sha256 total expectedDigest sent r ⟨none, s⟩

end Receiving

/-! ### Messages of an artifact -/

/-- Where the bytes of a message start. -/
def Message.start (m : Message) : ℕ := if m.claimsProgress then m.claimedOffset else 0

/-- Where they end. -/
def Message.stop (m : Message) : ℕ := m.start + m.data.length

/-- **A message of an artifact**: its bytes are those at its place, its range is right, and it
ends with a unit or with the artifact. -/
structure Message.Carries (u : ℕ) (D : List UInt8) (m : Message) : Prop where
  within : m.stop ≤ D.length
  data_eq : m.data = (D.drop m.start).take m.data.length
  range : m.claimsRange = true → m.claimedEnd + 1 = m.stop
  /-- Without a range, it brings all that is left. -/
  rest : m.claimsRange = false → m.stop = D.length
  unit : u ∣ m.stop ∨ m.stop = D.length

/-- **A backend that works in units**: what it does not refuse it answers with a watermark
within the offer, it keeps nothing back at the end of a unit, and nothing in the end. -/
structure ArtifactStorage.Whole {σ ε : Type} (B : ArtifactStorage σ ε) (u : ℕ) : Prop where
  write : ∀ durable pending s, (∃ e, (B.write durable pending s).1 = .error e) ∨
    ∃ k ≤ pending.length, (B.write durable pending s).1 = .ok (durable + k) ∧
      (u ∣ durable + pending.length → k = pending.length)
  finish : ∀ durable pending s, (∃ e, (B.finish durable pending s).1 = .error e) ∨
    (B.finish durable pending s).1 = .ok (durable + pending.length)

variable {σ ε : Type} {B : ArtifactStorage σ ε} {sha256 : List UInt8 → Digest} {D : List UInt8}
variable {u : ℕ} {I : List UInt8 → σ → Prop} {m : Message} {r : Receiver σ} {w : WriteSession}
variable {s : σ}

/-- A message is the last one if it ends with the artifact. -/
theorem Message.Carries.isComplete_iff (h : m.Carries u D) (hD : D.length < 2 ^ 64) :
    isComplete m.claimsRange m.claimedEnd D.length = true ↔ m.stop = D.length := by
  cases hrange : m.claimsRange with
  | false => exact iff_of_true rfl (h.rest hrange)
  | true =>
    have hend := h.range hrange
    constructor
    · intro hlast
      rw [← hend, eq_of_isComplete hlast]
    · intro hstop
      have hlt : m.claimedEnd + 1 < 2 ^ 64 := by omega
      rw [isComplete, checkedAdd64, if_pos hlt, hend, hstop]
      simp

/-- **A receiver between messages**: no session, or one that has hashed a part of the artifact
that ends with a unit, keeps nothing pending, and has the backend follow. -/
structure Resumable (sha256 : List UInt8 → Digest) (D : List UInt8) (u : ℕ)
    (I : List UInt8 → σ → Prop) (w : WriteSession) (s : σ) : Prop where
  working : Working sha256 D w
  pending : w.pending = []
  unit : u ∣ w.durable
  lt : w.durable < D.length
  follows : I w.hasher s

/-- What a message that is taken makes the backend do: it is offered all of it, -/
def Message.offer (m : Message) (B : ArtifactStorage σ ε) (s : σ) : Except ε ℕ × σ :=
  B.write m.start m.data s

/-- and what it kept back after `k` bytes of the last one it is to flush. -/
def Message.flush (m : Message) (B : ArtifactStorage σ ε) (k : ℕ) (s : σ) : Except ε ℕ × σ :=
  B.finish (m.start + k) (m.data.drop k) (m.offer B s).2

/-- **What a message deserves**, by what the backend answers to it. -/
inductive Handled (B : ArtifactStorage σ ε) (sha256 : List UInt8 → Digest) (D : List UInt8)
    (u : ℕ) (I : List UInt8 → σ → Prop) (r : Receiver σ) (m : Message) :
    Answer ε × Receiver σ → Prop
  /-- It starts neither at the beginning nor where the receiver is, and nothing is done. -/
  | resync (hstart : m.start ≠ 0) (hne : m.start ≠ r.durable) :
    Handled B sha256 D u I r m (.resync r.durable, r)
  /-- The backend takes it, and there are more to come. -/
  | accepted (hat : m.start = 0 ∨ m.start = r.durable) (hlt : m.stop < D.length)
    (hoffer : (m.offer B r.storage).1 = .ok m.stop) (w : WriteSession)
    (hw : Resumable sha256 D u I w (m.offer B r.storage).2) (hd : w.durable = m.stop) :
    Handled B sha256 D u I r m (.accepted m.stop, ⟨some w, (m.offer B r.storage).2⟩)
  /-- It is the last one, the backend takes it, at once or in the end, and the artifact is
  committed. -/
  | finished (hat : m.start = 0 ∨ m.start = r.durable) (hstop : m.stop = D.length) {k : ℕ}
    (hoffer : (m.offer B r.storage).1 = .ok (m.start + k))
    (hflush : k = m.data.length ∨ (m.flush B k r.storage).1 = .ok m.stop) (s : σ) (hs : I D s) :
    Handled B sha256 D u I r m (.finished (.ok ⟨D.length, sha256 D⟩), ⟨none, s⟩)
  /-- The backend refuses it. -/
  | failed (hat : m.start = 0 ∨ m.start = r.durable) {e : ε}
    (hoffer : (m.offer B r.storage).1 = .error e) :
    Handled B sha256 D u I r m (.failed (.backend e), ⟨none, (m.offer B r.storage).2⟩)
  /-- It is the last one, and the backend refuses what it has kept back of it. -/
  | unfinished (hat : m.start = 0 ∨ m.start = r.durable) (hstop : m.stop = D.length) {k : ℕ}
    (hk : k < m.data.length) (hoffer : (m.offer B r.storage).1 = .ok (m.start + k)) {e : ε}
    (hflush : (m.flush B k r.storage).1 = .error e) :
    Handled B sha256 D u I r m (.finished (.error (.backend e)), ⟨none, (m.flush B k r.storage).2⟩)

/-! ### One message -/

/-- An append to a backend that fails. -/
theorem append_of_error {data : List UInt8} {e : ε} (htotal : w.total < 2 ^ 64)
    (hfits : w.received + data.length ≤ w.total)
    (he : (B.write w.durable (w.pending ++ data) s).1 = .error e) :
    ∃ w', w.append B data s =
      (.error (.backend e), w', (B.write w.durable (w.pending ++ data) s).2) := by
  have hcheck : checkedAdd64 w.received data.length = some (w.received + data.length) :=
    if_pos (by omega)
  unfold WriteSession.append
  rw [hcheck]
  dsimp only
  rw [if_neg (by omega)]
  rcases hwrite : B.write w.durable (w.pending ++ data) s with ⟨r, t⟩
  rw [hwrite] at he
  dsimp only at he
  subst he
  have hwrite' : B.write (w.extend data (w.received + data.length)).durable
      (w.extend data (w.received + data.length)).pending s = (.error e, t) := hwrite
  rw [hwrite']
  exact ⟨_, rfl⟩

/-- A last flush that fails. -/
theorem finish_of_error {e : ε} (hnil : w.pending ≠ [])
    (he : (B.finish w.durable w.pending s).1 = .error e) :
    w.finish B sha256 s = (.error (.backend e), (B.finish w.durable w.pending s).2) := by
  unfold WriteSession.finish
  rw [if_neg hnil]
  rcases hfinish : B.finish w.durable w.pending s with ⟨r, t⟩
  rw [hfinish] at he
  dsimp only at he
  subst he
  rfl

/-- A session that is at work stays so with the bytes that come next. -/
theorem Working.moved {data : List UInt8} {k : ℕ} (h : Working sha256 D w)
    (hdata : data = (D.drop w.received).take data.length)
    (hle : w.received + data.length ≤ D.length) (hk : k ≤ (w.pending ++ data).length) :
    Working sha256 D (w.moved data k) := by
  refine ⟨?_, hle, h.total, h.expected⟩
  have hfits : Offer.Fits D (⟨w, (), ⟨w.received, data⟩⟩ : Offer Unit) := hdata
  have happend : D.take w.received ++ data = D.take (w.received + data.length) := hfits.append_eq
  exact happend ▸ WriteSession.moved_holds h.holds hk

/-- **The end of an upload**: a session that was given all of the artifact commits it, unless
the backend refuses what is pending. -/
theorem finish_of_all (hB : B.Whole u) (hI : B.Follows I) (hw : Working sha256 D w)
    (hall : w.received = D.length) (hs : I w.hasher s) :
    (∃ e, w.pending ≠ [] ∧ (B.finish w.durable w.pending s).1 = .error e ∧
        w.finish B sha256 s = (.error (.backend e), (B.finish w.durable w.pending s).2)) ∨
      ((w.pending = [] ∨ (B.finish w.durable w.pending s).1 = .ok D.length) ∧
        (w.finish B sha256 s).1 = .ok ⟨D.length, sha256 D⟩ ∧ I D (w.finish B sha256 s).2) := by
  have hholds : w.Holds D := by
    have h := hw.holds
    rwa [hall, List.take_length] at h
  have hclose : (WriteSession.close ⟨w.total, w.expectedDigest, w.received, D.length, [], D⟩
      sha256 : Except (Error ε) Committed) = .ok ⟨D.length, sha256 D⟩ := by
    unfold WriteSession.close
    dsimp only
    rw [if_neg (not_not.mpr hw.total.symm), if_neg (not_not.mpr hw.expected.symm)]
  have hleft := (WriteSession.finish_cases B sha256 hholds s).1
  by_cases hnil : w.pending = []
  · refine .inr ⟨.inl hnil, (WriteSession.finish_eq_close sha256 hholds
      fun hne => absurd hnil hne).trans hclose, ?_⟩
    have hhasher : w.hasher = D := by rw [← hholds.bytes, hnil, List.append_nil]
    rw [hleft, if_pos hnil]
    exact hhasher ▸ hs
  · rcases hB.finish w.durable w.pending s with ⟨e, he⟩ | hok
    · exact .inl ⟨e, hnil, he, finish_of_error hnil he⟩
    · have hend : w.durable + w.pending.length = D.length := by rw [← hholds.received_eq, hall]
      refine .inr ⟨.inr (hend ▸ hok), (WriteSession.finish_eq_close sha256 hholds
        fun _ => hok).trans hclose, ?_⟩
      rw [hholds.durable] at hok
      rw [hleft, if_neg hnil, hholds.durable]
      exact hholds.bytes ▸ hI.finish hs hok

/-- The last bytes of an artifact, once the backend has answered to them: what it keeps back is
flushed. -/
theorem handled_last {k : ℕ} (hB : B.Whole u) (hI : B.Follows I) (hw : Working sha256 D w)
    (hall : w.received = D.length) (hk : k ≤ m.data.length) (hdurable : w.durable = m.start + k)
    (hpending : w.pending = m.data.drop k) (hoffer : (m.offer B r.storage).1 = .ok (m.start + k))
    (hfollows : I w.hasher (m.offer B r.storage).2) (hfrom : m.start = 0 ∨ m.start = r.durable)
    (hstop : m.stop = D.length) :
    let f := w.finish B sha256 (m.offer B r.storage).2
    Handled B sha256 D u I r m (.finished f.1, ⟨none, f.2⟩) := by
  have hfinish := finish_of_all hB hI hw hall hfollows
  rw [hdurable, hpending] at hfinish
  dsimp only
  rcases hfinish with ⟨e, hne, he, hfailed⟩ | ⟨hflush, hc, hstored⟩
  · rw [hfailed]
    refine .unfinished hfrom hstop (lt_of_le_of_ne hk fun heq => hne ?_) hoffer he
    rw [heq, List.drop_length]
  · rw [hc]
    refine .finished hfrom hstop hoffer (hflush.imp (fun hdrop => ?_) fun h => hstop ▸ h) _ hstored
    exact Nat.le_antisymm hk (List.drop_eq_nil_iff.mp hdrop)

/-- **Bytes that go on where a session is** are taken, and the last of them commit. -/
theorem receive_handled (hB : B.Whole u) (hI : B.Follows I) (hD : D.length < 2 ^ 64)
    (hm : m.Carries u D) (hw : Working sha256 D w) (hnil : w.pending = [])
    (hs : I w.hasher r.storage) (hat : m.start = w.durable)
    (hfrom : m.start = 0 ∨ m.start = r.durable) :
    Handled B sha256 D u I r m (receive B sha256 w m r.storage) := by
  have hreceived : w.received = w.durable := by
    rw [hw.holds.received_eq, hnil, List.length_nil, Nat.add_zero]
  have hstop : m.stop = w.received + m.data.length := by rw [Message.stop, hat, hreceived]
  have hwithin := hm.within
  have hdata : m.data = (D.drop w.received).take m.data.length := by
    rw [hreceived, ← hat]
    exact hm.data_eq
  have htotal := hw.total
  -- nothing is pending, so the message is what is offered
  have hoffer : B.write w.durable (w.pending ++ m.data) r.storage = m.offer B r.storage := by
    rw [hnil, List.nil_append, ← hat, Message.offer]
  rcases hB.write w.durable (w.pending ++ m.data) r.storage with ⟨e, he⟩ | ⟨k, hk, hok, hall⟩
  · obtain ⟨w', happend⟩ := append_of_error (by omega) (by omega) he
    rw [hoffer] at he happend
    rw [receive, happend]
    exact .failed hfrom he
  · have happend := WriteSession.append_eq_moved (by omega) (by omega) hk hok
    have hmoved : Working sha256 D (w.moved m.data k) := hw.moved hdata (by omega) hk
    have hfollows : I (w.moved m.data k).hasher
        (B.write w.durable (w.pending ++ m.data) r.storage).2 := by
      rw [hw.holds.durable] at hok ⊢
      exact hI.write hs hk hok
    have hkept : (w.moved m.data k).durable = m.start + k ∧
        (w.moved m.data k).pending = m.data.drop k := by
      rw [WriteSession.moved, hnil, List.nil_append, hat]
      exact ⟨rfl, rfl⟩
    rw [hoffer] at happend hfollows hok
    rw [← hat] at hok
    rw [receive, happend]
    dsimp only
    have hlast : isComplete m.claimsRange m.claimedEnd (w.moved m.data k).total = true ↔
        m.stop = D.length := by
      rw [← hm.isComplete_iff hD, ← htotal]
      rfl
    rw [hnil, List.nil_append] at hk hall
    by_cases hend : m.stop = D.length
    · -- the last bytes
      rw [if_pos (hlast.mpr hend)]
      exact handled_last hB hI hmoved (hstop.symm.trans hend) hk hkept.1 hkept.2 hok hfollows
        hfrom hend
    · rw [if_neg (mt hlast.mp hend)]
      -- they end with a unit, so none of them is kept back
      have hunit : u ∣ m.stop := hm.unit.resolve_right hend
      have hsum : m.start + m.data.length = m.stop := rfl
      obtain rfl := hall (by rwa [← hat, hsum])
      rw [hsum] at hok hkept
      rw [hkept.1]
      refine .accepted hfrom (by omega) hok _ ⟨hmoved, ?_, ?_, ?_, hfollows⟩ hkept.1
      · rw [hkept.2, List.drop_length]
      · rwa [hkept.1]
      · rw [hkept.1]
        omega

/-- A receiver whose session, if there is one, can be resumed. -/
def Receiver.Between (sha256 : List UInt8 → Digest) (D : List UInt8) (u : ℕ)
    (I : List UInt8 → σ → Prop) (r : Receiver σ) : Prop :=
  ∀ w, r.session = some w → Resumable sha256 D u I w r.storage

theorem between_none (s : σ) : Receiver.Between sha256 D u I (⟨none, s⟩ : Receiver σ) := by
  rintro w hw
  cases hw

/-- **Every message gets what it deserves.** -/
theorem handle_handled (hB : B.Whole u) (hI : B.Follows I) (hempty : ∀ s, I [] s)
    (hD : D.length < 2 ^ 64) (hr : r.Between sha256 D u I) (hm : m.Carries u D) :
    Handled B sha256 D u I r m (r.handle B sha256 D.length (sha256 D) m) := by
  by_cases hzero : m.start = 0
  · -- it starts at the beginning: a new session
    have hplan : ∀ active durable,
        resumePlan m.claimsProgress m.claimedOffset active durable = .begin := by
      intro active durable
      rw [Message.start] at hzero
      cases hclaims : m.claimsProgress with
      | false => rfl
      | true =>
        rw [hclaims, if_pos rfl] at hzero
        simp [resumePlan, hzero]
    rw [Receiver.handle, hplan]
    exact receive_handled hB hI hD hm working_start rfl (hempty _) hzero (.inl hzero)
  · have hclaims : m.claimsProgress = true := by
      by_contra hno
      exact hzero (if_neg hno)
    have hoffset : m.start = m.claimedOffset := if_pos hclaims
    have hne : m.claimedOffset ≠ 0 := hoffset ▸ hzero
    rcases hsession : r.session with _ | w
    · have hdurable : r.durable = 0 := by rw [Receiver.durable, hsession, Option.elim_none]
      have hplan : resumePlan m.claimsProgress m.claimedOffset r.session.isSome r.durable =
          .resync := by simp [resumePlan, hclaims, hne, hsession]
      rw [Receiver.handle, hplan]
      exact .resync hzero (hdurable ▸ hzero)
    · have hdurable : r.durable = w.durable := by
        rw [Receiver.durable, hsession, Option.elim_some]
      by_cases hat : m.start = w.durable
      · -- where the session is: it is resumed
        have hplan : resumePlan m.claimsProgress m.claimedOffset r.session.isSome r.durable =
            .continue := by
          rw [hclaims, hsession, hdurable]
          exact resumePlan_eq_continue.mpr ⟨hne, hoffset.symm.trans hat⟩
        rw [Receiver.handle, hplan, hsession]
        have hw := hr w hsession
        exact receive_handled hB hI hD hm hw.working hw.pending hw.follows hat
          (.inr (hat.trans hdurable.symm))
      · have hplan : resumePlan m.claimsProgress m.claimedOffset r.session.isSome r.durable =
            .resync := by
          rw [hoffset] at hat
          simp [resumePlan, hclaims, hne, hsession, hdurable, Ne.symm hat]
        rw [Receiver.handle, hplan]
        exact .resync hzero (hdurable ▸ hat)

/-- A message leaves a receiver between messages. -/
theorem Handled.between {h : Answer ε × Receiver σ} (hh : Handled B sha256 D u I r m h)
    (hr : r.Between sha256 D u I) : h.2.Between sha256 D u I := by
  cases hh with
  | resync => exact hr
  | accepted _ _ _ w hw =>
    rintro w' hw'
    cases hw'
    exact hw
  | finished _ _ _ _ s => exact between_none s
  | failed => exact between_none _
  | unfinished => exact between_none _

/-- **And so does everything that can happen to it.** -/
theorem between_of_moves (hB : B.Whole u) (hI : B.Follows I) (hempty : ∀ s, I [] s)
    (hD : D.length < 2 ^ 64) {r₀ : Receiver σ} (hr₀ : r₀.Between sha256 D u I)
    (h : Relation.ReflTransGen (Moves B sha256 D.length (sha256 D) (Message.Carries u D)) r₀ r) :
    r.Between sha256 D u I := by
  induction h with
  | refl => exact hr₀
  | tail _ hmove ih =>
    cases hmove with
    | deliver m hm => exact (handle_handled hB hI hempty hD ih hm).between ih
    | restart s => exact between_none s

/-! ### Going on -/

/-- The piece of at most `n` bytes at an offset. -/
def piece (D : List UInt8) (d n : ℕ) : Message where
  claimsProgress := true
  claimedOffset := d
  claimsRange := true
  claimedEnd := d + min n (D.length - d) - 1
  data := (D.drop d).take n

theorem start_piece (D : List UInt8) (d n : ℕ) : (piece D d n).start = d := rfl

theorem length_piece (D : List UInt8) (d n : ℕ) :
    (piece D d n).data.length = min n (D.length - d) := by
  rw [piece, List.length_take, List.length_drop]

theorem stop_piece (D : List UInt8) (d n : ℕ) :
    (piece D d n).stop = d + min n (D.length - d) := by
  rw [Message.stop, start_piece, length_piece]

/-- A piece that starts with a unit, of as many bytes as some units have. -/
theorem carries_piece {d n : ℕ} (hn : 0 < n) (hlt : d < D.length) (hd : u ∣ d) (hu : u ∣ n) :
    (piece D d n).Carries u D := by
  have hlength := length_piece D d n
  refine ⟨?_, ?_, fun _ => ?_, fun h => ?_, ?_⟩
  · rw [stop_piece]
    omega
  · change (D.drop d).take n = (D.drop d).take (piece D d n).data.length
    rw [hlength, ← List.length_drop, List.take_eq_take_iff]
    simp
  · rw [stop_piece]
    change d + min n (D.length - d) - 1 + 1 = _
    omega
  · cases h
  · rw [stop_piece]
    rcases Nat.le_total n (D.length - d) with hle | hle
    · exact .inl (by rw [Nat.min_eq_left hle]; exact Nat.dvd_add hd hu)
    · exact .inr (by omega)

theorem dvd_durable (hr : r.Between sha256 D u I) : u ∣ r.durable := by
  rcases hsession : r.session with _ | w
  · rw [Receiver.durable, hsession, Option.elim_none]
    exact Nat.dvd_zero u
  · rw [Receiver.durable, hsession, Option.elim_some]
    exact (hr w hsession).unit

theorem durable_lt (hr : r.Between sha256 D u I) (hne : D ≠ []) : r.durable < D.length := by
  rcases hsession : r.session with _ | w
  · rw [Receiver.durable, hsession, Option.elim_none]
    exact List.length_pos_of_ne_nil hne
  · rw [Receiver.durable, hsession, Option.elim_some]
    exact (hr w hsession).lt

/-- **A sender that goes on from where the receiver is** gets to the end. -/
theorem exists_rest (hB : B.Whole u) (hI : B.Follows I) (hempty : ∀ s, I [] s)
    (hD : D.length < 2 ^ 64) (hkeeps : B.Keeps) (hne : D ≠ []) {n : ℕ} (hn : 0 < n) (hu : u ∣ n)
    (hr : r.Between sha256 D u I) :
    ∃ ms as, n * ms.length < D.length - r.durable + n ∧
      (∀ m ∈ ms, m.Carries u D ∧ r.durable ≤ m.start ∧ m.data.length ≤ n) ∧
      (r.handleAll B sha256 D.length (sha256 D) ms).1 =
        as ++ [.finished (.ok ⟨D.length, sha256 D⟩)] ∧
      I D (r.handleAll B sha256 D.length (sha256 D) ms).2.storage := by
  induction hk : D.length - r.durable using Nat.strong_induction_on generalizing r with
  | _ k ih =>
    have hlt := durable_lt hr hne
    have hm := carries_piece hn hlt (dvd_durable hr) hu
    have hlength := length_piece D r.durable n
    have hstop := stop_piece D r.durable n
    have hhandled : Handled B sha256 D u I r (piece D r.durable n)
        (r.handle B sha256 D.length (sha256 D) (piece D r.durable n)) :=
      handle_handled hB hI hempty hD hr hm
    generalize hp : r.handle B sha256 D.length (sha256 D) (piece D r.durable n) = p at hhandled
    cases hhandled with
    | resync _ hother => exact absurd (start_piece D r.durable n) hother
    | failed _ hoffer =>
      -- it keeps its promise
      obtain ⟨k, -, hok⟩ := hkeeps.write _ _ _
      exact absurd (hok.symm.trans hoffer) (by simp)
    | unfinished _ _ _ _ hflush =>
      exact absurd ((hkeeps.finish _ _ _).symm.trans hflush) (by simp)
    | finished _ _ _ _ s hs =>
      refine ⟨[piece D r.durable n], [], ?_, ?_, ?_, ?_⟩
      · rw [List.length_singleton]
        omega
      · rintro m hmem
        obtain rfl := List.mem_singleton.mp hmem
        exact ⟨hm, (start_piece D r.durable n).ge, by omega⟩
      · rw [Receiver.handleAll, hp]
        rfl
      · rw [Receiver.handleAll, hp]
        exact hs
    | accepted _ hmore _ w hw hd =>
      -- a whole piece was taken, and the rest goes on behind it
      set r' : Receiver σ := ⟨some w, ((piece D r.durable n).offer B r.storage).2⟩ with hr'
      have hw' : r'.Between sha256 D u I := by
        rintro w' heq
        cases heq
        exact hw
      have hdurable : r'.durable = r.durable + n := by
        change w.durable = _
        omega
      obtain ⟨ms, as, hcount, hms, hanswers, hstored⟩ := ih _ (by omega) hw' rfl
      rw [hdurable] at hcount hms
      refine ⟨piece D r.durable n :: ms, .accepted (piece D r.durable n).stop :: as, ?_, ?_, ?_, ?_⟩
      · rw [List.length_cons, Nat.mul_succ]
        omega
      · rintro m hmem
        rcases List.mem_cons.mp hmem with rfl | hmem
        · exact ⟨hm, (start_piece D r.durable n).ge, by omega⟩
        · obtain ⟨hcarries, hfrom, hle⟩ := hms m hmem
          exact ⟨hcarries, by omega, hle⟩
      · rw [Receiver.handleAll, hp]
        exact congrArg _ hanswers
      · rw [Receiver.handleAll, hp]
        exact hstored

/-- **An artifact is delivered**, whatever the network does: to a backend that works in units,
with messages that end with them, every message gets what it deserves, and from every moment on,
if the backend keeps its promise, a sender that goes on from the offset that is reported needs no
more messages than there are pieces left. -/
theorem delivery_exact (B : ArtifactStorage σ ε) (sha256 : List UInt8 → Digest) (D : List UInt8)
    (u : ℕ) (I : List UInt8 → σ → Prop) (hB : B.Whole u) (hI : B.Follows I)
    (hempty : ∀ s, I [] s) (hD : D.length < 2 ^ 64) (s₀ : σ) (r : Receiver σ)
    (h : Relation.ReflTransGen (Moves B sha256 D.length (sha256 D) (Message.Carries u D))
      ⟨none, s₀⟩ r) :
    (∀ m : Message, m.Carries u D →
      Handled B sha256 D u I r m (r.handle B sha256 D.length (sha256 D) m)) ∧
    (B.Keeps → D ≠ [] → ∀ n, 0 < n → u ∣ n →
      ∃ ms as, n * ms.length < D.length - r.durable + n ∧
        (∀ m ∈ ms, m.Carries u D ∧ r.durable ≤ m.start ∧ m.data.length ≤ n) ∧
        (r.handleAll B sha256 D.length (sha256 D) ms).1 =
          as ++ [.finished (.ok ⟨D.length, sha256 D⟩)] ∧
        I D (r.handleAll B sha256 D.length (sha256 D) ms).2.storage) := by
  have hr : r.Between sha256 D u I := between_of_moves hB hI hempty hD (between_none s₀) h
  exact ⟨fun m hm => handle_handled hB hI hempty hD hr hm,
    fun hkeeps hne n hn hu => exists_rest hB hI hempty hD hkeeps hne hn hu hr⟩

/-! ### Units -/

/-- A backend that writes whole units to a memory, and keeps the rest back. -/
def inUnits (u : ℕ) : ArtifactStorage Memory Unit where
  write durable pending mem :=
    let k := pending.length - (durable + pending.length) % u
    (.ok (durable + k), mem.store durable (pending.take k))
  finish durable pending mem := (.ok (durable + pending.length), mem.store durable pending)

theorem keeps_inUnits (u : ℕ) : (inUnits u).Keeps where
  write _ _ _ := ⟨_, Nat.sub_le _ _, rfl⟩
  finish _ _ _ := rfl

theorem whole_inUnits (u : ℕ) : (inUnits u).Whole u where
  write durable pending mem := by
    refine .inr ⟨_, Nat.sub_le _ _, rfl, fun hu => ?_⟩
    rw [Nat.mod_eq_zero_of_dvd hu, Nat.sub_zero]
  finish _ _ _ := .inr rfl

/-- Its memory starts with what is hashed. -/
theorem follows_inUnits (u : ℕ) :
    (inUnits u).Follows fun hashed mem => ∃ m₀, Stored m₀ hashed mem where
  write {hashed pending mem k} hmem hk hok := by
    obtain ⟨m₀, hstored⟩ := hmem
    obtain rfl := Nat.add_left_cancel (Except.ok.inj hok)
    exact ⟨m₀, hstored.store _⟩
  finish {hashed pending mem} hmem _ := by
    obtain ⟨m₀, hstored⟩ := hmem
    exact ⟨m₀, hstored.store _⟩

/-- Three bytes in units of two, of which the first two have arrived. -/
theorem delivery_exact_inUnits :
    let I : List UInt8 → Memory → Prop := fun hashed mem => ∃ m₀, Stored m₀ hashed mem
    let r := ((⟨none, fun _ => 0⟩ : Receiver Memory).handle (inUnits 2) (fun _ _ => 7) 3
      (fun _ => 7) (piece [1, 2, 3] 0 2)).2
    Handled (inUnits 2) (fun _ _ => 7) [1, 2, 3] 2 I r (piece [1, 2, 3] 2 2)
        (r.handle (inUnits 2) (fun _ _ => 7) 3 (fun _ => 7) (piece [1, 2, 3] 2 2)) ∧
      ∃ ms as, 2 * ms.length < 3 - r.durable + 2 ∧
        (∀ m ∈ ms, m.Carries 2 [1, 2, 3] ∧ r.durable ≤ m.start ∧ m.data.length ≤ 2) ∧
        (r.handleAll (inUnits 2) (fun _ _ => 7) 3 (fun _ => 7) ms).1 =
          as ++ [.finished (.ok ⟨3, fun _ => 7⟩)] ∧
        I [1, 2, 3] (r.handleAll (inUnits 2) (fun _ _ => 7) 3 (fun _ => 7) ms).2.storage := by
  have hm : (piece [1, 2, 3] 0 2).Carries 2 [1, 2, 3] :=
    carries_piece (by decide) (by decide) (by decide) (by decide)
  have hm' : (piece [1, 2, 3] 2 2).Carries 2 [1, 2, 3] :=
    carries_piece (by decide) (by decide) (by decide) (by decide)
  obtain ⟨hhandled, hrest⟩ := delivery_exact (inUnits 2) (fun _ _ => 7) [1, 2, 3] 2 _
    (whole_inUnits 2) (follows_inUnits 2) (fun mem => ⟨mem, stored_nil mem⟩) (by decide)
    (fun _ => 0) _ (.single (.deliver _ _ hm))
  exact ⟨hhandled _ hm', hrest (keeps_inUnits 2) (by simp) 2 (by decide) (by decide)⟩

end AtomicOta.Artifact
