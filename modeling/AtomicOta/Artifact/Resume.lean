import AtomicOta.Artifact.Session

/-!
# Resuming an upload

An upload of an artifact `D` that is interrupted and resumed: the first chunk starts at
offset 0, every later one at an offset that `AtomicOta.Artifact.resumePlan` lets the caller
continue from, which is the durable watermark.

A session that is continued still has its pending bytes – those received but not durable
when things stopped – and `append` puts the chunk *after* them, although the chunk starts
before them. So what the session holds stays a prefix of `D` exactly when the bytes of the
chunk are also those `D` has at the received offset
(`AtomicOta.Artifact.Offer.Fits`): always if nothing is pending, otherwise by coincidence
only. `AtomicOta.Artifact.resume_intact_iff` states this of whole uploads.
-/

namespace AtomicOta.Artifact

/-- A chunk of an upload, with the offset it is claimed to start at. -/
structure Chunk where
  offset : ℕ
  data : List UInt8

/-- A chunk that is a non-empty piece of the artifact, at its offset. -/
structure Chunk.Of (D : List UInt8) (c : Chunk) : Prop where
  ne_nil : c.data ≠ []
  within : c.offset + c.data.length ≤ D.length
  data_eq : c.data = (D.drop c.offset).take c.data.length

/-- A chunk that is appended, with the session and the backend it is appended to. -/
structure Offer (σ : Type) where
  session : WriteSession
  storage : σ
  chunk : Chunk

section Uploads

variable {σ ε : Type} (B : ArtifactStorage σ ε) (sha256 : List UInt8 → Digest) (D : List UInt8)

/-- What an append answers, and leaves. -/
abbrev Offer.result (o : Offer σ) : Except (Error ε) Unit × WriteSession × σ :=
  o.session.append B o.chunk.data o.storage

/-- **An upload**: the appends of a session begun for the artifact, each chunk at an
offset from which the caller may continue. -/
inductive Upload (s₀ : σ) : List (Offer σ) → WriteSession → σ → Prop
  | begin : Upload s₀ [] (.start D.length (sha256 D)) s₀
  /-- The first chunk starts at offset 0. -/
  | first {w : WriteSession} {s : σ} {c : Chunk} (h : Upload s₀ [] w s) (hc : c.Of D)
    (hoffset : c.offset = 0) :
    Upload s₀ [⟨w, s, c⟩] (Offer.result B ⟨w, s, c⟩).2.1 (Offer.result B ⟨w, s, c⟩).2.2
  /-- A later one starts where the session says it may. -/
  | next {os : List (Offer σ)} {w : WriteSession} {s : σ} {c : Chunk} (h : Upload s₀ os w s)
    (hos : os ≠ []) (hc : c.Of D)
    (hplan : resumePlan true c.offset true w.durable = .continue) :
    Upload s₀ (os ++ [⟨w, s, c⟩]) (Offer.result B ⟨w, s, c⟩).2.1 (Offer.result B ⟨w, s, c⟩).2.2

/-- **What is expected of an append**: it succeeds, what the session has hashed and what
it keeps pending are a prefix of the artifact, and if the chunk is the last one, the
session finishes with the artifact. -/
structure Offer.Intact (o : Offer σ) : Prop where
  ok : (o.result B).1 = .ok ()
  isPrefix : (o.result B).2.1.hasher ++ (o.result B).2.1.pending <+: D
  finish : isComplete true (o.chunk.offset + o.chunk.data.length - 1) D.length = true →
    ((o.result B).2.1.finish B sha256 (o.result B).2.2).1 = .ok ⟨D.length, sha256 D⟩

/-- **The chunk continues what was received**: its bytes are those of the artifact from
the received offset on. -/
def Offer.Fits (o : Offer σ) : Prop :=
  o.chunk.data = (D.drop o.session.received).take o.chunk.data.length

end Uploads

/-! ### One append -/

/-- A session at work on an artifact: it holds a prefix of it. -/
structure Working (sha256 : List UInt8 → Digest) (D : List UInt8) (w : WriteSession) : Prop where
  holds : w.Holds (D.take w.received)
  received_le : w.received ≤ D.length
  total : w.total = D.length
  expected : w.expectedDigest = sha256 D

section Appends

variable {σ ε : Type} {B : ArtifactStorage σ ε} {sha256 : List UInt8 → Digest} {D : List UInt8}
  {o : Offer σ}

theorem working_start : Working sha256 D (.start D.length (sha256 D)) := by
  refine ⟨?_, Nat.zero_le _, rfl, rfl⟩
  exact (List.take_zero (l := D)).symm ▸ WriteSession.holds_start _ _

/-- A chunk that fits is within the artifact. -/
theorem Offer.Fits.within (h : o.Fits D) (hne : o.chunk.data ≠ [])
    (hle : o.session.received ≤ D.length) :
    o.session.received + o.chunk.data.length ≤ D.length := by
  have hlen := congrArg List.length h
  rw [List.length_take, List.length_drop] at hlen
  have hpos := List.length_pos_of_ne_nil hne
  omega

/-- What was received, and a chunk that fits, are a longer prefix of the artifact. -/
theorem Offer.Fits.append_eq (h : o.Fits D) :
    D.take o.session.received ++ o.chunk.data =
      D.take (o.session.received + o.chunk.data.length) := by
  rw [List.take_add]
  exact congrArg _ h

/-- **A chunk that fits is appended**, and the session stays at work. -/
theorem Offer.Fits.working (h : o.Fits D) (hw : Working sha256 D o.session) (hB : B.Keeps)
    (hD : D.length < 2 ^ 64) (hne : o.chunk.data ≠ []) :
    (o.result B).1 = .ok () ∧ Working sha256 D (o.result B).2.1 ∧
      (o.result B).2.1.received = o.session.received + o.chunk.data.length := by
  have hwithin := h.within hne hw.received_le
  obtain ⟨w', s', hres, hholds, htotal, hexp⟩ := WriteSession.append_of_keeps (s := o.storage) hB
    hw.holds (hw.total ▸ hD) (hw.total ▸ hwithin)
  have hreceived : w'.received = o.session.received + o.chunk.data.length := by
    rw [hholds.received, h.append_eq, List.length_take]
    omega
  rw [Offer.result, hres]
  refine ⟨rfl, ⟨?_, ?_, htotal.trans hw.total, hexp.trans hw.expected⟩, hreceived⟩
  · rw [hreceived, ← h.append_eq]
    exact hholds
  · rw [hreceived]
    exact hwithin

/-- **The step**: at a session at work, an append is as expected exactly when the chunk
fits. -/
theorem intact_iff_fits (hw : Working sha256 D o.session) (hB : B.Keeps) (hD : D.length < 2 ^ 64)
    (hc : o.chunk.Of D) (hoffset : o.chunk.offset ≤ o.session.received) :
    o.Intact B sha256 D ↔ o.Fits D := by
  constructor
  · intro h
    have hfits : o.session.received + o.chunk.data.length ≤ D.length := by
      by_contra hlarge
      have hok := h.ok
      rw [Offer.result, WriteSession.append_tooLarge (by rw [hw.total]; omega)] at hok
      cases hok
    obtain ⟨w', s', hres, hholds, -⟩ := WriteSession.append_of_keeps (s := o.storage) hB
      hw.holds (hw.total ▸ hD) (hw.total ▸ hfits)
    have hprefix := h.isPrefix
    rw [Offer.result, hres, hholds.bytes] at hprefix
    obtain ⟨rest, hrest⟩ := hprefix
    -- cut the artifact where the received bytes end
    have hdrop := congrArg (List.drop o.session.received) hrest
    rw [List.append_assoc, List.drop_append_of_le_length, List.drop_eq_nil_of_le,
      List.nil_append] at hdrop
    · rw [Offer.Fits, ← hdrop, List.take_left']
      rfl
    · rw [List.length_take]
      omega
    · rw [List.length_take]
      have := hw.received_le
      omega
  · intro h
    obtain ⟨hok, hworking, hreceived⟩ := h.working hw hB hD hc.ne_nil
    refine ⟨hok, ?_, fun hlast => ?_⟩
    · rw [hworking.holds.bytes]
      exact List.take_prefix _ _
    · -- the last chunk ends the artifact, and so does what was received
      have hend := eq_of_isComplete hlast
      have hpos := List.length_pos_of_ne_nil hc.ne_nil
      have hle := hworking.received_le
      have hall : D.take (o.result B).2.1.received = D := by
        rw [List.take_of_length_le]
        omega
      have hholds := hworking.holds
      rw [hall] at hholds
      exact WriteSession.finish_of_keeps hB hholds hworking.total.symm sha256
        hworking.expected.symm

/-! ### Uploads -/

variable {s₀ : σ} {os : List (Offer σ)} {w : WriteSession} {s : σ}

theorem Upload.start_of_nil (h : Upload B sha256 D s₀ [] w s) :
    w = .start D.length (sha256 D) ∧ s = s₀ := by
  generalize hnil : ([] : List (Offer σ)) = os at h
  cases h with
  | begin => exact ⟨rfl, rfl⟩
  | first => exact absurd hnil (by simp)
  | next => exact absurd hnil (by simp)

/-- As long as every chunk fits, the session is at work. -/
theorem Upload.working (hB : B.Keeps) (hD : D.length < 2 ^ 64)
    (h : Upload B sha256 D s₀ os w s) (hfits : ∀ o ∈ os, o.Fits D) : Working sha256 D w := by
  induction h with
  | begin => exact working_start
  | @first w s c h hc hoffset ih =>
    obtain ⟨rfl, rfl⟩ := h.start_of_nil
    exact ((hfits _ (by simp)).working working_start hB hD hc.ne_nil).2.1
  | @next os w s c h hos hc hplan ih =>
    have hw := ih fun o ho => hfits o (List.mem_append_left _ ho)
    exact ((hfits ⟨w, s, c⟩ (by simp)).working hw hB hD hc.ne_nil).2.1

/-- **Resuming neither loses nor duplicates a byte, exactly when every chunk continues what
was received**: in an upload to a backend that keeps its promise, every append is as
expected if and only if every chunk fits. -/
theorem resume_intact_iff (B : ArtifactStorage σ ε) (sha256 : List UInt8 → Digest)
    (D : List UInt8) (hB : B.Keeps) (hD : D.length < 2 ^ 64) (s₀ : σ) (os : List (Offer σ))
    (w : WriteSession) (s : σ) (h : Upload B sha256 D s₀ os w s) :
    (∀ o ∈ os, o.Intact B sha256 D) ↔ ∀ o ∈ os, o.Fits D := by
  induction h with
  | begin => simp
  | @first w s c h hc hoffset ih =>
    obtain ⟨rfl, rfl⟩ := h.start_of_nil
    simp only [List.mem_singleton, forall_eq]
    exact intact_iff_fits working_start hB hD hc hoffset.le
  | @next os w s c h hos hc hplan ih =>
    simp only [List.mem_append, List.mem_singleton, or_imp, forall_and, forall_eq]
    rw [ih]
    refine and_congr_right fun hfits => ?_
    have hw := h.working hB hD hfits
    have hoffset := (resumePlan_eq_continue.mp hplan).2
    refine intact_iff_fits hw hB hD hc ?_
    have hreceived := hw.holds.received_eq
    change c.offset ≤ w.received
    omega

end Appends

/-! ### A byte that is kept back -/

/-- A backend that keeps the last byte of every write pending. -/
def keepsOneBack : ArtifactStorage Unit Unit where
  write durable pending s := (.ok (durable + (pending.length - 1)), s)
  finish durable pending s := (.ok (durable + pending.length), s)

theorem keeps_keepsOneBack : keepsOneBack.Keeps where
  write _ pending _ := ⟨pending.length - 1, Nat.sub_le .., rfl⟩
  finish _ _ _ := rfl

/-- The upload of four bytes: two, and from the durable offset the next two. -/
theorem upload_keepsOneBack (sha256 : List UInt8 → Digest) :
    let D : List UInt8 := [1, 2, 3, 4]
    let o₁ : Offer Unit := ⟨.start 4 (sha256 D), (), ⟨0, [1, 2]⟩⟩
    let o₂ : Offer Unit := ⟨(o₁.result keepsOneBack).2.1, (), ⟨1, [2, 3]⟩⟩
    Upload keepsOneBack sha256 D () [o₁, o₂] (o₂.result keepsOneBack).2.1 () := by
  intro D o₁ o₂
  have hfirst : Upload keepsOneBack sha256 D () [o₁] (o₁.result keepsOneBack).2.1 () :=
    .first .begin ⟨by simp, by decide, by decide⟩ rfl
  exact .next hfirst (by simp) ⟨by simp, by decide, by decide⟩ rfl

/-- The same for that upload. -/
theorem resume_intact_iff_keepsOneBack :
    let D : List UInt8 := [1, 2, 3, 4]
    let o₁ : Offer Unit := ⟨.start 4 (fun _ => 0), (), ⟨0, [1, 2]⟩⟩
    let o₂ : Offer Unit := ⟨(o₁.result keepsOneBack).2.1, (), ⟨1, [2, 3]⟩⟩
    (∀ o ∈ [o₁, o₂], o.Intact keepsOneBack (fun _ _ => 0) D) ↔ ∀ o ∈ [o₁, o₂], o.Fits D :=
  resume_intact_iff keepsOneBack (fun _ _ => 0) [1, 2, 3, 4] keeps_keepsOneBack (by decide) () _ _
    () (upload_keepsOneBack fun _ _ => 0)

/-- **Resuming can duplicate a byte**: the one that was received and not durable. -/
theorem resume_duplicates :
    ¬∀ (σ ε : Type) (B : ArtifactStorage σ ε) (sha256 : List UInt8 → Digest) (D : List UInt8)
      (s₀ : σ) (os : List (Offer σ)) (w : WriteSession) (s : σ), B.Keeps → D.length < 2 ^ 64 →
      Upload B sha256 D s₀ os w s → ∀ o ∈ os, o.Intact B sha256 D := by
  intro h
  have hintact := h Unit Unit keepsOneBack (fun _ _ => 0) [1, 2, 3, 4] () _ _ () keeps_keepsOneBack
    (by decide) (upload_keepsOneBack fun _ _ => 0) _ (List.mem_cons_of_mem _ List.mem_cons_self)
  exact absurd hintact.isPrefix (by decide)

end AtomicOta.Artifact
