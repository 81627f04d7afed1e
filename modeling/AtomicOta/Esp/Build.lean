import AtomicOta.Esp.Reading

/-!
# Builds with and without overflow checks

The validator is written in additions and subtractions that abort in one build and wrap
around in another. As long as none of them overflows the two are the same program:
`AtomicOta.Esp.validate_sameUnless` says that a validation ends in every build as it ends in
the one that aborts, unless it panics there.

This is a statement about the arithmetic alone, carried from
`AtomicOta.Esp.add_sameUnless` and `AtomicOta.Esp.sub_sameUnless` through everything that is
built of it. What is known of an accepted image where an overflow aborts is thereby known of
the same image in every build.
-/

namespace AtomicOta.Esp

open Fallible

variable (o : Overflow)

/-! ### Decisions -/

theorem add_sameUnless (a b : UInt32) : SameUnless .panic (add .abort a b) (add o a b) := by
  intro h
  unfold add at h ⊢
  cases hsum : checkedAdd a b with
  | none => simp [hsum] at h
  | some c => rfl

theorem sub_sameUnless (a b : UInt32) : SameUnless .panic (sub .abort a b) (sub o a b) := by
  intro h
  unfold sub at h
  split_ifs at h with hle
  · rw [sub_of_le hle, sub_of_le hle]
  · exact absurd rfl h

theorem ramTarget_sameUnless (map : MemoryMap) (seg : Segment) :
    SameUnless .panic (seg.ramTarget .abort map) (seg.ramTarget o map) := by
  unfold Segment.ramTarget
  split_ifs
  · exact (sub_sameUnless o _ _).bind fun _ => SameUnless.refl _
  · exact SameUnless.refl _
  · exact SameUnless.refl _

theorem checkWindow_sameUnless (map : MemoryMap) (i : ℕ) (seg : Segment) (target : UInt32) :
    SameUnless .panic (checkWindow .abort map i seg target) (checkWindow o map i seg target) := by
  unfold checkWindow
  split_ifs
  · exact (add_sameUnless o _ _).bind fun _ => SameUnless.refl _
  · exact SameUnless.refl _

theorem checkRam_sameUnless (map : MemoryMap) (i : ℕ) (seg : Segment) (stop : UInt32) :
    SameUnless .panic (checkRam .abort map i seg stop) (checkRam o map i seg stop) := by
  unfold checkRam
  cases map.ramRegion seg.load with
  | none => exact SameUnless.refl _
  | some region =>
    dsimp only
    split_ifs
    · exact SameUnless.refl _
    · refine (ramTarget_sameUnless o map seg).bind fun place => ?_
      cases place with
      | none => exact SameUnless.refl _
      | some target => exact checkWindow_sameUnless o map i seg target

theorem checkSegment_sameUnless (map : MemoryMap) (i : ℕ) (seg : Segment) :
    SameUnless .panic (checkSegment .abort map i seg) (checkSegment o map i seg) := by
  unfold checkSegment
  cases checkedAdd seg.load seg.len with
  | none => exact SameUnless.refl _
  | some stop =>
    dsimp only
    split_ifs
    · exact SameUnless.refl _
    · exact checkRam_sameUnless o map i seg stop

theorem admitSegment_sameUnless (map : MemoryMap) (entry : UInt32) (i : ℕ) (entryOk : Bool)
    (seg : Segment) :
    SameUnless .panic (admitSegment .abort map entry i entryOk seg)
      (admitSegment o map entry i entryOk seg) := by
  unfold admitSegment
  split_ifs
  · exact (checkSegment_sameUnless o map i seg).bind fun _ => SameUnless.refl _
  · exact SameUnless.refl _

theorem Walk.step_sameUnless (map : MemoryMap) (partEnd entry : UInt32) (i : ℕ) (w : Walk)
    (raw : List UInt8) :
    SameUnless .panic (Walk.step .abort map partEnd entry i w raw)
      (Walk.step o map partEnd entry i w raw) := by
  refine (add_sameUnless o _ _).bind fun dataOffset => ?_
  dsimp only
  cases checkedAdd dataOffset (wordAt raw 4) with
  | none => exact SameUnless.refl _
  | some dataEnd =>
    dsimp only
    split_ifs
    · exact SameUnless.refl _
    · exact (admitSegment_sameUnless o map entry i _ _).bind fun _ => SameUnless.refl _

theorem trailer_sameUnless (partOffset partEnd cursor : UInt32) (hashAppended : Bool) :
    SameUnless .panic (trailer .abort partOffset partEnd cursor hashAppended)
      (trailer o partOffset partEnd cursor hashAppended) := by
  refine (sub_sameUnless o _ _).bind fun rel => ?_
  refine (add_sameUnless o _ _).bind fun used => ?_
  refine (sub_sameUnless o _ _).bind fun padding => ?_
  refine (add_sameUnless o _ _).bind fun checksumAt => ?_
  refine (add_sameUnless o _ _).bind fun checked => ?_
  exact (add_sameUnless o _ _).bind fun _ => SameUnless.refl _

/-! ### Computations with the reader -/

variable {ρ : Type} (reader : Reader ρ)

theorem walk_sameUnless (map : MemoryMap) (partEnd entry : UInt32) (n i : ℕ) (w : Walk) (s : ρ) :
    SameUnless .panic (walk .abort reader map partEnd entry n i w s)
      (walk o reader map partEnd entry n i w s) := by
  induction n generalizing i w s with
  | zero => exact SameUnless.refl _
  | succ n ih =>
    refine SameUnless.bind_run (fun _ => SameUnless.refl _) (fun raw => ?_) s
    refine SameUnless.bind_run (SameUnless.lift ?_) fun next => ih (i + 1) next
    exact Walk.step_sameUnless o map partEnd entry i w raw

/-- The loop is as its body is. -/
theorem pieces_sameUnless {β : Type} {stop : UInt32}
    {body body' : UInt32 → ℕ → β → StateT ρ (Except Fault) β}
    (hbody : ∀ pos n acc s, SameUnless .panic (body pos n acc s) (body' pos n acc s))
    (pos : UInt32) (acc : β) (s : ρ) :
    SameUnless .panic (pieces .abort stop body pos acc s) (pieces o stop body' pos acc s) := by
  induction pos using (piece_induction stop) generalizing acc s with
  | done pos hlt =>
    rw [pieces_of_not_lt hlt, pieces_of_not_lt hlt]
    exact SameUnless.refl _
  | next pos hlt ih =>
    rw [pieces_of_lt hlt, pieces_of_lt hlt]
    exact SameUnless.bind_run (hbody pos _ acc) ih s

theorem xorSegment_sameUnless (xor : UInt8) (seg : Segment) (s : ρ) :
    SameUnless .panic (xorSegment .abort reader xor seg s) (xorSegment o reader xor seg s) := by
  refine pieces_sameUnless o (fun done n xor s => ?_) 0 xor s
  refine SameUnless.bind_run (SameUnless.lift (add_sameUnless o _ _)) (fun offset s => ?_) s
  exact SameUnless.refl _

theorem xorSegments_sameUnless (segs : List Segment) (xor : UInt8) (s : ρ) :
    SameUnless .panic (segs.foldlM (xorSegment .abort reader) xor s)
      (segs.foldlM (xorSegment o reader) xor s) := by
  induction segs generalizing xor s with
  | nil => exact SameUnless.refl _
  | cons seg segs ih =>
    rw [List.foldlM_cons, List.foldlM_cons]
    exact SameUnless.bind_run (fun s => xorSegment_sameUnless o reader xor seg s) (fun x => ih x) s

theorem verifyChecksum_sameUnless (verify : Verify) (segs : List Segment) (checksumAt : UInt32)
    (s : ρ) :
    SameUnless .panic (verifyChecksum .abort reader verify segs checksumAt s)
      (verifyChecksum o reader verify segs checksumAt s) := by
  unfold verifyChecksum
  split_ifs
  · exact SameUnless.refl _
  · refine SameUnless.bind_run (fun _ => SameUnless.refl _) (fun expected s => ?_) s
    refine SameUnless.bind_run (xorSegments_sameUnless o reader segs _) (fun xor s => ?_) s
    exact SameUnless.refl _

theorem verifyHash_sameUnless (sha256 : List UInt8 → Digest) (verify : Verify)
    (hashAppended : Bool) (partOffset checksumAt : UInt32) (s : ρ) :
    SameUnless .panic (verifyHash .abort reader sha256 verify hashAppended partOffset checksumAt s)
      (verifyHash o reader sha256 verify hashAppended partOffset checksumAt s) := by
  unfold verifyHash
  split_ifs
  · exact SameUnless.refl _
  · exact SameUnless.refl _
  · refine SameUnless.bind_run (SameUnless.lift (add_sameUnless o _ _)) (fun checked s => ?_) s
    refine SameUnless.bind_run (fun s => ?_) (fun absorbed s => SameUnless.refl _) s
    exact pieces_sameUnless o (fun _ _ _ _ => SameUnless.refl _) partOffset [] s

theorem readTable_sameUnless (partOffset partSize : UInt32) (map : MemoryMap) (s : ρ) :
    SameUnless .panic (readTable .abort reader partOffset partSize map s)
      (readTable o reader partOffset partSize map s) := by
  unfold readTable
  cases checkedAdd partOffset partSize with
  | none => exact SameUnless.refl _
  | some partEnd =>
    refine SameUnless.bind_run (fun _ => SameUnless.refl _) (fun raw s => ?_) s
    refine SameUnless.bind_run (fun _ => SameUnless.refl _) (fun header s => ?_) s
    refine SameUnless.bind_run (SameUnless.lift (add_sameUnless o _ _)) (fun cursor s => ?_) s
    refine SameUnless.bind_run (walk_sameUnless o reader map partEnd _ _ 0 _) (fun w s => ?_) s
    split_ifs
    · exact SameUnless.refl _
    · refine SameUnless.bind_run (SameUnless.lift (trailer_sameUnless o _ _ _ _)) (fun t s => ?_) s
      exact SameUnless.refl _

/-- **A validation ends in every build as it ends where an overflow aborts**, unless it panics
there. -/
theorem validate_sameUnless (sha256 : List UInt8 → Digest) (partOffset partSize : UInt32)
    (map : MemoryMap) (verify : Verify) (s : ρ) :
    SameUnless .panic (validate .abort reader sha256 partOffset partSize map verify s)
      (validate o reader sha256 partOffset partSize map verify s) := by
  refine SameUnless.bind_run (readTable_sameUnless o reader partOffset partSize map) ?_ s
  rintro t s
  refine SameUnless.bind_run (verifyChecksum_sameUnless o reader verify _ _) ?_ s
  rintro - s
  refine SameUnless.bind_run (verifyHash_sameUnless o reader sha256 verify _ partOffset _) ?_ s
  exact fun _ _ => SameUnless.refl _

end AtomicOta.Esp
