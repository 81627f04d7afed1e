import AtomicOta.Esp.Accept
import AtomicOta.Esp.Reading
import AtomicOta.Lockstep

/-!
# Two readers

Two validations that read from two readers. Where these agree on some reads
(`AtomicOta.Esp.Reader.Agrees`), the second validation gets as far as the first, with the same
result, as long as the first asks for no others; and which reads it asks for can be told from
its result. The header before a segment is read before anything is known of the segment, but
an image that is accepted carries every segment that was read, so that the guard of the walk
is a condition on the segments at its end (`AtomicOta.Esp.walk_follows`).

The second partition may be larger than the first: the walk and the trailer only compare with
its end.
-/

namespace AtomicOta.Esp

open Fallible

variable {ρ σ : Type} {o : Overflow} {reader : Reader ρ} {reader' : Reader σ}
variable {J : ρ → σ → Prop} {A : UInt32 → ℕ → Prop}
variable {map : MemoryMap} {partOffset partSize partSize' partEnd partEnd' entry : UInt32} {i : ℕ}

/-- What the first reader answers to the reads `A`, the second one answers as well. -/
def Reader.Agrees (J : ρ → σ → Prop) (A : UInt32 → ℕ → Prop) (reader : Reader ρ)
    (reader' : Reader σ) : Prop :=
  ∀ (offset : UInt32) (n : ℕ) (s : ρ) (t : σ) (bytes : List UInt8) (s' : ρ), A offset n → J s t →
    reader.read offset n s = (some bytes, s') →
      ∃ t', reader'.read offset n t = (some bytes, t') ∧ J s' t'

/-! ### Reading -/

/-- A read that both readers answer. -/
theorem readExact_follows {offset : UInt32} {n : ℕ} {G : List UInt8 → Prop}
    {R : List UInt8 → List UInt8 → Prop}
    (h : ∀ s t bytes s', J s t → reader.read offset n s = (some bytes, s') → G bytes →
      ∃ bytes' t', reader'.read offset n t = (some bytes', t') ∧ J s' t' ∧ R bytes bytes') :
    Follows J (readExact reader offset n) (readExact reader' offset n) G R := by
  rintro s t bytes s' hJ hrun hG
  cases hread : reader.read offset n s with
  | mk answer s'' =>
    cases answer with
    | none => simp [readExact, hread] at hrun
    | some buf =>
      simp only [readExact, hread] at hrun
      cases hrun
      obtain ⟨bytes', t', hread', hJ', hR⟩ := h s t bytes s' hJ hread hG
      exact ⟨bytes', t', by simp only [readExact, hread'], hJ', hR⟩

/-- A read on which the readers agree. -/
theorem Reader.Agrees.readExact (h : reader.Agrees J A reader') (offset : UInt32) (n : ℕ) :
    Follows J (readExact reader offset n) (Esp.readExact reader' offset n) (fun _ => A offset n)
      Eq := by
  refine readExact_follows fun s t bytes s' hJ hread hA => ?_
  obtain ⟨t', hread', hJ'⟩ := h offset n s t bytes s' hA hJ hread
  exact ⟨bytes, t', hread', hJ', rfl⟩

theorem Reader.Agrees.readExact_always (h : reader.Agrees J A reader') {offset : UInt32} {n : ℕ}
    (hA : A offset n) :
    Follows J (Esp.readExact reader offset n) (Esp.readExact reader' offset n) (fun _ => True) Eq :=
  (h.readExact offset n).mono (fun _ _ => hA) fun _ _ heq => heq

/-! ### The segment table -/

/-- A turn of the walk that stays in a partition stays in a larger one. -/
theorem Walk.step_mono (hle : partEnd.toNat ≤ partEnd'.toNat) {w w' : Walk} {raw : List UInt8}
    (h : Walk.step o map partEnd entry i w raw = .ok w') :
    Walk.step o map partEnd' entry i w raw = .ok w' := by
  obtain ⟨dataOffset, hoffset, h⟩ := bind_eq_ok h
  unfold Walk.step
  rw [hoffset]
  cases hsum : checkedAdd dataOffset (wordAt raw 4) with
  | none => simp [hsum] at h
  | some dataEnd =>
    simp only [hsum] at h
    split_ifs at h with hout
    have hout' : ¬ partEnd' < dataEnd := by
      rw [UInt32.lt_iff_toNat_lt] at hout ⊢
      omega
    simp only [bind, Except.bind, hsum, if_neg hout'] at h ⊢
    exact h

theorem trailer_mono (hle : partEnd.toNat ≤ partEnd'.toNat) {cursor : UInt32} {hashAppended : Bool}
    {t : Trailer} (h : trailer o partOffset partEnd cursor hashAppended = .ok t) :
    trailer o partOffset partEnd' cursor hashAppended = .ok t := by
  obtain ⟨rel, used, padding, checked, hrel, hused, hpadding, hat, hchecked, hstop, hout⟩ :=
    trailer_ok h
  have hout' : ¬ partEnd' < t.stop := by
    rw [UInt32.lt_iff_toNat_lt] at hout ⊢
    omega
  simp only [trailer, bind, Except.bind, hrel, hused, hpadding, hat, hchecked, hstop, if_neg hout']

/-- The walk keeps the segments it has read. -/
theorem walk_keeps (n : ℕ) {w : Walk} :
    Ends (walk o reader map partEnd entry n i w) fun w' => w.segments ⊆ w'.segments := by
  induction n generalizing i w with
  | zero => exact Ends.pure (List.Subset.refl _)
  | succ n ih =>
    refine Ends.bind Ends.trivial fun raw _ => ?_
    refine Ends.bind (Ends.lift fun next hstep => Walk.step_ok hstep) ?_
    rintro next ⟨seg, hsegs, -⟩
    refine ih.mono fun w' hw' => ?_
    rw [hsegs] at hw'
    exact List.Subset.trans (List.subset_append_left _ _) hw'

/-- The readers agree on the headers of all segments. -/
def HeadersIn (A : UInt32 → ℕ → Prop) (segs : List Segment) : Prop :=
  ∀ seg ∈ segs, A (seg.dataOffset - segmentHeaderLen) segmentHeaderLen.toNat

/-- **A walk is followed** by one that is answered alike on the headers it has read. -/
theorem walk_follows (h : reader.Agrees J A reader') (hle : partEnd.toNat ≤ partEnd'.toNat)
    (n : ℕ) (w : Walk) :
    Follows J (walk o reader map partEnd entry n i w) (walk o reader' map partEnd' entry n i w)
      (fun w' => HeadersIn A w'.segments) Eq := by
  induction n generalizing i w with
  | zero => exact Follows.pure fun _ => rfl
  | succ n ih =>
    refine Follows.bind (h.readExact w.cursor segmentHeaderLen.toNat) (fun raw => ?_) ?_
    · -- the segment behind this header is one of those at the end
      refine Ends.bind (Ends.lift fun next hstep => Walk.step_ok hstep) ?_
      rintro next ⟨seg, hsegs, hadd, -⟩
      refine (walk_keeps n).mono fun w' hkept hheaders => ?_
      have hmem : seg ∈ next.segments := hsegs ▸ List.mem_append_right _ (List.mem_singleton_self _)
      have hA := hheaders seg (hkept hmem)
      rwa [add_ok hadd, UInt32.add_sub_cancel] at hA
    · rintro raw _ rfl
      refine Follows.bind_always (Follows.lift fun next hstep _ =>
        ⟨next, Walk.step_mono hle hstep, rfl⟩) ?_
      rintro next _ rfl
      exact ih next

/-- A partition of which a table is read ends at an address. -/
theorem readTable_partition {s : ρ} {p : Table × ρ}
    (h : readTable o reader partOffset partSize map s = .ok p) :
    partOffset.toNat + partSize.toNat < 2 ^ 32 := by
  by_contra hover
  rw [readTable, checkedAdd, if_neg hover] at h
  cases h

/-- **Reading the segment table is followed** where the readers agree on the header of the
image and on those of its segments. -/
theorem readTable_follows (h : reader.Agrees J A reader') (hle : partSize.toNat ≤ partSize'.toNat)
    (hfit : partOffset.toNat + partSize'.toNat < 2 ^ 32) :
    Follows J (readTable o reader partOffset partSize map)
      (readTable o reader' partOffset partSize' map)
      (fun t => A partOffset headerLen.toNat ∧ HeadersIn A t.image.segments) Eq := by
  unfold readTable
  rw [checkedAdd_of_lt hfit]
  cases hsum : checkedAdd partOffset partSize with
  | none => exact Follows.throw
  | some partEnd =>
    have hend := checkedAdd_some hsum
    have hend' := toNat_add_of_lt hfit
    refine Follows.bind (h.readExact partOffset headerLen.toNat)
      (fun raw _ _ _ _ hguard => hguard.1) ?_
    rintro raw _ rfl
    refine Follows.bind_always (Follows.lift_same _) ?_
    rintro header _ rfl
    refine Follows.bind_always (Follows.lift_same _) ?_
    rintro cursor _ rfl
    refine Follows.bind (walk_follows h (by omega) header.count _) (fun w => ?_) ?_
    · split_ifs
      · exact Ends.throw
      · exact Ends.bind Ends.trivial fun t _ => Ends.pure fun hguard => hguard.2
    · rintro w _ rfl
      split_ifs
      · exact Follows.throw
      · refine Follows.bind_always (Follows.lift fun t ht _ =>
          ⟨t, trailer_mono (by omega) ht, rfl⟩) ?_
        rintro t _ rfl
        exact Follows.pure fun _ => rfl

/-! ### The data -/

/-- **The loop is followed** by one with a body that follows its own, whatever is carried over
the pieces. -/
theorem pieces_follows {β γ : Type} {stop : UInt32}
    {body : UInt32 → ℕ → β → StateT ρ (Except Fault) β}
    {body' : UInt32 → ℕ → γ → StateT σ (Except Fault) γ} {I : ℕ → β → γ → Prop}
    (hbody : ∀ (pos : UInt32) n a b, pos.toNat + n ≤ stop.toNat → I pos.toNat a b →
      Follows J (body pos n a) (body' pos n b) (fun _ => True) (I (pos.toNat + n)))
    {pos : UInt32} {a : β} {b : γ} (hle : pos.toNat ≤ stop.toNat) (hI : I pos.toNat a b) :
    Follows J (pieces o stop body pos a) (pieces o stop body' pos b) (fun _ => True)
      (I stop.toNat) := by
  induction pos using (piece_induction stop) generalizing a b with
  | done pos hlt =>
    rw [pieces_of_not_lt hlt, pieces_of_not_lt hlt]
    have heq : pos.toNat = stop.toNat :=
      Nat.le_antisymm hle (Nat.not_lt.mp (mt UInt32.lt_iff_toNat_lt.mpr hlt))
    exact Follows.pure fun _ => heq ▸ hI
  | next pos hlt ih =>
    have hnext := toNat_piece hlt
    rw [pieces_of_lt hlt, pieces_of_lt hlt]
    refine Follows.bind_always (hbody pos _ a b (by omega) hI) fun a' b' hI' => ?_
    rw [← hnext] at hI'
    exact ih (by omega) hI'

/-- The readers agree on every read of the `n` bytes from `start` on. -/
def Covers (A : UInt32 → ℕ → Prop) (start n : ℕ) : Prop :=
  ∀ (offset : UInt32) (m : ℕ), start ≤ offset.toNat → offset.toNat + m ≤ start + n → A offset m

/-- A sum that both of them make. -/
theorem add_follows (a b : UInt32) :
    Follows J (liftM (add o a b) : StateT ρ (Except Fault) UInt32)
      (liftM (add o a b) : StateT σ (Except Fault) UInt32) (fun _ => True)
      fun c d => c = d ∧ c = a + b :=
  Follows.lift fun c hc _ => ⟨c, hc, rfl, add_ok hc⟩

theorem xorSegment_follows (h : reader.Agrees J A reader') {seg : Segment}
    (hdata : Covers A seg.dataOffset.toNat seg.len.toNat)
    (hfit : seg.dataOffset.toNat + seg.len.toNat < 2 ^ 32) (xor : UInt8) :
    Follows J (xorSegment o reader xor seg) (xorSegment o reader' xor seg) (fun _ => True) Eq := by
  refine pieces_follows (I := fun _ => Eq) ?_ (Nat.zero_le _) rfl
  rintro done n x _ hdone rfl
  have hat : (seg.dataOffset + done).toNat = seg.dataOffset.toNat + done.toNat :=
    toNat_add_of_lt (by omega)
  refine Follows.bind_always (add_follows seg.dataOffset done) ?_
  rintro offset _ ⟨rfl, rfl⟩
  refine Follows.bind_always (h.readExact_always (hdata _ n (by omega) (by omega))) ?_
  rintro buf _ rfl
  exact Follows.pure fun _ => rfl

theorem xorSegments_follows (h : reader.Agrees J A reader') (segs : List Segment)
    (hdata : ∀ seg ∈ segs, Covers A seg.dataOffset.toNat seg.len.toNat)
    (hfit : ∀ seg ∈ segs, seg.dataOffset.toNat + seg.len.toNat < 2 ^ 32) (xor : UInt8) :
    Follows J (segs.foldlM (xorSegment o reader) xor) (segs.foldlM (xorSegment o reader') xor)
      (fun _ => True) Eq := by
  induction segs generalizing xor with
  | nil => exact Follows.pure fun _ => rfl
  | cons seg segs ih =>
    rw [List.foldlM_cons, List.foldlM_cons]
    refine Follows.bind_always (xorSegment_follows h (hdata seg List.mem_cons_self)
      (hfit seg List.mem_cons_self) xor) ?_
    rintro x _ rfl
    exact ih (fun t ht => hdata t (.tail _ ht)) (fun t ht => hfit t (.tail _ ht)) x

/-- **The checksum is followed** where the readers agree on it and on the data. -/
theorem verifyChecksum_follows (h : reader.Agrees J A reader') (verify : Verify)
    {segs : List Segment} {checksumAt : UInt32} (hat : A checksumAt 1)
    (hdata : ∀ seg ∈ segs, Covers A seg.dataOffset.toNat seg.len.toNat)
    (hfit : ∀ seg ∈ segs, seg.dataOffset.toNat + seg.len.toNat < 2 ^ 32) :
    Follows J (verifyChecksum o reader verify segs checksumAt)
      (verifyChecksum o reader' verify segs checksumAt) (fun _ => True) Eq := by
  unfold verifyChecksum
  split_ifs
  · exact Follows.pure fun _ => rfl
  · refine Follows.bind_always (h.readExact_always hat) ?_
    rintro expected _ rfl
    refine Follows.bind_always (xorSegments_follows h segs hdata hfit checksumSeed) ?_
    rintro xor _ rfl
    split_ifs
    · exact Follows.throw
    · exact Follows.pure fun _ => rfl

/-- **The hash is followed** where the readers agree on everything up to its end. -/
theorem verifyHash_follows (h : reader.Agrees J A reader') (sha256 : List UInt8 → Digest)
    (verify : Verify) {hashAppended : Bool} {checksumAt : UInt32}
    (hle : partOffset.toNat ≤ checksumAt.toNat) (hlt : checksumAt.toNat + 1 < 2 ^ 32)
    (hcovers : Covers A partOffset.toNat
      (checksumAt.toNat + 1 - partOffset.toNat + if hashAppended then 32 else 0)) :
    Follows J (verifyHash o reader sha256 verify hashAppended partOffset checksumAt)
      (verifyHash o reader' sha256 verify hashAppended partOffset checksumAt)
      (fun _ => True) Eq := by
  have hone : (checksumAt + 1).toNat = checksumAt.toNat + 1 := toNat_add_of_lt hlt
  unfold verifyHash
  split_ifs with hlevel happended
  · exact Follows.pure fun _ => rfl
  · exact Follows.throw
  · refine Follows.bind_always (add_follows checksumAt 1) ?_
    rintro checked _ ⟨rfl, rfl⟩
    refine Follows.bind_always (R := Eq) ?_ ?_
    · refine (pieces_follows (I := fun k a b => a = b ∧ partOffset.toNat ≤ k) ?_ (by omega)
        ⟨rfl, le_rfl⟩).mono (fun _ hG => hG) fun _ _ hI => hI.1
      rintro pos n a _ hpos ⟨rfl, hfrom⟩
      refine Follows.bind_always (h.readExact_always (hcovers pos n hfrom (by omega))) ?_
      rintro buf _ rfl
      exact Follows.pure fun _ => ⟨rfl, by omega⟩
    · rintro absorbed _ rfl
      have hhash : A (checksumAt + 1) hashLen.toNat := by
        have hlen : hashLen.toNat = 32 := rfl
        refine hcovers _ _ (by omega) ?_
        rw [if_pos (by simpa using happended)]
        omega
      refine Follows.bind_always (h.readExact_always hhash) ?_
      rintro stored _ rfl
      split_ifs
      · exact Follows.throw
      · exact Follows.pure fun _ => rfl

end AtomicOta.Esp
