import AtomicOta.Esp.Accept
import AtomicOta.Esp.Room
import AtomicOta.Ration

/-!
# How much is read

Everything that decides how long a validation takes – how many segments there are, how long
they say they are – is read from flash, which may hold anything. It still reads a bounded number
of times, and a bounded number of bytes at once (`AtomicOta.Esp.validate_effort`): the header,
at most sixteen segment headers, the data in pieces of 256 bytes, once for the checksum and once
for the hash, and these two. The segments follow each other inside the partition
(`AtomicOta.Esp.LaidOut`), so their pieces are no more than the partition has, and one for each.

The count is made with a reader on a ration (`AtomicOta.Esp.Reader.Rations`), which may answer
anything once the ration is used up, so that it counts the reads of a validation that ends with
an error as well.
-/

namespace AtomicOta.Esp

open Fallible

variable {ρ : Type} {o : Overflow} {reader : Reader ρ} {reader' : Reader (ρ × ℕ)} {most : ℕ}
variable {map : MemoryMap} {partOffset partSize partEnd entry : UInt32}

/-- **A reader on a ration**: as long as some is left, and it is not asked for too much at once,
it answers as the first reader does. -/
def Reader.Rations (reader : Reader ρ) (most : ℕ) (reader' : Reader (ρ × ℕ)) : Prop :=
  ∀ offset n s b, n ≤ most → reader'.read offset n (s, b + 1) =
    ((reader.read offset n s).1, ((reader.read offset n s).2, b))

/-! ### Reading -/

theorem readExact_spends (h : reader.Rations most reader') {offset : UInt32} {n : ℕ}
    (hn : n ≤ most) : Spends 1 (readExact reader offset n) (readExact reader' offset n) := by
  have hread : ∀ s b, 1 ≤ b → reader'.read offset n (s, b) =
      ((reader.read offset n s).1, ((reader.read offset n s).2, b - 1)) := by
    rintro s b hb
    obtain ⟨b, rfl⟩ := Nat.exists_eq_add_of_le' hb
    exact h offset n s b hn
  constructor
  · rintro s b bytes s' hb hrun
    refine ⟨b - 1, by omega, ?_⟩
    rw [readExact, hread s b hb]
    rw [readExact] at hrun
    rcases hs : reader.read offset n s with ⟨_ | buf, s₁⟩
    · rw [hs] at hrun
      cases hrun
    · rw [hs] at hrun
      cases hrun
      rfl
  · rintro s b e hb hrun
    rw [readExact, hread s b hb]
    rw [readExact] at hrun
    rcases hs : reader.read offset n s with ⟨_ | buf, s₁⟩
    · rw [hs] at hrun
      cases hrun
      rfl
    · rw [hs] at hrun
      cases hrun

theorem walk_spends (h : reader.Rations 256 reader') (n i : ℕ) (w : Walk) :
    Spends n (walk o reader map partEnd entry n i w) (walk o reader' map partEnd entry n i w) := by
  induction n generalizing i w with
  | zero => exact Spends.pure w
  | succ n ih =>
    have hhead : Spends (1 + (0 + n)) (walk o reader map partEnd entry (n + 1) i w)
        (walk o reader' map partEnd entry (n + 1) i w) :=
      (readExact_spends h (by decide)).bind_always fun raw =>
        (Spends.lift _).bind_always fun next => ih (i + 1) next
    exact hhead.mono (by omega)

/-- The segment table takes the header of the image and at most sixteen others. -/
theorem readTable_spends (h : reader.Rations 256 reader') :
    Spends 17 (readTable o reader partOffset partSize map)
      (readTable o reader' partOffset partSize map) := by
  unfold readTable
  cases checkedAdd partOffset partSize with
  | none => exact (Spends.throw _).mono (by omega)
  | some partEnd =>
    refine ((readExact_spends (n := headerLen.toNat) h (by decide)).bind_always fun raw => ?_ :
      Spends (1 + 16) _ _)
    refine ((Spends.lift _).bind (Ends.lift fun header hheader => parseHeader_ok hheader)
      fun header hcount => ?_ : Spends (0 + 16) _ _)
    refine ((Spends.lift _).bind_always fun cursor => ?_ : Spends (0 + 16) _ _)
    refine (((walk_spends h header.count 0 _).mono hcount.2).bind_always fun w => ?_ :
      Spends (16 + 0) _ _)
    split_ifs
    · exact Spends.throw _
    · exact ((Spends.lift _).bind_always fun t => Spends.pure _ : Spends (0 + 0) _ _)

/-- The pieces of a stretch. -/
def pieceCount (n : ℕ) : ℕ := (n + 255) / 256

theorem pieces_spends {β : Type} {stop : UInt32}
    {body : UInt32 → ℕ → β → StateT ρ (Except Fault) β}
    {body' : UInt32 → ℕ → β → StateT (ρ × ℕ) (Except Fault) β}
    (hbody : ∀ pos n acc, n ≤ 256 → Spends 1 (body pos n acc) (body' pos n acc)) (pos : UInt32)
    (acc : β) : Spends (pieceCount (stop.toNat - pos.toNat)) (pieces o stop body pos acc)
      (pieces o stop body' pos acc) := by
  induction pos using (piece_induction stop) generalizing acc with
  | done pos hlt =>
    rw [pieces_of_not_lt hlt, pieces_of_not_lt hlt]
    exact (Spends.pure acc).mono (Nat.zero_le _)
  | next pos hlt ih =>
    have hnext := toNat_piece hlt
    have hlt' := UInt32.lt_iff_toNat_lt.mp hlt
    rw [pieces_of_lt hlt, pieces_of_lt hlt]
    refine ((hbody pos _ acc (Nat.min_le_right _ _)).bind_always fun acc' => ih acc').mono ?_
    rw [hnext, pieceCount, pieceCount]
    omega

/-! ### The data -/

theorem xorSegment_spends (h : reader.Rations 256 reader') (xor : UInt8) (seg : Segment) :
    Spends (pieceCount seg.len.toNat) (xorSegment o reader xor seg)
      (xorSegment o reader' xor seg) := by
  refine pieces_spends (fun done n acc hn => ?_) 0 xor
  exact ((Spends.lift _).bind_always fun offset =>
    (readExact_spends h hn).bind_always fun buf => Spends.pure _ : Spends (0 + (1 + 0)) _ _)

theorem verifyChecksum_spends (h : reader.Rations 256 reader') (verify : Verify)
    (segs : List Segment) (checksumAt : UInt32) :
    Spends (1 + (segs.map fun seg => pieceCount seg.len.toNat).sum)
      (verifyChecksum o reader verify segs checksumAt)
      (verifyChecksum o reader' verify segs checksumAt) := by
  unfold verifyChecksum
  split_ifs
  · exact (Spends.pure _).mono (Nat.zero_le _)
  · refine (readExact_spends h (by decide)).bind_always fun expected => ?_
    refine ((Spends.foldlM (xorSegment_spends h) segs checksumSeed).bind_always fun xor => ?_ :
      Spends (_ + 0) _ _)
    split_ifs
    · exact Spends.throw _
    · exact Spends.pure _

theorem absorb_spends (h : reader.Rations 256 reader') (pos stop : UInt32) :
    Spends (pieceCount (stop.toNat - pos.toNat)) (absorb o reader pos stop)
      (absorb o reader' pos stop) := by
  refine pieces_spends (fun offset n acc hn => ?_) pos []
  exact ((readExact_spends h hn).bind_always fun buf => Spends.pure _ : Spends (1 + 0) _ _)

theorem verifyHash_spends (h : reader.Rations 256 reader') (sha256 : List UInt8 → Digest)
    (verify : Verify) (hashAppended : Bool) (partOffset checksumAt : UInt32) :
    Spends (pieceCount (checksumAt.toNat + 1 - partOffset.toNat) + 1)
      (verifyHash .abort reader sha256 verify hashAppended partOffset checksumAt)
      (verifyHash .abort reader' sha256 verify hashAppended partOffset checksumAt) := by
  unfold verifyHash
  split_ifs
  · exact (Spends.pure _).mono (Nat.zero_le _)
  · exact (Spends.throw _).mono (Nat.zero_le _)
  · refine ((Spends.lift _).bind (Ends.lift fun checked hadd => toNat_of_add_abort hadd)
      fun checked hchecked => ?_ : Spends (0 + _) _ _).mono (Nat.zero_add _).le
    have hone : (1 : UInt32).toNat = 1 := rfl
    rw [hone] at hchecked
    rw [← hchecked]
    refine (absorb_spends h partOffset checked).bind_always fun absorbed => ?_
    refine ((readExact_spends (n := hashLen.toNat) h (by decide)).bind_always fun stored => ?_ :
      Spends (1 + 0) _ _)
    split_ifs
    · exact Spends.throw _
    · exact Spends.pure _

/-! ### Together -/

/-- The pieces of segments that follow each other. -/
theorem LaidOut.sum_pieceCount_le {segs : List Segment} {start stop : ℕ}
    (h : LaidOut start segs stop) :
    (segs.map fun seg => pieceCount seg.len.toNat).sum ≤ (stop - start) / 256 + segs.length := by
  induction segs generalizing start with
  | nil => exact Nat.zero_le _
  | cons seg segs ih =>
    obtain ⟨hseg, hrest⟩ := h
    have hle := hrest.le
    have hsum := ih hrest
    rw [List.map_cons, List.sum_cons, List.length_cons, pieceCount]
    omega

/-- The reads that a validation of a partition may make. -/
def effort (partSize : UInt32) : ℕ := 2 * (partSize.toNat / 256) + 36

theorem validate_spends (h : reader.Rations 256 reader') (sha256 : List UInt8 → Digest)
    (verify : Verify) :
    Spends (effort partSize) (validate .abort reader sha256 partOffset partSize map verify)
      (validate .abort reader' sha256 partOffset partSize map verify) := by
  have hrest : ∀ t : Table, t.Placed partOffset partSize ∧
      t.image.Loadable map partOffset partSize →
      Spends (2 * (partSize.toNat / 256) + 19)
        (do verifyChecksum .abort reader verify t.image.segments t.checksumAt
            verifyHash .abort reader sha256 verify t.image.hashAppended partOffset t.checksumAt
            pure t.image)
        (do verifyChecksum .abort reader' verify t.image.segments t.checksumAt
            verifyHash .abort reader' sha256 verify t.image.hashAppended partOffset t.checksumAt
            pure t.image) := by
    rintro t ⟨hplaced, hloadable⟩
    obtain ⟨cursor, hlaid, hat⟩ := hplaced.laidOut
    have hsum := hlaid.sum_pieceCount_le
    have hcount := hloadable.length_segments
    have hmax := hloadable.count_le
    have hstop := hplaced.stop
    have hinside := hplaced.inside
    have hle := hlaid.le
    refine ((verifyChecksum_spends h verify _ _).bind_always fun _ =>
      (verifyHash_spends h sha256 verify _ _ _).bind_always fun _ => Spends.pure _).mono ?_
    rw [pieceCount]
    omega
  refine ((readTable_spends h).bind (readTable_placed.and readTable_loadable) hrest).mono ?_
  rw [effort]
  omega

/-- **A validation reads a bounded number of times**, whatever the flash holds, in a build that
reckons right on the partition: with a ration of that many reads, of at most 256 bytes each, it
comes to the same verdict, and it does not matter what any further read would be answered
with. -/
theorem validate_effort (o : Overflow) (reader : Reader ρ) (reader' : Reader (ρ × ℕ))
    (h : reader.Rations 256 reader') (sha256 : List UInt8 → Digest) (partOffset partSize : UInt32)
    (map : MemoryMap) (ho : o.Reckons map partOffset partSize) (verify : Verify) (s : ρ)
    (ration : ℕ) (hration : 2 * (partSize.toNat / 256) + 36 ≤ ration) :
    (∀ image s', validate o reader sha256 partOffset partSize map verify s = .ok (image, s') →
      ∃ left, ration ≤ left + (2 * (partSize.toNat / 256) + 36) ∧
        validate o reader' sha256 partOffset partSize map verify (s, ration) =
          .ok (image, (s', left))) ∧
    ∀ e, validate o reader sha256 partOffset partSize map verify s = .error e →
      validate o reader' sha256 partOffset partSize map verify (s, ration) = .error e := by
  rw [ho.validate_eq, ho.validate_eq]
  have hspends : Spends (effort partSize)
      (validate .abort reader sha256 partOffset partSize map verify)
      (validate .abort reader' sha256 partOffset partSize map verify) :=
    validate_spends h sha256 verify
  exact ⟨fun image s' hrun => hspends.ok s ration image s' hration hrun,
    fun e hrun => hspends.error s ration e hration hrun⟩

/-- A reader that stops when its ration is used up. -/
def Reader.limited (reader : Reader ρ) : Reader (ρ × ℕ) where
  read offset n s :=
    match s with
    | (s, 0) => (none, (s, 0))
    | (s, b + 1) => ((reader.read offset n s).1, ((reader.read offset n s).2, b))
  length_read offset n s bytes s' h := by
    rcases s with ⟨s, _ | b⟩
    · cases h
    · exact reader.length_read offset n s bytes _ (Prod.ext (Prod.mk.inj h).1 rfl)

theorem rations_limited (reader : Reader ρ) : reader.Rations 256 reader.limited :=
  fun _ _ _ _ _ => rfl

/-- Forty reads are more than enough for 64 bytes, also where sums wrap around. -/
theorem validate_effort_tiny :
    ∃ left, validate .wrap (Reader.ofBytes tinyBytes).limited (fun _ _ => 0) 0 64 tinyMap
        .structural ((), 40) =
      .ok ({ entry := 32, segments := [{ load := 32, len := 4, dataOffset := 32 }], count := 1,
             hashAppended := false, stop := 48 }, ((), left)) := by
  obtain ⟨left, -, hrun⟩ := (validate_effort .wrap (Reader.ofBytes tinyBytes) _
    (rations_limited _) (fun _ _ => 0) 0 64 tinyMap
    (.inr ⟨by decide, by decide, by decide, by decide, by decide⟩) .structural () 40
    (by decide)).1 _ () rfl
  exact ⟨left, hrun⟩

end AtomicOta.Esp
