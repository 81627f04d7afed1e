import AtomicOta.Esp.Build
import AtomicOta.Esp.Follow
import AtomicOta.Esp.Memory

/-!
# What the deeper levels check

For a reader of a memory that never fails, the levels of verification in terms of the memory:
`AtomicOta.Esp.validate_levels`. Where the segment table is in order, the second level accepts
exactly if the checksum byte is the XOR of the data of all segments, each byte once, and the
third one exactly if there is a hash in addition, which is that of everything up to the
checksum byte.

Both loops read in pieces, of which nothing is left in these statements; that is what
`AtomicOta.Esp.xorSegment_serves` and `AtomicOta.Esp.absorb_serves` are for. What is computed
behind the table fits, as the image ends below the last address, so that it is the same in
every build.
-/

namespace AtomicOta.Esp

open Fallible

/-! ### The bytes that are checked -/

/-- The addresses of the data of all segments, in file order. -/
def dataAddresses (segs : List Segment) : List ℕ :=
  segs.flatMap fun seg => List.range' seg.dataOffset.toNat seg.len.toNat

theorem dataAddresses_cons {seg : Segment} {segs : List Segment} :
    dataAddresses (seg :: segs) =
      List.range' seg.dataOffset.toNat seg.len.toNat ++ dataAddresses segs :=
  List.flatMap_cons

theorem mem_dataAddresses {segs : List Segment} {a : ℕ} :
    a ∈ dataAddresses segs ↔
      ∃ seg ∈ segs, seg.dataOffset.toNat ≤ a ∧ a < seg.dataOffset.toNat + seg.len.toNat := by
  simp only [dataAddresses, List.mem_flatMap, List.mem_range'_1]

/-- The XOR of the data of all segments, on top of the seed. -/
def xorOf (mem : ℕ → UInt8) (segs : List Segment) : UInt8 :=
  ((dataAddresses segs).map mem).foldl (· ^^^ ·) checksumSeed

/-- The address of the checksum byte: the last of the image, or the last before its hash. -/
def Image.checksumAt (image : Image) : ℕ :=
  image.stop.toNat - 1 - if image.hashAppended then 32 else 0

variable {ρ : Type} {o : Overflow} {reader : Reader ρ} {mem : ℕ → UInt8}
variable {map : MemoryMap} {partOffset partSize checksumAt : UInt32} {segs : List Segment}
variable {verify : Verify} (sha256 : List UInt8 → Digest)

theorem Table.Placed.checksumAt_eq {t : Table} (h : t.Placed partOffset partSize) :
    t.image.checksumAt = t.checksumAt.toNat := by
  have hstop := h.stop
  unfold Image.checksumAt
  omega

/-! ### The checks -/

/-- The checksum byte, and what it is compared with. -/
def checksums (o : Overflow) (reader : Reader ρ) (segs : List Segment) (checksumAt : UInt32) :
    StateT ρ (Except Fault) (UInt8 × UInt8) := do
  let expected ← readExact reader checksumAt 1
  let xor ← segs.foldlM (xorSegment o reader) checksumSeed
  pure (byteAt expected 0, xor)

theorem verifyChecksum_eq (hverify : verify ≠ .structural) :
    verifyChecksum o reader verify segs checksumAt =
      (do
        let p ← checksums o reader segs checksumAt
        if p.2 ≠ p.1 then throw (.error .badChecksum) else pure ()) := by
  simp [verifyChecksum, checksums, hverify]

theorem verifyChecksum_decides {P : UInt8 × UInt8 → Prop} {c : Prop}
    (hverify : verify ≠ .structural) (hsums : Succeeds (checksums o reader segs checksumAt) P)
    (hc : ∀ p, P p → (p.1 = p.2 ↔ c)) :
    Decides (verifyChecksum o reader verify segs checksumAt) c () (.error .badChecksum) := by
  rw [verifyChecksum_eq hverify]
  exact Decides.bind hsums fun p hp => Decides.check (ne_comm.trans (not_congr (hc p hp)))

/-! ### The checks, on a memory -/

section Total

variable (h : reader.Holds (fun _ _ => True) mem)

include h

/-- The XOR loops of all segments take in every byte of their data. -/
theorem xorSegments_succeeds (segs : List Segment)
    (hfit : ∀ seg ∈ segs, seg.dataOffset.toNat + seg.len.toNat < 2 ^ 32) (xor : UInt8) :
    Succeeds (segs.foldlM (xorSegment o reader) xor)
      (· = ((dataAddresses segs).map mem).foldl (· ^^^ ·) xor) := by
  induction segs generalizing xor with
  | nil => exact Succeeds.pure rfl
  | cons seg segs ih =>
    rw [List.foldlM_cons]
    refine Succeeds.bind (h.xorSegment_succeeds (hfit seg List.mem_cons_self) xor) ?_
    rintro x rfl
    have hrest := ih (fun t ht => hfit t (.tail _ ht))
      ((window mem seg.dataOffset.toNat seg.len.toNat).foldl (· ^^^ ·) xor)
    rwa [window, ← List.foldl_append, ← List.map_append] at hrest

/-- The checksum byte, and what it is compared with. -/
theorem checksums_succeeds
    (hfit : ∀ seg ∈ segs, seg.dataOffset.toNat + seg.len.toNat < 2 ^ 32) :
    Succeeds (checksums o reader segs checksumAt)
      (· = (mem checksumAt.toNat, xorOf mem segs)) := by
  have hread : Succeeds (readExact reader checksumAt 1) (· = window mem checksumAt.toNat 1) :=
    h.readExact_succeeds True.intro
  refine Succeeds.bind hread ?_
  rintro expected rfl
  refine Succeeds.bind (xorSegments_succeeds h segs hfit checksumSeed) ?_
  rintro xor rfl
  exact Succeeds.pure rfl

/-- **The checksum**: accepted exactly if the byte is the XOR of the data. -/
theorem verifyChecksum_memory (hverify : verify ≠ .structural)
    (hfit : ∀ seg ∈ segs, seg.dataOffset.toNat + seg.len.toNat < 2 ^ 32) :
    Decides (verifyChecksum o reader verify segs checksumAt)
      (mem checksumAt.toNat = xorOf mem segs) () (.error .badChecksum) := by
  refine verifyChecksum_decides hverify (checksums_succeeds h hfit) ?_
  rintro _ rfl
  exact Iff.rfl

/-- **The hash**: accepted exactly if it is that of everything up to the checksum byte. -/
theorem verifyHash_memory (hle : partOffset.toNat ≤ checksumAt.toNat)
    (hlt : checksumAt.toNat + 1 < 2 ^ 32) :
    Decides (verifyHash o reader sha256 .full true partOffset checksumAt)
      (window mem (checksumAt.toNat + 1) 32 = List.ofFn (sha256
        (window mem partOffset.toNat (checksumAt.toNat + 1 - partOffset.toNat))))
      () (.error .badHash) := by
  have hchecked : (checksumAt + 1).toNat = checksumAt.toNat + 1 := toNat_add_of_lt hlt
  have habsorb : Succeeds (absorb o reader partOffset (checksumAt + 1))
      (· = window mem partOffset.toNat ((checksumAt + 1).toNat - partOffset.toNat)) :=
    h.absorb_succeeds (by omega)
  have hread : Succeeds (readExact reader (checksumAt + 1) hashLen.toNat)
      (· = window mem (checksumAt + 1).toNat 32) := h.readExact_succeeds True.intro
  rw [hchecked] at habsorb hread
  unfold verifyHash
  rw [if_neg (by simp), if_neg (by simp)]
  refine Decides.bind (Succeeds.lift (P := (· = _)) (add_of_lt hlt) rfl) ?_
  rintro checked rfl
  refine Decides.bind habsorb ?_
  rintro absorbed rfl
  refine Decides.bind hread ?_
  rintro stored rfl
  exact Decides.check ne_comm

/-- A table that has been read is read again, from any state and in every build. -/
theorem readTable_again {t : Table} {s s' : ρ}
    (hrun : readTable .abort reader partOffset partSize map s = .ok (t, s')) :
    Succeeds (readTable o reader partOffset partSize map) (· = t) := by
  have hagrees : reader.Agrees (fun _ _ => True) (fun _ _ => True) reader := by
    rintro offset n s₁ s₂ bytes s₁' - - hread
    obtain ⟨-, rfl⟩ := h.read_eq_some hread
    obtain ⟨s₂', hread'⟩ := h.read_served offset n s₂ True.intro
    exact ⟨s₂', hread', True.intro⟩
  rintro s₂
  obtain ⟨t', s₂', hrun', -, rfl⟩ := readTable_follows hagrees le_rfl
    (readTable_partition hrun) s s₂ t s' True.intro hrun ⟨True.intro, fun _ _ => True.intro⟩
  have hsame := readTable_sameUnless o reader partOffset partSize map s₂ (by simp [hrun'])
  exact ⟨t, s₂', hsame.trans hrun', rfl⟩

end Total

/-! ### The levels -/

section Table

variable {t : Table} (htable : Succeeds (readTable o reader partOffset partSize map) (· = t))
variable {c : Prop}

include htable

/-- A wrong checksum is refused at every level that looks at it. -/
theorem validate_badChecksum (hsum : Decides (verifyChecksum o reader verify t.image.segments
      t.checksumAt) c () (.error .badChecksum)) (hc : ¬ c) :
    Fails (validate o reader sha256 partOffset partSize map verify) (.error .badChecksum) := by
  refine Fails.bind htable ?_
  rintro _ rfl
  exact (hsum.2 hc).bind_left

/-- The second level is decided by the checksum. -/
theorem validate_checksum (hsum : Decides (verifyChecksum o reader .checksum t.image.segments
      t.checksumAt) c () (.error .badChecksum)) :
    Decides (validate o reader sha256 partOffset partSize map .checksum) c t.image
      (.error .badChecksum) := by
  refine Decides.bind htable ?_
  rintro _ rfl
  refine hsum.bind_left (Succeeds.bind (P := fun _ => True) ?_ fun _ _ => Succeeds.pure rfl)
  exact Succeeds.pure True.intro

/-- Behind a right checksum, the last level is decided by the hash. -/
theorem validate_full (hreader : reader.Holds (fun _ _ => True) mem)
    (ht : t.Placed partOffset partSize)
    (heq : mem t.checksumAt.toNat = xorOf mem t.image.segments) :
    (t.image.hashAppended = true →
      Decides (validate o reader sha256 partOffset partSize map .full)
        (window mem (t.checksumAt.toNat + 1) 32 = List.ofFn (sha256
          (window mem partOffset.toNat (t.checksumAt.toNat + 1 - partOffset.toNat))))
        t.image (.error .badHash)) ∧
    (t.image.hashAppended = false →
      Fails (validate o reader sha256 partOffset partSize map .full) (.error .hashMissing)) := by
  have hstart := ht.start_le
  have hsum : Succeeds (verifyChecksum o reader .full t.image.segments t.checksumAt) (· = ()) :=
    (verifyChecksum_memory hreader (by simp) ht.fits).1 heq
  have hle : partOffset.toNat ≤ t.checksumAt.toNat := by omega
  constructor
  · rintro happended
    refine Decides.bind htable ?_
    rintro _ rfl
    refine Decides.bind hsum fun _ _ => ?_
    rw [happended]
    exact (verifyHash_memory sha256 hreader hle ht.checked_lt).bind_left (Succeeds.pure rfl)
  · rintro hnone
    refine Fails.bind htable ?_
    rintro _ rfl
    refine Fails.bind hsum fun _ _ => Fails.bind_left ?_
    rw [verifyHash, if_neg (by simp), hnone]
    exact Fails.throw

end Table

/-- The first level only reads the table. -/
theorem validate_structural (o : Overflow) (reader : Reader ρ) (sha256 : List UInt8 → Digest)
    (partOffset partSize : UInt32) (map : MemoryMap) :
    validate o reader sha256 partOffset partSize map .structural =
      (do
        let t ← readTable o reader partOffset partSize map
        pure t.image) := by
  simp [validate, verifyChecksum, verifyHash]

/-- **What the deeper levels check.** -/
theorem validate_levels (reader : Reader ρ) (mem : ℕ → UInt8)
    (hreader : reader.Holds (fun _ _ => True) mem) (sha256 : List UInt8 → Digest)
    (partOffset partSize : UInt32) (map : MemoryMap) :
    (∀ (s s' : ρ) (image : Image),
      validate .abort reader sha256 partOffset partSize map .structural s = .ok (image, s') →
      ∀ (o : Overflow) (t : ρ),
        ((∃ t', validate o reader sha256 partOffset partSize map .checksum t = .ok (image, t')) ↔
          mem image.checksumAt = xorOf mem image.segments) ∧
        (mem image.checksumAt ≠ xorOf mem image.segments →
          validate o reader sha256 partOffset partSize map .checksum t =
            .error (.error .badChecksum)) ∧
        ((∃ t', validate o reader sha256 partOffset partSize map .full t = .ok (image, t')) ↔
          mem image.checksumAt = xorOf mem image.segments ∧ image.hashAppended = true ∧
            window mem (image.checksumAt + 1) 32 = List.ofFn (sha256
              (window mem partOffset.toNat (image.checksumAt + 1 - partOffset.toNat))))) ∧
    ∀ (o : Overflow) (verify : Verify) (s : ρ) (e : Fault),
      validate o reader sha256 partOffset partSize map .structural s = .error e →
        validate o reader sha256 partOffset partSize map verify s = .error e := by
  constructor
  · rintro s s' image hstructural o t
    rw [validate_structural] at hstructural
    obtain ⟨tab, s₁, hrun, hpure⟩ := bind_run_eq_ok hstructural
    cases hpure
    have ht := readTable_placed s tab s' hrun
    have htable := readTable_again (o := o) hreader hrun
    have hsum : ∀ verify, verify ≠ .structural →
        Decides (verifyChecksum o reader verify tab.image.segments tab.checksumAt)
          (mem tab.checksumAt.toNat = xorOf mem tab.image.segments) () (.error .badChecksum) :=
      fun verify hverify => verifyChecksum_memory hreader hverify ht.fits
    have hfull := fun heq => validate_full sha256 htable hreader ht heq
    rw [ht.checksumAt_eq]
    refine ⟨(validate_checksum sha256 htable (hsum .checksum (by simp))).exists_ok_iff t,
      fun hne => validate_badChecksum sha256 htable (hsum .checksum (by simp)) hne t, ⟨?_, ?_⟩⟩
    · rintro ⟨t', hok⟩
      have heq : mem tab.checksumAt.toNat = xorOf mem tab.image.segments := by
        by_contra hne
        exact (validate_badChecksum sha256 htable (hsum .full (by simp)) hne).ne_ok hok
      have happended : tab.image.hashAppended = true := by
        by_contra hnone
        exact ((hfull heq).2 (by simpa using hnone)).ne_ok hok
      exact ⟨heq, happended, (((hfull heq).1 happended).exists_ok_iff t).mp ⟨t', hok⟩⟩
    · rintro ⟨heq, happended, hdigest⟩
      exact (((hfull heq).1 happended).exists_ok_iff t).mpr hdigest
  · rintro o verify s e hstructural
    rw [validate_structural, bind_run] at hstructural
    unfold validate
    rw [bind_run]
    cases hrun : readTable o reader partOffset partSize map s with
    | error e' => rwa [hrun] at hstructural
    | ok p =>
      rw [hrun] at hstructural
      cases hstructural

theorem validate_levels_tiny :
    ∃ t', validate .wrap (Reader.ofMemory (memoryOf 0 tinyBytes)) (fun _ _ => 0) 0 64 tinyMap
        .checksum () =
      .ok ({ entry := 32, segments := [{ load := 32, len := 4, dataOffset := 32 }], count := 1,
             hashAppended := false, stop := 48 }, t') :=
  ((validate_levels _ _ (Reader.ofMemory_holds (memoryOf 0 tinyBytes)) (fun _ _ => 0) 0 64
    tinyMap).1 () () _ (by rfl) .wrap ()).1.mpr (by rfl)

end AtomicOta.Esp
