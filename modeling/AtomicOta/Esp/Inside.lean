import AtomicOta.Esp.Build
import AtomicOta.Esp.Follow

/-!
# Nothing outside the image

An image is accepted for what lies between its start and its end: `AtomicOta.Esp.validate_inside`.
Every read made on the way to acceptance is inside the image, which is shown of a reader that
keeps a record (`AtomicOta.Esp.Reader.logged`), and every other reader that answers these as
the first one does has the image accepted too, in any partition that is large enough, whatever
else it answers.

The end of the image is only known when the walk is over, and until then headers are read at
the cursor without a look at the end of the partition. So the argument is made backwards, from
the image: its segments say where the headers were, and they all lie before its end
(`AtomicOta.Esp.Table.Placed.headersIn`).
-/

namespace AtomicOta.Esp

open Fallible

variable {ρ σ : Type} {reader : Reader ρ} {reader' : Reader σ} {J : ρ → σ → Prop}
variable {map : MemoryMap} {partOffset partSize partSize' stop : UInt32} {t : Table}

/-- A read of bytes of the image from `partOffset` to `stop`. -/
def Inside (partOffset stop : UInt32) (offset : UInt32) (n : ℕ) : Prop :=
  partOffset.toNat ≤ offset.toNat ∧ offset.toNat + n ≤ stop.toNat

/-! ### The reads of a validation -/

namespace Table.Placed

variable (ht : t.Placed partOffset partSize)

include ht

theorem header_inside (hstop : t.image.stop.toNat ≤ stop.toNat) :
    Inside partOffset stop partOffset headerLen.toNat := by
  have hstart := ht.start_le
  have hend := ht.stop
  have hlen : headerLen.toNat = 24 := rfl
  exact ⟨le_rfl, by omega⟩

theorem headersIn (hstop : t.image.stop.toNat ≤ stop.toNat) :
    HeadersIn (Inside partOffset stop) t.image.segments := by
  rintro seg hseg
  obtain ⟨cursor, hlaid, -⟩ := ht.laidOut
  obtain ⟨hlo, hhi⟩ := hlaid.header hseg
  have hdata := (ht.data_le hseg).2
  have hend := ht.stop
  have hlen : segmentHeaderLen.toNat = 8 := rfl
  exact ⟨by omega, by omega⟩

theorem data_inside (hstop : t.image.stop.toNat ≤ stop.toNat) {seg : Segment}
    (hseg : seg ∈ t.image.segments) :
    Covers (Inside partOffset stop) seg.dataOffset.toNat seg.len.toNat := by
  rintro offset n hlo hhi
  obtain ⟨hstart, hdata⟩ := ht.data_le hseg
  have hend := ht.stop
  exact ⟨by omega, by omega⟩

theorem checksum_inside (hstop : t.image.stop.toNat ≤ stop.toNat) :
    Inside partOffset stop t.checksumAt 1 := by
  have hstart := ht.start_le
  have hend := ht.stop
  exact ⟨by omega, by omega⟩

theorem image_inside (hstop : t.image.stop.toNat ≤ stop.toNat) :
    Covers (Inside partOffset stop) partOffset.toNat
      (t.checksumAt.toNat + 1 - partOffset.toNat + if t.image.hashAppended then 32 else 0) := by
  rintro offset n hlo hhi
  have hstart := ht.start_le
  have hend := ht.stop
  exact ⟨hlo, by omega⟩

end Table.Placed

/-- **A validation is followed** by any other whose reader agrees with its own inside the image
that is accepted. -/
theorem validate_follows (h : reader.Agrees J (Inside partOffset stop) reader')
    (hle : partSize.toNat ≤ partSize'.toNat) (hfit : partOffset.toNat + partSize'.toNat < 2 ^ 32)
    (sha256 : List UInt8 → Digest) (verify : Verify) :
    Follows J (validate .abort reader sha256 partOffset partSize map verify)
      (validate .abort reader' sha256 partOffset partSize' map verify)
      (fun image => image.stop.toNat ≤ stop.toNat) Eq := by
  refine Follows.bind ((readTable_follows h hle hfit).of_ends readTable_placed
    fun t ht hstop => ⟨ht.header_inside hstop, ht.headersIn hstop⟩) (fun t => ?_) ?_
  · refine Ends.bind Ends.trivial fun _ _ => Ends.bind Ends.trivial fun _ _ => ?_
    exact Ends.pure fun hstop => hstop
  · rintro t _ ⟨rfl, ht, hstop⟩
    refine Follows.bind_always (verifyChecksum_follows h verify (ht.checksum_inside hstop)
      (fun seg hseg => ht.data_inside hstop hseg) ht.fits) ?_
    rintro _ _ rfl
    have hstart := ht.start_le
    refine Follows.bind_always (verifyHash_follows h sha256 verify (by omega) ht.checked_lt
      (ht.image_inside hstop)) ?_
    rintro _ _ rfl
    exact Follows.pure fun _ => rfl

/-! ### The record of a reader -/

/-- A reader that keeps a record of the reads it is asked for. -/
def Reader.logged (reader : Reader ρ) : Reader (ρ × List (UInt32 × ℕ)) where
  read offset n s :=
    ((reader.read offset n s.1).1, (reader.read offset n s.1).2, s.2 ++ [(offset, n)])
  length_read offset n s bytes _ h :=
    reader.length_read offset n s.1 bytes (reader.read offset n s.1).2
      (Prod.ext (Prod.mk.inj h).1 rfl)

/-- The record is only added: as long as every read is one of `A`, so is every one recorded. -/
theorem Reader.logged_agrees (A : UInt32 → ℕ → Prop) :
    reader.Agrees (fun s t => t.1 = s ∧ ∀ r ∈ t.2, A r.1 r.2) A reader.logged := by
  rintro offset n s ⟨_, log⟩ bytes s' hA ⟨rfl, hlog⟩ hread
  refine ⟨(s', log ++ [(offset, n)]), ?_, rfl, ?_⟩
  · simp only [Reader.logged, hread]
  · rintro r hr
    rcases List.mem_append.mp hr with hold | hnew
    · exact hlog r hold
    · rw [List.mem_singleton.mp hnew]
      exact hA

/-! ### Acceptance -/

/-- **Acceptance depends on nothing outside the image.** -/
theorem validate_inside (reader : Reader ρ) (answer : UInt32 → ℕ → Option (List UInt8))
    (hpure : ∀ offset n s, (reader.read offset n s).1 = answer offset n)
    (sha256 : List UInt8 → Digest) (partOffset partSize : UInt32) (map : MemoryMap)
    (verify : Verify) (s s' : ρ) (image : Image)
    (h : validate .abort reader sha256 partOffset partSize map verify s = .ok (image, s')) :
    (∀ o : Overflow, ∃ log,
      validate o reader.logged sha256 partOffset partSize map verify (s, []) =
          .ok (image, (s', log)) ∧
        ∀ r ∈ log, Inside partOffset image.stop r.1 r.2) ∧
    ∀ (σ : Type) (reader' : Reader σ),
      (∀ offset n t, Inside partOffset image.stop offset n →
        (reader'.read offset n t).1 = answer offset n) →
      ∀ partSize' : UInt32, partSize ≤ partSize' → partOffset.toNat + partSize'.toNat < 2 ^ 32 →
        ∀ (o : Overflow) (t : σ), ∃ t',
          validate o reader' sha256 partOffset partSize' map verify t = .ok (image, t') := by
  constructor
  · rintro o
    obtain ⟨t, s₁, htable, -⟩ := bind_run_eq_ok h
    obtain ⟨_, ⟨_, log⟩, hrun, ⟨rfl, hlog⟩, rfl⟩ := validate_follows
      (Reader.logged_agrees (Inside partOffset image.stop)) le_rfl (readTable_partition htable)
      sha256 verify s (s, []) image s' ⟨rfl, by simp⟩ h le_rfl
    have hsame := validate_sameUnless o reader.logged sha256 partOffset partSize map verify (s, [])
      (by simp [hrun])
    exact ⟨log, hsame.trans hrun, hlog⟩
  · rintro σ reader' hagree partSize' hle hfit o t
    have hagrees : reader.Agrees (fun _ _ => True) (Inside partOffset image.stop) reader' := by
      rintro offset n s₁ t₁ bytes s₁' hinside - hread
      refine ⟨(reader'.read offset n t₁).2, Prod.ext ?_ rfl, True.intro⟩
      rw [hagree offset n t₁ hinside, ← hpure offset n s₁, hread]
    obtain ⟨_, t', hrun, -, rfl⟩ := validate_follows hagrees (UInt32.le_iff_toNat_le.mp hle) hfit
      sha256 verify s t image s' True.intro h le_rfl
    have hsame := validate_sameUnless o reader' sha256 partOffset partSize' map verify t
      (by simp [hrun])
    exact ⟨t', hsame.trans hrun⟩

/-- In a partition twice as large, with other bytes behind the image. -/
theorem validate_inside_tiny :
    ∃ t', validate .wrap (Reader.ofBytes (tinyBytes ++ [1, 2, 3])) (fun _ _ => 0) 0 128 tinyMap
        .structural () =
      .ok ({ entry := 32, segments := [{ load := 32, len := 4, dataOffset := 32 }], count := 1,
             hashAppended := false, stop := 48 }, t') := by
  refine (validate_inside (Reader.ofBytes tinyBytes)
    (fun offset n => ((Reader.ofBytes tinyBytes).read offset n ()).1) (fun _ _ _ => rfl)
    (fun _ _ => 0) 0 64 tinyMap .structural () () _ (by rfl)).2 Unit _ ?_ 128 (by decide)
    (by decide) .wrap ()
  rintro offset n - ⟨-, hin⟩
  have hle : offset.toNat + n ≤ tinyBytes.length := hin
  have hle' : offset.toNat + n ≤ (tinyBytes ++ [1, 2, 3]).length := by
    rw [List.length_append]
    omega
  simp only [Reader.ofBytes, if_pos hle, if_pos hle']
  rw [List.drop_append_of_le_length (by omega),
    List.take_append_of_le_length (by rw [List.length_drop]; omega)]

end AtomicOta.Esp
