import AtomicOta.Esp.Drafted
import AtomicOta.Esp.Room

/-!
# Exactly the images

The format that the validator decides, at each of its levels
(`AtomicOta.Esp.validate_exact`): it accepts a partition if and only if the memory holds the
layout of an acceptable draft there – up to the checksum byte on the first level, with it on the
second, and with a hash behind it on the last – and what it returns is what that draft says.

One direction takes a table back to a draft (`AtomicOta.Esp.readTable_drafted`). The other is
close to `AtomicOta.Esp.validate_draft`, but for a memory that may hold another checksum or
another hash: the table is read from the memory in which these are put right, and then from the
memory itself, which agrees with that one on every header
(`AtomicOta.Esp.readTable_body`).
-/

namespace AtomicOta.Esp

open Fallible

variable {ρ : Type} {reader : Reader ρ} {mem : ℕ → UInt8} {map : MemoryMap}
variable {partOffset partSize : UInt32} {d : Draft} {sha256 : List UInt8 → Digest}

/-! ### The table of a draft -/

theorem Draft.checked_eq (d : Draft) : d.checked = d.body ++ [d.checksum] := rfl

/-- Where the table of a draft puts everything. -/
theorem Draft.Acceptable.placed_table (h : d.Acceptable .abort sha256 map partOffset partSize) :
    (d.table sha256 partOffset).Placed partOffset partSize := by
  have hlt := h.lt
  have hfits := h.fits
  have hlength : (d.bytes sha256).length = _ := d.length_bytes
  have hchecked := d.length_checked
  have hat : (d.table sha256 partOffset).checksumAt.toNat =
      partOffset.toNat + d.checked.length - 1 := toNat_ofNat_of_lt (by omega)
  have hstop : (d.image sha256 partOffset).stop.toNat =
      partOffset.toNat + (d.bytes sha256).length := toNat_ofNat_of_lt hlt
  refine ⟨⟨_, laidOut_place d.blocks (by omega), by omega⟩, ?_, ?_⟩
  · rw [hat]
    change (d.image sha256 partOffset).stop.toNat =
      partOffset.toNat + d.checked.length - 1 + 1 + if d.hashAppended then 32 else 0
    omega
  · change (d.image sha256 partOffset).stop.toNat ≤ _
    omega

/-- The first part of a stretch. -/
theorem take_window {a n m : ℕ} (h : m ≤ n) : (window mem a n).take m = window mem a m := by
  obtain ⟨rest, rfl⟩ := Nat.exists_eq_add_of_le h
  rw [window_add, List.take_left' length_window]

/-- A memory that holds the first bytes of another one's stretch agrees with it there. -/
theorem window_of_take {mem' : ℕ → UInt8} {start n k a m : ℕ} {bytes : List UInt8}
    (h : window mem start k = bytes.take k) (h' : window mem' start n = bytes) (hk : k ≤ n)
    (hlo : start ≤ a) (hhi : a + m ≤ start + k) : window mem' a m = window mem a m := by
  have hsame : window mem' start k = window mem start k := by rw [h, ← h', take_window hk]
  have hcut := fun mem => @take_drop_window mem start k (a - start) m (by omega)
  rw [Nat.add_sub_cancel' hlo] at hcut
  rw [← hcut mem', hsame, hcut mem]

/-- **A memory that holds a draft up to the checksum byte has its table.** -/
theorem readTable_body (hreader : reader.Holds (fun _ _ => True) mem)
    (h : d.Acceptable .abort sha256 map partOffset partSize)
    (hbody : window mem partOffset.toNat d.body.length = d.body) :
    Succeeds (readTable .abort reader partOffset partSize map)
      (· = d.table sha256 partOffset) := by
  set mem' := overlay mem partOffset.toNat (d.bytes sha256) with hmem'
  have hwindow : window mem' partOffset.toNat (d.bytes sha256).length = d.bytes sha256 :=
    window_overlay ..
  have hholds := Reader.ofMemory_holds mem'
  have hserves : (Reader.ofMemory mem').Serves partOffset.toNat (d.bytes sha256) :=
    hwindow ▸ hholds.serves fun _ _ _ _ => True.intro
  have hlength : (d.bytes sha256).length = _ := d.length_bytes
  have hchecked := d.length_body
  have htake : (d.bytes sha256).take d.body.length = d.body := by
    rw [Draft.bytes, Draft.checked_eq, List.append_assoc, List.take_left']
    rfl
  -- the two memories agree on every header
  have hagrees : (Reader.ofMemory mem').Agrees (fun _ _ => True)
      (fun offset n => partOffset.toNat ≤ offset.toNat ∧
        offset.toNat + n ≤ partOffset.toNat + d.body.length) reader := by
    rintro offset n s t bytes s' ⟨hlo, hhi⟩ - hread
    cases hread
    obtain ⟨t', hread'⟩ := hreader.read_served offset n t True.intro
    refine ⟨t', ?_, True.intro⟩
    rw [hread', window_of_take (hbody.trans htake.symm) hwindow (by omega) hlo hhi]
  obtain ⟨t, _, hrun, rfl⟩ := readTable_draft h hserves ()
  have hplaced := h.placed_table
  have hstart := hplaced.start_le
  have hat : (d.table sha256 partOffset).checksumAt.toNat = partOffset.toNat + d.body.length := by
    have hlt := h.length_checked_lt
    exact (toNat_ofNat_of_lt (by omega)).trans (by omega)
  obtain ⟨cursor, hlaid, -⟩ := hplaced.laidOut
  refine ((readTable_follows hagrees le_rfl h.partition_lt).succeeds hrun ⟨⟨le_rfl, ?_⟩, ?_⟩).mono
    fun t ht => ht.symm
  · have hlen : headerLen.toNat = 24 := rfl
    omega
  · rintro seg hseg
    obtain ⟨hlo, hhi⟩ := hlaid.header hseg
    have hdata := hplaced.data_le hseg
    have hlen : segmentHeaderLen.toNat = 8 := rfl
    exact ⟨by omega, by omega⟩

/-! ### The checksum and the hash -/

/-- The data of blocks that are in a memory. -/
theorem map_dataAddresses_place {start : ℕ} (bs : List Block)
    (hfit : start + (bs.flatMap Block.bytes).length < 2 ^ 32)
    (hstored : window mem start (bs.flatMap Block.bytes).length = bs.flatMap Block.bytes) :
    (dataAddresses (place start bs)).map mem = bs.flatMap Block.data := by
  induction bs generalizing start with
  | nil => rfl
  | cons b bs ih =>
    have hblock := b.length_bytes
    rw [List.flatMap_cons, List.length_append] at hfit hstored
    rw [window_add] at hstored
    obtain ⟨hfirst, hrest⟩ := List.append_inj hstored length_window
    have hoffset : (b.segment start).dataOffset.toNat = start + 8 := toNat_ofNat_of_lt (by omega)
    have hlen : (b.segment start).len.toNat = b.data.length := toNat_ofNat_of_lt (by omega)
    rw [hblock, window_add, Block.bytes] at hfirst
    have hdata := (List.append_inj hfirst length_window).2
    rw [place, dataAddresses_cons, List.map_append, hoffset, hlen, List.flatMap_cons,
      ih (by omega) hrest]
    exact congrArg (· ++ _) hdata

/-- The checksum of a draft is what is compared with. -/
theorem xorOf_segments (h : d.Acceptable .abort sha256 map partOffset partSize)
    (hbody : window mem partOffset.toNat d.body.length = d.body) :
    xorOf mem (d.segments partOffset) = d.checksum := by
  have hlt := h.length_checked_lt
  have hchecked := d.length_checked
  rw [Draft.body, List.length_append, List.length_append, window_add, window_add] at hbody
  have hblocks := (List.append_inj (List.append_inj hbody (by simp)).1 length_window).2
  rw [Draft.length_header] at hblocks
  rw [xorOf, Draft.segments, map_dataAddresses_place d.blocks (by omega) hblocks]
  rfl

/-- **What a level looks at** of the layout of a draft. -/
def Draft.part (d : Draft) (sha256 : List UInt8 → Digest) : Verify → List UInt8
  | .structural => d.body
  | .checksum => d.checked
  | .full => d.bytes sha256

/-- **The memory holds a draft**, as far as a level looks at it. -/
structure Draft.Held (d : Draft) (sha256 : List UInt8 → Digest) (mem : ℕ → UInt8)
    (partOffset : UInt32) (verify : Verify) : Prop where
  stored : window mem partOffset.toNat (d.part sha256 verify).length = d.part sha256 verify
  /-- The last level asks for a hash. -/
  hash : verify = .full → d.hashAppended = true

/-! ### The levels -/

/-- Behind the rest, the checksum byte is the one that is compared with. -/
theorem window_checked_iff (hbody : window mem partOffset.toNat d.body.length = d.body) :
    window mem partOffset.toNat d.checked.length = d.checked ↔
      mem (partOffset.toNat + d.body.length) = d.checksum := by
  rw [Draft.checked_eq, List.length_append, window_add, hbody, List.append_cancel_left_eq]
  exact List.singleton_inj

/-- Behind the rest, the hash is that of the rest. -/
theorem window_bytes_iff (happended : d.hashAppended = true) :
    window mem partOffset.toNat (d.bytes sha256).length = d.bytes sha256 ↔
      window mem partOffset.toNat d.checked.length = d.checked ∧
        window mem (partOffset.toNat + d.checked.length) 32 = List.ofFn (sha256 d.checked) := by
  have hlength : (List.ofFn (sha256 d.checked)).length = 32 := List.length_ofFn
  rw [Draft.bytes, if_pos happended, List.length_append, hlength, window_add]
  constructor
  · rintro heq
    exact List.append_inj heq length_window
  · rintro ⟨hchecked, hhash⟩
    rw [hchecked, hhash]

/-- What is behind a held draft is not looked at on a lower level. -/
theorem Draft.Held.body {verify : Verify} (h : d.Held sha256 mem partOffset verify) :
    window mem partOffset.toNat d.body.length = d.body := by
  have hfirst : d.part sha256 verify = d.body ++ (d.part sha256 verify).drop d.body.length := by
    cases verify with
    | structural => simp [part]
    | checksum => simp [part, checked_eq]
    | full => simp [part, bytes, checked_eq]
  have hstored := h.stored
  rw [hfirst, List.length_append, window_add] at hstored
  exact (List.append_inj hstored length_window).1

section Levels

variable (hreader : reader.Holds (fun _ _ => True) mem)
variable (h : d.Acceptable .abort sha256 map partOffset partSize)
variable (hbody : window mem partOffset.toNat d.body.length = d.body)

include hreader h hbody

/-- What is returned is the image of the draft. -/
theorem validate_ends_image (verify : Verify) :
    Ends (validate .abort reader sha256 partOffset partSize map verify)
      (· = d.image sha256 partOffset) := by
  refine Ends.bind (readTable_body hreader h hbody).ends ?_
  rintro _ rfl
  exact Ends.bind Ends.trivial fun _ _ => Ends.bind Ends.trivial fun _ _ => Ends.pure rfl

/-- **Where a memory holds a draft up to the checksum byte**, every level accepts it exactly if
the memory holds it as far as that level looks. -/
theorem validate_held_iff (verify : Verify) (s : ρ) :
    (∃ s', validate .abort reader sha256 partOffset partSize map verify s =
        .ok (d.image sha256 partOffset, s')) ↔ d.Held sha256 mem partOffset verify := by
  have htable := readTable_body hreader h hbody
  have hplaced := h.placed_table
  have hlt := h.length_checked_lt
  have hlength := d.length_body
  have hat : (d.table sha256 partOffset).checksumAt.toNat = partOffset.toNat + d.body.length :=
    (toNat_ofNat_of_lt (by omega)).trans (by omega)
  have hend : (d.table sha256 partOffset).checksumAt.toNat + 1 =
      partOffset.toNat + d.checked.length := by omega
  have hsum : mem (d.table sha256 partOffset).checksumAt.toNat =
      xorOf mem (d.table sha256 partOffset).image.segments ↔
        window mem partOffset.toNat d.checked.length = d.checked := by
    have hxor : xorOf mem (d.table sha256 partOffset).image.segments = d.checksum :=
      xorOf_segments h hbody
    rw [window_checked_iff hbody, hat, hxor]
  have hverify : ∀ verify, verify ≠ .structural →
      Decides (verifyChecksum .abort reader verify (d.table sha256 partOffset).image.segments
        (d.table sha256 partOffset).checksumAt) _ () (.error .badChecksum) :=
    fun verify hne => verifyChecksum_memory hreader hne hplaced.fits
  cases verify with
  | structural =>
    rw [validate_structural]
    refine ⟨fun _ => ⟨hbody, by simp⟩, fun _ => ?_⟩
    obtain ⟨_, s', hrun, rfl⟩ := htable s
    exact ⟨s', by rw [bind_run, hrun]; rfl⟩
  | checksum =>
    have hdecides := validate_checksum sha256 htable (hverify .checksum (by simp))
    refine (hdecides.exists_ok_iff s).trans (hsum.trans ?_)
    exact ⟨fun hchecked => ⟨hchecked, by simp⟩, fun hheld => hheld.stored⟩
  | full =>
    constructor
    · rintro ⟨s', hok⟩
      have heq : mem (d.table sha256 partOffset).checksumAt.toNat =
          xorOf mem (d.table sha256 partOffset).image.segments := by
        by_contra hne
        exact (validate_badChecksum sha256 htable (hverify .full (by simp)) hne).ne_ok hok
      obtain ⟨hhash, hnone⟩ := validate_full sha256 htable hreader hplaced heq
      have happended : d.hashAppended = true := by
        by_contra hno
        exact (hnone (Bool.not_eq_true _ ▸ hno)).ne_ok hok
      have hdigest := ((hhash happended).exists_ok_iff s).mp ⟨s', hok⟩
      have hchecked := hsum.mp heq
      rw [hend, Nat.add_sub_cancel_left, hchecked] at hdigest
      exact ⟨(window_bytes_iff happended).mpr ⟨hchecked, hdigest⟩, fun _ => happended⟩
    · rintro hheld
      have happended := hheld.hash rfl
      obtain ⟨hchecked, hdigest⟩ := (window_bytes_iff happended).mp hheld.stored
      obtain ⟨hhash, -⟩ := validate_full sha256 htable hreader hplaced (hsum.mpr hchecked)
      refine ((hhash happended).exists_ok_iff s).mpr ?_
      rw [hend, Nat.add_sub_cancel_left, hchecked]
      exact hdigest

end Levels

/-- **The validator accepts exactly the images**, in a build that reckons right on the partition:
this is accepted on a level if and only if the memory holds an acceptable draft there as far as
the level looks, and what is returned is what the draft says. -/
theorem validate_exact (o : Overflow) (reader : Reader ρ) (mem : ℕ → UInt8)
    (hreader : reader.Holds (fun _ _ => True) mem) (sha256 : List UInt8 → Digest)
    (map : MemoryMap) (partOffset partSize : UInt32) (ho : o.Reckons map partOffset partSize)
    (verify : Verify) (s : ρ) (image : Image) :
    (∃ s', validate o reader sha256 partOffset partSize map verify s = .ok (image, s')) ↔
      ∃ d : Draft, d.Acceptable .abort sha256 map partOffset partSize ∧
        d.Held sha256 mem partOffset verify ∧ d.image sha256 partOffset = image := by
  rw [ho.validate_eq]
  constructor
  · rintro ⟨s', hok⟩
    obtain ⟨t, s₁, hrun, -⟩ := bind_run_eq_ok hok
    obtain ⟨d, hd, -, hbody⟩ := readTable_drafted hreader sha256 hrun
    obtain rfl := validate_ends_image hreader hd hbody verify s image s' hok
    exact ⟨d, hd, (validate_held_iff hreader hd hbody verify s).mp ⟨s', hok⟩, rfl⟩
  · rintro ⟨d, hd, hheld, rfl⟩
    exact (validate_held_iff hreader hd hheld.body verify s).mpr hheld

/-- Where sums wrap around, 64 bytes at the start of the flash have room behind them. -/
theorem reckons_tiny : Overflow.wrap.Reckons tinyMap 0 64 :=
  .inr ⟨by decide, by decide, by decide, by decide, by decide⟩

theorem validate_exact_tiny :
    ∃ s', validate .wrap (Reader.ofMemory (memoryOf 0 tinyBytes)) (fun _ _ => 0) 0 64 tinyMap
      .checksum () = .ok (tinyDraft.image (fun _ _ => 0) 0, s') := by
  have hlegal : Segment.Legal .abort tinyMap { load := 32, len := 4, dataOffset := 32 } :=
    (checkSegment_eq_ok_iff (i := 0)).mp rfl
  have hheld : tinyDraft.Held (fun _ _ => 0) (memoryOf 0 tinyBytes) 0 .checksum :=
    ⟨by decide, by simp⟩
  exact (validate_exact .wrap _ _ (Reader.ofMemory_holds _) (fun _ _ => 0) tinyMap 0 64
    reckons_tiny .checksum () _).mpr ⟨tinyDraft, tinyDraft_fits rfl (by decide) hlegal, hheld, rfl⟩

end AtomicOta.Esp
