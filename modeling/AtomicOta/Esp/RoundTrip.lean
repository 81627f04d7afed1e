import AtomicOta.Esp.Accept
import AtomicOta.Esp.Layout

/-!
# Well-formed images are accepted

The round trip of the image format. A draft is `AtomicOta.Esp.Draft.Acceptable` for a
partition and a memory map when it fits, its segments are legal where they come to lie, and
its entry point is in one of them; then `AtomicOta.Esp.validate_draft` says that the laid
out image is accepted at every level, at the last one when it carries a hash, and that what
is returned is what it was made of.

The conditions that the errors of the validator put in words,
`AtomicOta.Esp.Segment.Documented`, say less about a memory map than is needed: they do not
ask for a page size, for a data-bus alias that can be computed, or for a boot window that is
not empty. In a map that has these they are enough (`AtomicOta.Esp.Draft.Fits.acceptable`);
in one that lacks any of them an image may be refused that meets them
(`AtomicOta.Esp.documented_refused`).
-/

namespace AtomicOta.Esp

open Fallible

variable {ρ : Type} {o : Overflow} {reader : Reader ρ} {map : MemoryMap}
variable {partOffset partSize : UInt32} {start : ℕ} {bytes pre post : List UInt8}

/-- A draft that fits in its partition, is meant for this chip, and has its entry point in
one of its segments. `Placed` is asked of every segment that is loaded. -/
structure Draft.Fits (d : Draft) (Placed : Segment → Prop) (sha256 : List UInt8 → Digest)
    (map : MemoryMap) (partOffset partSize : UInt32) : Prop where
  chipId : d.chipId = map.chipId
  partition_lt : partOffset.toNat + partSize.toNat < 2 ^ 32
  fits : (d.bytes sha256).length ≤ partSize.toNat
  placed : ∀ seg ∈ d.segments partOffset, seg.Loaded → Placed seg
  entry : ∃ seg ∈ d.segments partOffset, seg.Loaded ∧
    (seg.load ∈ map.irom ∨ seg.load ∈ map.iram) ∧ d.entry.toNat ∈ seg.addresses

/-- **A draft that can be accepted** at `partOffset`. -/
def Draft.Acceptable (d : Draft) (o : Overflow) (sha256 : List UInt8 → Digest)
    (map : MemoryMap) (partOffset partSize : UInt32) : Prop :=
  d.Fits (Segment.Legal o map) sha256 map partOffset partSize

variable {d : Draft} {sha256 : List UInt8 → Digest}

/-- What an acceptable draft lays out has addresses. -/
theorem Draft.Acceptable.lt (h : d.Acceptable o sha256 map partOffset partSize) :
    partOffset.toNat + (d.bytes sha256).length < 2 ^ 32 :=
  Nat.lt_of_le_of_lt (Nat.add_le_add_left h.fits _) h.partition_lt

theorem Draft.Acceptable.length_checked_lt (h : d.Acceptable o sha256 map partOffset partSize) :
    partOffset.toNat + d.checked.length < 2 ^ 32 := by
  have hlt := h.lt
  rw [d.length_bytes] at hlt
  omega

/-- The bytes of a draft split before and behind its segments. -/
theorem Draft.bytes_split (d : Draft) (sha256 : List UInt8 → Digest) :
    d.bytes sha256 = d.header ++ d.blocks.flatMap Block.bytes ++ (d.padding ++ [d.checksum] ++
      if d.hashAppended then List.ofFn (sha256 d.checked) else []) := by
  simp only [Draft.bytes, Draft.checked, List.append_assoc]

/-! ### The segment table -/

/-- The entry point of a legal segment is found in it. -/
theorem Segment.Legal.runs {seg : Segment} {entry : UInt32} (h : seg.Legal o map)
    (hregion : seg.load ∈ map.irom ∨ seg.load ∈ map.iram) (hentry : entry.toNat ∈ seg.addresses) :
    seg.Runs map entry := by
  refine ⟨hregion, UInt32.le_iff_toNat_le.mpr hentry.1, ?_⟩
  rw [saturatingAdd_of_lt h.lt, UInt32.lt_iff_toNat_lt, toNat_add_of_lt h.lt]
  exact hentry.2

theorem Draft.Acceptable.anyRuns (h : d.Acceptable o sha256 map partOffset partSize) :
    anyRuns map d.entry (d.segments partOffset) = true := by
  obtain ⟨seg, hseg, hloaded, hregion, hentry⟩ := h.entry
  exact List.any_eq_true.mpr
    ⟨seg, hseg, decide_eq_true ⟨hloaded, (h.placed seg hseg hloaded).runs hregion hentry⟩⟩

/-- The checksum byte and the end of the image are where the layout puts them. -/
theorem trailer_draft (h : d.Acceptable o sha256 map partOffset partSize) :
    trailer o partOffset (partOffset + partSize)
        (UInt32.ofNat (partOffset.toNat + (24 + (d.blocks.flatMap Block.bytes).length)))
        d.hashAppended =
      .ok { checksumAt := UInt32.ofNat (partOffset.toNat + d.checked.length - 1)
            stop := UInt32.ofNat (partOffset.toNat + (d.bytes sha256).length) } := by
  have hfits := h.fits
  have hlength : (d.bytes sha256).length = _ := d.length_bytes
  have hchecked := d.length_checked
  have hend := toNat_add_of_lt h.partition_lt
  have hat : partOffset.toNat + (24 + (d.blocks.flatMap Block.bytes).length) +
      (15 - (24 + (d.blocks.flatMap Block.bytes).length) % 16) =
        partOffset.toNat + d.checked.length - 1 := by omega
  have hstop : partOffset.toNat + d.checked.length - 1 + 1 +
      (if d.hashAppended then 32 else 0) = partOffset.toNat + (d.bytes sha256).length := by omega
  have hin : partOffset.toNat + d.checked.length - 1 + 1 + (if d.hashAppended then 32 else 0) ≤
      (partOffset + partSize).toNat := by omega
  rw [← hat] at hin
  have htrailer := trailer_eq (o := o) _ _ _ hin
  rwa [UInt32.ofNat_toNat, hat, hstop] at htrailer

/-- **The header and the segment table** of an acceptable draft are accepted. -/
theorem readTable_draft (h : d.Acceptable o sha256 map partOffset partSize)
    (hserves : reader.Serves partOffset.toNat (d.bytes sha256)) :
    Succeeds (readTable o reader partOffset partSize map) fun t => t =
      { image := d.image sha256 partOffset,
        checksumAt := UInt32.ofNat (partOffset.toNat + d.checked.length - 1) } := by
  have hlt := h.length_checked_lt
  have hchecked := d.length_checked
  have hend : (partOffset + partSize).toNat = _ := toNat_add_of_lt h.partition_lt
  have hbody := d.bytes_split sha256
  have hbytes : d.bytes sha256 = [] ++ d.header ++ (d.blocks.flatMap Block.bytes ++ _) :=
    hbody.trans (List.append_assoc ..)
  have hoffset : add o partOffset headerLen = .ok (UInt32.ofNat (partOffset.toNat + 24)) := by
    conv => lhs; rw [eq_ofNat (rfl : partOffset.toNat = partOffset.toNat)]
    exact add_ofNat (n := 24) (by omega)
  have hcursor : (UInt32.ofNat (partOffset.toNat + 24)).toNat =
      partOffset.toNat + d.header.length := toNat_ofNat_of_lt (by omega)
  have hfit : partOffset.toNat + (d.bytes sha256).length ≤ (partOffset + partSize).toNat :=
    hend ▸ Nat.add_le_add_left h.fits _
  unfold readTable
  rw [checkedAdd_of_lt h.partition_lt]
  refine Succeeds.bind (hserves.readExact_append hbytes rfl) ?_
  rintro raw rfl
  refine Succeeds.bind (Succeeds.lift (P := (· = _)) (parseHeader_header h.chipId) rfl) ?_
  rintro header rfl
  refine Succeeds.bind (Succeeds.lift (P := (· = _)) hoffset rfl) ?_
  rintro cursor rfl
  refine Succeeds.bind (walk_blocks hserves d.blocks hbody hcursor hfit h.placed) ?_
  rintro w rfl
  -- the walk has found the entry point, and stands at the end of the last segment
  have hentry : (false || Esp.anyRuns map d.entry
      (place (partOffset.toNat + d.header.length) d.blocks)) = true := h.anyRuns
  rw [if_neg (by simpa using hentry), Draft.length_header, Nat.add_assoc]
  refine Succeeds.bind (Succeeds.lift (P := (· = _)) (trailer_draft h) rfl) ?_
  rintro t rfl
  exact Succeeds.pure rfl

/-! ### The data -/

/-- The XOR loops of all segments take in their data in order. -/
theorem xorSegments_serves (h : reader.Serves start bytes) (bs : List Block) (xor : UInt8)
    (hbytes : bytes = pre ++ bs.flatMap Block.bytes ++ post)
    (hfit : start + bytes.length < 2 ^ 32) :
    Succeeds ((place (start + pre.length) bs).foldlM (xorSegment o reader) xor)
      (· = (bs.flatMap Block.data).foldl (· ^^^ ·) xor) := by
  induction bs generalizing pre xor with
  | nil => exact Succeeds.pure rfl
  | cons b bs ih =>
    obtain ⟨-, hdata, hrest⟩ := Block.split hbytes
    have hlength := length_of_eq_append hrest
    have hblock := b.length_bytes
    have hnext : start + pre.length + b.bytes.length = start + (pre ++ b.bytes).length := by
      rw [List.length_append, Nat.add_assoc]
    have hoffset : (b.segment (start + pre.length)).dataOffset.toNat =
        start + (pre ++ b.header).length := by
      rw [List.length_append, ← Nat.add_assoc]
      exact toNat_ofNat_of_lt (by omega)
    have hlen : (b.segment (start + pre.length)).len.toNat = b.data.length :=
      toNat_ofNat_of_lt (by omega)
    rw [place, List.foldlM_cons]
    refine Succeeds.bind (xorSegment_serves h hdata hoffset hlen hfit xor) ?_
    rintro x rfl
    rw [hnext, List.flatMap_cons, List.foldl_append]
    exact ih _ hrest

theorem verifyChecksum_draft (h : d.Acceptable o sha256 map partOffset partSize)
    (hserves : reader.Serves partOffset.toNat (d.bytes sha256)) (verify : Verify) :
    Succeeds (verifyChecksum o reader verify (d.segments partOffset)
      (UInt32.ofNat (partOffset.toNat + d.checked.length - 1))) fun _ => True := by
  have hlt := h.length_checked_lt
  have hsum : d.bytes sha256 = (d.header ++ d.blocks.flatMap Block.bytes ++ d.padding) ++
      [d.checksum] ++ if d.hashAppended then List.ofFn (sha256 d.checked) else [] := rfl
  have hbody := d.bytes_split sha256
  have hlength : d.checked.length =
      (d.header ++ d.blocks.flatMap Block.bytes ++ d.padding).length + 1 :=
    List.length_append
  have hat : (UInt32.ofNat (partOffset.toNat + d.checked.length - 1)).toNat = partOffset.toNat +
      (d.header ++ d.blocks.flatMap Block.bytes ++ d.padding).length := by
    rw [toNat_ofNat_of_lt (by omega)]
    omega
  unfold verifyChecksum
  split_ifs with hlevel
  · exact Succeeds.pure True.intro
  · refine Succeeds.bind (hserves.readExact_append hsum hat) ?_
    rintro expected rfl
    refine Succeeds.bind (xorSegments_serves hserves d.blocks checksumSeed hbody h.lt) ?_
    rintro xor rfl
    rw [if_neg (by rw [ne_eq, not_not]; rfl)]
    exact Succeeds.pure True.intro

theorem verifyHash_draft (h : d.Acceptable o sha256 map partOffset partSize)
    (hserves : reader.Serves partOffset.toNat (d.bytes sha256)) {verify : Verify}
    (hhash : verify = .full → d.hashAppended = true) :
    Succeeds (verifyHash o reader sha256 verify d.hashAppended partOffset
      (UInt32.ofNat (partOffset.toNat + d.checked.length - 1))) fun _ => True := by
  have hlt := h.length_checked_lt
  have hlength := d.length_checked
  have hchecked : add o (UInt32.ofNat (partOffset.toNat + d.checked.length - 1)) 1 =
      .ok (UInt32.ofNat (partOffset.toNat + d.checked.length - 1 + 1)) :=
    add_ofNat (n := 1) (by omega)
  rw [Nat.sub_add_cancel (by omega)] at hchecked
  have hstop : (UInt32.ofNat (partOffset.toNat + d.checked.length)).toNat =
      partOffset.toNat + d.checked.length := toNat_ofNat_of_lt hlt
  unfold verifyHash
  split_ifs with hlevel happended
  · exact Succeeds.pure True.intro
  · rw [hhash (not_not.mp hlevel)] at happended
    cases happended
  · have hbytes : d.bytes sha256 = [] ++ d.checked ++ List.ofFn (sha256 d.checked) := by
      rw [Draft.bytes, if_pos (by simpa using happended), List.nil_append]
    have hstored : d.bytes sha256 = d.checked ++ List.ofFn (sha256 d.checked) ++ [] := by
      rw [hbytes, List.nil_append, List.append_nil]
    refine Succeeds.bind (Succeeds.lift (P := (· = _)) hchecked rfl) ?_
    rintro checked rfl
    refine Succeeds.bind (absorb_serves hserves hbytes rfl hstop) ?_
    rintro absorbed rfl
    refine Succeeds.bind (P := (· = List.ofFn (sha256 d.checked))) ?_ ?_
    · have hread := hserves.readExact_append hstored hstop
      rwa [List.length_ofFn] at hread
    · rintro stored rfl
      rw [if_neg (not_not.mpr rfl)]
      exact Succeeds.pure True.intro

/-! ### The round trip -/

/-- **A well-formed image is accepted**, and read back as it was made – at every level but
the last in any case, and at the last one exactly when it carries a hash. -/
theorem validate_draft (o : Overflow) (reader : Reader ρ) (sha256 : List UInt8 → Digest)
    (map : MemoryMap) (partOffset partSize : UInt32) (d : Draft)
    (h : d.Acceptable o sha256 map partOffset partSize)
    (hserves : reader.Serves partOffset.toNat (d.bytes sha256)) :
    (∀ verify, (verify = .full → d.hashAppended = true) →
      Succeeds (validate o reader sha256 partOffset partSize map verify)
        (· = d.image sha256 partOffset)) ∧
      (d.hashAppended = false →
        Fails (validate o reader sha256 partOffset partSize map .full) (.error .hashMissing)) := by
  constructor
  · rintro verify hhash
    refine Succeeds.bind (readTable_draft h hserves) ?_
    rintro t rfl
    refine Succeeds.bind (verifyChecksum_draft h hserves verify) fun _ _ => ?_
    exact Succeeds.bind (verifyHash_draft h hserves hhash) fun _ _ => Succeeds.pure rfl
  · rintro hnone
    refine Fails.bind (readTable_draft h hserves) ?_
    rintro t rfl
    refine Fails.bind (verifyChecksum_draft h hserves .full) fun _ _ => ?_
    have hhash : Fails (verifyHash o reader sha256 .full d.hashAppended partOffset
        (UInt32.ofNat (partOffset.toNat + d.checked.length - 1))) (.error .hashMissing) := by
      unfold verifyHash
      rw [if_neg (by simp), if_pos (by simpa using hnone)]
      exact Fails.throw
    exact hhash.bind_left

/-- A buffer serves what is in it. -/
theorem Reader.ofBytes_serves (bytes : List UInt8) : (Reader.ofBytes bytes).Serves 0 bytes := by
  rintro offset n s - hhi
  rw [Nat.zero_add] at hhi
  exact ⟨s, by simp only [Reader.ofBytes, if_pos hhi, Nat.sub_zero]⟩

/-- The image of `AtomicOta.Esp.tinyBytes`. -/
def tinyDraft : Draft :=
  { entry := 32, chipId := 5, hashByte := 0, spare := fun _ => 0,
    blocks := [{ load := 32, data := [1, 2, 3, 4] }], padding := List.replicate 11 0,
    blocks_pos := by decide, blocks_le := by decide, length_padding := by decide }

example : tinyDraft.bytes (fun _ _ => 0) = tinyBytes := by decide

theorem tinyDraft_fits {Placed : Segment → Prop} {map : MemoryMap} (hchip : map.chipId = 5)
    (hiram : 32 ∈ map.iram) (hplaced : Placed { load := 32, len := 4, dataOffset := 32 }) :
    tinyDraft.Fits Placed (fun _ _ => 0) map 0 64 where
  chipId := hchip.symm
  partition_lt := by decide
  fits := by decide
  placed := by
    rintro seg hseg -
    rw [show tinyDraft.segments 0 = [{ load := 32, len := 4, dataOffset := 32 }] from rfl,
      List.mem_singleton] at hseg
    exact hseg ▸ hplaced
  entry := by
    refine ⟨_, List.mem_singleton_self _, by decide, Or.inr hiram, ?_⟩
    exact ⟨by decide, by decide⟩

theorem validate_draft_tiny :
    Succeeds (validate .abort (Reader.ofBytes (tinyDraft.bytes fun _ _ => 0)) (fun _ _ => 0) 0 64
      tinyMap .checksum) (· = tinyDraft.image (fun _ _ => 0) 0) := by
  have hlegal : Segment.Legal .abort tinyMap { load := 32, len := 4, dataOffset := 32 } :=
    (checkSegment_eq_ok_iff (i := 0)).mp rfl
  exact (validate_draft .abort (Reader.ofBytes (tinyDraft.bytes fun _ _ => 0)) (fun _ _ => 0)
    tinyMap 0 64 tinyDraft (tinyDraft_fits rfl (by decide) hlegal)
    (Reader.ofBytes_serves _)).1 .checksum (by simp)

/-! ### The conditions in words -/

/-- The conditions on a segment as the errors `BadLoadRange`, `Misaligned` and
`OverlapsBootloader` describe them. -/
structure Segment.Documented (map : MemoryMap) (seg : Segment) : Prop where
  /-- It lies wholly in the first region that holds its load address. -/
  inside : ∃ r, map.region seg.load = some r ∧ seg.load.toNat + seg.len.toNat ≤ r.stop.toNat
  /-- It is page-congruent when it is flash-mapped. -/
  aligned : map.IsFlashMapped seg.load →
    seg.load.toNat ≡ seg.dataOffset.toNat [MOD map.mmuPage.toNat]
  /-- It is clear of the boot window when it is in RAM outside RTC memory. -/
  clear : ¬ map.IsFlashMapped seg.load → seg.load ∉ map.rtc →
    ∃ target, seg.ramTarget .abort map = .ok (some target) ∧
      Disjoint (Set.Ico target.toNat (target.toNat + seg.len.toNat)) map.bootWindow.addresses

/-- What these conditions take for granted of a memory map: pages of some size, a
bootloader that is somewhere, and instruction memory that has an alias on the data bus. -/
structure MemoryMap.Regular (map : MemoryMap) : Prop where
  page : map.mmuPage ≠ 0
  window : map.bootWindow.start < map.bootWindow.stop
  alias_le : map.sramAliasOffset ≤ map.iram.start

/-- A range of addresses that is disjoint from one with an address in it lies on one side of
it. -/
theorem le_or_le_of_disjoint {a b c e : ℕ} (hab : a < b) (hce : c < e)
    (h : Disjoint (Set.Ico a b) (Set.Ico c e)) : b ≤ c ∨ e ≤ a := by
  rw [Set.Ico_disjoint_Ico] at h
  omega

/-- In a regular map every segment in RAM has a place on the data bus, the same in every
build. -/
theorem Segment.ramTarget_of_regular {seg : Segment} (hmap : map.Regular)
    (hram : ¬ map.IsFlashMapped seg.load) {r : Range} (hr : map.region seg.load = some r) :
    ∃ target, ∀ o, seg.ramTarget o map = .ok (some target) := by
  rw [MemoryMap.region_of_not_isFlashMapped hram] at hr
  unfold MemoryMap.ramRegion at hr
  unfold Segment.ramTarget
  by_cases hiram : seg.load ∈ map.iram
  · have hle : map.sramAliasOffset ≤ seg.load := UInt32.le_trans hmap.alias_le hiram.1
    exact ⟨seg.load - map.sramAliasOffset, fun o => by
      rw [if_pos hiram, sub_of_le hle]
      rfl⟩
  · refine ⟨seg.load, fun o => ?_⟩
    rw [if_neg hiram] at hr ⊢
    split_ifs at hr with hdram hrtc
    · rw [if_pos (Or.inl hdram)]
    · rw [if_pos (Or.inr hrtc)]

/-- **In a regular map the documented conditions are enough.** -/
theorem Segment.Documented.legal {seg : Segment} (hmap : map.Regular) (h : seg.Documented map)
    (hloaded : seg.Loaded) : seg.Legal o map where
  inside := h.inside
  aligned hflash := ⟨hmap.page, h.aligned hflash⟩
  clear hram := by
    obtain ⟨r, hr, -⟩ := h.inside
    obtain ⟨target, htarget⟩ := Segment.ramTarget_of_regular hmap hram hr
    refine ⟨target, htarget o, ?_⟩
    by_cases hrtc : seg.load ∈ map.rtc
    · exact Or.inl hrtc
    · obtain ⟨target', htarget', hclear⟩ := h.clear hram hrtc
      rw [htarget .abort] at htarget'
      cases htarget'
      have hlen := UInt32.lt_iff_toNat_lt.mp hloaded.1
      have hwindow := UInt32.lt_iff_toNat_lt.mp hmap.window
      exact Or.inr (le_or_le_of_disjoint (by omega) hwindow hclear)

theorem Draft.Fits.acceptable (hmap : map.Regular)
    (h : d.Fits (Segment.Documented map) sha256 map partOffset partSize) :
    d.Acceptable o sha256 map partOffset partSize :=
  { h with placed := fun seg hseg hloaded => (h.placed seg hseg hloaded).legal hmap hloaded }

/-- The boot window is empty, and inside the segment. -/
def noWindowMap : MemoryMap := { tinyMap with bootWindow := ⟨33, 33⟩ }

/-- The segment is flash-mapped, but there is no page size. -/
def noPageMap : MemoryMap := { tinyMap with irom := ⟨0, 64⟩, mmuPage := 0 }

/-- The segment is in RTC memory as well, and has no alias on the data bus. -/
def noAliasMap : MemoryMap := { tinyMap with rtc := ⟨0, 64⟩, sramAliasOffset := 33 }

/-- The documented conditions are not enough in a map that is not regular: an image that
meets them is refused, or the validator panics – without an alias, only where an overflow
aborts. -/
theorem documented_refused :
    (tinyDraft.Fits (Segment.Documented noWindowMap) (fun _ _ => 0) noWindowMap 0 64 ∧
      validate .wrap (Reader.ofBytes (tinyDraft.bytes fun _ _ => 0)) (fun _ _ => 0) 0 64
        noWindowMap .structural () = .error (.error (.overlapsBootloader 0))) ∧
    (tinyDraft.Fits (Segment.Documented noPageMap) (fun _ _ => 0) noPageMap 0 64 ∧
      validate .wrap (Reader.ofBytes (tinyDraft.bytes fun _ _ => 0)) (fun _ _ => 0) 0 64
        noPageMap .structural () = .error .panic) ∧
    (tinyDraft.Fits (Segment.Documented noAliasMap) (fun _ _ => 0) noAliasMap 0 64 ∧
      validate .abort (Reader.ofBytes (tinyDraft.bytes fun _ _ => 0)) (fun _ _ => 0) 0 64
        noAliasMap .structural () = .error .panic) := by
  refine ⟨⟨tinyDraft_fits rfl (by decide) ?_, rfl⟩, ⟨tinyDraft_fits rfl (by decide) ?_, rfl⟩,
    ⟨tinyDraft_fits rfl (by decide) ?_, rfl⟩⟩
  · refine ⟨⟨⟨0, 64⟩, by decide, by decide⟩, fun hflash => absurd hflash (by decide), ?_⟩
    rintro - -
    exact ⟨32, rfl, by simp [Range.addresses, noWindowMap]⟩
  · exact ⟨⟨⟨0, 64⟩, by decide, by decide⟩, fun _ => rfl, fun hram => absurd hram (by decide)⟩
  · exact ⟨⟨⟨0, 64⟩, by decide, by decide⟩, fun hflash => absurd hflash (by decide),
      fun _ hrtc => absurd hrtc (by decide)⟩

end AtomicOta.Esp
