import AtomicOta.Esp.Validate
import Mathlib.Order.CompletePartialOrder
import Mathlib.Order.Interval.Set.Disjoint

/-!
# What an accepted image may do

`AtomicOta.Esp.validate_loadable`: whatever the reader answers, an image that is accepted
where an overflow aborts is `AtomicOta.Esp.Image.Loadable` – its data lies in the partition
in file order, and each segment is loaded inside one region and clear of the bootloader.

The walk over the segment headers keeps `AtomicOta.Esp.Walk.Sound`, which says of the
segments read so far what is to be said of all of them at the end. Each turn of the walk
adds one segment, and what it adds about it is what `AtomicOta.Esp.checkSegment_eq_ok_iff`
makes of the check; so the bytes that were read never enter the argument.
-/

namespace AtomicOta.Esp

open Fallible

/-! ### The layout of the data -/

/-- The data ranges of the segments follow each other from `start` to `stop`, with the
eight bytes of a segment header before each. -/
def LaidOut : ℕ → List Segment → ℕ → Prop
  | start, [], stop => start = stop
  | start, seg :: segs, stop =>
    seg.dataOffset.toNat = start + 8 ∧ LaidOut (seg.dataOffset.toNat + seg.len.toNat) segs stop

theorem LaidOut.append {segs : List Segment} {seg : Segment} {start stop : ℕ}
    (h : LaidOut start segs stop) (hseg : seg.dataOffset.toNat = stop + 8) :
    LaidOut start (segs ++ [seg]) (seg.dataOffset.toNat + seg.len.toNat) := by
  induction segs generalizing start with
  | nil =>
    rw [LaidOut] at h
    exact ⟨h ▸ hseg, rfl⟩
  | cons first segs ih => exact ⟨h.1, ih h.2⟩

theorem LaidOut.le {segs : List Segment} {start stop : ℕ} (h : LaidOut start segs stop) :
    start ≤ stop := by
  induction segs generalizing start with
  | nil => exact Nat.le_of_eq h
  | cons first segs ih =>
    have hle := ih h.2
    rw [h.1] at hle
    omega

/-- Every data range is between the two ends. -/
theorem LaidOut.mem {segs : List Segment} {start stop : ℕ} (h : LaidOut start segs stop)
    {seg : Segment} (hseg : seg ∈ segs) :
    start + 8 ≤ seg.dataOffset.toNat ∧ seg.dataOffset.toNat + seg.len.toNat ≤ stop := by
  induction segs generalizing start with
  | nil => cases hseg
  | cons first segs ih =>
    obtain ⟨hfirst, hrest⟩ := h
    rcases List.mem_cons.mp hseg with rfl | hmem
    · exact ⟨hfirst.ge, hrest.le⟩
    · obtain ⟨hstart, hstop⟩ := ih hrest hmem
      exact ⟨by omega, hstop⟩

/-- The header before a data range is behind the start. -/
theorem LaidOut.header {segs : List Segment} {start stop : ℕ} (h : LaidOut start segs stop)
    {seg : Segment} (hseg : seg ∈ segs) : start ≤ (seg.dataOffset - segmentHeaderLen).toNat ∧
      (seg.dataOffset - segmentHeaderLen).toNat + 8 = seg.dataOffset.toNat := by
  obtain ⟨hlo, -⟩ := h.mem hseg
  have hlen : segmentHeaderLen.toNat = 8 := rfl
  rw [toNat_sub_of_le' (by omega), hlen]
  omega

/-! ### Accepted images -/

/-- **What may be loaded**: the image is a well-formed part of its partition, and loading
it touches nothing it must not touch. -/
structure Image.Loadable (map : MemoryMap) (partOffset partSize : UInt32) (image : Image) :
    Prop where
  count_pos : 1 ≤ image.count
  count_le : image.count ≤ 16
  length_segments : image.segments.length = image.count
  /-- The data ranges are in file order, the first of them 32 bytes into the image. -/
  laidOut : ∃ stop, LaidOut (partOffset.toNat + 24) image.segments stop ∧
    stop < image.stop.toNat
  inside : ∀ seg ∈ image.segments, partOffset.toNat ≤ seg.dataOffset.toNat ∧
    seg.dataOffset.toNat + seg.len.toNat ≤ partOffset.toNat + partSize.toNat
  stop_inside : partOffset.toNat ≤ image.stop.toNat ∧
    image.stop.toNat ≤ partOffset.toNat + partSize.toNat
  /-- A segment is loaded inside a single region. -/
  region : ∀ seg ∈ image.segments, seg.Loaded →
    ∃ r ∈ map.regions, seg.addresses ⊆ r.addresses
  aligned : ∀ seg ∈ image.segments, seg.Loaded → map.IsFlashMapped seg.load →
    seg.load.toNat ≡ seg.dataOffset.toNat [MOD map.mmuPage.toNat]
  /-- On the data bus, it is disjoint from the bootloader. -/
  clear : ∀ seg ∈ image.segments, seg.Loaded → ¬ map.IsFlashMapped seg.load →
    seg.load ∉ map.rtc → ∃ target, seg.ramTarget .abort map = .ok (some target) ∧
      Disjoint (Set.Ico target.toNat (target.toNat + seg.len.toNat)) map.bootWindow.addresses
  entry : ∃ seg ∈ image.segments, 0 < seg.len ∧ (seg.load ∈ map.irom ∨ seg.load ∈ map.iram) ∧
    image.entry.toNat ∈ seg.addresses

namespace Segment

variable {o : Overflow} {map : MemoryMap} {seg : Segment} {entry target : UInt32}

/-- A legal segment does not leave the region it starts in. -/
theorem Legal.subset (h : seg.Legal o map) : ∃ r ∈ map.regions, seg.addresses ⊆ r.addresses := by
  obtain ⟨r, hregion, hle⟩ := h.inside
  obtain ⟨hr, hmem⟩ := MemoryMap.region_spec hregion
  exact ⟨r, hr, Set.Ico_subset_Ico (Range.mem_iff.mp hmem).1 hle⟩

theorem Clear.disjoint (h : seg.Clear map target) (hrtc : seg.load ∉ map.rtc) :
    Disjoint (Set.Ico target.toNat (target.toNat + seg.len.toNat)) map.bootWindow.addresses := by
  rw [Range.addresses, Set.disjoint_left]
  rintro a ⟨hlo, hhi⟩ ⟨hstart, hstop⟩
  rcases h with hmem | hbefore | hafter
  · exact hrtc hmem
  · omega
  · omega

/-- The entry point found in a legal segment is one of its addresses. -/
theorem Runs.mem (h : seg.Runs map entry) (hlegal : seg.Legal o map) :
    entry.toNat ∈ seg.addresses := by
  obtain ⟨-, hle, hlt⟩ := h
  rw [saturatingAdd_of_lt hlegal.lt, UInt32.lt_iff_toNat_lt, toNat_add_of_lt hlegal.lt] at hlt
  exact ⟨UInt32.le_iff_toNat_le.mp hle, hlt⟩

end Segment

/-! ### The walk -/

/-- **What the walk knows** of the segments it has read. -/
structure Walk.Sound (map : MemoryMap) (partOffset entry : UInt32) (w : Walk) : Prop where
  laidOut : LaidOut (partOffset.toNat + 24) w.segments w.cursor.toNat
  legal : ∀ seg ∈ w.segments, seg.Loaded → seg.Legal .abort map
  entryOk : w.entryOk = true → ∃ seg ∈ w.segments, seg.Loaded ∧ seg.Runs map entry

variable {map : MemoryMap} {partOffset partSize partEnd entry : UInt32} {i : ℕ}

/-- What is known of a segment that is let pass. -/
theorem admitSegment_ok {seg : Segment} {entryOk entryOk' : Bool}
    (h : admitSegment .abort map entry i entryOk seg = .ok entryOk') :
    (seg.Loaded → seg.Legal .abort map) ∧
      (entryOk' = true → entryOk = true ∨ seg.Loaded ∧ seg.Runs map entry) := by
  unfold admitSegment at h
  split_ifs at h with hloaded
  · obtain ⟨_, hcheck, h⟩ := bind_eq_ok h
    cases h
    refine ⟨fun _ => checkSegment_eq_ok_iff.mp hcheck, fun hentry => ?_⟩
    rcases Bool.or_eq_true_iff.mp hentry with hold | hruns
    · exact Or.inl hold
    · exact Or.inr ⟨hloaded, of_decide_eq_true hruns⟩
  · cases h
    exact ⟨fun hload => absurd hload hloaded, Or.inl⟩

/-- **What one turn of the walk adds**, in every build: a segment behind the cursor that ends
in the partition, and nothing else. -/
theorem Walk.step_ok {o : Overflow} {w w' : Walk} {raw : List UInt8}
    (h : Walk.step o map partEnd entry i w raw = .ok w') :
    ∃ seg : Segment, w'.segments = w.segments ++ [seg] ∧
      add o w.cursor segmentHeaderLen = .ok seg.dataOffset ∧
      w'.cursor.toNat = seg.dataOffset.toNat + seg.len.toNat ∧
      w'.cursor.toNat ≤ partEnd.toNat ∧
      admitSegment o map entry i w.entryOk seg = .ok w'.entryOk := by
  obtain ⟨dataOffset, hoffset, h⟩ := bind_eq_ok h
  cases hsum : checkedAdd dataOffset (wordAt raw 4) with
  | none => simp [hsum] at h
  | some dataEnd =>
    simp only [hsum] at h
    split_ifs at h with hout
    obtain ⟨entryOk, hadmit, h⟩ := bind_eq_ok h
    cases h
    rw [UInt32.lt_iff_toNat_lt, Nat.not_lt] at hout
    exact ⟨_, rfl, hoffset, checkedAdd_some hsum, hout, hadmit⟩

theorem Walk.Sound.step {w w' : Walk} {raw : List UInt8} (hw : w.Sound map partOffset entry)
    (h : Walk.step .abort map partEnd entry i w raw = .ok w') :
    w'.Sound map partOffset entry ∧ w'.segments.length = w.segments.length + 1 := by
  obtain ⟨seg, hsegs, hadd, hcursor, -, hadmit⟩ := Walk.step_ok h
  have hoffset : seg.dataOffset.toNat = w.cursor.toNat + 8 := toNat_of_add_abort hadd
  obtain ⟨hlegal, hentry⟩ := admitSegment_ok hadmit
  refine ⟨⟨?_, ?_, ?_⟩, by rw [hsegs, List.length_append, List.length_singleton]⟩
  · rw [hsegs, hcursor]
    exact hw.laidOut.append hoffset
  · intro t ht
    rw [hsegs, List.mem_append, List.mem_singleton] at ht
    rcases ht with ht | rfl
    · exact hw.legal t ht
    · exact hlegal
  · intro hok
    rw [hsegs]
    rcases hentry hok with hold | hnew
    · obtain ⟨t, ht, hruns⟩ := hw.entryOk hold
      exact ⟨t, List.mem_append_left _ ht, hruns⟩
    · exact ⟨seg, List.mem_append_right _ (List.mem_singleton_self seg), hnew⟩

/-- Behind the header of the image, before any segment. -/
theorem Walk.sound_start {cursor : UInt32} (h : cursor.toNat = partOffset.toNat + headerLen.toNat) :
    Walk.Sound map partOffset entry { segments := [], cursor, entryOk := false } where
  laidOut := h.symm
  legal seg hseg := by cases hseg
  entryOk hentry := by cases hentry

variable {ρ : Type} {reader : Reader ρ}

/-- The walk over `n` headers leaves `n` more segments, all as they should be. -/
theorem walk_sound (n : ℕ) {w : Walk} (hw : w.Sound map partOffset entry) :
    Ends (walk .abort reader map partEnd entry n i w)
      fun w' => w'.Sound map partOffset entry ∧ w'.segments.length = w.segments.length + n := by
  induction n generalizing i w with
  | zero => exact Ends.pure ⟨hw, rfl⟩
  | succ n ih =>
    refine Ends.bind Ends.trivial fun raw _ => ?_
    refine Ends.bind (Ends.lift fun next hnext => hw.step hnext) ?_
    rintro next ⟨hnext, hlength⟩
    refine (ih hnext).mono ?_
    rintro w' ⟨hw', hlength'⟩
    exact ⟨hw', by omega⟩

/-! ### The image -/

theorem parseHeader_ok {raw : List UInt8} {header : Header}
    (h : parseHeader map raw = .ok header) : 1 ≤ header.count ∧ header.count ≤ 16 := by
  unfold parseHeader at h
  split_ifs at h with hmagic hcount hchip
  cases h
  rw [not_or, Nat.not_lt] at hcount
  have hpos : (byteAt raw 1).toNat ≠ 0 := fun h0 => hcount.1 (UInt8.toNat_inj.mp h0)
  exact ⟨Nat.one_le_iff_ne_zero.mpr hpos, hcount.2⟩

/-- What a trailer has been computed from, in every build. -/
theorem trailer_ok {o : Overflow} {cursor : UInt32} {hashAppended : Bool} {t : Trailer}
    (h : trailer o partOffset partEnd cursor hashAppended = .ok t) :
    ∃ rel used padding checked, sub o cursor partOffset = .ok rel ∧
      add o partOffset rel = .ok used ∧ sub o 15 (rel % 16) = .ok padding ∧
      add o used padding = .ok t.checksumAt ∧ add o t.checksumAt 1 = .ok checked ∧
      add o checked (if hashAppended then hashLen else 0) = .ok t.stop ∧ ¬ partEnd < t.stop := by
  obtain ⟨rel, hrel, h⟩ := bind_eq_ok h
  obtain ⟨used, hused, h⟩ := bind_eq_ok h
  obtain ⟨padding, hpadding, h⟩ := bind_eq_ok h
  obtain ⟨checksumAt, hat, h⟩ := bind_eq_ok h
  obtain ⟨checked, hchecked, h⟩ := bind_eq_ok h
  obtain ⟨stop, hstop, h⟩ := bind_eq_ok h
  split_ifs at h with hout
  cases h
  exact ⟨rel, used, padding, checked, hrel, hused, hpadding, hat, hchecked, hstop, hout⟩

/-- **Where the trailer is**: the checksum byte is the last of the 16-byte block, relative to
the start of the image, that the data ends before or in. -/
theorem trailer_spec {cursor : UInt32} {hashAppended : Bool} {t : Trailer}
    (h : trailer .abort partOffset partEnd cursor hashAppended = .ok t) :
    partOffset.toNat ≤ cursor.toNat ∧
      t.checksumAt.toNat = cursor.toNat + (15 - (cursor.toNat - partOffset.toNat) % 16) ∧
      t.stop.toNat = t.checksumAt.toNat + 1 + (if hashAppended then 32 else 0) ∧
      t.stop.toNat ≤ partEnd.toNat := by
  obtain ⟨rel, used, padding, checked, hrel, hused, hpadding, hat, hchecked, hstop, hout⟩ :=
    trailer_ok h
  have hle := UInt32.le_iff_toNat_le.mp (le_of_sub_abort hrel)
  have hdiff : rel.toNat = cursor.toNat - partOffset.toNat := by
    rw [sub_ok hrel, toNat_sub_of_le' hle]
  have hback : used.toNat = cursor.toNat := by
    rw [toNat_of_add_abort hused, hdiff]
    omega
  have hpad : padding.toNat = 15 - (cursor.toNat - partOffset.toNat) % 16 := by
    rw [sub_ok hpadding, toNat_sub_of_le' (UInt32.le_iff_toNat_le.mp (le_of_sub_abort hpadding)),
      UInt32.toNat_mod, hdiff]
    rfl
  have hone : checked.toNat = t.checksumAt.toNat + 1 := toNat_of_add_abort hchecked
  have hend : t.stop.toNat = checked.toNat + (if hashAppended then 32 else 0) := by
    rw [toNat_of_add_abort hstop]
    split_ifs <;> rfl
  rw [UInt32.lt_iff_toNat_lt, Nat.not_lt] at hout
  exact ⟨hle, by rw [toNat_of_add_abort hat, hback, hpad], by rw [hend, hone], hout⟩

/-- What the walk knows at its end is all that has to be known of the segments. -/
theorem Walk.Sound.loadable {w : Walk} (hw : w.Sound map partOffset entry)
    (hentry : w.entryOk = true) {image : Image} (hsegs : image.segments = w.segments)
    (himage : image.entry = entry) (hcount : w.segments.length = image.count)
    (hpos : 1 ≤ image.count) (hmax : image.count ≤ 16)
    (hcursor : w.cursor.toNat < image.stop.toNat)
    (hstop : image.stop.toNat ≤ partOffset.toNat + partSize.toNat) :
    image.Loadable map partOffset partSize where
  count_pos := hpos
  count_le := hmax
  length_segments := hsegs ▸ hcount
  laidOut := ⟨w.cursor.toNat, hsegs ▸ hw.laidOut, hcursor⟩
  inside := by
    rintro seg hseg
    obtain ⟨hlo, hhi⟩ := hw.laidOut.mem (hsegs ▸ hseg)
    exact ⟨by omega, by omega⟩
  stop_inside := by
    have hle := hw.laidOut.le
    exact ⟨by omega, hstop⟩
  region := by
    rintro seg hseg hloaded
    exact (hw.legal seg (hsegs ▸ hseg) hloaded).subset
  aligned := by
    rintro seg hseg hloaded hflash
    exact ((hw.legal seg (hsegs ▸ hseg) hloaded).aligned hflash).2
  clear := by
    rintro seg hseg hloaded hram hrtc
    obtain ⟨target, htarget, hclear⟩ := (hw.legal seg (hsegs ▸ hseg) hloaded).clear hram
    exact ⟨target, htarget, hclear.disjoint hrtc⟩
  entry := by
    obtain ⟨seg, hseg, hloaded, hruns⟩ := hw.entryOk hentry
    exact ⟨seg, hsegs ▸ hseg, hloaded.1, hruns.1, himage ▸ hruns.mem (hw.legal seg hseg hloaded)⟩

/-- **What is known of a segment table**, where an overflow aborts: it is what a sound walk
has left, with the trailer behind it. -/
theorem readTable_ends {P : Table → Prop}
    (h : ∀ (partEnd : UInt32) (header : Header) (w : Walk) (t : Trailer),
      partEnd.toNat = partOffset.toNat + partSize.toNat → 1 ≤ header.count → header.count ≤ 16 →
      w.Sound map partOffset header.entry → w.segments.length = header.count →
      w.entryOk = true → trailer .abort partOffset partEnd w.cursor header.hashAppended = .ok t →
      P { image := { entry := header.entry, segments := w.segments, count := header.count,
                     hashAppended := header.hashAppended, stop := t.stop },
          checksumAt := t.checksumAt }) :
    Ends (readTable .abort reader partOffset partSize map) P := by
  unfold readTable
  cases hsum : checkedAdd partOffset partSize with
  | none => exact Ends.throw
  | some partEnd =>
    refine Ends.bind Ends.trivial fun raw _ => ?_
    refine Ends.bind (Ends.lift fun header hheader => parseHeader_ok hheader) ?_
    rintro header ⟨hpos, hmax⟩
    refine Ends.bind (Ends.lift fun cursor hcursor => toNat_of_add_abort hcursor) ?_
    rintro cursor hcursor
    refine Ends.bind (walk_sound header.count (Walk.sound_start hcursor)) ?_
    rintro w ⟨hw, hlength⟩
    split_ifs with hentry
    · exact Ends.throw
    · refine Ends.bind (Ends.lift fun t ht => ht) fun t ht => Ends.pure ?_
      exact h partEnd header w t (checkedAdd_some hsum) hpos hmax hw (by simpa using hlength)
        (by simpa using hentry) ht

/-- **Where everything is** in an image whose table has been read. -/
structure Table.Placed (partOffset partSize : UInt32) (t : Table) : Prop where
  laidOut : ∃ cursor, LaidOut (partOffset.toNat + 24) t.image.segments cursor ∧
    t.checksumAt.toNat = cursor + (15 - (cursor - partOffset.toNat) % 16)
  /-- The image ends behind the checksum byte, or behind the hash that follows it. -/
  stop : t.image.stop.toNat = t.checksumAt.toNat + 1 + if t.image.hashAppended then 32 else 0
  inside : t.image.stop.toNat ≤ partOffset.toNat + partSize.toNat

theorem readTable_placed :
    Ends (readTable .abort reader partOffset partSize map) (Table.Placed partOffset partSize) := by
  refine readTable_ends fun partEnd header w t hpart _ _ hw _ _ ht => ?_
  obtain ⟨-, hat, hstop, hin⟩ := trailer_spec ht
  exact { laidOut := ⟨w.cursor.toNat, hw.laidOut, hat⟩, stop := hstop, inside := hpart ▸ hin }

namespace Table.Placed

variable {t : Table}

theorem start_le (h : t.Placed partOffset partSize) :
    partOffset.toNat + 24 ≤ t.checksumAt.toNat := by
  obtain ⟨cursor, hlaid, hat⟩ := h.laidOut
  have hle := hlaid.le
  omega

/-- The data ends before the checksum byte. -/
theorem data_le (h : t.Placed partOffset partSize) {seg : Segment} (hseg : seg ∈ t.image.segments) :
    partOffset.toNat + 32 ≤ seg.dataOffset.toNat ∧
      seg.dataOffset.toNat + seg.len.toNat ≤ t.checksumAt.toNat := by
  obtain ⟨cursor, hlaid, hat⟩ := h.laidOut
  have hmem := hlaid.mem hseg
  omega

/-- One past the checksum byte is an address. -/
theorem checked_lt (h : t.Placed partOffset partSize) : t.checksumAt.toNat + 1 < 2 ^ 32 := by
  have hstop := h.stop
  have hlt := t.image.stop.toNat_lt
  omega

/-- The data of a segment has addresses. -/
theorem fits (h : t.Placed partOffset partSize) :
    ∀ seg ∈ t.image.segments, seg.dataOffset.toNat + seg.len.toNat < 2 ^ 32 := by
  intro seg hseg
  have hle := (h.data_le hseg).2
  have hlt := h.checked_lt
  omega

end Table.Placed

theorem readTable_loadable :
    Ends (readTable .abort reader partOffset partSize map)
      fun t => t.image.Loadable map partOffset partSize := by
  refine readTable_ends fun partEnd header w t hpart hpos hmax hw hlength hentry ht => ?_
  obtain ⟨-, hat, hstop, hin⟩ := trailer_spec ht
  exact hw.loadable hentry rfl rfl hlength hpos hmax (show w.cursor.toNat < t.stop.toNat by omega)
    (hpart ▸ hin)

/-- **An accepted image can be loaded.** For every reader, every partition, every memory
map and every level of verification. -/
theorem validate_loadable (reader : Reader ρ) (sha256 : List UInt8 → Digest)
    (partOffset partSize : UInt32) (map : MemoryMap) (verify : Verify) (s s' : ρ) (image : Image)
    (h : validate .abort reader sha256 partOffset partSize map verify s = .ok (image, s')) :
    image.Loadable map partOffset partSize := by
  suffices hends : Ends (validate .abort reader sha256 partOffset partSize map verify)
      (Image.Loadable map partOffset partSize) from hends s image s' h
  refine Ends.bind readTable_loadable fun t ht => ?_
  exact Ends.bind Ends.trivial fun _ _ => Ends.bind Ends.trivial fun _ _ => Ends.pure ht

/-- A chip with 64 bytes of executable memory, and its bootloader behind it. -/
def tinyMap : MemoryMap :=
  { chipId := 5, drom := ⟨0, 0⟩, irom := ⟨0, 0⟩, iram := ⟨0, 64⟩, dram := ⟨0, 0⟩, rtc := ⟨0, 0⟩,
    sramAliasOffset := 0, bootWindow := ⟨64, 128⟩, mmuPage := 16 }

/-- An image for it, of one segment with four bytes of data. -/
def tinyBytes : List UInt8 :=
  [0xE9, 1, 0, 0, 32, 0, 0, 0, 0, 0, 0, 0, 5, 0, 0, 0, 0, 0, 0, 0, 0, 0, 0, 0] ++
    [32, 0, 0, 0, 4, 0, 0, 0, 1, 2, 3, 4] ++ [0, 0, 0, 0, 0, 0, 0, 0, 0, 0, 0, 0xEB]

theorem validate_loadable_tiny :
    Image.Loadable tinyMap 0 64
      { entry := 32, segments := [{ load := 32, len := 4, dataOffset := 32 }], count := 1,
        hashAppended := false, stop := 48 } :=
  validate_loadable (Reader.ofBytes tinyBytes) (fun _ _ => 0) 0 64 tinyMap .structural () () _ rfl

end AtomicOta.Esp
