import AtomicOta.Esp.Exact

/-!
# The same image in another place

An image knows nothing of where it is: what it says is relative to its first byte, but for the
one condition that compares an address with a place in flash, which is modulo the page. So the
bytes that are accepted at one offset are accepted at any other that leaves the same rest
(`AtomicOta.Esp.validate_relocates`), and what is returned differs by the distance – which is
why one artifact serves every slot.

This is where an exact description of the format pays: a draft that is acceptable in one place
is acceptable in the other (`AtomicOta.Esp.Draft.Acceptable.relocate`), and nothing of the
validator has to be followed a second time.
-/

namespace AtomicOta.Esp

open Fallible

/-- A segment of an image that was moved from `src` to `dst`. -/
def Segment.relocate (src dst : UInt32) (seg : Segment) : Segment :=
  { seg with dataOffset := seg.dataOffset - src + dst }

/-- An image that was moved from `src` to `dst`. -/
def Image.relocate (src dst : UInt32) (image : Image) : Image :=
  { image with segments := image.segments.map (Segment.relocate src dst)
               stop := image.stop - src + dst }

variable {o : Overflow} {map : MemoryMap} {sha256 : List UInt8 → Digest} {d : Draft}
variable {src dst size size' : UInt32}

/-! ### Drafts -/

theorem relocate_ofNat (src dst : UInt32) (n : ℕ) :
    UInt32.ofNat (src.toNat + n) - src + dst = UInt32.ofNat (dst.toNat + n) := by
  rw [UInt32.ofNat_add, UInt32.ofNat_add, UInt32.ofNat_toNat, UInt32.ofNat_toNat,
    UInt32.add_comm src, UInt32.add_sub_cancel, UInt32.add_comm]

/-- The segments of blocks move with their first header. -/
theorem place_relocate (src dst : UInt32) (n : ℕ) (bs : List Block) :
    (place (src.toNat + n) bs).map (Segment.relocate src dst) = place (dst.toNat + n) bs := by
  induction bs generalizing n with
  | nil => rfl
  | cons b bs ih =>
    have hsegment : (b.segment (src.toNat + n)).relocate src dst = b.segment (dst.toNat + n) := by
      rw [Segment.relocate, Block.segment, Block.segment, Nat.add_assoc, relocate_ofNat,
        Nat.add_assoc]
    rw [place, List.map_cons, hsegment, Nat.add_assoc, ih, place, Nat.add_assoc]

theorem Draft.segments_relocate (d : Draft) (src dst : UInt32) :
    (d.segments src).map (Segment.relocate src dst) = d.segments dst :=
  place_relocate src dst 24 d.blocks

/-- The image of a draft moves with it. -/
theorem Draft.image_relocate (d : Draft) (src dst : UInt32) :
    (d.image sha256 src).relocate src dst = d.image sha256 dst := by
  rw [Image.relocate, image, image, segments_relocate, relocate_ofNat]

/-- **A legal segment stays legal** in a place that leaves the same rest. -/
theorem Segment.Legal.relocate {seg : Segment} (h : seg.Legal o map)
    (hsrc : src ≤ seg.dataOffset) (hpage : src.toNat ≡ dst.toNat [MOD map.mmuPage.toNat])
    (hfit : seg.dataOffset.toNat - src.toNat + dst.toNat < 2 ^ 32) :
    (seg.relocate src dst).Legal o map where
  inside := h.inside
  aligned hflash := by
    obtain ⟨hne, hmod⟩ := h.aligned hflash
    have hle := UInt32.le_iff_toNat_le.mp hsrc
    have hoffset : (seg.relocate src dst).dataOffset.toNat =
        seg.dataOffset.toNat - src.toNat + dst.toNat := by
      change (seg.dataOffset - src + dst).toNat = _
      rw [toNat_add_of_lt (by rwa [toNat_sub_of_le' hle]), toNat_sub_of_le' hle]
    refine ⟨hne, ?_⟩
    rw [hoffset]
    have hmoved := hpage.add_left (seg.dataOffset.toNat - src.toNat)
    rw [Nat.sub_add_cancel hle] at hmoved
    exact hmod.trans hmoved
  clear := h.clear

/-- **An acceptable draft is acceptable** in any place that leaves the same rest and has the
room for it. -/
theorem Draft.Acceptable.relocate (h : d.Acceptable o sha256 map src size)
    (hpage : src.toNat ≡ dst.toNat [MOD map.mmuPage.toNat])
    (hpartition : dst.toNat + size'.toNat < 2 ^ 32)
    (hfits : (d.bytes sha256).length ≤ size'.toNat) :
    d.Acceptable o sha256 map dst size' where
  chipId := h.chipId
  partition_lt := hpartition
  fits := hfits
  placed := by
    rintro seg hseg hloaded
    rw [← d.segments_relocate src dst, List.mem_map] at hseg
    obtain ⟨seg, hmem, rfl⟩ := hseg
    have hlt := h.lt
    have hlength : (d.bytes sha256).length = _ := d.length_bytes
    have hchecked := d.length_checked
    have hlaid : LaidOut (src.toNat + 24) (d.segments src) _ :=
      laidOut_place d.blocks (by omega)
    obtain ⟨hlo, hhi⟩ := hlaid.mem hmem
    refine (h.placed seg hmem hloaded).relocate ?_ hpage ?_
    · rw [UInt32.le_iff_toNat_le]
      omega
    · omega
  entry := by
    obtain ⟨seg, hmem, hrest⟩ := h.entry
    refine ⟨seg.relocate src dst, ?_, hrest⟩
    rw [← d.segments_relocate src dst]
    exact List.mem_map_of_mem hmem

/-! ### The validator -/

variable {mem mem' : ℕ → UInt8} {verify : Verify}

/-- What a level looks at is no more than there is. -/
theorem Draft.length_part_le (d : Draft) (sha256 : List UInt8 → Digest) (verify : Verify) :
    (d.part sha256 verify).length ≤ (d.bytes sha256).length := by
  have hlength : (d.bytes sha256).length = _ := d.length_bytes
  have hbody := d.length_body
  cases verify with
  | structural => exact show d.body.length ≤ _ by omega
  | checksum => exact show d.checked.length ≤ _ by omega
  | full => exact le_rfl

/-- A draft is held by every memory with the same bytes. -/
theorem Draft.Held.relocate (h : d.Held sha256 mem src verify)
    (hsame : window mem src.toNat (d.bytes sha256).length =
      window mem' dst.toNat (d.bytes sha256).length) : d.Held sha256 mem' dst verify := by
  refine ⟨?_, h.hash⟩
  have hle := d.length_part_le sha256 verify
  have htake := congrArg (List.take (d.part sha256 verify).length) hsame
  rw [take_window hle, take_window hle, h.stored] at htake
  exact htake.symm

/-- **An image is accepted wherever its bytes are**, as far as the place leaves the same rest
modulo the page, and has the room for it, in a build that reckons right in both places. -/
theorem validate_relocates {ρ σ : Type} (o : Overflow) (reader : Reader ρ) (reader' : Reader σ)
    (mem mem' : ℕ → UInt8) (hreader : reader.Holds (fun _ _ => True) mem)
    (hreader' : reader'.Holds (fun _ _ => True) mem') (sha256 : List UInt8 → Digest)
    (map : MemoryMap) (src dst size size' : UInt32) (hsrc : o.Reckons map src size)
    (hdst : o.Reckons map dst size') (verify : Verify)
    (hpage : src.toNat ≡ dst.toNat [MOD map.mmuPage.toNat])
    (hpartition : dst.toNat + size'.toNat < 2 ^ 32) (s s' : ρ) (image : Image)
    (h : validate o reader sha256 src size map verify s = .ok (image, s'))
    (hfits : image.stop.toNat - src.toNat ≤ size'.toNat)
    (hsame : window mem src.toNat (image.stop.toNat - src.toNat) =
      window mem' dst.toNat (image.stop.toNat - src.toNat)) (t : σ) :
    ∃ t', validate o reader' sha256 dst size' map verify t =
      .ok (image.relocate src dst, t') := by
  rw [hsrc.validate_eq] at h
  rw [hdst.validate_eq]
  obtain ⟨tab, s₁, hrun, -⟩ := bind_run_eq_ok h
  obtain ⟨d, hd, -, hbody⟩ := readTable_drafted hreader sha256 hrun
  obtain rfl := validate_ends_image hreader hd hbody verify s image s' h
  have hheld := (validate_held_iff hreader hd hbody verify s).mp ⟨s', h⟩
  have hstop : (d.image sha256 src).stop.toNat - src.toNat = (d.bytes sha256).length := by
    have hlt := hd.lt
    have hstop : (d.image sha256 src).stop.toNat = src.toNat + (d.bytes sha256).length :=
      toNat_ofNat_of_lt hlt
    omega
  rw [hstop] at hfits hsame
  have hd' := hd.relocate hpage hpartition hfits
  have hheld' := hheld.relocate hsame
  rw [d.image_relocate]
  exact (validate_held_iff hreader' hd' hheld'.body verify t).mpr hheld'

/-- The image at the other end of the memory, where sums wrap around. -/
theorem validate_relocates_tiny :
    ∃ t', validate .wrap (Reader.ofMemory (memoryOf 64 tinyBytes)) (fun _ _ => 0) 64 64 tinyMap
        .structural () =
      .ok (Image.relocate 0 64 (tinyDraft.image (fun _ _ => 0) 0), t') :=
  validate_relocates .wrap (Reader.ofMemory (memoryOf 0 tinyBytes))
    (Reader.ofMemory (memoryOf 64 tinyBytes)) _ _ (Reader.ofMemory_holds _)
    (Reader.ofMemory_holds _) (fun _ _ => 0) tinyMap 0 64 64 64 reckons_tiny
    (.inr ⟨by decide, by decide, by decide, by decide, by decide⟩) .structural (by decide)
    (by decide) () () _ rfl (by decide) (by decide) ()

end AtomicOta.Esp
