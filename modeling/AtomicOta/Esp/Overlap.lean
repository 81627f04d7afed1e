import AtomicOta.Esp.Corruption
import AtomicOta.Esp.TwoSegments

/-!
# Images that start over

In a build in which sums wrap around, the walk can start over at the first address, unless the
partition is `AtomicOta.Esp.Separate`. Then an image can be accepted whose data covers its own
headers, so that a change of its data is a change of what is parsed; the condition of
`AtomicOta.Esp.judgedByXor` is therefore the exact one (`AtomicOta.Esp.judgedByXor_iff`).

Three partitions have to be dealt with – one that is filled, one that ends before its first
segment header, and an empty one – and in each the image has two segments
(`AtomicOta.Esp.TwoSegments`). What has to be added up over most of the address space for its
checksum is left alone: one byte of the data that is not parsed is chosen so that the sum is
the byte it is compared with (`AtomicOta.Esp.not_judgedByXor`).
-/

namespace AtomicOta.Esp

open Fallible

variable {map : MemoryMap} {partOffset partSize entry : UInt32} {mem mem₀ : ℕ → UInt8}

/-! ### Refuting the judgement -/

/-- The table of an image is made an accepted one by the choice of a byte `f` of its data that
is nothing else; then the judgement fails if another byte of its data is parsed. -/
theorem not_judgedByXor {t : Table} {f a : ℕ} {x : UInt8}
    (htable : ∀ mem, (∀ b, b ≠ f → mem b = mem₀ b) →
      Succeeds (readTable .wrap (Reader.ofMemory mem) partOffset partSize map) (· = t))
    (hfit : ∀ seg ∈ t.image.segments, seg.dataOffset.toNat + seg.len.toNat < 2 ^ 32)
    (hnodup : (dataAddresses t.image.segments).Nodup)
    (hf : f ∈ dataAddresses t.image.segments) (hat : t.checksumAt.toNat ≠ f)
    (ha : a ∈ dataAddresses t.image.segments)
    (hfails : ∀ mem, (∀ b, b ≠ f → mem b = Function.update mem₀ a x b) →
      ∃ e, Fails (readTable .wrap (Reader.ofMemory mem) partOffset partSize map) e) :
    ¬ JudgedByXor .wrap partOffset partSize := by
  intro hjudged
  let mem := Function.update mem₀ f
    (mem₀ f ^^^ (xorOf mem₀ t.image.segments ^^^ mem₀ t.checksumAt.toNat))
  have hmem : ∀ b, b ≠ f → mem b = mem₀ b := fun b hb => Function.update_of_ne hb _ _
  have hmemf : mem f = _ := Function.update_self ..
  -- the change at `f` turns the XOR of the data into the checksum byte
  have hdiff : difference mem₀ mem t.image.segments =
      xorOf mem₀ t.image.segments ^^^ mem₀ t.checksumAt.toNat := by
    rw [difference, foldl_xor_single hnodup hf, hmemf, UInt8.zero_xor, ← UInt8.xor_assoc,
      UInt8.xor_self, UInt8.zero_xor]
    rintro b hb
    rw [hmem b hb, UInt8.xor_self]
  have hsum : mem t.checksumAt.toNat = xorOf mem t.image.segments := by
    rw [xorOf_difference, UInt8.xor_right_inj] at hdiff
    rw [hmem _ hat, hdiff]
  obtain ⟨_, s', haccept, rfl⟩ := (validate_checksum (fun _ _ => 0) (htable mem hmem)
    (verifyChecksum_memory (Reader.ofMemory_holds mem) (by simp) hfit)).1 hsum ()
  have hsame : ∀ b, b ∉ dataAddresses t.image.segments → mem b = Function.update mem a x b := by
    rintro b hb
    exact (Function.update_of_ne (fun heq : b = a => hb (heq ▸ ha)) _ _).symm
  have hdamage := hjudged Unit Unit (Reader.ofMemory mem)
    (Reader.ofMemory (Function.update mem a x)) (fun _ _ => True) mem _ (fun _ _ => 0) map () s'
    t.image (Reader.ofMemory_holds _) (Reader.ofMemory_holds _) haccept hsame ()
  obtain ⟨⟨t', hok⟩, -⟩ := hdamage
  obtain ⟨e, he⟩ := hfails (Function.update mem a x) fun b hb => by
    by_cases hba : b = a
    · rw [hba, Function.update_self, Function.update_self]
    · rw [Function.update_of_ne hba, Function.update_of_ne hba, hmem b hb]
  exact he.bind_left.ne_ok hok

/-- **The judgement fails** where a byte of the data is parsed, if another one is free. -/
theorem TwoSegments.not_judgedByXor {first second : Segment} {next used : UInt32} {hashByte : UInt8}
    (h : TwoSegments mem partOffset partSize first second next used entry hashByte) {f a : ℕ}
    {x : UInt8}
    (hf : first.dataOffset.toNat ≤ f ∧ f < next.toNat ∨
      second.dataOffset.toNat ≤ f ∧ f < (partOffset + used).toNat)
    (hheader : f < partOffset.toNat ∨ partOffset.toNat + 24 ≤ f)
    (hfirst : f < (partOffset + headerLen).toNat ∨ (partOffset + headerLen).toNat + 8 ≤ f)
    (hsecond : f < next.toNat ∨ next.toNat + 8 ≤ f)
    (hat : (partOffset + used + (15 - used % 16)).toNat ≠ f)
    (ha : first.dataOffset.toNat ≤ a ∧ a < next.toNat ∨
      second.dataOffset.toNat ≤ a ∧ a < (partOffset + used).toNat)
    (hfails : ∀ mem', (∀ b, b ≠ f → mem' b = Function.update mem a x b) →
      ∃ e, Fails (readTable .wrap (Reader.ofMemory mem') partOffset partSize wideMap) e) :
    ¬ JudgedByXor .wrap partOffset partSize := by
  have hsame : ∀ mem' : ℕ → UInt8, (∀ b, b ≠ f → mem' b = mem b) → ∀ start n,
      f < start ∨ start + n ≤ f → window mem' start n = window mem start n := by
    rintro mem' hmem start n hout
    exact window_congr fun b hlo hhi => hmem b (by omega)
  refine Esp.not_judgedByXor (fun mem' hmem => ?_) h.fits h.nodup
    (h.mem_dataAddresses.mpr hf) hat (h.mem_dataAddresses.mpr ha) hfails
  exact (h.congr (hsame mem' hmem _ _ hheader) (hsame mem' hmem _ _ hfirst)
    (hsame mem' hmem _ _ hsecond)).table_succeeds

/-! ### Where the walk starts over -/

/-- A memory with the headers of an image of two segments. -/
def twoMemory (start firstAt secondAt : ℕ) (header : List UInt8) (first second : Segment) :
    ℕ → UInt8 :=
  overlay (overlay (memoryOf secondAt second.header) firstAt first.header) start header

theorem twoMemory_spec (start firstAt secondAt : ℕ) (header : List UInt8) (first second : Segment)
    (hlength : header.length = 24) (hfirst : firstAt + 8 ≤ start ∨ start + 24 ≤ firstAt)
    (hsecond : secondAt + 8 ≤ start ∨ start + 24 ≤ secondAt)
    (hapart : secondAt + 8 ≤ firstAt ∨ firstAt + 8 ≤ secondAt) :
    window (twoMemory start firstAt secondAt header first second) start 24 = header ∧
      window (twoMemory start firstAt secondAt header first second) firstAt 8 = first.header ∧
      window (twoMemory start firstAt secondAt header first second) secondAt 8 =
        second.header := by
  have hlen : ∀ seg : Segment, seg.header.length = 8 := fun _ => rfl
  refine ⟨?_, ?_, ?_⟩
  · rw [twoMemory, ← hlength, window_overlay]
  · rw [twoMemory, window_overlay_of_disjoint _ (by omega), ← hlen first, window_overlay]
  · rw [twoMemory, window_overlay_of_disjoint _ (by omega), window_overlay_of_disjoint _ ?_,
      memoryOf, ← hlen second, window_overlay]
    rw [hlen]
    omega

/-! ### A partition that is filled by the first segment -/

/-- Padding up to the end of the partition. -/
def fillFirst (partOffset partSize : UInt32) : Segment :=
  { load := 0, len := partSize - 32, dataOffset := partOffset + headerLen + segmentHeaderLen }

/-- The header behind the padding is the last that has an address: the data goes on from the
first addresses up to the chip id in the header of the image. -/
def fillSecond (partOffset partSize : UInt32) : Segment :=
  { load := 1
    len := partOffset + 13 - (partOffset + partSize + segmentHeaderLen)
    dataOffset := partOffset + partSize + segmentHeaderLen }

def fillMemory (partOffset partSize : UInt32) : ℕ → UInt8 :=
  twoMemory partOffset.toNat (partOffset.toNat + 24) (partOffset.toNat + partSize.toNat)
    (twoHeader 1 0) (fillFirst partOffset partSize) (fillSecond partOffset partSize)

section Fill

variable (hfit : partOffset.toNat + partSize.toNat < 2 ^ 32) (hsize : 32 ≤ partSize.toNat)
variable (hover : 2 ^ 32 ≤ partOffset.toNat + partSize.toNat + 8)

include hfit hsize hover

/-- Where the two segments are. -/
theorem fill_addresses :
    (fillFirst partOffset partSize).dataOffset.toNat = partOffset.toNat + 32 ∧
      (fillFirst partOffset partSize).len.toNat = partSize.toNat - 32 ∧
      (fillSecond partOffset partSize).dataOffset.toNat + 2 ^ 32 =
        partOffset.toNat + partSize.toNat + 8 ∧
      (partOffset + 13).toNat = partOffset.toNat + 13 ∧
      (fillSecond partOffset partSize).len.toNat =
        partOffset.toNat + 13 - (fillSecond partOffset partSize).dataOffset.toNat := by
  have hnext := toNat_add_of_lt hfit
  have hfirst : (fillFirst partOffset partSize).dataOffset = partOffset + 32 := UInt32.add_assoc ..
  have hsecond : (fillSecond partOffset partSize).dataOffset.toNat + 2 ^ 32 =
      partOffset.toNat + partSize.toNat + 8 := by
    rw [← hnext]
    exact toNat_add_of_ge (show 2 ^ 32 ≤ (partOffset + partSize).toNat + 8 by omega)
  have hused : (partOffset + 13).toNat = partOffset.toNat + 13 :=
    toNat_add_of_lt (show partOffset.toNat + 13 < 2 ^ 32 by omega)
  refine ⟨?_, toNat_sub_of_le' hsize, hsecond, hused, ?_⟩
  · rw [hfirst]
    exact toNat_add_of_lt (show partOffset.toNat + 32 < 2 ^ 32 by omega)
  · rw [← hused]
    exact toNat_sub_of_le' (show (fillSecond partOffset partSize).dataOffset.toNat ≤ _ by omega)

theorem fill_image : TwoSegments (fillMemory partOffset partSize) partOffset partSize
    (fillFirst partOffset partSize) (fillSecond partOffset partSize) (partOffset + partSize) 13 1
    0 := by
  obtain ⟨hfirst, hfirstLen, hsecond, hused, hsecondLen⟩ := fill_addresses hfit hsize hover
  have hnext := toNat_add_of_lt hfit
  have hhead : (partOffset + headerLen).toNat = partOffset.toNat + 24 :=
    toNat_add_of_lt (show partOffset.toNat + 24 < 2 ^ 32 by omega)
  obtain ⟨hheader, hheader₁, hheader₂⟩ := twoMemory_spec partOffset.toNat (partOffset.toNat + 24)
    (partOffset.toNat + partSize.toNat) (twoHeader 1 0) (fillFirst partOffset partSize)
    (fillSecond partOffset partSize) rfl (by omega) (by omega) (by omega)
  exact {
    fit := hfit
    header := hheader
    firstHeader := hhead ▸ hheader₁
    secondHeader := hnext ▸ hheader₂
    firstOffset := rfl
    secondOffset := rfl
    firstEnd := by omega
    secondEnd := by omega
    firstIn := by omega
    secondIn := by omega
    firstLegal := fun hloaded => absurd rfl hloaded.2
    secondLegal := fun _ => legal_of_load_one rfl (by omega)
    runs := .inr (runs_of_load_one rfl (by omega) le_rfl (show 1 < _ by omega))
    stop := by
      have hat : partOffset + 13 + (15 - 13 % 16) + 1 + 0 = partOffset + 16 := by
        rw [UInt32.add_zero, UInt32.add_assoc, UInt32.add_assoc]
        rfl
      rw [if_neg (by decide), hat]
      exact (toNat_add_of_lt (show partOffset.toNat + 16 < 2 ^ 32 by omega)).trans_le
        (show partOffset.toNat + 16 ≤ _ by omega)
    disjoint := by omega }

/-- **A partition that is filled by the first segment**: the chip id is data of the second. -/
theorem not_judgedByXor_next : ¬ JudgedByXor .wrap partOffset partSize := by
  obtain ⟨hfirst, hfirstLen, hsecond, hused, hsecondLen⟩ := fill_addresses hfit hsize hover
  have himage := fill_image hfit hsize hover
  have hnext := toNat_add_of_lt hfit
  have hhead : (partOffset + headerLen).toNat = partOffset.toNat + 24 :=
    toNat_add_of_lt (show partOffset.toNat + 24 < 2 ^ 32 by omega)
  have hat : partOffset + 13 + (15 - 13 % 16) = partOffset + 15 := UInt32.add_assoc ..
  -- a byte of the data that is not parsed: behind the first header, or at the second data
  have hfree : ∃ f, (f = partOffset.toNat + 32 ∧ 33 ≤ partSize.toNat) ∨
      (f = (fillSecond partOffset partSize).dataOffset.toNat ∧ partSize.toNat = 32) := by
    rcases Nat.eq_or_lt_of_le hsize with heq | hlt
    · exact ⟨_, .inr ⟨rfl, heq.symm⟩⟩
    · exact ⟨_, .inl ⟨rfl, hlt⟩⟩
  obtain ⟨f, hf⟩ := hfree
  refine himage.not_judgedByXor (f := f) (a := partOffset.toNat + 12) (x := 1) (by omega) (by omega)
    (by omega) (by omega) ?_ (by omega) fun mem' hmem' => ?_
  · rw [hat, toNat_add_of_lt (show partOffset.toNat + 15 < 2 ^ 32 by omega)]
    exact (show partOffset.toNat + 15 ≠ f by omega)
  · have hheader := himage.damaged_header hmem' (by omega) (by omega)
    rw [Nat.add_sub_cancel_left] at hheader
    exact ⟨.error (.badChip 1), readTable_header_fails hfit (hheader ▸ by decide)⟩

end Fill

/-! ### A partition that ends before its first segment header -/

/-- A first segment without data, at a low address. -/
def lowFirst (partOffset : UInt32) : Segment :=
  { load := 0, len := 0, dataOffset := partOffset + headerLen + segmentHeaderLen }

/-- What follows it, up to the first byte of the image. -/
def lowSecond (partOffset : UInt32) : Segment :=
  { load := 1
    len := partOffset + 1 - (partOffset + headerLen + segmentHeaderLen + segmentHeaderLen)
    dataOffset := partOffset + headerLen + segmentHeaderLen + segmentHeaderLen }

def lowMemory (partOffset : UInt32) : ℕ → UInt8 :=
  twoMemory partOffset.toNat (partOffset + headerLen).toNat (lowFirst partOffset).dataOffset.toNat
    (twoHeader 1 1) (lowFirst partOffset) (lowSecond partOffset)

section Low

variable (hfit : partOffset.toNat + partSize.toNat < 2 ^ 32) (hsize : 0 < partSize.toNat)
variable (hover : 2 ^ 32 ≤ partOffset.toNat + 32)

include hfit hsize hover

theorem low_addresses :
    (lowFirst partOffset).dataOffset.toNat + 2 ^ 32 = partOffset.toNat + 32 ∧
      (lowSecond partOffset).dataOffset.toNat = (lowFirst partOffset).dataOffset.toNat + 8 ∧
      (partOffset + 1).toNat = partOffset.toNat + 1 ∧
      (lowSecond partOffset).len.toNat =
        partOffset.toNat + 1 - (lowSecond partOffset).dataOffset.toNat := by
  have hsum : (lowFirst partOffset).dataOffset = partOffset + 32 := UInt32.add_assoc ..
  have hfirst : (lowFirst partOffset).dataOffset.toNat + 2 ^ 32 = partOffset.toNat + 32 := by
    rw [hsum]
    exact toNat_add_of_ge hover
  have hsecond : (lowSecond partOffset).dataOffset.toNat =
      (lowFirst partOffset).dataOffset.toNat + 8 :=
    toNat_add_of_lt (show (lowFirst partOffset).dataOffset.toNat + 8 < 2 ^ 32 by omega)
  have hused : (partOffset + 1).toNat = partOffset.toNat + 1 :=
    toNat_add_of_lt (show partOffset.toNat + 1 < 2 ^ 32 by omega)
  refine ⟨hfirst, hsecond, hused, ?_⟩
  rw [← hused]
  exact toNat_sub_of_le' (show (lowSecond partOffset).dataOffset.toNat ≤ _ by omega)

theorem low_image : TwoSegments (lowMemory partOffset) partOffset partSize (lowFirst partOffset)
    (lowSecond partOffset) (lowFirst partOffset).dataOffset 1 1 1 := by
  obtain ⟨hfirst, hsecond, hused, hsecondLen⟩ := low_addresses hfit hsize hover
  -- the first segment header is behind that of the image, or at a low address
  have hhead : (partOffset + headerLen).toNat = partOffset.toNat + 24 ∨
      (partOffset + headerLen).toNat + 2 ^ 32 = partOffset.toNat + 24 := toNat_add_or ..
  obtain ⟨hheader, hheader₁, hheader₂⟩ := twoMemory_spec partOffset.toNat
    (partOffset + headerLen).toNat (lowFirst partOffset).dataOffset.toNat (twoHeader 1 1)
    (lowFirst partOffset) (lowSecond partOffset) rfl (by omega) (by omega) (by omega)
  exact {
    fit := hfit
    header := hheader
    firstHeader := hheader₁
    secondHeader := hheader₂
    firstOffset := rfl
    secondOffset := rfl
    firstEnd := rfl
    secondEnd := by omega
    firstIn := by omega
    secondIn := by omega
    firstLegal := fun hloaded => absurd rfl hloaded.2
    secondLegal := fun _ => legal_of_load_one rfl (by omega)
    runs := .inr (runs_of_load_one rfl (by omega) le_rfl (show 1 < _ by omega))
    stop := by
      have hat : partOffset + 1 + (15 - 1 % 16) + 1 + hashLen = partOffset + 48 := by
        rw [UInt32.add_assoc, UInt32.add_assoc, UInt32.add_assoc]
        rfl
      have hstop : (partOffset + 48).toNat + 2 ^ 32 = partOffset.toNat + 48 :=
        toNat_add_of_ge (show 2 ^ 32 ≤ partOffset.toNat + 48 by omega)
      rw [if_pos (by decide), hat]
      omega
    disjoint := .inr rfl }

/-- **A partition that ends before its first segment header**: the first byte of the image is
data of the second segment. -/
theorem not_judgedByXor_first : ¬ JudgedByXor .wrap partOffset partSize := by
  obtain ⟨hfirst, hsecond, hused, hsecondLen⟩ := low_addresses hfit hsize hover
  have himage := low_image hfit hsize hover
  have hhead : (partOffset + headerLen).toNat = partOffset.toNat + 24 ∨
      (partOffset + headerLen).toNat + 2 ^ 32 = partOffset.toNat + 24 := toNat_add_or ..
  have hat : partOffset + 1 + (15 - 1 % 16) = partOffset + 15 := UInt32.add_assoc ..
  have hat' : (partOffset + 15).toNat = partOffset.toNat + 15 ∨
      (partOffset + 15).toNat + 2 ^ 32 = partOffset.toNat + 15 := toNat_add_or ..
  refine himage.not_judgedByXor (f := (lowSecond partOffset).dataOffset.toNat)
    (a := partOffset.toNat) (x := 0) (by omega) (by omega) (by omega) (by omega) ?_ (by omega)
    fun mem' hmem' => ?_
  · rw [hat]
    omega
  · have hheader := himage.damaged_header hmem' (by omega) le_rfl
    rw [Nat.sub_self] at hheader
    exact ⟨.error (.badMagic 0), readTable_header_fails hfit (hheader ▸ by decide)⟩

end Low

/-! ### An empty partition at the last addresses -/

/-- The first segment ends where the image begins, so that the header behind it is that of the
image once more. -/
def emptyFirst (partOffset : UInt32) : Segment :=
  { load := 1
    len := partOffset - (partOffset + headerLen + segmentHeaderLen)
    dataOffset := partOffset + headerLen + segmentHeaderLen }

/-- What the header of an image with two segments and the entry point 20 says as one of a
segment. -/
def emptySecond (partOffset : UInt32) : Segment :=
  { load := 0x2E9, len := 20, dataOffset := partOffset + segmentHeaderLen }

def emptyMemory (partOffset : UInt32) : ℕ → UInt8 :=
  overlay (memoryOf (partOffset + headerLen).toNat (emptyFirst partOffset).header)
    partOffset.toNat (twoHeader 20 0)

theorem empty_addresses (hover : 2 ^ 32 ≤ partOffset.toNat + 8) :
    (partOffset + headerLen).toNat + 2 ^ 32 = partOffset.toNat + 24 ∧
      (emptyFirst partOffset).dataOffset.toNat + 2 ^ 32 = partOffset.toNat + 32 ∧
      (emptyFirst partOffset).len.toNat =
        partOffset.toNat - (emptyFirst partOffset).dataOffset.toNat ∧
      (emptySecond partOffset).dataOffset.toNat + 2 ^ 32 = partOffset.toNat + 8 ∧
      (emptySecond partOffset).len.toNat = 20 ∧
      (partOffset + 28).toNat + 2 ^ 32 = partOffset.toNat + 28 := by
  have hlt := partOffset.toNat_lt
  have hsum : (emptyFirst partOffset).dataOffset = partOffset + 32 := UInt32.add_assoc ..
  have hfirst : (emptyFirst partOffset).dataOffset.toNat + 2 ^ 32 = partOffset.toNat + 32 := by
    rw [hsum]
    exact toNat_add_of_ge (show 2 ^ 32 ≤ partOffset.toNat + 32 by omega)
  refine ⟨?_, hfirst, ?_, toNat_add_of_ge hover, rfl, ?_⟩
  · exact toNat_add_of_ge (show 2 ^ 32 ≤ partOffset.toNat + 24 by omega)
  · exact toNat_sub_of_le' (show (emptyFirst partOffset).dataOffset.toNat ≤ _ by omega)
  · exact toNat_add_of_ge (show 2 ^ 32 ≤ partOffset.toNat + 28 by omega)

section Empty

variable (hfit : partOffset.toNat + partSize.toNat < 2 ^ 32) (hsize : partSize.toNat = 0)
variable (hover : 2 ^ 32 ≤ partOffset.toNat + 8)

include hfit hsize hover

theorem empty_image : TwoSegments (emptyMemory partOffset) partOffset partSize
    (emptyFirst partOffset) (emptySecond partOffset) partOffset 28 20 0 := by
  obtain ⟨hhead, hfirst, hfirstLen, hsecond, hsecondLen, hused⟩ := empty_addresses hover
  have hlt := partOffset.toNat_lt
  have htwenty : (20 : UInt32).toNat = 20 := rfl
  have hlen : (twoHeader 20 0).length = 24 := rfl
  have hlen' : (emptyFirst partOffset).header.length = 8 := rfl
  have hheader : window (emptyMemory partOffset) partOffset.toNat 24 = twoHeader 20 0 :=
    window_overlay (memoryOf _ (emptyFirst partOffset).header) partOffset.toNat (twoHeader 20 0)
  exact {
    fit := hfit
    header := hheader
    firstHeader := by
      rw [emptyMemory, window_overlay_of_disjoint _ (by omega), memoryOf, ← hlen', window_overlay]
    secondHeader := by
      have htake : ((window (emptyMemory partOffset) partOffset.toNat 24).drop 0).take 8 =
          window (emptyMemory partOffset) (partOffset.toNat + 0) 8 := take_drop_window (by decide)
      rw [hheader] at htake
      have hheaders : ((twoHeader 20 0).drop 0).take 8 = toLeBytes 0x2E9 ++ toLeBytes 20 := by
        decide
      exact htake.symm.trans hheaders
    firstOffset := rfl
    secondOffset := rfl
    firstEnd := by omega
    secondEnd := by omega
    firstIn := by omega
    secondIn := by omega
    firstLegal := fun _ => legal_of_load_one rfl (by omega)
    secondLegal := fun _ => legal_wideMap (show (0x2E9 : UInt32) ∈ wideMap.iram by decide)
      (show (0x2E9 : UInt32).toNat + (20 : UInt32).toNat ≤ u32Max.toNat by decide)
    runs := .inl (runs_of_load_one rfl (by omega) (by omega) (by omega))
    stop := by
      have hat : partOffset + 28 + (15 - 28 % 16) + 1 + 0 = partOffset + 32 := by
        rw [UInt32.add_zero, UInt32.add_assoc, UInt32.add_assoc]
        rfl
      have hstop : (partOffset + 32).toNat + 2 ^ 32 = partOffset.toNat + 32 :=
        toNat_add_of_ge (show 2 ^ 32 ≤ partOffset.toNat + 32 by omega)
      rw [if_neg (by decide), hat]
      omega
    disjoint := by omega }

/-- With the last byte of its load address changed, the first segment ends behind the last
address. -/
theorem empty_damaged {mem : ℕ → UInt8} {f : ℕ}
    (hf : (emptyFirst partOffset).dataOffset.toNat ≤ f ∧ f < partOffset.toNat)
    (hmem : ∀ b, b ≠ f → mem b =
      Function.update (emptyMemory partOffset) ((partOffset + headerLen).toNat + 3) 0xFF b) :
    Fails (readTable .wrap (Reader.ofMemory mem) partOffset partSize wideMap)
      (.error (.badLoadRange 0)) := by
  obtain ⟨hhead, hfirst, hfirstLen, -, -, -⟩ := empty_addresses hover
  have himage := empty_image hfit hsize hover
  have hlt := partOffset.toNat_lt
  have hend := toNat_add_of_lt hfit
  let damaged : Segment := { emptyFirst partOffset with load := 0xFF000001 }
  have hheader : window mem partOffset.toNat 24 = twoHeader 20 0 := by
    rw [← himage.header]
    refine window_congr fun b hlo hhi => ?_
    rw [hmem b (by omega), Function.update_of_ne (by omega)]
  have hbytes : (toLeBytes 1).set 3 0xFF = toLeBytes 0xFF000001 := by decide
  have hfirst' : window mem (partOffset + headerLen).toNat 8 = damaged.header := by
    rw [window_congr fun b hlo hhi => hmem b (by omega), window_update _ _ (by omega),
      himage.firstHeader, Nat.add_sub_cancel_left, Segment.header,
      List.set_append_left _ _ (show 3 < 4 by decide)]
    exact congrArg (· ++ _) hbytes
  have hcheck : checkSegment .wrap wideMap 0 damaged = .error (.error (.badLoadRange 0)) := by
    have hsum : checkedAdd damaged.load damaged.len = none :=
      if_neg (show ¬ 0xFF000001 + (emptyFirst partOffset).len.toNat < 2 ^ 32 by omega)
    rw [checkSegment, hsum]
  have hloaded : damaged.Loaded := by
    refine ⟨?_, show (0xFF000001 : UInt32) ≠ 0 by decide⟩
    rw [UInt32.lt_iff_toNat_lt]
    exact (show 0 < (emptyFirst partOffset).len.toNat by omega)
  have hparsed : parseHeader wideMap (window mem partOffset.toNat 24) =
      .ok { entry := 20, count := 2, hashAppended := false } := hheader ▸ parseHeader_two 20 0
  refine readTable_first_fails (n := 1) hfit hparsed rfl ?_
  rw [hfirst']
  exact Walk.step_wrap_error (show damaged.dataOffset = _ from rfl) himage.firstEnd
    (himage.firstIn.trans hend.ge) hloaded hcheck

/-- **An empty partition at the last addresses**: the first segment header is data of the
second segment. -/
theorem not_judgedByXor_empty : ¬ JudgedByXor .wrap partOffset partSize := by
  obtain ⟨hhead, hfirst, hfirstLen, hsecond, hsecondLen, hused⟩ := empty_addresses hover
  have hlt := partOffset.toNat_lt
  have hat : partOffset + 28 + (15 - 28 % 16) = partOffset + 31 := UInt32.add_assoc ..
  have hat' : (partOffset + 31).toNat + 2 ^ 32 = partOffset.toNat + 31 :=
    toNat_add_of_ge (show 2 ^ 32 ≤ partOffset.toNat + 31 by omega)
  refine (empty_image hfit hsize hover).not_judgedByXor
    (f := (emptyFirst partOffset).dataOffset.toNat) (a := (partOffset + headerLen).toNat + 3)
    (x := 0xFF) (by omega) (by omega) (by omega) (by omega) ?_ (by omega) fun mem' hmem' => ?_
  · rw [hat]
    omega
  · exact ⟨_, empty_damaged hfit hsize hover ⟨le_rfl, by omega⟩ hmem'⟩

end Empty

/-! ### The exact condition -/

/-- **Damage to the data is judged by its XOR, in every build, exactly where the walk does not
start over.** -/
theorem judgedByXor_iff (partOffset partSize : UInt32) :
    (∀ o, JudgedByXor o partOffset partSize) ↔
      (partOffset.toNat + partSize.toNat < 2 ^ 32 → Separate partOffset partSize) := by
  constructor
  · intro hall hfit
    refine { first := fun hsize => ?_, next := fun hsize => ?_ }
    · exact Nat.not_le.mp fun hover => not_judgedByXor_first hfit hsize hover (hall .wrap)
    · refine Nat.not_le.mp fun hover => ?_
      rcases hsize with hempty | hsize
      · exact not_judgedByXor_empty hfit hempty (by omega) (hall .wrap)
      · exact not_judgedByXor_next hfit hsize hover (hall .wrap)
  · intro hsep o
    by_cases hfit : partOffset.toNat + partSize.toNat < 2 ^ 32
    · exact judgedByXor (.inr (hsep hfit))
    · -- a partition that is not admitted accepts nothing
      rintro ρ σ reader damaged Served mem mem' sha256 map s s' image - - hrun
      obtain ⟨t, s₁, htable, -⟩ := bind_run_eq_ok hrun
      exact absurd (readTable_partition htable) hfit

/-- In the largest partition there is, an image is accepted whose second segment begins at address
7 and whose data is parsed: a change of its chip id is a change of the data. -/
theorem judgement_fails : ¬ JudgedByXor .wrap 0 0xFFFFFFFF :=
  not_judgedByXor_next (by decide) (by decide) (by decide)

end AtomicOta.Esp
