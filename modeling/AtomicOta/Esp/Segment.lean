import AtomicOta.Esp.Arithmetic
import AtomicOta.Fallible
import Mathlib.Data.Nat.ModEq
import Mathlib.Order.Interval.Set.Defs

/-!
# Where a segment may be loaded

The memory geometry of a chip, `AtomicOta.Esp.MemoryMap`, and the check of one segment
against it, `AtomicOta.Esp.checkSegment`.

What the check is for is `AtomicOta.Esp.Segment.Legal`, in addresses as numbers: the
segment fits in the first region that holds its first byte, a flash-mapped one lies in
flash where the MMU can map it, and one in RAM stays clear of the bootloader. In a build
that aborts on overflow the check accepts the legal segments and no others
(`AtomicOta.Esp.checkSegment_eq_ok_iff`); in one that wraps around it still accepts them
all (`AtomicOta.Esp.Segment.Legal.checkSegment`).
-/

namespace AtomicOta.Esp

/-! ### Memory -/

/-- A half-open range of addresses. -/
structure Range where
  start : UInt32
  stop : UInt32
  deriving DecidableEq, Repr

instance : Membership UInt32 Range := ⟨fun r a => r.start ≤ a ∧ a < r.stop⟩

instance (a : UInt32) (r : Range) : Decidable (a ∈ r) :=
  inferInstanceAs (Decidable (r.start ≤ a ∧ a < r.stop))

structure MemoryMap where
  chipId : UInt16
  drom : Range
  irom : Range
  iram : Range
  dram : Range
  rtc : Range
  sramAliasOffset : UInt32
  bootWindow : Range
  mmuPage : UInt32
  deriving DecidableEq, Repr

namespace MemoryMap

/-- `is_flash_mapped`. -/
def IsFlashMapped (map : MemoryMap) (addr : UInt32) : Prop := addr ∈ map.drom ∨ addr ∈ map.irom

instance (map : MemoryMap) (addr : UInt32) : Decidable (map.IsFlashMapped addr) :=
  inferInstanceAs (Decidable (_ ∨ _))

/-- The regions, in the order in which they are tried. -/
def regions (map : MemoryMap) : List Range := [map.drom, map.irom, map.iram, map.dram, map.rtc]

/-- The first region that holds an address. -/
def region (map : MemoryMap) (addr : UInt32) : Option Range :=
  map.regions.find? (addr ∈ ·)

/-- The region a flash-mapped address is taken to be in. -/
def flashRegion (map : MemoryMap) (addr : UInt32) : Range :=
  if addr ∈ map.drom then map.drom else map.irom

/-- The region any other address is taken to be in. -/
def ramRegion (map : MemoryMap) (addr : UInt32) : Option Range :=
  if addr ∈ map.iram then some map.iram
  else if addr ∈ map.dram then some map.dram
  else if addr ∈ map.rtc then some map.rtc
  else none

end MemoryMap

/-! ### Segments -/

structure Segment where
  load : UInt32
  len : UInt32
  /-- Absolute flash offset of the data. -/
  dataOffset : UInt32
  deriving DecidableEq, Repr

/-- Where the bytes really go, in data-bus terms, for RAM segments. -/
def Segment.ramTarget (o : Overflow) (map : MemoryMap) (seg : Segment) :
    Except Fault (Option UInt32) :=
  if seg.load ∈ map.iram then (sub o seg.load map.sramAliasOffset).map some
  else if seg.load ∈ map.dram ∨ seg.load ∈ map.rtc then .ok (some seg.load)
  else .ok none

/-- The part of `check_segment` on a flash-mapped segment. -/
def checkFlash (map : MemoryMap) (i : ℕ) (seg : Segment) (stop : UInt32) : Except Fault Unit :=
  if (map.flashRegion seg.load).stop < stop then .error (.error (.badLoadRange i))
  else do
    let address ← rem seg.load map.mmuPage
    let flash ← rem seg.dataOffset map.mmuPage
    if address ≠ flash then .error (.error (.misaligned i)) else .ok ()

/-- The last part of `check_segment`: RTC memory is nowhere near the bootloader's window,
and SRAM aliases are compared as data-bus addresses. -/
def checkWindow (o : Overflow) (map : MemoryMap) (i : ℕ) (seg : Segment) (target : UInt32) :
    Except Fault Unit :=
  if seg.load ∉ map.rtc ∧ target < map.bootWindow.stop then do
    let last ← add o target seg.len
    if map.bootWindow.start < last then .error (.error (.overlapsBootloader i)) else .ok ()
  else .ok ()

/-- The part of `check_segment` on any other segment. -/
def checkRam (o : Overflow) (map : MemoryMap) (i : ℕ) (seg : Segment) (stop : UInt32) :
    Except Fault Unit :=
  match map.ramRegion seg.load with
  | none => .error (.error (.badLoadRange i))
  | some region =>
    if region.stop < stop then .error (.error (.badLoadRange i))
    else do
      match ← seg.ramTarget o map with
      | some target => checkWindow o map i seg target
      | none => .ok ()

/-- `check_segment`. -/
def checkSegment (o : Overflow) (map : MemoryMap) (i : ℕ) (seg : Segment) : Except Fault Unit :=
  match checkedAdd seg.load seg.len with
  | none => .error (.error (.badLoadRange i))
  | some stop =>
    if map.IsFlashMapped seg.load then checkFlash map i seg stop
    else checkRam o map i seg stop

/-! ### The regions -/

/-- The addresses of a range, as numbers. -/
def Range.addresses (r : Range) : Set ℕ := Set.Ico r.start.toNat r.stop.toNat

theorem Range.mem_iff {a : UInt32} {r : Range} : a ∈ r ↔ a.toNat ∈ r.addresses := by
  rw [Range.addresses, Set.mem_Ico, ← UInt32.le_iff_toNat_le, ← UInt32.lt_iff_toNat_lt]
  exact Iff.rfl

namespace MemoryMap

variable {map : MemoryMap} {addr : UInt32}

theorem region_of_isFlashMapped (h : map.IsFlashMapped addr) :
    map.region addr = some (map.flashRegion addr) := by
  by_cases hdrom : addr ∈ map.drom
  · simp [region, regions, flashRegion, hdrom]
  · have hirom : addr ∈ map.irom := h.resolve_left hdrom
    simp [region, regions, flashRegion, hdrom, hirom]

theorem region_of_not_isFlashMapped (h : ¬ map.IsFlashMapped addr) :
    map.region addr = map.ramRegion addr := by
  have hdrom : addr ∉ map.drom := fun hmem => h (Or.inl hmem)
  have hirom : addr ∉ map.irom := fun hmem => h (Or.inr hmem)
  unfold region regions ramRegion
  simp only [List.find?_cons, hdrom, hirom, decide_false, List.find?_nil]
  split_ifs with hiram hdram hrtc <;> simp [*]

/-- An address is in the region it is taken to be in, which is one of the five. -/
theorem region_spec {r : Range} (h : map.region addr = some r) : r ∈ map.regions ∧ addr ∈ r :=
  ⟨List.mem_of_find?_eq_some h, by simpa using List.find?_some h⟩

end MemoryMap

/-! ### Legal segments -/

namespace Segment

/-- Whether the segment is loaded at all. -/
def Loaded (seg : Segment) : Prop := 0 < seg.len ∧ seg.load ≠ 0

instance (seg : Segment) : Decidable seg.Loaded := inferInstanceAs (Decidable (_ ∧ _))

/-- The addresses a segment is loaded to, as numbers. -/
def addresses (seg : Segment) : Set ℕ := Set.Ico seg.load.toNat (seg.load.toNat + seg.len.toNat)

/-- From its place `target` on the data bus, the segment stays clear of the bootloader.
RTC memory is not compared. -/
def Clear (map : MemoryMap) (seg : Segment) (target : UInt32) : Prop :=
  seg.load ∈ map.rtc ∨ target.toNat + seg.len.toNat ≤ map.bootWindow.start.toNat ∨
    map.bootWindow.stop.toNat ≤ target.toNat

/-- **Where a segment may be loaded.** -/
structure Legal (o : Overflow) (map : MemoryMap) (seg : Segment) : Prop where
  /-- It lies wholly in the first region that holds its load address. -/
  inside : ∃ r, map.region seg.load = some r ∧ seg.load.toNat + seg.len.toNat ≤ r.stop.toNat
  /-- A flash-mapped one agrees with its place in flash, modulo the page. -/
  aligned : map.IsFlashMapped seg.load →
    map.mmuPage ≠ 0 ∧ seg.load.toNat ≡ seg.dataOffset.toNat [MOD map.mmuPage.toNat]
  /-- Any other one has a place on the data bus, and there it is clear of the
  bootloader. -/
  clear : ¬ map.IsFlashMapped seg.load →
    ∃ target, seg.ramTarget o map = .ok (some target) ∧ seg.Clear map target

theorem Legal.lt {o : Overflow} {map : MemoryMap} {seg : Segment} (h : seg.Legal o map) :
    seg.load.toNat + seg.len.toNat < 2 ^ 32 := by
  obtain ⟨r, -, hle⟩ := h.inside
  have := r.stop.toNat_lt
  omega

end Segment

variable {o : Overflow} {map : MemoryMap} {i : ℕ} {seg : Segment} {stop target : UInt32}

theorem checkFlash_eq_ok_iff (hstop : stop.toNat = seg.load.toNat + seg.len.toNat) :
    checkFlash map i seg stop = .ok () ↔
      seg.load.toNat + seg.len.toNat ≤ (map.flashRegion seg.load).stop.toNat ∧
        map.mmuPage ≠ 0 ∧
          seg.load.toNat ≡ seg.dataOffset.toNat [MOD map.mmuPage.toNat] := by
  have hmod : seg.load.toNat ≡ seg.dataOffset.toNat [MOD map.mmuPage.toNat] ↔
      seg.load % map.mmuPage = seg.dataOffset % map.mmuPage := by
    rw [← UInt32.toNat_inj, UInt32.toNat_mod, UInt32.toNat_mod]
    exact Iff.rfl
  have hlt : (map.flashRegion seg.load).stop < stop ↔
      ¬ seg.load.toNat + seg.len.toNat ≤ (map.flashRegion seg.load).stop.toNat := by
    rw [UInt32.lt_iff_toNat_lt, hstop, Nat.not_le]
  rw [hmod]
  unfold checkFlash
  by_cases hin : (map.flashRegion seg.load).stop < stop
  · simp [hin, hlt.mp hin]
  · rw [if_neg hin]
    have hle := not_not.mp (mt hlt.mpr hin)
    by_cases hpage : map.mmuPage = 0
    · simp [rem, hpage, bind, Except.bind]
    · simp [rem, hpage, hle, bind, Except.bind]

/-- Where an overflow aborts, the window is compared with the range the segment takes on
the data bus. -/
theorem checkWindow_abort_eq_ok (h : checkWindow .abort map i seg target = .ok ()) :
    seg.Clear map target := by
  unfold checkWindow at h
  split_ifs at h with hout
  · obtain ⟨last, hlast, h⟩ := Fallible.bind_eq_ok h
    have hsum := toNat_of_add_abort hlast
    split_ifs at h with hover
    rw [UInt32.lt_iff_toNat_lt, hsum] at hover
    exact Or.inr (Or.inl (Nat.not_lt.mp hover))
  · rw [UInt32.lt_iff_toNat_lt] at hout
    by_cases hrtc : seg.load ∈ map.rtc
    · exact Or.inl hrtc
    · exact Or.inr (Or.inr (Nat.not_lt.mp fun hlt => hout ⟨hrtc, hlt⟩))

theorem checkWindow_of_clear (h : seg.Clear map target) :
    checkWindow o map i seg target = .ok () := by
  unfold checkWindow
  split_ifs with hout
  · obtain ⟨hrtc, hlt⟩ := hout
    rw [UInt32.lt_iff_toNat_lt] at hlt
    have hle : target.toNat + seg.len.toNat ≤ map.bootWindow.start.toNat := by
      rcases h with h | h | h
      · exact absurd h hrtc
      · exact h
      · omega
    have hfit : target.toNat + seg.len.toNat < 2 ^ 32 :=
      Nat.lt_of_le_of_lt hle map.bootWindow.start.toNat_lt
    have hover : ¬ map.bootWindow.start < target + seg.len := by
      rw [UInt32.lt_iff_toNat_lt, toNat_add_of_lt hfit]
      omega
    simp [add_of_lt hfit, hover, bind, Except.bind]
  · rfl

/-- A segment in a RAM region has a place on the data bus, where it can be computed. -/
theorem ramTarget_ne_none {r : Range} (h : map.ramRegion seg.load = some r) :
    seg.ramTarget o map ≠ .ok none := by
  unfold MemoryMap.ramRegion at h
  unfold Segment.ramTarget
  split_ifs at h ⊢ with hiram hram
  · cases hsub : sub o seg.load map.sramAliasOffset <;> simp [Except.map]
  all_goals simp_all

theorem checkRam_abort_eq_ok (hstop : stop.toNat = seg.load.toNat + seg.len.toNat)
    (h : checkRam .abort map i seg stop = .ok ()) :
    (∃ r, map.ramRegion seg.load = some r ∧
        seg.load.toNat + seg.len.toNat ≤ r.stop.toNat) ∧
      ∃ target, seg.ramTarget .abort map = .ok (some target) ∧ seg.Clear map target := by
  unfold checkRam at h
  cases hregion : map.ramRegion seg.load with
  | none => simp [hregion] at h
  | some r =>
    simp only [hregion] at h
    split_ifs at h with hout
    obtain ⟨place, hplace, h⟩ := Fallible.bind_eq_ok h
    rw [UInt32.lt_iff_toNat_lt, hstop, Nat.not_lt] at hout
    refine ⟨⟨r, rfl, hout⟩, ?_⟩
    cases place with
    | none => exact absurd hplace (ramTarget_ne_none hregion)
    | some target => exact ⟨target, hplace, checkWindow_abort_eq_ok h⟩

theorem checkRam_of_clear {r : Range} (hstop : stop.toNat = seg.load.toNat + seg.len.toNat)
    (hregion : map.ramRegion seg.load = some r)
    (hin : seg.load.toNat + seg.len.toNat ≤ r.stop.toNat)
    (htarget : seg.ramTarget o map = .ok (some target))
    (hclear : seg.Clear map target) :
    checkRam o map i seg stop = .ok () := by
  have hout : ¬ r.stop < stop := by
    rw [UInt32.lt_iff_toNat_lt, hstop]
    omega
  simp only [checkRam, hregion, if_neg hout, htarget]
  exact checkWindow_of_clear hclear

/-- **A legal segment is accepted**, in every build. -/
theorem Segment.Legal.checkSegment (h : seg.Legal o map) : checkSegment o map i seg = .ok () := by
  obtain ⟨r, hregion, hin⟩ := h.inside
  have hstop := toNat_add_of_lt h.lt
  unfold Esp.checkSegment
  rw [checkedAdd_of_lt h.lt]
  by_cases hflash : map.IsFlashMapped seg.load
  · rw [MemoryMap.region_of_isFlashMapped hflash] at hregion
    cases hregion
    simp only [if_pos hflash]
    exact (checkFlash_eq_ok_iff hstop).mpr ⟨hin, h.aligned hflash⟩
  · rw [MemoryMap.region_of_not_isFlashMapped hflash] at hregion
    obtain ⟨target, htarget, hclear⟩ := h.clear hflash
    simp only [if_neg hflash]
    exact checkRam_of_clear hstop hregion hin htarget hclear

/-- **A build that aborts on overflow accepts the legal segments**, and no others. -/
theorem checkSegment_eq_ok_iff : checkSegment .abort map i seg = .ok () ↔ seg.Legal .abort map := by
  refine ⟨?_, Segment.Legal.checkSegment⟩
  intro h
  unfold checkSegment at h
  cases hsum : checkedAdd seg.load seg.len with
  | none => simp [hsum] at h
  | some stop =>
    have hstop := checkedAdd_some hsum
    simp only [hsum] at h
    split_ifs at h with hflash
    · obtain ⟨hin, haligned⟩ := (checkFlash_eq_ok_iff hstop).mp h
      exact { inside := ⟨_, MemoryMap.region_of_isFlashMapped hflash, hin⟩
              aligned := fun _ => haligned
              clear := fun hram => absurd hflash hram }
    · obtain ⟨⟨r, hregion, hin⟩, hclear⟩ := checkRam_abort_eq_ok hstop h
      rw [← MemoryMap.region_of_not_isFlashMapped hflash] at hregion
      exact { inside := ⟨r, hregion, hin⟩
              aligned := fun hmapped => absurd hmapped hflash
              clear := fun _ => hclear }

end AtomicOta.Esp
