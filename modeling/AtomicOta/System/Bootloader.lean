import AtomicOta.Artifact.Outcome
import AtomicOta.Esp.Inside
import AtomicOta.Esp.Memory
import AtomicOta.Esp.Room
import AtomicOta.Otadata.Rough

/-!
# A bootloader over a memory

The boot decision takes its answers about images from outside
(`AtomicOta.Otadata.ImageOk`), and the validator takes the bytes it looks at from outside
(`AtomicOta.Esp.Reader`). A bootloader puts the two together: the answer about a slot is
whether the validator accepts what the memory holds in its partition
(`AtomicOta.System.Bootloader.Bootable`).

The entries are on a medium of their own (`AtomicOta.Otadata.Medium`), and which one it is makes no
difference to what follows.

What makes two slots independent is stated of the partitions, as part of the bootloader:
they do not overlap, and each has the room behind it in which the validator does not
overflow. Then the answer about a slot is one about its own partition, and about nothing
else in the memory (`AtomicOta.System.Bootloader.Bootable.congr`).
-/

namespace AtomicOta.System

open Artifact Esp Otadata

/-- A bootloader: the build of the validator, the level it is called at, where the slots are, and
the medium that the entries are on. -/
structure Bootloader where
  overflow : Overflow
  sha256 : List UInt8 → Digest
  map : MemoryMap
  verify : Verify
  slotCount : UInt8
  start : UInt8 → UInt32
  size : UInt8 → UInt32
  medium : Medium
  /-- There is a slot to boot first. -/
  pos : 1 ≤ slotCount
  page : map.mmuPage ≠ 0
  alias_le : map.sramAliasOffset ≤ map.iram.start
  /-- There is room behind every partition. -/
  roomy : ∀ t, t < slotCount → Roomy (start t) (size t)
  /-- The partitions are apart. -/
  apart : ∀ s t, s < slotCount → t < slotCount → s ≠ t →
    (start s).toNat + (size s).toNat ≤ (start t).toNat ∨
      (start t).toNat + (size t).toNat ≤ (start s).toNat

namespace Bootloader

variable (B : Bootloader)

/-- What the validator says of a slot. -/
def judge (mem : Memory) (slot : UInt8) : Except Fault (Image × Unit) :=
  validate B.overflow (Reader.ofMemory mem) B.sha256 (B.start slot) (B.size slot) B.map B.verify ()

/-- The slot holds an image that the validator accepts. -/
def Bootable (mem : Memory) (slot : UInt8) : Prop := (B.judge mem slot).toBool = true

instance (mem : Memory) (slot : UInt8) : Decidable (B.Bootable mem slot) :=
  inferInstanceAs (Decidable (_ = true))

/-- The answers of a boot decision over a memory. -/
def imageOk (mem : Memory) : ImageOk := fixed fun slot => decide (B.Bootable mem slot)

@[simp] theorem imageOk_eq_true {mem : Memory} {k : ℕ} {slot : UInt8} :
    B.imageOk mem k slot = true ↔ B.Bootable mem slot :=
  decide_eq_true_iff

@[simp] theorem imageOk_eq_false {mem : Memory} {k : ℕ} {slot : UInt8} :
    B.imageOk mem k slot = false ↔ ¬B.Bootable mem slot :=
  decide_eq_false_iff_not

/-- An address of the partition of a slot. -/
def InSlot (slot : UInt8) (i : ℕ) : Prop :=
  (B.start slot).toNat ≤ i ∧ i < (B.start slot).toNat + (B.size slot).toNat

instance (slot : UInt8) (i : ℕ) : Decidable (B.InSlot slot i) := inferInstanceAs (Decidable (_ ∧ _))

variable {B} {mem mem' : Memory} {slot : UInt8}

/-- No address is in two partitions. -/
theorem InSlot.unique {s t : UInt8} {i : ℕ} (hs : B.InSlot s i) (ht : B.InSlot t i)
    (hslt : s < B.slotCount) (htlt : t < B.slotCount) : s = t := by
  by_contra hne
  obtain ⟨hlo, hhi⟩ := hs
  obtain ⟨hlo', hhi'⟩ := ht
  have hapart := B.apart s t hslt htlt hne
  omega

/-- Either build reckons right on a slot. -/
theorem reckons (hslot : slot < B.slotCount) :
    B.overflow.Reckons B.map (B.start slot) (B.size slot) :=
  .inr ⟨B.page, B.alias_le, B.roomy slot hslot⟩

/-- The build makes no difference to an answer. -/
theorem judge_eq (hslot : slot < B.slotCount) (mem : Memory) :
    B.judge mem slot = validate .abort (Reader.ofMemory mem) B.sha256 (B.start slot) (B.size slot)
      B.map B.verify () := by
  rw [judge, (reckons hslot).validate_eq]

/-- A partition in which an image is accepted has addresses, and the image is in it. -/
theorem stop_le_of_validate {ρ : Type} {reader : Reader ρ} {sha256 : List UInt8 → Digest}
    {partOffset partSize : UInt32} {map : MemoryMap} {verify : Verify} {s s' : ρ} {image : Image}
    (h : validate .abort reader sha256 partOffset partSize map verify s = .ok (image, s')) :
    partOffset.toNat + partSize.toNat < 2 ^ 32 ∧
      image.stop.toNat ≤ partOffset.toNat + partSize.toNat := by
  obtain ⟨t, s₁, htable, hrest⟩ := Fallible.bind_run_eq_ok h
  have hplaced := readTable_placed s t s₁ htable
  obtain ⟨-, s₂, -, hrest⟩ := Fallible.bind_run_eq_ok hrest
  obtain ⟨-, s₃, -, hrest⟩ := Fallible.bind_run_eq_ok hrest
  cases hrest
  exact ⟨readTable_partition htable, hplaced.inside⟩

/-- **An acceptance is one of the bytes of the image**, and of nothing else in the memory. -/
theorem judge_congr {image : Image} (h : B.judge mem slot = .ok (image, ()))
    (hslot : slot < B.slotCount)
    (heq : ∀ i, (B.start slot).toNat ≤ i → i < image.stop.toNat → mem i = mem' i) :
    B.judge mem' slot = .ok (image, ()) := by
  rw [judge_eq hslot] at h ⊢
  obtain ⟨hfit, hstop⟩ := stop_le_of_validate h
  -- every read on the way to acceptance is in the image, and finds the same bytes
  have hagrees : (Reader.ofMemory mem).Agrees (fun _ _ => True)
      (Inside (B.start slot) image.stop) (Reader.ofMemory mem') := by
    rintro offset n s t bytes s' ⟨hlo, hhi⟩ - hread
    cases hread
    refine ⟨t, Prod.ext ?_ rfl, True.intro⟩
    exact congrArg some (window_congr fun b hb hb' => (heq b (by omega) (by omega)).symm)
  obtain ⟨_, _, hrun', -, rfl⟩ := validate_follows hagrees le_rfl hfit B.sha256 B.verify () ()
    image () True.intro h le_rfl
  exact hrun'

/-- **The answer about a slot is one about its partition.** -/
theorem Bootable.congr (h : B.Bootable mem slot) (hslot : slot < B.slotCount)
    (heq : ∀ i, B.InSlot slot i → mem i = mem' i) : B.Bootable mem' slot := by
  rw [Bootable] at h ⊢
  rcases hrun : B.judge mem slot with e | ⟨image, u⟩
  · rw [hrun] at h
    cases h
  · have hstop := (stop_le_of_validate ((judge_eq hslot mem).symm.trans hrun)).2
    rw [judge_congr hrun hslot fun i hlo hhi => heq i ⟨hlo, hhi.trans_le hstop⟩]
    rfl

end Bootloader

/-! ### Two slots -/

/-- The image of `AtomicOta.Esp.tinyBytes` with another byte of data. -/
def nextBytes : List UInt8 := tinyBytes.set 32 7

/-- A digest, as the number that it spells. -/
def digestOf (n : ℕ) : Digest := fun i => UInt8.ofNat (n >>> (8 * (31 - i.val)))

/-- The digests of the two images. -/
def tinySha256 (bytes : List UInt8) : Digest :=
  if bytes = tinyBytes then
    digestOf 0x846eb22c3cee907a2ada1eb06a98317de3fd3254997b222b23b7eafd48c2d8d2
  else if bytes = nextBytes then
    digestOf 0xfaa636bd402c73eb95f745d2fe876ca9ab36af53231c757b8ef549f47748d277
  else fun _ => 0

/-- Two slots of 64 bytes, one behind the other, for a bootloader that reads the tables only, with
a flash whose erases leave garbage. -/
def twoSlots : Bootloader where
  overflow := .abort
  sha256 := tinySha256
  map := tinyMap
  verify := .structural
  slotCount := 2
  start t := if t = 0 then 0 else 64
  size _ := 64
  medium := rough
  pos := by decide
  page := by decide
  alias_le := by decide
  roomy t _ := by
    split_ifs
    · exact ⟨by decide, by decide, by decide⟩
    · exact ⟨by decide, by decide, by decide⟩
  apart s t hs ht hne := by
    have hlt : ∀ t : UInt8, t < 2 → t ≠ 0 → t = 1 := by
      intro t ht h0
      rw [UInt8.lt_iff_toNat_lt] at ht
      have hne0 : t.toNat ≠ 0 := fun h => h0 (UInt8.toNat_inj.mp h)
      exact UInt8.toNat_inj.mp (show t.toNat = 1 by change t.toNat < 2 at ht; omega)
    rcases eq_or_ne s 0 with rfl | h0
    · obtain rfl := hlt t ht hne.symm
      exact .inl le_rfl
    · obtain rfl := hlt s hs h0
      rcases eq_or_ne t 0 with rfl | h0'
      · exact .inr le_rfl
      · exact absurd (hlt t ht h0').symm hne

/-- The image of `AtomicOta.Esp.tinyBytes`, in slot 0. -/
theorem bootable_twoSlots : twoSlots.Bootable (memoryOf 0 tinyBytes) 0 := rfl

end AtomicOta.System
