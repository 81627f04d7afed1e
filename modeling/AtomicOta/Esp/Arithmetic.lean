import AtomicOta.Word

/-!
# How a validation ends

The outcomes of the image validator and the arithmetic it is written in. An addition or a
subtraction that the source leaves unchecked aborts or wraps around, as the build has it –
`AtomicOta.Esp.Overflow` – and a remainder by zero aborts in every build. The lemmas say
when an operation computes what it stands for, and what is known where it does.
-/

namespace AtomicOta.Esp

inductive ImageError where
  | read
  | badMagic (magic : UInt8)
  | badChip (chipId : UInt16)
  | badSegmentCount (count : UInt8)
  /-- Segment `i` claims more data than the partition holds. -/
  | segmentOutsidePartition (i : ℕ)
  /-- Segment `i` loads somewhere it must not, or crosses a region boundary. -/
  | badLoadRange (i : ℕ)
  /-- The page offset of segment `i` differs between address and flash. -/
  | misaligned (i : ℕ)
  /-- Segment `i` would overwrite the bootloader. -/
  | overlapsBootloader (i : ℕ)
  /-- The entry point is not inside any executable segment. -/
  | badEntry
  /-- The trailer does not fit in the partition. -/
  | truncated
  | badChecksum
  /-- A full verification of an image without an appended hash. -/
  | hashMissing
  | badHash
  deriving DecidableEq, Repr

/-- How a computation ends that has no result: with an error, or with a panic. -/
inductive Fault where
  | panic
  | error (e : ImageError)
  deriving DecidableEq, Repr

/-- Whether a build checks the additions and subtractions that the source does not. -/
inductive Overflow where
  | abort
  | wrap
  deriving DecidableEq, Repr

/-- `a + b`. -/
def add (o : Overflow) (a b : UInt32) : Except Fault UInt32 :=
  match checkedAdd a b, o with
  | some c, _ => .ok c
  | none, .abort => .error .panic
  | none, .wrap => .ok (a + b)

/-- `a - b`. -/
def sub (o : Overflow) (a b : UInt32) : Except Fault UInt32 :=
  match o with
  | .abort => if b ≤ a then .ok (a - b) else .error .panic
  | .wrap => .ok (a - b)

/-- `a % b`. -/
def rem (a b : UInt32) : Except Fault UInt32 :=
  if b = 0 then .error .panic else .ok (a % b)

/-- `u32::saturating_add`. -/
def saturatingAdd (a b : UInt32) : UInt32 := (checkedAdd a b).getD u32Max

/-! ### What is computed -/

section Arithmetic

variable {o : Overflow} {a b c : UInt32}

theorem add_ok (h : add o a b = .ok c) : c = a + b := by
  cases hc : checkedAdd a b with
  | none => cases o <;> simp [add, hc] at h; exact h.symm
  | some d =>
    have hd : d = c := by simpa [add, hc] using h
    rw [← hd, eq_of_checkedAdd hc]

/-- A sum that fits is computed in every build. -/
theorem add_of_lt (h : a.toNat + b.toNat < 2 ^ 32) : add o a b = .ok (a + b) := by
  simp only [add, checkedAdd_of_lt h]

/-- Where an overflow aborts, a sum that is computed fits. -/
theorem toNat_of_add_abort (h : add .abort a b = .ok c) : c.toNat = a.toNat + b.toNat := by
  cases hc : checkedAdd a b with
  | none => simp [add, hc] at h
  | some d =>
    have hd : d = c := by simpa [add, hc] using h
    rw [← hd, checkedAdd_some hc]

theorem sub_ok (h : sub o a b = .ok c) : c = a - b := by
  cases o with
  | abort =>
    unfold sub at h
    split_ifs at h
    exact (Except.ok.inj h).symm
  | wrap => exact (Except.ok.inj h).symm

/-- A difference that fits is computed in every build. -/
theorem sub_of_le (h : b ≤ a) : sub o a b = .ok (a - b) := by
  cases o with
  | abort => exact if_pos h
  | wrap => rfl

/-- Where an overflow aborts, a difference that is computed fits. -/
theorem le_of_sub_abort (h : sub .abort a b = .ok c) : b ≤ a := by
  unfold sub at h
  split_ifs at h with hle
  exact hle

theorem add_ofNat {m n : ℕ} (h : m + n < 2 ^ 32) :
    add o (UInt32.ofNat m) (UInt32.ofNat n) = .ok (UInt32.ofNat (m + n)) := by
  simp only [add, checkedAdd_ofNat h]

theorem sub_ofNat {m n : ℕ} (hle : n ≤ m) (h : m < 2 ^ 32) :
    sub o (UInt32.ofNat m) (UInt32.ofNat n) = .ok (UInt32.ofNat (m - n)) := by
  have hle' : UInt32.ofNat n ≤ UInt32.ofNat m := by
    rwa [UInt32.le_iff_toNat_le, toNat_ofNat_of_lt (by omega), toNat_ofNat_of_lt h]
  rw [sub_of_le hle', UInt32.ofNat_sub hle]

theorem saturatingAdd_of_lt (h : a.toNat + b.toNat < 2 ^ 32) : saturatingAdd a b = a + b := by
  rw [saturatingAdd, checkedAdd_of_lt h]
  rfl

end Arithmetic

end AtomicOta.Esp
