import AtomicOta.Esp.Reading
import Mathlib.Logic.Function.Basic

/-!
# Readers of a memory

A reader that looks something up: `AtomicOta.Esp.Reader.Holds` says which reads are served,
that these return the bytes of a memory, and that all others fail. The two loops of the
validator are then functions of stretches of the memory, `AtomicOta.Esp.window`, which is how
the later files say which bytes a decision was made of, or compare two contents.
-/

namespace AtomicOta.Esp

open Fallible

/-! ### Stretches of a memory -/

/-- The `n` bytes of a memory from address `a` on. -/
def window (mem : ℕ → UInt8) (a n : ℕ) : List UInt8 := (List.range' a n).map mem

section Window

variable {mem mem' : ℕ → UInt8} {a n : ℕ}

@[simp] theorem length_window : (window mem a n).length = n := by
  rw [window, List.length_map, List.length_range']

theorem window_add (m : ℕ) : window mem a (m + n) = window mem a m ++ window mem (a + m) n := by
  rw [window, ← List.range'_append_1, List.map_append, window, window]

/-- Part of a stretch. -/
theorem take_drop_window {k m : ℕ} (h : k + m ≤ n) :
    ((window mem a n).drop k).take m = window mem (a + k) m := by
  obtain ⟨rest, rfl⟩ := Nat.exists_eq_add_of_le h
  rw [Nat.add_assoc, window_add, List.drop_left' length_window, window_add,
    List.take_left' length_window]

theorem window_congr (h : ∀ b, a ≤ b → b < a + n → mem b = mem' b) :
    window mem a n = window mem' a n := by
  refine List.map_congr_left fun b hb => ?_
  obtain ⟨hlo, hhi⟩ := List.mem_range'_1.mp hb
  exact h b hlo hhi

end Window

/-! ### Readers -/

variable {ρ : Type} {o : Overflow} {reader : Reader ρ} {Served : UInt32 → ℕ → Prop}
variable {mem : ℕ → UInt8}

/-- **A reader of the memory `mem`**, of which the reads `Served` succeed and no others. -/
structure Reader.Holds (reader : Reader ρ) (Served : UInt32 → ℕ → Prop) (mem : ℕ → UInt8) :
    Prop where
  read_served : ∀ (offset : UInt32) (n : ℕ) (s : ρ), Served offset n →
    ∃ s', reader.read offset n s = (some (window mem offset.toNat n), s')
  read_not_served : ∀ (offset : UInt32) (n : ℕ) (s : ρ), ¬ Served offset n →
    ∃ s', reader.read offset n s = (none, s')

/-- A memory as a reader: all of it can be read. -/
def Reader.ofMemory (mem : ℕ → UInt8) : Reader Unit where
  read offset n s := (some (window mem offset.toNat n), s)
  length_read offset n s bytes s' h := by
    cases h
    exact length_window

theorem Reader.ofMemory_holds (mem : ℕ → UInt8) :
    (Reader.ofMemory mem).Holds (fun _ _ => True) mem where
  read_served _ _ s _ := ⟨s, rfl⟩
  read_not_served _ _ _ h := absurd True.intro h

/-- A list with nothing around it. -/
theorem eq_nil_append_nil (bytes : List UInt8) : bytes = [] ++ bytes ++ [] := by
  rw [List.nil_append, List.append_nil]

namespace Reader.Holds

variable (h : reader.Holds Served mem)

include h

/-- A stretch every part of which can be read is served as it stands. -/
theorem serves {start n : ℕ} (hserved : ∀ (offset : UInt32) (m : ℕ), start ≤ offset.toNat →
      offset.toNat + m ≤ start + n → Served offset m) :
    reader.Serves start (window mem start n) := by
  intro offset m s hlo hhi
  rw [length_window] at hhi
  obtain ⟨s', hread⟩ := h.read_served offset m s (hserved offset m hlo hhi)
  refine ⟨s', ?_⟩
  rw [hread, take_drop_window (by omega), Nat.add_sub_cancel' hlo]

theorem readExact_succeeds {offset : UInt32} {n : ℕ} (hserved : Served offset n) :
    Succeeds (readExact reader offset n) (· = window mem offset.toNat n) := by
  intro s
  obtain ⟨s', hread⟩ := h.read_served offset n s hserved
  exact ⟨_, s', by simp only [readExact, hread], rfl⟩

/-- What is read can be read. -/
theorem read_eq_some {offset : UInt32} {n : ℕ} {s s' : ρ} {bytes : List UInt8}
    (hread : reader.read offset n s = (some bytes, s')) :
    Served offset n ∧ bytes = window mem offset.toNat n := by
  by_cases hserved : Served offset n
  · obtain ⟨s'', hread'⟩ := h.read_served offset n s hserved
    rw [hread'] at hread
    cases hread
    exact ⟨hserved, rfl⟩
  · obtain ⟨s'', hread'⟩ := h.read_not_served offset n s hserved
    rw [hread'] at hread
    cases hread

end Reader.Holds

section Total

variable (h : reader.Holds (fun _ _ => True) mem)

include h

/-- The XOR loop, where every read succeeds. -/
theorem Reader.Holds.xorSegment_succeeds {seg : Segment}
    (hfit : seg.dataOffset.toNat + seg.len.toNat < 2 ^ 32) (xor : UInt8) :
    Succeeds (xorSegment o reader xor seg)
      (· = (window mem seg.dataOffset.toNat seg.len.toNat).foldl (· ^^^ ·) xor) := by
  refine xorSegment_serves (h.serves fun _ _ _ _ => True.intro) (eq_nil_append_nil _) rfl ?_ ?_ xor
  · rw [length_window]
  · rwa [length_window]

/-- The hash loop, where every read succeeds. -/
theorem Reader.Holds.absorb_succeeds {pos stop : UInt32} (hle : pos.toNat ≤ stop.toNat) :
    Succeeds (absorb o reader pos stop) (· = window mem pos.toNat (stop.toNat - pos.toNat)) := by
  refine absorb_serves (h.serves fun _ _ _ _ => True.intro) (eq_nil_append_nil _) rfl ?_
  rw [length_window]
  omega

end Total

/-! ### Memories with given bytes -/

/-- The memory `mem` with `bytes` written over it from `start` on. -/
def overlay (mem : ℕ → UInt8) (start : ℕ) (bytes : List UInt8) : ℕ → UInt8 := fun a =>
  if start ≤ a ∧ a < start + bytes.length then bytes.getD (a - start) 0 else mem a

theorem window_overlay (mem : ℕ → UInt8) (start : ℕ) (bytes : List UInt8) :
    window (overlay mem start bytes) start bytes.length = bytes := by
  refine List.ext_getElem length_window fun j hj hj' => ?_
  simp [window, overlay, hj']

/-- What is not written over stays. -/
theorem window_overlay_of_disjoint (mem : ℕ → UInt8) {start : ℕ} {bytes : List UInt8} {a n : ℕ}
    (h : a + n ≤ start ∨ start + bytes.length ≤ a) :
    window (overlay mem start bytes) a n = window mem a n :=
  window_congr fun b hlo hhi => if_neg (by omega)

/-- Another byte at one address. -/
theorem window_update (mem : ℕ → UInt8) {start n a : ℕ} (x : UInt8) (hlo : start ≤ a) :
    window (Function.update mem a x) start n = (window mem start n).set (a - start) x := by
  refine List.ext_getElem (by simp) fun j hj hj' => ?_
  rw [List.getElem_set]
  by_cases heq : a - start = j
  · simp [window, heq, show start + j = a by omega]
  · simp [window, heq, Function.update_of_ne (show start + j ≠ a by omega)]

/-- A memory that holds `bytes` from `start` on, and zeros elsewhere. -/
def memoryOf (start : ℕ) (bytes : List UInt8) : ℕ → UInt8 := overlay (fun _ => 0) start bytes

theorem memoryOf_serves (start : ℕ) (bytes : List UInt8) :
    (Reader.ofMemory (memoryOf start bytes)).Serves start bytes := by
  have hserves : (Reader.ofMemory (memoryOf start bytes)).Serves start
      (window (memoryOf start bytes) start bytes.length) :=
    (Reader.ofMemory_holds (memoryOf start bytes)).serves fun _ _ _ _ => True.intro
  rwa [memoryOf, window_overlay] at hserves

end AtomicOta.Esp
