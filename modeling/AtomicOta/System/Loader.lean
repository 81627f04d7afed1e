import AtomicOta.Otadata.Lazy
import AtomicOta.Otadata.Search
import AtomicOta.System.Bootloader

/-!
# The boot decision over a reader

The rest of this development lets a boot decide by a table of answers, one for each slot
(`AtomicOta.System.Bootloader.imageOk`). What runs on a device has no such table: the closure
that it hands to `plan_boot` calls the validator, the validator reads flash piece by piece
through a reader with a state of its own – a cache, a cursor, a count – and every call finds
that state as the calls before it left it (`AtomicOta.System.Judges`).

For a reader that serves the partitions (`AtomicOta.System.Partitioned`) it comes to the same:
the boot decision never panics, and its plan is the one for the table, wherever the reader
started from (`AtomicOta.System.boots_as_judged`). Nothing is asked of reads that leave the
partitions, not even that they fail.
-/

namespace AtomicOta.System

open Artifact Esp Fallible Otadata

variable {B : Bootloader} {ρ : Type} {reader : Reader ρ} {mem : Memory} {slot : UInt8}

/-- **A reader of the partitions**: every read in one of them is answered, and an answer is what
the memory holds. -/
structure Partitioned (B : Bootloader) (reader : Reader ρ) (mem : Memory) : Prop where
  served : ∀ slot, slot < B.slotCount → ∀ (offset : UInt32) (n : ℕ) (s : ρ),
    (B.start slot).toNat ≤ offset.toNat →
    offset.toNat + n ≤ (B.start slot).toNat + (B.size slot).toNat →
    ∃ s', reader.read offset n s = (some (window mem offset.toNat n), s')
  honest : ∀ (offset : UInt32) (n : ℕ) (s : ρ) (bytes : List UInt8) (s' : ρ),
    reader.read offset n s = (some bytes, s') → bytes = window mem offset.toNat n

/-- The verdict about a slot, over a reader. -/
def Bootloader.verdict (B : Bootloader) (reader : Reader ρ) (slot : UInt8) (s : ρ) :
    Except Fault (Image × ρ) :=
  validate B.overflow reader B.sha256 (B.start slot) (B.size slot) B.map B.verify s

/-- **A closure that asks the validator**: yes if it returns an image, and no if it returns an
error, after which nothing is known of the reader. Of a panic nothing is said. -/
structure Judges (B : Bootloader) (reader : Reader ρ)
    (imageOk : UInt8 → StateT ρ (Except Fault) Bool) : Prop where
  accepts : ∀ slot s image s', B.verdict reader slot s = .ok (image, s') →
    imageOk slot s = .ok (true, s')
  rejects : ∀ slot s e, B.verdict reader slot s = .error (.error e) →
    ∃ s', imageOk slot s = .ok (false, s')

/-! ### One slot -/

/-- The build makes no difference to a verdict, and it is never a panic. -/
theorem verdict_eq (hslot : slot < B.slotCount) (reader : Reader ρ) (s : ρ) :
    B.verdict reader slot s = validate .abort reader B.sha256 (B.start slot) (B.size slot) B.map
      B.verify s := by
  rw [Bootloader.verdict, (Bootloader.reckons hslot).validate_eq]

theorem verdict_ne_panic (hslot : slot < B.slotCount) (reader : Reader ρ) (s : ρ) :
    B.verdict reader slot s ≠ .error .panic := by
  rw [verdict_eq hslot]
  exact validate_avoids B.page B.alias_le (B.roomy slot hslot) B.sha256 B.verify s

/-- **The verdict over a reader is that of the memory**, in any state. -/
theorem Partitioned.verdict_ok_iff (h : Partitioned B reader mem) (hslot : slot < B.slotCount)
    (s : ρ) : (∃ image s', B.verdict reader slot s = .ok (image, s')) ↔ B.Bootable mem slot := by
  constructor
  · rintro ⟨image, s', hok⟩
    rw [verdict_eq hslot] at hok
    obtain ⟨hfit, -⟩ := Bootloader.stop_le_of_validate hok
    -- the memory answers whatever the reader has answered
    have hagrees : reader.Agrees (fun _ _ => True) (Inside (B.start slot) image.stop)
        (Reader.ofMemory mem) := by
      rintro offset n s t bytes s' - - hread
      obtain rfl := h.honest offset n s bytes s' hread
      exact ⟨t, rfl, True.intro⟩
    obtain ⟨_, _, hrun, -, rfl⟩ := validate_follows hagrees le_rfl hfit B.sha256 B.verify s ()
      image s' True.intro hok le_rfl
    rw [Bootloader.Bootable, Bootloader.judge_eq hslot, hrun]
    rfl
  · intro hok
    rw [Bootloader.Bootable, Bootloader.judge_eq hslot] at hok
    rcases hrun : validate .abort (Reader.ofMemory mem) B.sha256 (B.start slot) (B.size slot) B.map
      B.verify () with e | ⟨image, u⟩
    · rw [hrun] at hok
      cases hok
    · obtain ⟨hfit, hstop⟩ := Bootloader.stop_le_of_validate hrun
      -- and the reader answers all that was asked of the memory, which is in the image
      have hagrees : (Reader.ofMemory mem).Agrees (fun _ _ => True)
          (Inside (B.start slot) image.stop) reader := by
        rintro offset n u s bytes u' ⟨hlo, hhi⟩ - hread
        cases hread
        obtain ⟨s', hs'⟩ := h.served slot hslot offset n s hlo (hhi.trans hstop)
        exact ⟨s', hs', True.intro⟩
      obtain ⟨_, s', hrun', -, rfl⟩ := validate_follows hagrees le_rfl hfit B.sha256 B.verify () s
        image u True.intro hrun le_rfl
      exact ⟨image, s', (verdict_eq hslot reader s).trans hrun'⟩

/-- An answer of the closure is that of the table. -/
theorem Judges.answers {imageOk : UInt8 → StateT ρ (Except Fault) Bool}
    (h : Judges B reader imageOk) (hreader : Partitioned B reader mem)
    (hslot : slot < B.slotCount) :
    Succeeds (imageOk slot) (· = decide (B.Bootable mem slot)) := by
  intro s
  have hiff := hreader.verdict_ok_iff hslot s
  rcases hv : B.verdict reader slot s with (_ | e) | ⟨image, s'⟩
  · exact absurd hv (verdict_ne_panic hslot reader s)
  · obtain ⟨s', hs'⟩ := h.rejects slot s e hv
    refine ⟨false, s', hs', (decide_eq_false fun hok => ?_).symm⟩
    obtain ⟨image, s'', hok'⟩ := hiff.mpr hok
    rw [hv] at hok'
    cases hok'
  · exact ⟨true, s', h.accepts slot s image s' hv, (decide_eq_true (hiff.mp ⟨image, s', hv⟩)).symm⟩

/-! ### The decision -/

/-- **A search with answers that are those of a table** is the search in the table. -/
theorem findM?_succeeds {α ε : Type} {p : α → StateT ρ (Except ε) Bool} {q : α → Bool}
    (xs : List α) (h : ∀ x ∈ xs, Succeeds (p x) (· = q x)) :
    Succeeds (xs.findM? p) (· = xs.find? q) := by
  induction xs with
  | nil => exact Succeeds.pure rfl
  | cons x xs ih =>
    rw [List.findM?]
    refine Succeeds.bind (h x List.mem_cons_self) ?_
    rintro _ rfl
    rw [List.find?_cons]
    cases q x with
    | true => exact Succeeds.pure rfl
    | false => exact ih fun y hy => h y (List.mem_cons_of_mem x hy)

/-- A boot only asks about slots that there are. -/
theorem slot_lt_of_offers {f : Flash} {o : Offer} (h : o ∈ offers (view f) B.slotCount) :
    o.slot < B.slotCount := by
  rw [slot_of_offers h]
  refine slotOf_lt B.pos ?_
  rcases seq_of_offers h with hone | ⟨e, he, hseq⟩
  · rw [hone]
    decide
  · rw [hseq]
    exact (admissible_of_accepted he).seq_ne_zero

/-- **The boot decision over a reader is the one over the memory.** -/
theorem boots_as_judged (B : Bootloader) (reader : Reader ρ) (mem : Memory)
    (imageOk : UInt8 → StateT ρ (Except Fault) Bool) (hreader : Partitioned B reader mem)
    (hjudges : Judges B reader imageOk) (f : Flash) (s : ρ) :
    ∃ s', planBootWith f B.slotCount imageOk s =
      .ok (planBoot f B.slotCount (B.imageOk mem), s') := by
  have hsearch := findM?_succeeds (offers (view f) B.slotCount) fun o ho =>
    hjudges.answers hreader (slot_lt_of_offers ho)
  have hplan : Succeeds (planBootWith f B.slotCount imageOk)
      (· = planBoot f B.slotCount (B.imageOk mem)) := by
    rw [planBootWith_eq, map_eq_pure_bind, Bootloader.imageOk, planBoot_fixed]
    refine Succeeds.bind hsearch ?_
    rintro _ rfl
    exact Succeeds.pure rfl
  obtain ⟨_, s', hrun, rfl⟩ := hplan s
  exact ⟨s', hrun⟩

/-- The closure that starts over where it was when there was an error. -/
def Bootloader.ask (B : Bootloader) (reader : Reader ρ) (slot : UInt8) :
    StateT ρ (Except Fault) Bool := fun s =>
  match B.verdict reader slot s with
  | .ok (_, s') => .ok (true, s')
  | .error _ => .ok (false, s)

theorem judges_ask (B : Bootloader) (reader : Reader ρ) : Judges B reader (B.ask reader) where
  accepts slot s image s' h := by
    rw [Bootloader.ask, h]
  rejects slot s e h := by
    refine ⟨s, ?_⟩
    rw [Bootloader.ask, h]

/-- A first boot with the image of slot 0, over a reader that keeps a record. -/
theorem boots_as_judged_twoSlots :
    ∃ s', planBootWith (fun _ => blank) 2
      (twoSlots.ask (Reader.ofMemory (memoryOf 0 tinyBytes)).logged) ((), []) =
        .ok (seedPlan, s') := by
  have hreader : Partitioned twoSlots (Reader.ofMemory (memoryOf 0 tinyBytes)).logged
      (memoryOf 0 tinyBytes) := by
    constructor
    · rintro slot - offset n s - -
      exact ⟨_, rfl⟩
    · rintro offset n s bytes s' h
      exact (Option.some.inj (Prod.mk.inj h).1).symm
  have hnone : ∀ s, view (fun _ => blank) s = none := fun _ => accepted_blank
  obtain ⟨s', hrun⟩ := boots_as_judged twoSlots (Reader.ofMemory (memoryOf 0 tinyBytes)).logged
    (memoryOf 0 tinyBytes) _ hreader (judges_ask _ _) (fun _ => blank) ((), [])
  refine ⟨s', hrun.trans ?_⟩
  rcases decides_of_none (decides_planBoot (fun _ => blank) 2
    (twoSlots.imageOk (memoryOf 0 tinyBytes))) hnone with ⟨hplan, -⟩ | ⟨-, hok⟩
  · exact congrArg (fun p => Except.ok (p, s')) hplan
  · exact absurd bootable_twoSlots (twoSlots.imageOk_eq_false.mp hok)

end AtomicOta.System
