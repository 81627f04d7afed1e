import AtomicOta.Esp.Build
import AtomicOta.Esp.Memory
import AtomicOta.Esp.Room
import AtomicOta.Esp.RoundTrip

/-!
# Which partitions are safe from overflow

Those with room behind them, and no others: `AtomicOta.Esp.noOverflow_iff`.

* With room no validation panics, so that it ends in every build as it ends where an overflow
  aborts.
* Without it there is an image whose validation overflows. It is a draft with its blocks laid
  out as they should be, `AtomicOta.Esp.probe`; of one segment where there is no room for the
  first header or for the trailer (`AtomicOta.Esp.not_first`, `AtomicOta.Esp.not_trailer`),
  and of two where there is none for a header behind the data (`AtomicOta.Esp.not_next`).

Where the sum wraps around instead, such an image may even be accepted, with an end before its
start (`AtomicOta.Esp.overflow_accepted`).
-/

namespace AtomicOta.Esp

open Fallible

variable {map : MemoryMap} {i : ℕ} {partOffset partSize partEnd cursor entry : UInt32}

/-! ### Sums that do not fit -/

section Panics

variable {a b : UInt32} {e : Fault}

/-- Where an overflow aborts, arithmetic fails in no other way. -/
theorem add_error (h : add .abort a b = .error e) : e = .panic := by
  cases hsum : checkedAdd a b with
  | none =>
    simp only [add, hsum] at h
    cases h
    rfl
  | some c => simp [add, hsum] at h

theorem sub_error (h : sub .abort a b = .error e) : e = .panic := by
  unfold sub at h
  split_ifs at h
  cases h
  rfl

theorem add_eq_panic (h : 2 ^ 32 ≤ a.toNat + b.toNat) : add .abort a b = .error .panic := by
  simp only [add, checkedAdd, if_neg (Nat.not_lt.mpr h)]

theorem Walk.step_eq_panic {w : Walk} {raw : List UInt8} (h : 2 ^ 32 ≤ w.cursor.toNat + 8) :
    Walk.step .abort map partEnd entry i w raw = .error .panic := by
  unfold Walk.step
  rw [add_eq_panic h]
  rfl

/-- A trailer that reaches past the last address cannot be computed. -/
theorem trailer_eq_panic
    (h : 2 ^ 32 ≤ partOffset.toNat + 16 * ((cursor.toNat - partOffset.toNat) / 16 + 1) + 32) :
    trailer .abort partOffset partEnd cursor true = .error .panic := by
  refine bind_eq_error (fun _ => sub_error) fun rel hrel => ?_
  refine bind_eq_error (fun _ => add_error) fun used hused => ?_
  refine bind_eq_error (fun _ => sub_error) fun padding hpadding => ?_
  refine bind_eq_error (fun _ => add_error) fun checksumAt hat => ?_
  refine bind_eq_error (fun _ => add_error) fun checked hchecked => ?_
  refine bind_eq_error (fun _ => add_error) fun stop hstop => ?_
  have hle := UInt32.le_iff_toNat_le.mp (le_of_sub_abort hrel)
  have hdiff : rel.toNat = cursor.toNat - partOffset.toNat := by
    rw [sub_ok hrel, toNat_sub_of_le' hle]
  have hpad : padding.toNat = 15 - (cursor.toNat - partOffset.toNat) % 16 := by
    rw [sub_ok hpadding, toNat_sub_of_le' (UInt32.le_iff_toNat_le.mp (le_of_sub_abort hpadding)),
      UInt32.toNat_mod, hdiff]
    rfl
  have hused' := toNat_of_add_abort hused
  have hat' := toNat_of_add_abort hat
  have hone : checked.toNat = checksumAt.toNat + 1 := toNat_of_add_abort hchecked
  have hend : stop.toNat = checked.toNat + 32 := toNat_of_add_abort hstop
  have hlt := stop.toNat_lt
  omega

end Panics

/-! ### Images that overflow -/

/-- A chip where a segment may be loaded to any address but the first and the last. -/
def wideMap : MemoryMap :=
  { chipId := 0, drom := ⟨0, 0⟩, irom := ⟨0, 0⟩, iram := ⟨1, u32Max⟩, dram := ⟨0, 0⟩,
    rtc := ⟨0, 0⟩, sramAliasOffset := 0, bootWindow := ⟨0, 0⟩, mmuPage := 1 }

/-- In this chip a segment is legal when it ends before the last address. -/
theorem legal_wideMap {o : Overflow} {seg : Segment} (hload : seg.load ∈ wideMap.iram)
    (hend : seg.load.toNat + seg.len.toNat ≤ u32Max.toNat) : seg.Legal o wideMap := by
  have hnone : ∀ a : UInt32, a ∉ (⟨0, 0⟩ : Range) := fun a h => UInt32.not_lt_zero h.2
  have hram : ¬ wideMap.IsFlashMapped seg.load := fun h => h.elim (hnone _) (hnone _)
  have hsub : sub o seg.load wideMap.sramAliasOffset = .ok seg.load :=
    (sub_of_le UInt32.zero_le).trans (congrArg Except.ok (UInt32.sub_zero _))
  refine { inside := ⟨wideMap.iram, ?_, hend⟩, aligned := fun h => absurd h hram, clear := ?_ }
  · rw [MemoryMap.region_of_not_isFlashMapped hram, MemoryMap.ramRegion, if_pos hload]
  · rintro -
    refine ⟨seg.load, ?_, Or.inr (Or.inr (Nat.zero_le _))⟩
    rw [Segment.ramTarget, if_pos hload, hsub]
    rfl

/-- There it can be run from any of its addresses. -/
theorem runs_wideMap {seg : Segment} {entry : UInt32} (hload : seg.load ∈ wideMap.iram)
    (hend : seg.load.toNat + seg.len.toNat ≤ u32Max.toNat) (hentry : entry.toNat ∈ seg.addresses) :
    seg.Loaded ∧ seg.Runs wideMap entry := by
  obtain ⟨hlo, hhi⟩ := hentry
  refine ⟨⟨UInt32.lt_iff_toNat_lt.mpr ?_, ?_⟩, ?_⟩
  · exact (show (0 : ℕ) < seg.len.toNat by omega)
  · rintro heq
    rw [heq] at hload
    exact absurd hload (by decide)
  · exact (legal_wideMap (o := .abort) hload hend).runs (.inr hload) ⟨hlo, hhi⟩

section LoadedAtOne

variable {seg : Segment} (hload : seg.load = 1) (hlen : seg.len.toNat + 1 < 2 ^ 32)

include hload hlen

/-- A segment that is loaded to the first of these addresses may have almost any length. -/
theorem legal_of_load_one {o : Overflow} : seg.Legal o wideMap := by
  refine legal_wideMap (hload ▸ by decide) ?_
  rw [hload]
  exact (show 1 + seg.len.toNat ≤ 2 ^ 32 - 1 by omega)

theorem runs_of_load_one (hlo : 1 ≤ entry.toNat) (hhi : entry.toNat < 1 + seg.len.toNat) :
    seg.Loaded ∧ seg.Runs wideMap entry := by
  have hone : seg.load.toNat = 1 := hload ▸ rfl
  refine runs_wideMap (hload ▸ by decide) ?_ ⟨by omega, by omega⟩
  rw [hone]
  exact (show 1 + seg.len.toNat ≤ 2 ^ 32 - 1 by omega)

end LoadedAtOne

/-- An image with a hash that is run from its first address. -/
def probe (blocks : List Block) (hpos : 1 ≤ blocks.length) (hle : blocks.length ≤ 16) : Draft :=
  { entry := 1, chipId := 0, hashByte := 1, spare := fun _ => 0, blocks,
    padding := List.replicate (15 - (24 + (blocks.flatMap Block.bytes).length) % 16) 0,
    blocks_pos := hpos, blocks_le := hle, length_padding := List.length_replicate }

/-- Reading the table of a draft panics when the walk does, or the trailer behind it. -/
theorem readTable_panics {d : Draft} {bytes : List UInt8} (hchip : d.chipId = map.chipId)
    (hfit : partOffset.toNat + partSize.toNat < 2 ^ 32) {reader : Reader Unit}
    (hserves : reader.Serves partOffset.toNat (d.header ++ bytes))
    (h : partOffset.toNat + 24 < 2 ^ 32 →
      Fails (walk .abort reader map (partOffset + partSize) d.entry d.blocks.length 0
        { segments := [], cursor := partOffset + headerLen, entryOk := false }) .panic ∨
      Succeeds (walk .abort reader map (partOffset + partSize) d.entry d.blocks.length 0
          { segments := [], cursor := partOffset + headerLen, entryOk := false }) fun w =>
        w.entryOk = true ∧
          trailer .abort partOffset (partOffset + partSize) w.cursor d.hashAppended =
            .error .panic) :
    Fails (readTable .abort reader partOffset partSize map) .panic := by
  have hbytes : d.header ++ bytes = [] ++ d.header ++ bytes := rfl
  unfold readTable
  rw [checkedAdd_of_lt hfit]
  refine Fails.bind (hserves.readExact_append hbytes rfl) ?_
  rintro raw rfl
  refine Fails.bind (Succeeds.lift (P := (· = _)) (parseHeader_header hchip) rfl) ?_
  rintro header rfl
  by_cases hlt : partOffset.toNat + headerLen.toNat < 2 ^ 32
  · refine Fails.bind (Succeeds.lift (P := (· = _)) (add_of_lt hlt) rfl) ?_
    rintro cursor rfl
    rcases h hlt with hwalk | hwalk
    · exact hwalk.bind_left
    · refine Fails.bind hwalk ?_
      rintro w ⟨hentry, htrailer⟩
      rw [if_neg (by simpa using hentry)]
      exact (Fails.lift htrailer).bind_left
  · exact (Fails.lift (add_eq_panic (Nat.not_lt.mp hlt))).bind_left

/-- A walk that still has a header to read, and cannot reach its end, panics. -/
theorem walk_panics {mem : ℕ → UInt8} (n : ℕ) {w : Walk} (h : 2 ^ 32 ≤ w.cursor.toNat + 8) :
    Fails (walk .abort (Reader.ofMemory mem) map partEnd entry (n + 1) i w) .panic := by
  refine Fails.bind ((Reader.ofMemory_holds mem).readExact_succeeds True.intro) ?_
  rintro raw -
  exact (Fails.lift (Walk.step_eq_panic h)).bind_left

/-- A block with `n` bytes of data. -/
theorem exists_block (load : UInt32) (n : ℕ) : ∃ b : Block, b.load = load ∧ b.data.length = n :=
  ⟨{ load, data := List.replicate n 0 }, rfl, List.length_replicate⟩

section Probes

variable (hfit : partOffset.toNat + partSize.toNat < 2 ^ 32)

include hfit

/-- The walk past the header of a block that fills the partition. -/
theorem Walk.step_fill {b : Block} (hdata : b.data.length = partSize.toNat - 32)
    (hsize : 32 ≤ partSize.toNat)
    (hlegal : (b.segment (partOffset.toNat + 24)).Loaded →
      (b.segment (partOffset.toNat + 24)).Legal .abort map) :
    Walk.step .abort map (partOffset + partSize) entry 0
        { segments := [], cursor := partOffset + headerLen, entryOk := false } b.header =
      .ok { segments := [b.segment (partOffset.toNat + 24)]
            cursor := partOffset + partSize
            entryOk := anyRuns map entry [b.segment (partOffset.toNat + 24)] } := by
  have hlen : headerLen.toNat = 24 := rfl
  have hcursor : (partOffset + headerLen).toNat = partOffset.toNat + 24 :=
    toNat_add_of_lt (by omega)
  have hend : (partOffset + partSize).toNat = partOffset.toNat + 24 + b.bytes.length := by
    rw [toNat_add_of_lt hfit, Block.length_bytes, hdata]
    omega
  rw [eq_ofNat hend]
  have hle : partOffset.toNat + 24 + b.bytes.length ≤ (partOffset + partSize).toNat := hend.ge
  rw [eq_ofNat hend] at hle
  exact Walk.step_block b hcursor hle hlegal

/-- **Without room for the first segment header**, an image of one segment overflows. -/
theorem not_first (h : 2 ^ 32 ≤ partOffset.toNat + 32) :
    ∃ mem, Fails (readTable .abort (Reader.ofMemory mem) partOffset partSize wideMap) .panic := by
  obtain ⟨only, -, -⟩ := exists_block 1 0
  refine ⟨memoryOf partOffset.toNat ((probe [only] (by simp) (by simp)).header ++ []), ?_⟩
  refine readTable_panics rfl hfit (memoryOf_serves _ _) fun hlt => Or.inl ?_
  have hcursor : (partOffset + headerLen).toNat = partOffset.toNat + 24 := toNat_add_of_lt hlt
  exact walk_panics 0 (by rw [hcursor]; omega)

/-- **Without room for a header behind the data**, an image of two segments overflows. -/
theorem not_next (hsize : 32 ≤ partSize.toNat)
    (h : 2 ^ 32 ≤ partOffset.toNat + partSize.toNat + 8) :
    ∃ mem, Fails (readTable .abort (Reader.ofMemory mem) partOffset partSize wideMap) .panic := by
  -- the first segment is padding, so it is legal wherever it ends
  obtain ⟨first, hload, hdata⟩ := exists_block 0 (partSize.toNat - 32)
  let d := probe [first, first] (by simp) (by simp)
  have hbytes : d.header ++ first.bytes = d.header ++ first.header ++ first.data :=
    (List.append_assoc ..).symm
  refine ⟨memoryOf partOffset.toNat (d.header ++ first.bytes), ?_⟩
  refine readTable_panics rfl hfit (memoryOf_serves _ _) fun hlt => Or.inl ?_
  refine Fails.bind ((memoryOf_serves _ _).readExact_append hbytes (toNat_add_of_lt hlt)) ?_
  rintro raw rfl
  refine Fails.bind (Succeeds.lift (P := (· = _))
    (Walk.step_fill hfit hdata hsize fun hloaded => absurd hload hloaded.2) rfl) ?_
  rintro next rfl
  exact walk_panics 0 (by rwa [toNat_add_of_lt hfit])

/-- **Without room for the trailer**, an image of one segment overflows. -/
theorem not_trailer (hsize : 33 ≤ partSize.toNat)
    (h : 2 ^ 32 ≤ partOffset.toNat + 16 * (partSize.toNat / 16 + 1) + 32) :
    ∃ mem, Fails (readTable .abort (Reader.ofMemory mem) partOffset partSize wideMap) .panic := by
  obtain ⟨only, hload, hdata⟩ := exists_block 1 (partSize.toNat - 32)
  let d := probe [only] (by simp) (by simp)
  have hbytes : d.header ++ only.bytes = d.header ++ only.header ++ only.data :=
    (List.append_assoc ..).symm
  have hlt := partSize.toNat_lt
  have hlen : (only.segment (partOffset.toNat + 24)).len.toNat = partSize.toNat - 32 := by
    rw [Block.segment, hdata, toNat_ofNat_of_lt (by omega)]
  have hload' : (only.segment (partOffset.toNat + 24)).load = 1 := hload
  have hentry : d.entry.toNat = 1 := rfl
  have hlegal : (only.segment (partOffset.toNat + 24)).Legal .abort wideMap :=
    legal_of_load_one hload' (by omega)
  have hrun : (only.segment (partOffset.toNat + 24)).Loaded ∧
      (only.segment (partOffset.toNat + 24)).Runs wideMap d.entry :=
    runs_of_load_one hload' (by omega) hentry.ge (by omega)
  refine ⟨memoryOf partOffset.toNat (d.header ++ only.bytes), ?_⟩
  refine readTable_panics rfl hfit (memoryOf_serves _ _) fun hlt => Or.inr ?_
  refine Succeeds.bind ((memoryOf_serves _ _).readExact_append hbytes (toNat_add_of_lt hlt)) ?_
  rintro raw rfl
  refine Succeeds.bind (Succeeds.lift (P := (· = _))
    (Walk.step_fill hfit hdata (by omega) fun _ => hlegal) rfl) ?_
  rintro next rfl
  refine Succeeds.pure ⟨?_, trailer_eq_panic ?_⟩
  · simp [anyRuns, hrun]
  · rwa [toNat_add_of_lt hfit, Nat.add_sub_cancel_left]

end Probes

/-- **No arithmetic overflows** in the validation of an image in this partition, for any chip
that has pages and an alias of its instruction memory on the data bus: no check of a segment
panics, and neither does a validation, so that every build ends it alike. -/
def NoOverflow (partOffset partSize : UInt32) : Prop :=
  ∀ map : MemoryMap, map.mmuPage ≠ 0 → map.sramAliasOffset ≤ map.iram.start →
    (∀ i seg, checkSegment .abort map i seg ≠ .error .panic ∧
      seg.ramTarget .abort map ≠ .error .panic) ∧
    ∀ (ρ : Type) (reader : Reader ρ) (sha256 : List UInt8 → Digest) (verify : Verify) (s : ρ),
      validate .abort reader sha256 partOffset partSize map verify s ≠ .error .panic ∧
        validate .wrap reader sha256 partOffset partSize map verify s =
          validate .abort reader sha256 partOffset partSize map verify s

/-- **No arithmetic overflows exactly in the partitions with room behind them.** -/
theorem noOverflow_iff (partOffset partSize : UInt32)
    (hfit : partOffset.toNat + partSize.toNat < 2 ^ 32) :
    NoOverflow partOffset partSize ↔ Roomy partOffset partSize := by
  constructor
  · intro h
    have hnever : ¬ ∃ mem, Fails (readTable .abort (Reader.ofMemory mem) partOffset partSize
        wideMap) .panic := by
      rintro ⟨mem, hpanic⟩
      have hvalidate := (h wideMap (by decide) (by decide)).2 Unit (Reader.ofMemory mem)
        (fun _ _ => 0) .structural ()
      exact hvalidate.1 (hpanic.bind_left ())
    refine { first := ?_, next := fun hsize => ?_, trailer := fun hsize => ?_ }
    · exact Nat.not_le.mp fun hover => hnever (not_first hfit hover)
    · exact Nat.not_le.mp fun hover => hnever (not_next hfit hsize hover)
    · exact Nat.not_le.mp fun hover => hnever (not_trailer hfit hsize hover)
  · rintro hroom map hpage halias
    refine ⟨fun i seg => ⟨checkSegment_ne_panic hpage halias, (ramTarget_le seg halias).1⟩, ?_⟩
    rintro ρ reader sha256 verify s
    have hne : (validate .abort reader sha256 partOffset partSize map verify).run s ≠
        .error .panic := validate_avoids hpage halias hroom sha256 verify s
    exact ⟨hne, validate_sameUnless .wrap reader sha256 partOffset partSize map verify s hne⟩

theorem noOverflow_iff_tiny : NoOverflow 0 64 :=
  (noOverflow_iff 0 64 (by decide)).mpr
    { first := by decide, next := fun _ => by decide, trailer := fun _ => by decide }

/-- The image of `AtomicOta.Esp.tinyBytes` with a hash, in the last 64 bytes there are. -/
def lastMemory : ℕ → UInt8 := memoryOf 0xFFFFFFC0 (tinyBytes.set 23 1)

/-- **An image that ends behind the last address**: its partition is admitted, and its end is
computed before it is compared with that of the partition. A build that checks the sum panics;
in one that does not the end is address 16, and the image is accepted. -/
theorem overflow_accepted :
    (0xFFFFFFC0 : UInt32).toNat + (0x3F : UInt32).toNat < 2 ^ 32 ∧
      validate .abort (Reader.ofMemory lastMemory) (fun _ _ => 0) 0xFFFFFFC0 0x3F tinyMap
        .structural () = .error .panic ∧
      validate .wrap (Reader.ofMemory lastMemory) (fun _ _ => 0) 0xFFFFFFC0 0x3F tinyMap
          .structural () =
        .ok ({ entry := 32
               segments := [{ load := 32, len := 4, dataOffset := 0xFFFFFFE0 }]
               count := 1
               hashAppended := true
               stop := 16 }, ()) ∧
      ¬ NoOverflow 0xFFFFFFC0 0x3F := by
  have hpanic : validate .abort (Reader.ofMemory lastMemory) (fun _ _ => 0) 0xFFFFFFC0 0x3F
      tinyMap .structural () = .error .panic := by decide
  refine ⟨by decide, hpanic, by decide, fun h => ?_⟩
  exact ((h tinyMap (by decide) (by decide)).2 Unit _ _ _ ()).1 hpanic

end AtomicOta.Esp
