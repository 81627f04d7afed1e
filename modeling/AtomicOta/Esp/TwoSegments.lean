import AtomicOta.Esp.Levels
import AtomicOta.Esp.Overflow

/-!
# Images of two segments

What a build in which sums wrap around makes of the headers in a memory, without asking that
anything fit. `AtomicOta.Esp.TwoSegments` is an image of two segments, with where these end,
and what has to be so that its table is read (`AtomicOta.Esp.TwoSegments.table_succeeds`); it
is used where sums have wrapped around, so that the second segment may be in front of the
first.
-/

namespace AtomicOta.Esp

open Fallible

variable {map : MemoryMap} {partOffset partSize partEnd cursor entry : UInt32} {i : ℕ}
variable {hashAppended : Bool} {mem : ℕ → UInt8}

/-! ### A build that wraps around -/

theorem add_wrap (a b : UInt32) : add .wrap a b = .ok (a + b) := by
  unfold add
  cases h : checkedAdd a b with
  | none => rfl
  | some c => simp [eq_of_checkedAdd h]

theorem sub_wrap (a b : UInt32) : sub .wrap a b = .ok (a - b) := rfl

/-- The eight bytes of a segment header. -/
def Segment.header (seg : Segment) : List UInt8 := toLeBytes seg.load ++ toLeBytes seg.len

/-- What the walk does past a segment header, wherever that leads. -/
theorem Walk.step_wrap_eq {w : Walk} {seg : Segment} {next : UInt32}
    (hoffset : seg.dataOffset = w.cursor + segmentHeaderLen)
    (hnext : next.toNat = seg.dataOffset.toNat + seg.len.toNat)
    (hle : next.toNat ≤ partEnd.toNat) :
    Walk.step .wrap map partEnd entry i w seg.header =
      (do
        let entryOk ← admitSegment .wrap map entry i w.entryOk seg
        .ok { segments := w.segments ++ [seg], cursor := next, entryOk }) := by
  have hload : wordAt seg.header 0 = seg.load := fromLeBytes_toUInt8 seg.load
  have hlen : wordAt seg.header 4 = seg.len := fromLeBytes_toUInt8 seg.len
  have hlt := next.toNat_lt
  have hsum : checkedAdd seg.dataOffset seg.len = some next := by
    rw [checkedAdd_of_lt (by omega), ← UInt32.toNat_inj.mp
      (hnext.trans (toNat_add_of_lt (show _ < 2 ^ 32 by omega)).symm)]
  have hin : ¬ partEnd < next := by
    rw [UInt32.lt_iff_toNat_lt]
    omega
  unfold Walk.step
  rw [add_wrap, ← hoffset, hload, hlen]
  simp only [bind, Except.bind, hsum, if_neg hin]

theorem Walk.step_wrap {w : Walk} {seg : Segment} {next : UInt32}
    (hoffset : seg.dataOffset = w.cursor + segmentHeaderLen)
    (hnext : next.toNat = seg.dataOffset.toNat + seg.len.toNat)
    (hle : next.toNat ≤ partEnd.toNat) (hlegal : seg.Loaded → seg.Legal .wrap map) :
    Walk.step .wrap map partEnd entry i w seg.header =
      .ok { segments := w.segments ++ [seg]
            cursor := next
            entryOk := w.entryOk || decide (seg.Loaded ∧ seg.Runs map entry) } := by
  rw [Walk.step_wrap_eq hoffset hnext hle, admitSegment_of_legal w.entryOk hlegal]
  rfl

theorem Walk.step_wrap_error {w : Walk} {seg : Segment} {next : UInt32} {e : Fault}
    (hoffset : seg.dataOffset = w.cursor + segmentHeaderLen)
    (hnext : next.toNat = seg.dataOffset.toNat + seg.len.toNat)
    (hle : next.toNat ≤ partEnd.toNat) (hloaded : seg.Loaded)
    (hcheck : checkSegment .wrap map i seg = .error e) :
    Walk.step .wrap map partEnd entry i w seg.header = .error e := by
  rw [Walk.step_wrap_eq hoffset hnext hle, admitSegment, if_pos hloaded, hcheck]
  rfl

/-- The trailer behind `used` bytes of an image. -/
theorem trailer_wrap (used : UInt32)
    (hle : ¬ partEnd < partOffset + used + (15 - used % 16) + 1 +
      if hashAppended then hashLen else 0) :
    trailer .wrap partOffset partEnd (partOffset + used) hashAppended =
      .ok { checksumAt := partOffset + used + (15 - used % 16)
            stop := partOffset + used + (15 - used % 16) + 1 +
              if hashAppended then hashLen else 0 } := by
  have hrel : partOffset + used - partOffset = used := by
    rw [UInt32.add_comm, UInt32.add_sub_cancel]
  unfold trailer
  simp only [bind, Except.bind, add_wrap, sub_wrap, hrel, if_neg hle]

/-! ### Reading from a memory -/

/-- One turn of the walk, on a memory. -/
theorem walk_succ_succeeds {w next : Walk} {seg : Segment} {n : ℕ} {P : Walk → Prop}
    (hread : window mem w.cursor.toNat 8 = seg.header)
    (hstep : Walk.step .wrap map partEnd entry i w seg.header = .ok next)
    (hrest : Succeeds (walk .wrap (Reader.ofMemory mem) map partEnd entry n (i + 1) next) P) :
    Succeeds (walk .wrap (Reader.ofMemory mem) map partEnd entry (n + 1) i w) P := by
  refine Succeeds.bind ((Reader.ofMemory_holds mem).readExact_succeeds True.intro) ?_
  rintro raw rfl
  have hraw : window mem w.cursor.toNat segmentHeaderLen.toNat = seg.header := hread
  rw [hraw]
  refine Succeeds.bind (Succeeds.lift (P := (· = _)) hstep rfl) ?_
  rintro _ rfl
  exact hrest

/-- The segment table, on a memory. -/
theorem readTable_succeeds {header : Header} {w : Walk} {t : Trailer}
    (hfit : partOffset.toNat + partSize.toNat < 2 ^ 32)
    (hheader : parseHeader map (window mem partOffset.toNat 24) = .ok header)
    (hwalk : Succeeds (walk .wrap (Reader.ofMemory mem) map (partOffset + partSize) header.entry
      header.count 0 { segments := [], cursor := partOffset + headerLen, entryOk := false })
      (· = w))
    (hentry : w.entryOk = true)
    (ht : trailer .wrap partOffset (partOffset + partSize) w.cursor header.hashAppended = .ok t) :
    Succeeds (readTable .wrap (Reader.ofMemory mem) partOffset partSize map) (· =
      { image := { entry := header.entry, segments := w.segments, count := header.count,
                   hashAppended := header.hashAppended, stop := t.stop },
        checksumAt := t.checksumAt }) := by
  unfold readTable
  rw [checkedAdd_of_lt hfit]
  refine Succeeds.bind ((Reader.ofMemory_holds mem).readExact_succeeds True.intro) ?_
  rintro raw rfl
  refine Succeeds.bind (Succeeds.lift (P := (· = _)) hheader rfl) ?_
  rintro _ rfl
  refine Succeeds.bind (Succeeds.lift (P := (· = _)) (add_wrap _ _) rfl) ?_
  rintro _ rfl
  refine Succeeds.bind hwalk ?_
  rintro _ rfl
  rw [if_neg (by simpa using hentry)]
  refine Succeeds.bind (Succeeds.lift (P := (· = _)) ht rfl) ?_
  rintro _ rfl
  exact Succeeds.pure rfl

/-- A header that is refused. -/
theorem readTable_header_fails {e : Fault} (hfit : partOffset.toNat + partSize.toNat < 2 ^ 32)
    (hheader : parseHeader map (window mem partOffset.toNat 24) = .error e) :
    Fails (readTable .wrap (Reader.ofMemory mem) partOffset partSize map) e := by
  unfold readTable
  rw [checkedAdd_of_lt hfit]
  refine Fails.bind ((Reader.ofMemory_holds mem).readExact_succeeds True.intro) ?_
  rintro raw rfl
  exact (Fails.lift hheader).bind_left

/-- A first segment that is refused. -/
theorem readTable_first_fails {header : Header} {e : Fault} {n : ℕ}
    (hfit : partOffset.toNat + partSize.toNat < 2 ^ 32)
    (hheader : parseHeader map (window mem partOffset.toNat 24) = .ok header)
    (hcount : header.count = n + 1)
    (hstep : Walk.step .wrap map (partOffset + partSize) header.entry 0
      { segments := [], cursor := partOffset + headerLen, entryOk := false }
      (window mem (partOffset + headerLen).toNat 8) = .error e) :
    Fails (readTable .wrap (Reader.ofMemory mem) partOffset partSize map) e := by
  unfold readTable
  rw [checkedAdd_of_lt hfit]
  refine Fails.bind ((Reader.ofMemory_holds mem).readExact_succeeds True.intro) ?_
  rintro raw rfl
  refine Fails.bind (Succeeds.lift (P := (· = _)) hheader rfl) ?_
  rintro _ rfl
  refine Fails.bind (Succeeds.lift (P := (· = _)) (add_wrap _ _) rfl) ?_
  rintro _ rfl
  rw [hcount]
  refine Fails.bind_left (Fails.bind
    ((Reader.ofMemory_holds mem).readExact_succeeds True.intro) ?_)
  rintro raw rfl
  exact (Fails.lift hstep).bind_left

/-! ### Images of two segments -/

/-- The header of an image of two segments for `AtomicOta.Esp.wideMap`. -/
def twoHeader (entry : UInt32) (hashByte : UInt8) : List UInt8 :=
  [imageMagic, 2, 0, 0] ++ toLeBytes entry ++ List.replicate 15 0 ++ [hashByte]

/-- **An image of two segments**, with sums that may have wrapped around: the first segment
ends at `next`, and the second one `used` bytes behind the start of the image. -/
structure TwoSegments (mem : ℕ → UInt8) (partOffset partSize : UInt32) (first second : Segment)
    (next used entry : UInt32) (hashByte : UInt8) : Prop where
  fit : partOffset.toNat + partSize.toNat < 2 ^ 32
  header : window mem partOffset.toNat 24 = twoHeader entry hashByte
  firstHeader : window mem (partOffset + headerLen).toNat 8 = first.header
  secondHeader : window mem next.toNat 8 = second.header
  firstOffset : first.dataOffset = partOffset + headerLen + segmentHeaderLen
  secondOffset : second.dataOffset = next + segmentHeaderLen
  firstEnd : next.toNat = first.dataOffset.toNat + first.len.toNat
  secondEnd : (partOffset + used).toNat = second.dataOffset.toNat + second.len.toNat
  firstIn : next.toNat ≤ partOffset.toNat + partSize.toNat
  secondIn : (partOffset + used).toNat ≤ partOffset.toNat + partSize.toNat
  firstLegal : first.Loaded → first.Legal .wrap wideMap
  secondLegal : second.Loaded → second.Legal .wrap wideMap
  runs : first.Loaded ∧ first.Runs wideMap entry ∨ second.Loaded ∧ second.Runs wideMap entry
  stop : (partOffset + used + (15 - used % 16) + 1 +
    if hashByte == 1 then hashLen else 0).toNat ≤ partOffset.toNat + partSize.toNat
  /-- The second data is before the first, unless that is empty. -/
  disjoint : (partOffset + used).toNat ≤ first.dataOffset.toNat ∨ first.len.toNat = 0

/-- Its table. -/
def twoTable (partOffset : UInt32) (first second : Segment) (used entry : UInt32)
    (hashByte : UInt8) : Table :=
  { image := { entry, segments := [first, second], count := 2, hashAppended := hashByte == 1,
               stop := partOffset + used + (15 - used % 16) + 1 +
                 if hashByte == 1 then hashLen else 0 }
    checksumAt := partOffset + used + (15 - used % 16) }

theorem parseHeader_two (entry : UInt32) (hashByte : UInt8) :
    parseHeader wideMap (twoHeader entry hashByte) =
      .ok { entry, count := 2, hashAppended := hashByte == 1 } := by
  have hmagic : byteAt (twoHeader entry hashByte) 0 = imageMagic := rfl
  have hcount : byteAt (twoHeader entry hashByte) 1 = 2 := rfl
  have hlow : byteAt (twoHeader entry hashByte) 12 = 0 := rfl
  have hhigh : byteAt (twoHeader entry hashByte) 13 = 0 := rfl
  have hentry : wordAt (twoHeader entry hashByte) 4 = entry := fromLeBytes_toUInt8 entry
  unfold parseHeader
  rw [hmagic, hcount, hlow, hhigh, hentry, if_neg (by simp), if_neg (by decide), if_neg (by decide)]
  rfl

namespace TwoSegments

variable {first second : Segment} {next used : UInt32} {hashByte : UInt8}
variable (h : TwoSegments mem partOffset partSize first second next used entry hashByte)

include h

theorem table_succeeds :
    Succeeds (readTable .wrap (Reader.ofMemory mem) partOffset partSize wideMap)
      (· = twoTable partOffset first second used entry hashByte) := by
  have hend := toNat_add_of_lt h.fit
  refine readTable_succeeds h.fit ((congrArg _ h.header).trans (parseHeader_two _ _))
    (w := { segments := [first, second], cursor := partOffset + used,
            entryOk := false || decide (first.Loaded ∧ first.Runs wideMap entry) ||
              decide (second.Loaded ∧ second.Runs wideMap entry) })
    (t := { checksumAt := partOffset + used + (15 - used % 16)
            stop := partOffset + used + (15 - used % 16) + 1 +
              if hashByte == 1 then hashLen else 0 }) ?_ ?_ ?_
  · refine walk_succ_succeeds h.firstHeader (Walk.step_wrap h.firstOffset h.firstEnd
      (h.firstIn.trans hend.ge) h.firstLegal) ?_
    refine walk_succ_succeeds h.secondHeader (Walk.step_wrap h.secondOffset h.secondEnd
      (h.secondIn.trans hend.ge) h.secondLegal) ?_
    exact Succeeds.pure rfl
  · rcases h.runs with hruns | hruns <;> simp [hruns]
  · refine trailer_wrap used ?_
    rw [UInt32.lt_iff_toNat_lt]
    exact Nat.not_lt.mpr (h.stop.trans hend.ge)

theorem mem_dataAddresses {a : ℕ} :
    a ∈ dataAddresses (twoTable partOffset first second used entry hashByte).image.segments ↔
      first.dataOffset.toNat ≤ a ∧ a < next.toNat ∨
        second.dataOffset.toNat ≤ a ∧ a < (partOffset + used).toNat := by
  rw [h.firstEnd, h.secondEnd]
  simp [twoTable, Esp.mem_dataAddresses]

theorem nodup : (dataAddresses
    (twoTable partOffset first second used entry hashByte).image.segments).Nodup := by
  have hnil : dataAddresses [] = [] := rfl
  have hend := h.secondEnd
  have hdisjoint := h.disjoint
  rw [twoTable, dataAddresses_cons, dataAddresses_cons, hnil, List.append_nil]
  refine (List.nodup_range' 1).append (List.nodup_range' 1) fun a ha hb => ?_
  obtain ⟨hlo, hhi⟩ := List.mem_range'_1.mp ha
  obtain ⟨hlo', hhi'⟩ := List.mem_range'_1.mp hb
  omega

theorem fits : ∀ seg ∈ (twoTable partOffset first second used entry hashByte).image.segments,
    seg.dataOffset.toNat + seg.len.toNat < 2 ^ 32 := by
  have hfirst := h.firstEnd
  have hsecond := h.secondEnd
  have hlt := next.toNat_lt
  have hlt' := (partOffset + used).toNat_lt
  simp only [twoTable, List.mem_cons, List.not_mem_nil, or_false]
  rintro seg (rfl | rfl)
  · omega
  · omega

/-- The image in a memory that has the same bytes where the headers are. -/
theorem congr {mem' : ℕ → UInt8}
    (hheader : window mem' partOffset.toNat 24 = window mem partOffset.toNat 24)
    (hfirst : window mem' (partOffset + headerLen).toNat 8 =
      window mem (partOffset + headerLen).toNat 8)
    (hsecond : window mem' next.toNat 8 = window mem next.toNat 8) :
    TwoSegments mem' partOffset partSize first second next used entry hashByte :=
  { h with
    header := hheader.trans h.header
    firstHeader := hfirst.trans h.firstHeader
    secondHeader := hsecond.trans h.secondHeader }

/-- A header with another byte in it. -/
theorem damaged_header {mem' : ℕ → UInt8} {f a : ℕ} {x : UInt8}
    (hmem : ∀ b, b ≠ f → mem' b = Function.update mem a x b)
    (hf : f < partOffset.toNat ∨ partOffset.toNat + 24 ≤ f) (ha : partOffset.toNat ≤ a) :
    window mem' partOffset.toNat 24 = (twoHeader entry hashByte).set (a - partOffset.toNat) x := by
  rw [window_congr fun b hlo hhi => hmem b (by omega), window_update _ _ ha, h.header]

end TwoSegments

end AtomicOta.Esp
