import AtomicOta.Esp.Accept
import AtomicOta.Esp.Build
import AtomicOta.Esp.Layout

/-!
# Validating with room behind the partition

The validator checks one sum of the partition and one of every segment; the other additions
it makes are not checked. They look past the end of what has been checked: at a segment
header behind the last data, and at the trailer behind that. With room for both behind the
partition (`AtomicOta.Esp.Roomy`) none of them overflows, for any contents, any memory map of
a chip, and at any level: `AtomicOta.Esp.validate_avoids`. The walk keeps its cursor in the
partition, and what is added to it fits (`AtomicOta.Esp.readTable_avoids`); everything after
the trailer stays below the end of the image. So where there is room, or a sum that overflows
aborts, the build makes no difference (`AtomicOta.Esp.Overflow.Reckons`).
-/

namespace AtomicOta.Esp

open Fallible

/-- **Room behind a partition**: a segment header at its start and one at its end can be
reached, and so can the trailer of an image that fills it. -/
structure Roomy (partOffset partSize : UInt32) : Prop where
  /-- The first segment header, whether it is in the partition or not. -/
  first : partOffset.toNat + 32 < 2 ^ 32
  /-- A segment header behind data that ends with the partition. -/
  next : 32 ≤ partSize.toNat → partOffset.toNat + partSize.toNat + 8 < 2 ^ 32
  /-- The checksum byte and the hash behind data that ends with the partition. -/
  trailer : 33 ≤ partSize.toNat →
    partOffset.toNat + 16 * (partSize.toNat / 16 + 1) + 32 < 2 ^ 32

/-! ### Arithmetic that fits -/

section Arithmetic

variable {a b : UInt32}

theorem add_ne_panic (h : a.toNat + b.toNat < 2 ^ 32) : add .abort a b ≠ .error .panic := by
  rw [add_of_lt h]
  simp

theorem rem_ne_panic (h : b ≠ 0) : rem a b ≠ .error .panic := by
  rw [rem, if_neg h]
  simp

end Arithmetic

/-! ### The check of a segment -/

variable {map : MemoryMap} {i : ℕ} {seg : Segment} {stop target : UInt32}

/-- The data-bus alias of a segment can be computed, and is not above its address. -/
theorem ramTarget_le (seg : Segment) (halias : map.sramAliasOffset ≤ map.iram.start) :
    seg.ramTarget .abort map ≠ .error .panic ∧
      ∀ target, seg.ramTarget .abort map = .ok (some target) → target.toNat ≤ seg.load.toNat := by
  unfold Segment.ramTarget
  split_ifs with hiram hram
  · have hle := UInt32.le_iff_toNat_le.mp (UInt32.le_trans halias hiram.1)
    have hsub : sub .abort seg.load map.sramAliasOffset = .ok (seg.load - map.sramAliasOffset) :=
      sub_of_le (UInt32.le_iff_toNat_le.mpr hle)
    rw [hsub]
    refine ⟨by simp [Except.map], fun target htarget => ?_⟩
    cases htarget
    rw [toNat_sub_of_le' hle]
    exact Nat.sub_le _ _
  · refine ⟨by simp, fun target htarget => ?_⟩
    cases htarget
    exact le_rfl
  · exact ⟨by simp, fun target htarget => by simp at htarget⟩

theorem checkWindow_ne_panic (h : target.toNat + seg.len.toNat < 2 ^ 32) :
    checkWindow .abort map i seg target ≠ .error .panic := by
  unfold checkWindow
  split_ifs
  · refine bind_ne_error (add_ne_panic h) fun last _ => ?_
    split_ifs <;> simp
  · simp

theorem checkFlash_ne_panic (hpage : map.mmuPage ≠ 0) :
    checkFlash map i seg stop ≠ .error .panic := by
  unfold checkFlash
  split_ifs
  · simp
  · refine bind_ne_error (rem_ne_panic hpage) fun address _ => ?_
    refine bind_ne_error (rem_ne_panic hpage) fun flash _ => ?_
    split_ifs <;> simp

theorem checkRam_ne_panic (halias : map.sramAliasOffset ≤ map.iram.start)
    (hfit : seg.load.toNat + seg.len.toNat < 2 ^ 32) :
    checkRam .abort map i seg stop ≠ .error .panic := by
  unfold checkRam
  cases map.ramRegion seg.load with
  | none => simp
  | some region =>
    dsimp only
    obtain ⟨hne, hle⟩ := ramTarget_le seg halias
    split_ifs
    · simp
    · refine bind_ne_error hne fun place hplace => ?_
      cases place with
      | none => simp
      | some target =>
        have htarget := hle target hplace
        exact checkWindow_ne_panic (by omega)

/-- **The check of a segment does not overflow.** -/
theorem checkSegment_ne_panic (hpage : map.mmuPage ≠ 0)
    (halias : map.sramAliasOffset ≤ map.iram.start) :
    checkSegment .abort map i seg ≠ .error .panic := by
  unfold checkSegment
  cases hsum : checkedAdd seg.load seg.len with
  | none => simp
  | some stop =>
    have hstop := checkedAdd_some hsum
    have hlt := stop.toNat_lt
    dsimp only
    split_ifs
    · exact checkFlash_ne_panic hpage
    · exact checkRam_ne_panic halias (by omega)

/-! ### The header, the walk and the trailer -/

theorem parseHeader_ne_panic {raw : List UInt8} : parseHeader map raw ≠ .error .panic := by
  unfold parseHeader
  split_ifs <;> simp

variable {partOffset partSize partEnd cursor entry : UInt32} {hashAppended : Bool}

theorem Walk.step_ne_panic (hpage : map.mmuPage ≠ 0)
    (halias : map.sramAliasOffset ≤ map.iram.start) {w : Walk} {raw : List UInt8}
    (h : w.cursor.toNat + 8 < 2 ^ 32) :
    Walk.step .abort map partEnd entry i w raw ≠ .error .panic := by
  refine bind_ne_error (add_ne_panic h) fun dataOffset _ => ?_
  dsimp only
  cases checkedAdd dataOffset (wordAt raw 4) with
  | none => simp
  | some dataEnd =>
    dsimp only
    split_ifs
    · simp
    · refine bind_ne_error ?_ fun _ _ => by simp
      unfold admitSegment
      split_ifs
      · exact bind_ne_error (checkSegment_ne_panic hpage halias) fun _ _ => by simp
      · simp

theorem trailer_ne_panic (hle : partOffset.toNat ≤ cursor.toNat)
    (hfit : partOffset.toNat + 16 * ((cursor.toNat - partOffset.toNat) / 16 + 1) + 32 < 2 ^ 32) :
    trailer .abort partOffset partEnd cursor hashAppended ≠ .error .panic := by
  obtain ⟨n, hn⟩ := Nat.exists_eq_add_of_le hle
  rw [hn, Nat.add_sub_cancel_left] at hfit
  rw [eq_ofNat (show partOffset.toNat = partOffset.toNat from rfl), eq_ofNat hn,
    trailer_of_fits _ _ _ (by split_ifs <;> omega)]
  split_ifs <;> simp

/-! ### Reading with room -/

section Reading

variable {ρ : Type} {reader : Reader ρ}

/-- A read fails, but not with a panic. -/
theorem readExact_avoids {offset : UInt32} {n : ℕ} :
    Avoids (readExact reader offset n) .panic := by
  rintro s h
  unfold readExact at h
  split at h <;> cases h

/-- The walk stays where a segment header can be reached. -/
theorem walk_avoids (hpage : map.mmuPage ≠ 0) (halias : map.sramAliasOffset ≤ map.iram.start)
    (hnext : partOffset.toNat + 32 ≤ partEnd.toNat → partEnd.toNat + 8 < 2 ^ 32) (n : ℕ) {w : Walk}
    (hw : partOffset.toNat + 24 ≤ w.cursor.toNat) (hfit : w.cursor.toNat + 8 < 2 ^ 32) :
    Avoids (walk .abort reader map partEnd entry n i w) .panic := by
  induction n generalizing i w with
  | zero => exact Avoids.pure
  | succ n ih =>
    refine Avoids.bind readExact_avoids Ends.trivial fun raw _ => ?_
    refine Avoids.bind (Avoids.lift (Walk.step_ne_panic hpage halias hfit))
      (Ends.lift fun next hstep => hstep) fun next hstep => ?_
    obtain ⟨seg, -, hadd, hcursor, hle, -⟩ := Walk.step_ok hstep
    have hoffset : seg.dataOffset.toNat = w.cursor.toNat + 8 := toNat_of_add_abort hadd
    have hroom := hnext (by omega)
    exact ih (by omega) (by omega)

/-- The walk ends in the partition. -/
theorem walk_le (n : ℕ) {w : Walk} (hw : 1 ≤ n ∨ w.cursor.toNat ≤ partEnd.toNat) :
    Ends (walk .abort reader map partEnd entry n i w)
      fun w' => w'.cursor.toNat ≤ partEnd.toNat := by
  induction n generalizing i w with
  | zero => exact Ends.pure (hw.resolve_left (by omega))
  | succ n ih =>
    refine Ends.bind Ends.trivial fun raw _ => ?_
    refine Ends.bind (Ends.lift fun next hstep => Walk.step_ok hstep) ?_
    rintro next ⟨seg, -, -, -, hle, -⟩
    exact ih (.inr hle)

/-- **Reading the table does not overflow** in a partition with room behind it. -/
theorem readTable_avoids (hpage : map.mmuPage ≠ 0) (halias : map.sramAliasOffset ≤ map.iram.start)
    (hroom : Roomy partOffset partSize) :
    Avoids (readTable .abort reader partOffset partSize map) .panic := by
  unfold readTable
  cases hsum : checkedAdd partOffset partSize with
  | none => exact Avoids.throw (by simp)
  | some partEnd =>
    have hpart := checkedAdd_some hsum
    have hfirst := hroom.first
    have hlen : headerLen.toNat = 24 := rfl
    refine Avoids.bind readExact_avoids Ends.trivial fun raw _ => ?_
    refine Avoids.bind (Avoids.lift parseHeader_ne_panic)
      (Ends.lift fun header hheader => parseHeader_ok hheader) ?_
    rintro header ⟨hpos, -⟩
    refine Avoids.bind (Avoids.lift (add_ne_panic (by omega)))
      (Ends.lift fun cursor hcursor => toNat_of_add_abort hcursor) fun cursor hcursor => ?_
    have hnext : partOffset.toNat + 32 ≤ partEnd.toNat → partEnd.toNat + 8 < 2 ^ 32 := by
      intro hle
      have := hroom.next (by omega)
      omega
    have hw : partOffset.toNat + 24 ≤ cursor.toNat := by omega
    have hfit : cursor.toNat + 8 < 2 ^ 32 := by omega
    refine Avoids.bind (walk_avoids hpage halias hnext header.count hw hfit)
      ((walk_sound header.count (Walk.sound_start hcursor)).and
        (walk_le header.count (.inl hpos))) ?_
    rintro w ⟨⟨hw, -⟩, hle⟩
    split_ifs with hentry
    · exact Avoids.throw (by simp)
    · -- the entry point is in a segment, so there is data behind its header
      obtain ⟨seg, hseg, hloaded, -⟩ := hw.entryOk (by simpa using hentry)
      have hdata := hw.laidOut.mem hseg
      have hlenPos := UInt32.lt_iff_toNat_lt.mp hloaded.1
      have hzero : (0 : UInt32).toNat = 0 := rfl
      have htrailer := hroom.trailer (by omega)
      refine Avoids.bind (Avoids.lift (trailer_ne_panic (by omega) ?_)) Ends.trivial
        fun t _ => Avoids.pure
      have hdiv : (w.cursor.toNat - partOffset.toNat) / 16 ≤ partSize.toNat / 16 :=
        Nat.div_le_div_right (by omega)
      omega

/-- The loop avoids what its body avoids. -/
theorem pieces_avoids {β : Type} {stop : UInt32}
    {body : UInt32 → ℕ → β → StateT ρ (Except Fault) β}
    (hbody : ∀ (pos : UInt32) n acc, pos.toNat + n ≤ stop.toNat → Avoids (body pos n acc) .panic)
    (pos : UInt32) (acc : β) : Avoids (pieces .abort stop body pos acc) .panic := by
  induction pos using (piece_induction stop) generalizing acc with
  | done pos hlt =>
    rw [pieces_of_not_lt hlt]
    exact Avoids.pure
  | next pos hlt ih =>
    have hle := (UInt32.lt_iff_toNat_lt.mp hlt).le
    rw [pieces_of_lt hlt]
    exact Avoids.bind (hbody pos _ acc (by omega)) Ends.trivial fun acc' _ => ih acc'

theorem xorSegments_avoids (segs : List Segment)
    (hfit : ∀ seg ∈ segs, seg.dataOffset.toNat + seg.len.toNat < 2 ^ 32) (xor : UInt8) :
    Avoids (segs.foldlM (xorSegment .abort reader) xor) .panic := by
  induction segs generalizing xor with
  | nil => exact Avoids.pure
  | cons seg segs ih =>
    have hseg := hfit seg List.mem_cons_self
    rw [List.foldlM_cons]
    refine Avoids.bind ?_ Ends.trivial fun x _ => ih (fun t ht => hfit t (.tail _ ht)) x
    refine pieces_avoids (fun done n x hdone => ?_) 0 xor
    refine Avoids.bind (Avoids.lift (add_ne_panic (by omega))) Ends.trivial fun offset _ => ?_
    exact Avoids.bind readExact_avoids Ends.trivial fun buf _ => Avoids.pure

theorem verifyChecksum_avoids {t : Table} (ht : t.Placed partOffset partSize) (verify : Verify) :
    Avoids (verifyChecksum .abort reader verify t.image.segments t.checksumAt) .panic := by
  unfold verifyChecksum
  split_ifs
  · exact Avoids.pure
  · refine Avoids.bind readExact_avoids Ends.trivial fun expected _ => ?_
    refine Avoids.bind (xorSegments_avoids _ ht.fits _) Ends.trivial fun xor _ => ?_
    split_ifs
    · exact Avoids.throw (by simp)
    · exact Avoids.pure

theorem verifyHash_avoids {t : Table} (ht : t.Placed partOffset partSize)
    (sha256 : List UInt8 → Digest) (verify : Verify) :
    Avoids (verifyHash .abort reader sha256 verify t.image.hashAppended partOffset t.checksumAt)
      .panic := by
  unfold verifyHash
  split_ifs
  · exact Avoids.pure
  · exact Avoids.throw (by simp)
  · refine Avoids.bind (Avoids.lift (add_ne_panic ht.checked_lt)) Ends.trivial fun checked _ => ?_
    refine Avoids.bind (pieces_avoids (fun _ _ _ _ => ?_) partOffset []) Ends.trivial
      fun absorbed _ => ?_
    · exact Avoids.bind readExact_avoids Ends.trivial fun buf _ => Avoids.pure
    · refine Avoids.bind readExact_avoids Ends.trivial fun stored _ => ?_
      split_ifs
      · exact Avoids.throw (by simp)
      · exact Avoids.pure

/-- **No validation overflows** in a partition with room behind it. -/
theorem validate_avoids (hpage : map.mmuPage ≠ 0) (halias : map.sramAliasOffset ≤ map.iram.start)
    (hroom : Roomy partOffset partSize) (sha256 : List UInt8 → Digest) (verify : Verify) :
    Avoids (validate .abort reader sha256 partOffset partSize map verify) .panic := by
  refine Avoids.bind (readTable_avoids hpage halias hroom) readTable_placed fun t ht => ?_
  refine Avoids.bind (verifyChecksum_avoids ht verify) Ends.trivial fun _ _ => ?_
  exact Avoids.bind (verifyHash_avoids ht sha256 verify) Ends.trivial fun _ _ => Avoids.pure

/-- **A build that reckons right** on a partition: it aborts where a sum overflows, or there is
room enough that none does. -/
def Overflow.Reckons (o : Overflow) (map : MemoryMap) (partOffset partSize : UInt32) : Prop :=
  o = .abort ∨
    (map.mmuPage ≠ 0 ∧ map.sramAliasOffset ≤ map.iram.start ∧ Roomy partOffset partSize)

/-- It validates as the build does that aborts. -/
theorem Overflow.Reckons.validate_eq {o : Overflow} (h : o.Reckons map partOffset partSize)
    (reader : Reader ρ) (sha256 : List UInt8 → Digest) (verify : Verify) :
    validate o reader sha256 partOffset partSize map verify =
      validate .abort reader sha256 partOffset partSize map verify := by
  funext s
  rcases h with rfl | ⟨hpage, halias, hroom⟩
  · rfl
  · exact validate_sameUnless o reader sha256 partOffset partSize map verify s
      (validate_avoids hpage halias hroom sha256 verify s)

end Reading

end AtomicOta.Esp
