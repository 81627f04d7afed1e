import AtomicOta.Esp.Levels

/-!
# The data apart from everything else

Which bytes of an image are data and which are looked at otherwise. Where every sum of the
walk fits, the headers, the data and the checksum byte of an accepted image are apart, each
byte of the data being that of one segment only: `AtomicOta.Esp.Table.Walked.apart`.

Sums that do not fit are not the end of it in a build that wraps around, but there the cursor
starts over at the first address, with headers it has passed still in front of it. Exactly when
this cannot happen is a condition on the partition, `AtomicOta.Esp.Separate`. The trailer is
not concerned: where its sums wrap around, the checksum byte is in front of all data.
-/

namespace AtomicOta.Esp

open Fallible

/-! ### Data addresses -/

namespace LaidOut

variable {segs : List Segment} {start stop : ℕ}

theorem mem_Ico (h : LaidOut start segs stop) {a : ℕ} (ha : a ∈ dataAddresses segs) :
    start + 8 ≤ a ∧ a < stop := by
  obtain ⟨seg, hseg, hlo, hhi⟩ := mem_dataAddresses.mp ha
  obtain ⟨hstart, hstop⟩ := h.mem hseg
  exact ⟨by omega, by omega⟩

/-- The eight bytes before the data of a segment are no data. -/
theorem header_notMem (h : LaidOut start segs stop) {seg : Segment} (hseg : seg ∈ segs) {a : ℕ}
    (hlo : seg.dataOffset.toNat ≤ a + 8) (hhi : a < seg.dataOffset.toNat) :
    a ∉ dataAddresses segs := by
  induction segs generalizing start with
  | nil => cases hseg
  | cons first segs ih =>
    obtain ⟨hfirst, hrest⟩ := h
    rw [dataAddresses_cons, List.mem_append, List.mem_range'_1]
    rintro (⟨hfrom, hto⟩ | hlater)
    · rcases List.mem_cons.mp hseg with rfl | hmem
      · omega
      · obtain ⟨hstart, -⟩ := hrest.mem hmem
        omega
    · obtain ⟨hstart, -⟩ := hrest.mem_Ico hlater
      rcases List.mem_cons.mp hseg with rfl | hmem
      · omega
      · exact ih hrest hmem hlater

/-- No byte is the data of two segments. -/
theorem nodup (h : LaidOut start segs stop) : (dataAddresses segs).Nodup := by
  induction segs generalizing start with
  | nil => exact List.nodup_nil
  | cons first segs ih =>
    obtain ⟨-, hrest⟩ := h
    rw [dataAddresses_cons]
    refine (List.nodup_range' 1).append (ih hrest) fun a hfirst hlater => ?_
    have hto := (List.mem_range'_1.mp hfirst).2
    obtain ⟨hstart, -⟩ := hrest.mem_Ico hlater
    omega

end LaidOut

/-! ### The walk, in every build -/

/-- **The walk does not start over** in this partition: where anything can be in it, the first
segment header can be reached, and so can one at its end. -/
structure Separate (partOffset partSize : UInt32) : Prop where
  first : 0 < partSize.toNat → partOffset.toNat + 32 < 2 ^ 32
  next : partSize.toNat = 0 ∨ 32 ≤ partSize.toNat →
    partOffset.toNat + partSize.toNat + 8 < 2 ^ 32

variable {ρ : Type} {o : Overflow} {reader : Reader ρ} {map : MemoryMap}
variable {partOffset partSize partEnd entry : UInt32} {i : ℕ}

/-- A sum that overflow aborts, or that fits. -/
theorem toNat_of_add {a b c : UInt32} (h : add o a b = .ok c)
    (hfit : o = .abort ∨ a.toNat + b.toNat < 2 ^ 32) : c.toNat = a.toNat + b.toNat := by
  rcases hfit with rfl | hlt
  · exact toNat_of_add_abort h
  · rw [add_ok h, toNat_add_of_lt hlt]

/-- The segments behind the first are laid out, where every sum fits. -/
theorem walk_laidOut (hfit : o = .abort ∨ partEnd.toNat + 8 < 2 ^ 32) (n : ℕ) {w : Walk}
    (hw : w.cursor.toNat ≤ partEnd.toNat) :
    Ends (walk o reader map partEnd entry n i w) fun w' =>
      w'.cursor.toNat ≤ partEnd.toNat ∧
        ∃ rest, w'.segments = w.segments ++ rest ∧
          LaidOut w.cursor.toNat rest w'.cursor.toNat := by
  induction n generalizing i w with
  | zero => exact Ends.pure ⟨hw, [], by simp, rfl⟩
  | succ n ih =>
    refine Ends.bind Ends.trivial fun raw _ => ?_
    refine Ends.bind (Ends.lift fun next hstep => Walk.step_ok hstep) ?_
    rintro next ⟨seg, hsegs, hadd, hcursor, hle, -⟩
    have hlen : segmentHeaderLen.toNat = 8 := rfl
    have hoffset := toNat_of_add hadd (hfit.imp_right fun hlt => by omega)
    refine (ih hle).mono ?_
    rintro w' ⟨hle', rest, hrest, hlaid⟩
    refine ⟨hle', seg :: rest, ?_, hoffset, hcursor ▸ hlaid⟩
    rw [hrest, hsegs, List.append_assoc, List.singleton_append]

/-- Where the checksum byte is, in every build: at most 15 bytes behind the data, or in front
of address 15. -/
theorem trailer_checksumAt {cursor : UInt32} {hashAppended : Bool} {t : Trailer}
    (h : trailer o partOffset partEnd cursor hashAppended = .ok t) :
    cursor.toNat ≤ t.checksumAt.toNat ∨
      t.checksumAt.toNat < 15 ∧ t.checksumAt.toNat + 2 ^ 32 ≤ cursor.toNat + 15 := by
  obtain ⟨rel, used, padding, -, hrel, hused, hpadding, hat, -⟩ := trailer_ok h
  have hback : used = cursor := by
    rw [add_ok hused, sub_ok hrel, UInt32.add_comm, UInt32.sub_add_cancel]
  have hmod : (rel % 16).toNat = rel.toNat % 16 := UInt32.toNat_mod ..
  have hfifteen : (15 : UInt32).toNat = 15 := rfl
  have hpad : padding.toNat ≤ 15 := by
    rw [sub_ok hpadding, toNat_sub_of_le' (by omega)]
    exact Nat.sub_le _ _
  have hsum : t.checksumAt.toNat = (cursor.toNat + padding.toNat) % 2 ^ 32 := by
    rw [add_ok hat, hback, UInt32.toNat_add]
  have hlt := cursor.toNat_lt
  simp only [show (2 : ℕ) ^ 32 = 4294967296 from rfl] at hsum hlt ⊢
  omega

/-- **Everything else is apart from the data.** -/
structure Table.Apart (partOffset : UInt32) (t : Table) : Prop where
  header : ∀ a, partOffset.toNat ≤ a → a < partOffset.toNat + 24 →
    a ∉ dataAddresses t.image.segments
  headers : ∀ seg ∈ t.image.segments, ∀ a, (seg.dataOffset - segmentHeaderLen).toNat ≤ a →
    a < (seg.dataOffset - segmentHeaderLen).toNat + 8 → a ∉ dataAddresses t.image.segments
  checksum : t.checksumAt.toNat ∉ dataAddresses t.image.segments
  nodup : (dataAddresses t.image.segments).Nodup
  fits : ∀ seg ∈ t.image.segments, seg.dataOffset.toNat + seg.len.toNat < 2 ^ 32

/-- What the walk leaves behind in a partition in which it does not start over. The first
data is 32 bytes behind the start of the partition, which may be at a low address if the
partition is empty; all other data follows it. -/
structure Table.Walked (partOffset partSize : UInt32) (t : Table) (first : Segment)
    (rest : List Segment) (cursor : ℕ) : Prop where
  segments : t.image.segments = first :: rest
  dataOffset : first.dataOffset = partOffset + 32
  laidOut : LaidOut (first.dataOffset.toNat + first.len.toNat) rest cursor
  le : cursor ≤ partOffset.toNat + partSize.toNat
  lt : cursor < 2 ^ 32
  wraps : partOffset.toNat + 32 < 2 ^ 32 ∨
    partSize.toNat = 0 ∧ partOffset.toNat + 8 < 2 ^ 32
  checksumAt : cursor ≤ t.checksumAt.toNat ∨
    t.checksumAt.toNat < 15 ∧ t.checksumAt.toNat + 2 ^ 32 ≤ cursor + 15

/-- The walk by its first turn, which need not fit in a partition that is empty. -/
theorem walk_first (hsafe : o = .abort ∨ Separate partOffset partSize)
    (hend : partEnd.toNat = partOffset.toNat + partSize.toNat) {cursor : UInt32}
    (hcursor : add o partOffset headerLen = .ok cursor) (n : ℕ) :
    Ends (walk o reader map partEnd entry (n + 1) i { segments := [], cursor, entryOk := false })
      fun w => ∃ first rest, w.segments = first :: rest ∧
        add o cursor segmentHeaderLen = .ok first.dataOffset ∧
        LaidOut (first.dataOffset.toNat + first.len.toNat) rest w.cursor.toNat ∧
        w.cursor.toNat ≤ partEnd.toNat := by
  have hendlt := partEnd.toNat_lt
  have hlen : headerLen.toNat = 24 := rfl
  have hlen' : segmentHeaderLen.toNat = 8 := rfl
  refine Ends.bind Ends.trivial fun raw _ => ?_
  refine Ends.bind (Ends.lift fun next hstep => Walk.step_ok hstep) ?_
  rintro next ⟨first, hsegs, hadd, hnext, hle, -⟩
  replace hadd : add o cursor segmentHeaderLen = .ok first.dataOffset := hadd
  have hroom : o = .abort ∨ partEnd.toNat + 8 < 2 ^ 32 := by
    refine hsafe.imp_right fun hsep => ?_
    by_cases hsize : partSize.toNat = 0 ∨ 32 ≤ partSize.toNat
    · have := hsep.next hsize
      omega
    · have hfirst := hsep.first (by omega)
      have hat := toNat_of_add hcursor (.inr (by omega))
      have hoffset := toNat_of_add hadd (.inr (by omega))
      omega
  refine (walk_laidOut hroom n hle).mono ?_
  rintro w ⟨hle', rest, hrest, hlaid⟩
  refine ⟨first, rest, ?_, hadd, hnext ▸ hlaid, hle'⟩
  rw [hrest, hsegs, List.nil_append, List.singleton_append]

theorem readTable_walked (hsafe : o = .abort ∨ Separate partOffset partSize) :
    Ends (readTable o reader partOffset partSize map)
      fun t => ∃ first rest cursor, t.Walked partOffset partSize first rest cursor := by
  unfold readTable
  cases hsum : checkedAdd partOffset partSize with
  | none => exact Ends.throw
  | some partEnd =>
    have hend := checkedAdd_some hsum
    have hlen : headerLen.toNat = 24 := rfl
    have hlen' : segmentHeaderLen.toNat = 8 := rfl
    refine Ends.bind Ends.trivial fun raw _ => ?_
    refine Ends.bind (Ends.lift fun header hheader => parseHeader_ok hheader) ?_
    rintro header ⟨hpos, -⟩
    refine Ends.bind (Ends.lift fun cursor hcursor => hcursor) fun cursor hcursor => ?_
    obtain ⟨n, hn⟩ := Nat.exists_eq_add_of_le' hpos
    rw [hn]
    refine Ends.bind (walk_first hsafe hend hcursor n) ?_
    rintro w ⟨first, rest, hsegs, hadd, hlaid, hle⟩
    split_ifs
    · exact Ends.throw
    · refine Ends.bind (Ends.lift fun t ht => trailer_checksumAt ht) fun t ht => Ends.pure ?_
      have hlt := w.cursor.toNat_lt
      refine ⟨first, rest, w.cursor.toNat, hsegs, ?_, hlaid, hend ▸ hle, hlt, ?_, ht⟩
      · rw [add_ok hadd, add_ok hcursor, UInt32.add_assoc]
        rfl
      · rcases hsafe with rfl | hsep
        · have hat := toNat_of_add_abort hcursor
          have hoffset := toNat_of_add_abort hadd
          have hlt := first.dataOffset.toNat_lt
          exact .inl (by omega)
        · by_cases hsize : partSize.toNat = 0
          · have := hsep.next (.inl hsize)
            exact .inr ⟨hsize, by omega⟩
          · exact .inl (hsep.first (by omega))

namespace Table.Walked

variable {t : Table} {first : Segment} {rest : List Segment} {cursor : ℕ}
variable (h : t.Walked partOffset partSize first rest cursor)

include h

/-- The data begins with the first segment, and ends at the cursor. -/
theorem mem_Ico {a : ℕ} (ha : a ∈ dataAddresses t.image.segments) :
    (partOffset.toNat + 32) % 2 ^ 32 ≤ a ∧ a < cursor := by
  have hoffset : first.dataOffset.toNat = (partOffset.toNat + 32) % 2 ^ 32 := by
    rw [h.dataOffset, UInt32.toNat_add]
    rfl
  have hle := h.laidOut.le
  rw [h.segments, dataAddresses_cons, List.mem_append, List.mem_range'_1] at ha
  rcases ha with ⟨hlo, hhi⟩ | hrest
  · exact ⟨by omega, by omega⟩
  · obtain ⟨hlo, hhi⟩ := h.laidOut.mem_Ico hrest
    exact ⟨by omega, hhi⟩

theorem apart : t.Apart partOffset where
  header a hlo hhi ha := by
    obtain ⟨hfrom, hto⟩ := h.mem_Ico ha
    have hle := h.le
    rcases h.wraps with hlt | ⟨hsize, -⟩
    · rw [Nat.mod_eq_of_lt hlt] at hfrom
      omega
    · omega
  headers seg hseg a hlo hhi ha := by
    obtain ⟨hfrom, hto⟩ := h.mem_Ico ha
    rw [h.segments] at hseg ha
    rcases List.mem_cons.mp hseg with rfl | hmem
    · -- the first header is right before the first data, or behind the empty partition
      have hsplit : partOffset + 32 = partOffset + 24 + segmentHeaderLen :=
        (UInt32.add_assoc partOffset 24 8).symm
      have hheader : (seg.dataOffset - segmentHeaderLen).toNat =
          (partOffset.toNat + 24) % 2 ^ 32 := by
        rw [h.dataOffset, hsplit, UInt32.add_sub_cancel, UInt32.toNat_add]
        rfl
      have hle := h.le
      have hwraps := h.wraps
      omega
    · obtain ⟨hstart, hheader⟩ := h.laidOut.header hmem
      rw [dataAddresses_cons, List.mem_append, List.mem_range'_1] at ha
      rcases ha with ⟨-, hbefore⟩ | hrest
      · omega
      · exact h.laidOut.header_notMem hmem (by omega) (by omega) hrest
  checksum ha := by
    obtain ⟨hfrom, hto⟩ := h.mem_Ico ha
    have hle := h.le
    have hlt := partOffset.toNat_lt
    have hwraps := h.wraps
    have hat := h.checksumAt
    omega
  nodup := by
    rw [h.segments, dataAddresses_cons]
    refine (List.nodup_range' 1).append h.laidOut.nodup fun a hfirst hlater => ?_
    have hto := (List.mem_range'_1.mp hfirst).2
    obtain ⟨hstart, -⟩ := h.laidOut.mem_Ico hlater
    omega
  fits seg hseg := by
    have hle := h.laidOut.le
    have hlt := h.lt
    rw [h.segments] at hseg
    rcases List.mem_cons.mp hseg with rfl | hmem
    · omega
    · have hto := (h.laidOut.mem hmem).2
      omega

end Table.Walked

end AtomicOta.Esp
