import AtomicOta.Esp.Apart

/-!
# Damage to the data

What becomes of an accepted image when bytes of its data change, and nothing else:
`AtomicOta.Esp.JudgedByXor` says that the first level accepts it as before, and the second one
exactly if the changes add up to nothing – so that no change of one byte is accepted, at either
of the deeper levels.

Two validations are compared, on the contents before and after. Their headers are the same,
as the data is apart from them (`AtomicOta.Esp.Table.Apart`), and so are their tables; then
the two XOR loops go over the same addresses, and what they return differs by the difference
of the contents (`AtomicOta.Esp.xorOf_difference`).

Where an overflow aborts this is so in every partition, and where it wraps around in those in
which the walk does not start over (`AtomicOta.Esp.judgedByXor`).
-/

namespace AtomicOta.Esp

open Fallible

variable {ρ σ : Type} {o : Overflow} {reader : Reader ρ} {damaged : Reader σ}
variable {Served : UInt32 → ℕ → Prop} {mem mem' : ℕ → UInt8} {map : MemoryMap}
variable {partOffset partSize checksumAt : UInt32} {segs : List Segment}

/-! ### The XOR of a difference -/

/-- What the data of the segments differs by, added up. -/
def difference (mem mem' : ℕ → UInt8) (segs : List Segment) : UInt8 :=
  ((dataAddresses segs).map fun a => mem a ^^^ mem' a).foldl (· ^^^ ·) 0

/-- The XOR of two lists of bytes, byte by byte. -/
theorem foldl_xor_map (addresses : List ℕ) (x x' : UInt8) :
    (addresses.map fun a => mem a ^^^ mem' a).foldl (· ^^^ ·) (x ^^^ x') =
      (addresses.map mem).foldl (· ^^^ ·) x ^^^ (addresses.map mem').foldl (· ^^^ ·) x' := by
  induction addresses generalizing x x' with
  | nil => rfl
  | cons a addresses ih =>
    have hswap : x ^^^ x' ^^^ (mem a ^^^ mem' a) = x ^^^ mem a ^^^ (x' ^^^ mem' a) := by ac_rfl
    simp only [List.map_cons, List.foldl_cons, hswap]
    exact ih _ _

theorem xorOf_difference : difference mem mem' segs = xorOf mem segs ^^^ xorOf mem' segs := by
  rw [xorOf, xorOf, ← foldl_xor_map, UInt8.xor_self, difference]

theorem difference_eq_zero_iff :
    difference mem mem' segs = 0 ↔ xorOf mem segs = xorOf mem' segs := by
  rw [xorOf_difference, UInt8.xor_eq_zero_iff]

/-- Bytes that are 0 add nothing. -/
theorem foldl_xor_zeros {f : ℕ → UInt8} {addresses : List ℕ} (h : ∀ a ∈ addresses, f a = 0)
    (x : UInt8) : (addresses.map f).foldl (· ^^^ ·) x = x := by
  induction addresses generalizing x with
  | nil => rfl
  | cons a addresses ih =>
    rw [List.map_cons, List.foldl_cons, h a List.mem_cons_self, UInt8.xor_zero]
    exact ih (fun b hb => h b (.tail _ hb)) x

/-- Where one byte is not 0, it is the sum. -/
theorem foldl_xor_single {f : ℕ → UInt8} {addresses : List ℕ} (hnodup : addresses.Nodup) {a : ℕ}
    (ha : a ∈ addresses) (h : ∀ b, b ≠ a → f b = 0) (x : UInt8) :
    (addresses.map f).foldl (· ^^^ ·) x = x ^^^ f a := by
  induction addresses generalizing x with
  | nil => cases ha
  | cons b addresses ih =>
    obtain ⟨hb, hrest⟩ := List.nodup_cons.mp hnodup
    rw [List.map_cons, List.foldl_cons]
    rcases List.mem_cons.mp ha with rfl | hmem
    · exact foldl_xor_zeros (fun c hc => h c fun heq => hb (heq ▸ hc)) _
    · have hne : b ≠ a := fun heq => hb (heq ▸ hmem)
      rw [h b hne, UInt8.xor_zero]
      exact ih hrest hmem x

/-! ### Two XOR loops -/

section Loops

variable (h : reader.Holds Served mem) (h' : damaged.Holds Served mem')

include h h'

/-- A read that the first reader answers, the second one answers as well, each with bytes of
its own. -/
theorem readExact_both (offset : UInt32) (n : ℕ) :
    Follows (fun _ _ => True) (readExact reader offset n) (readExact damaged offset n)
      (fun _ => True)
      fun buf buf' => buf = window mem offset.toNat n ∧ buf' = window mem' offset.toNat n := by
  refine readExact_follows fun s t bytes s' _ hread _ => ?_
  obtain ⟨hserved, rfl⟩ := h.read_eq_some hread
  obtain ⟨t', hread'⟩ := h'.read_served offset n t hserved
  exact ⟨_, t', hread', True.intro, rfl, rfl⟩

theorem xorSegment_both {seg : Segment}
    (hfit : seg.dataOffset.toNat + seg.len.toNat < 2 ^ 32) (x x' : UInt8) :
    Follows (fun _ _ => True) (xorSegment o reader x seg) (xorSegment o damaged x' seg)
      (fun _ => True) fun y y' =>
        y = (window mem seg.dataOffset.toNat seg.len.toNat).foldl (· ^^^ ·) x ∧
          y' = (window mem' seg.dataOffset.toNat seg.len.toNat).foldl (· ^^^ ·) x' := by
  refine pieces_follows (I := fun k y y' =>
    y = (window mem seg.dataOffset.toNat k).foldl (· ^^^ ·) x ∧
      y' = (window mem' seg.dataOffset.toNat k).foldl (· ^^^ ·) x') ?_ (Nat.zero_le _) ⟨rfl, rfl⟩
  rintro done n y y' hdone ⟨rfl, rfl⟩
  have hat : (seg.dataOffset + done).toNat = seg.dataOffset.toNat + done.toNat :=
    toNat_add_of_lt (by omega)
  refine Follows.bind_always (add_follows seg.dataOffset done) ?_
  rintro offset _ ⟨rfl, rfl⟩
  refine Follows.bind_always (readExact_both h h' _ n) ?_
  rintro buf buf' ⟨rfl, rfl⟩
  refine Follows.pure fun _ => ?_
  rw [hat, window_add, window_add, List.foldl_append, List.foldl_append]
  exact ⟨rfl, rfl⟩

theorem xorSegments_both (segs : List Segment)
    (hfit : ∀ seg ∈ segs, seg.dataOffset.toNat + seg.len.toNat < 2 ^ 32) (x x' : UInt8) :
    Follows (fun _ _ => True) (segs.foldlM (xorSegment o reader) x)
      (segs.foldlM (xorSegment o damaged) x') (fun _ => True) fun y y' =>
        y = ((dataAddresses segs).map mem).foldl (· ^^^ ·) x ∧
          y' = ((dataAddresses segs).map mem').foldl (· ^^^ ·) x' := by
  induction segs generalizing x x' with
  | nil => exact Follows.pure fun _ => ⟨rfl, rfl⟩
  | cons seg segs ih =>
    rw [List.foldlM_cons, List.foldlM_cons]
    refine Follows.bind_always (xorSegment_both h h' (hfit seg List.mem_cons_self) x x') ?_
    rintro y y' ⟨rfl, rfl⟩
    rw [dataAddresses_cons, List.map_append, List.map_append, List.foldl_append, List.foldl_append]
    exact ih (fun t ht => hfit t (.tail _ ht)) _ _

/-- **Two checksums**: what is compared, on either reader. -/
theorem checksums_both (hfit : ∀ seg ∈ segs, seg.dataOffset.toNat + seg.len.toNat < 2 ^ 32) :
    Follows (fun _ _ => True) (checksums o reader segs checksumAt)
      (checksums o damaged segs checksumAt) (fun _ => True) fun p p' =>
        p = (mem checksumAt.toNat, xorOf mem segs) ∧
          p' = (mem' checksumAt.toNat, xorOf mem' segs) := by
  refine Follows.bind_always (readExact_both h h' checksumAt 1) ?_
  rintro _ _ ⟨rfl, rfl⟩
  refine Follows.bind_always (xorSegments_both h h' segs hfit checksumSeed checksumSeed) ?_
  rintro _ _ ⟨rfl, rfl⟩
  exact Follows.pure fun _ => ⟨rfl, rfl⟩

end Loops

/-! ### Damage -/

/-- **Damage to the data is judged by its XOR**: when an image is accepted at the second level,
and the bytes of its data change and no others, the first level accepts the same image, and the
second one does if the changes add up to 0, and reports a bad checksum if they do not. A
change of a single byte is reported at both of the deeper levels. -/
def JudgedByXor (o : Overflow) (partOffset partSize : UInt32) : Prop :=
  ∀ (ρ σ : Type) (reader : Reader ρ) (damaged : Reader σ) (Served : UInt32 → ℕ → Prop)
    (mem mem' : ℕ → UInt8) (sha256 : List UInt8 → Digest) (map : MemoryMap) (s s' : ρ)
    (image : Image), reader.Holds Served mem → damaged.Holds Served mem' →
    validate o reader sha256 partOffset partSize map .checksum s = .ok (image, s') →
    (∀ a, a ∉ dataAddresses image.segments → mem a = mem' a) →
    ∀ t : σ,
      (∃ t', validate o damaged sha256 partOffset partSize map .structural t = .ok (image, t')) ∧
      (difference mem mem' image.segments = 0 →
        ∃ t', validate o damaged sha256 partOffset partSize map .checksum t = .ok (image, t')) ∧
      (difference mem mem' image.segments ≠ 0 →
        validate o damaged sha256 partOffset partSize map .checksum t =
          .error (.error .badChecksum)) ∧
      ∀ a, mem a ≠ mem' a → (∀ b, b ≠ a → mem b = mem' b) → ∀ verify, verify ≠ .structural →
        validate o damaged sha256 partOffset partSize map verify t = .error (.error .badChecksum)

/-- A change of a single byte of the data does not add up to 0. -/
theorem Table.Apart.difference_ne_zero {t : Table} (h : t.Apart partOffset)
    (hsame : ∀ a, a ∉ dataAddresses t.image.segments → mem a = mem' a) {a : ℕ}
    (ha : mem a ≠ mem' a) (hb : ∀ b, b ≠ a → mem b = mem' b) :
    difference mem mem' t.image.segments ≠ 0 := by
  have hmem : a ∈ dataAddresses t.image.segments := by
    by_contra hnot
    exact ha (hsame a hnot)
  have hzero : ∀ b, b ≠ a → mem b ^^^ mem' b = 0 := fun b hne => by
    rw [hb b hne, UInt8.xor_self]
  rw [difference, foldl_xor_single h.nodup hmem hzero, UInt8.zero_xor]
  exact fun heq => ha (UInt8.xor_eq_zero_iff.mp heq)

section Damage

variable (hreader : reader.Holds Served mem) (hdamaged : damaged.Holds Served mem')
variable {t : Table} {s s' : ρ}
variable (hsame : ∀ a, a ∉ dataAddresses t.image.segments → mem a = mem' a)

include hreader hdamaged hsame

/-- The two contents have the same table. -/
theorem readTable_damaged (h : t.Apart partOffset)
    (htable : readTable o reader partOffset partSize map s = .ok (t, s')) :
    Succeeds (readTable o damaged partOffset partSize map) (· = t) := by
  have hagrees : reader.Agrees (fun _ _ => True) (fun offset n => ∀ a, offset.toNat ≤ a →
      a < offset.toNat + n → a ∉ dataAddresses t.image.segments) damaged := by
    rintro offset n s t bytes s' hA - hread
    obtain ⟨hserved, rfl⟩ := hreader.read_eq_some hread
    obtain ⟨t', hread'⟩ := hdamaged.read_served offset n t hserved
    refine ⟨t', ?_, True.intro⟩
    rw [hread', window_congr fun b hlo hhi => hsame b (hA b hlo hhi)]
  refine ((readTable_follows hagrees le_rfl (readTable_partition htable)).succeeds htable
    ⟨h.header, h.headers⟩).mono ?_
  rintro _ rfl
  rfl

/-- Where a checksum has been accepted, the difference of the contents decides about it. -/
theorem verifyChecksum_damaged (h : t.Apart partOffset)
    (hsum : verifyChecksum o reader .checksum t.image.segments t.checksumAt s = .ok ((), s'))
    (verify : Verify) (hverify : verify ≠ .structural) :
    Decides (verifyChecksum o damaged verify t.image.segments t.checksumAt)
      (difference mem mem' t.image.segments = 0) () (.error .badChecksum) := by
  rw [verifyChecksum_eq (by simp)] at hsum
  obtain ⟨p, s₁, hsums, hdecide⟩ := bind_run_eq_ok hsum
  have hsums' := (checksums_both hreader hdamaged h.fits).succeeds hsums True.intro
  refine verifyChecksum_decides hverify hsums' ?_
  rintro _ ⟨rfl, rfl⟩
  have hxor : xorOf mem t.image.segments = mem t.checksumAt.toNat := by
    by_contra hne
    rw [if_pos hne] at hdecide
    cases hdecide
  -- both are compared with the same byte
  rw [difference_eq_zero_iff, hxor, hsame _ h.checksum]

end Damage

/-- **Where every sum of the walk fits, damage to the data is judged by its XOR.** -/
theorem judgedByXor (hsafe : o = .abort ∨ Separate partOffset partSize) :
    JudgedByXor o partOffset partSize := by
  rintro ρ σ reader damaged Served mem mem' sha256 map s s' image hreader hdamaged hrun hsame t
  obtain ⟨tab, s₁, htable, hrun⟩ := bind_run_eq_ok hrun
  obtain ⟨_, s₂, hsum, hrun⟩ := bind_run_eq_ok hrun
  obtain ⟨_, s₃, -, hrun⟩ := bind_run_eq_ok hrun
  cases hrun
  obtain ⟨first, rest, cursor, hwalked⟩ := readTable_walked hsafe s tab s₁ htable
  have hapart := hwalked.apart
  have htable' := readTable_damaged hreader hdamaged hsame hapart htable
  have hsum' := fun verify => verifyChecksum_damaged hreader hdamaged hsame hapart hsum verify
  have hlevel := validate_checksum sha256 htable' (hsum' .checksum (by simp))
  refine ⟨?_, (hlevel.exists_ok_iff t).mpr, fun hdiff => hlevel.2 hdiff t, ?_⟩
  · rw [validate_structural]
    obtain ⟨_, t', hok, rfl⟩ := Succeeds.bind (Q := (· = tab.image)) htable'
      (fun _ heq => Succeeds.pure (congrArg Table.image heq)) t
    exact ⟨t', hok⟩
  · rintro a ha hb verify hverify
    exact validate_badChecksum sha256 htable' (hsum' verify hverify)
      (hapart.difference_ne_zero hsame ha hb) t

end AtomicOta.Esp
