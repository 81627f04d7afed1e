import AtomicOta.Esp.Validate
import Mathlib.Data.List.Basic

/-!
# Reading what is there

A reader that returns given bytes – `AtomicOta.Esp.Reader.Serves` – and what the loops of the
validator make of them. Both loops go over their range in pieces of at most 256 bytes, and
nothing they compute depends on where the pieces are cut: the rule
`AtomicOta.Esp.pieces_succeeds` asks for an invariant of the bytes behind the current
offset, so that `AtomicOta.Esp.xorSegment_serves` and `AtomicOta.Esp.absorb_serves` speak of
whole ranges.
-/

namespace AtomicOta.Esp

open Fallible

variable {ρ β : Type} {o : Overflow} {reader : Reader ρ}

theorem length_of_eq_append {bytes pre mid post : List UInt8} (h : bytes = pre ++ mid ++ post) :
    bytes.length = pre.length + mid.length + post.length := by
  rw [h, List.length_append, List.length_append]

/-- From any of its states, the reader returns the bytes `bytes`, which begin at
`start`. -/
def Reader.Serves (reader : Reader ρ) (start : ℕ) (bytes : List UInt8) : Prop :=
  ∀ (offset : UInt32) (n : ℕ) (s : ρ), start ≤ offset.toNat →
    offset.toNat + n ≤ start + bytes.length →
      ∃ s', reader.read offset n s = (some ((bytes.drop (offset.toNat - start)).take n), s')

namespace Reader.Serves

variable {start : ℕ} {bytes : List UInt8} {offset : UInt32}

theorem readExact {n : ℕ} (h : reader.Serves start bytes) (hlo : start ≤ offset.toNat)
    (hhi : offset.toNat + n ≤ start + bytes.length) :
    Succeeds (readExact reader offset n)
      fun buf => buf = (bytes.drop (offset.toNat - start)).take n := by
  intro s
  obtain ⟨s', hread⟩ := h offset n s hlo hhi
  exact ⟨_, s', by simp only [Esp.readExact, hread], rfl⟩

/-- Part of a stretch of the bytes is read as it stands. -/
theorem readExact_within {pre mid post : List UInt8} {k n : ℕ} (h : reader.Serves start bytes)
    (hbytes : bytes = pre ++ mid ++ post) (hoffset : offset.toNat = start + pre.length + k)
    (hk : k + n ≤ mid.length) :
    Succeeds (Esp.readExact reader offset n) fun buf => buf = (mid.drop k).take n := by
  have hlength := length_of_eq_append hbytes
  refine (h.readExact (by omega) (by omega)).mono ?_
  rintro buf rfl
  rw [hoffset, Nat.add_assoc, Nat.add_sub_cancel_left, hbytes, List.append_assoc,
    List.drop_length_add_append, List.drop_append_of_le_length (by omega),
    List.take_append_of_le_length (by rw [List.length_drop]; omega)]

/-- A stretch of the bytes is read as it stands. -/
theorem readExact_append {pre mid post : List UInt8} (h : reader.Serves start bytes)
    (hbytes : bytes = pre ++ mid ++ post) (hoffset : offset.toNat = start + pre.length) :
    Succeeds (Esp.readExact reader offset mid.length) fun buf => buf = mid := by
  refine (h.readExact_within hbytes (k := 0) hoffset (Nat.zero_add _).le).mono ?_
  rintro buf rfl
  rw [List.drop_zero, List.take_length]

end Reader.Serves

/-! ### Reading in pieces -/

variable {stop : UInt32} {body : UInt32 → ℕ → β → StateT ρ (Except Fault) β}

/-- One turn of the loop. -/
theorem pieces_of_lt {pos : UInt32} (hlt : pos < stop) (acc : β) :
    pieces o stop body pos acc =
      (body pos (min (stop.toNat - pos.toNat) 256) acc >>=
        pieces o stop body (pos + min (stop - pos) 256)) := by
  have hle := UInt32.le_iff_toNat_le.mp (UInt32.le_of_lt hlt)
  have hn : (min (stop - pos) 256).toNat = min (stop.toNat - pos.toNat) 256 := by
    rw [toNat_min, toNat_sub_of_le' hle]
    rfl
  have hstop := stop.toNat_lt
  have hnext : add o pos (min (stop - pos) 256) = .ok (pos + min (stop - pos) 256) :=
    add_of_lt (by omega)
  rw [pieces, dif_pos hlt]
  split
  · next e herr =>
    rw [sub_of_le (UInt32.le_of_lt hlt)] at herr
    cases herr
  · next left hleft =>
    cases sub_ok hleft
    rw [hn]
    congr 1
    funext acc'
    split
    · next e herr =>
      rw [hnext] at herr
      cases herr
    · next next hadd =>
      rw [hnext] at hadd
      cases hadd
      rfl

theorem pieces_of_not_lt {pos : UInt32} (h : ¬ pos < stop) (acc : β) :
    pieces o stop body pos acc = pure acc := by
  rw [pieces, dif_neg h]

/-- **Induction over the pieces**: at an offset the end is reached, or there is one more piece
and then the rest. -/
theorem piece_induction (stop : UInt32) {motive : UInt32 → Prop}
    (done : ∀ pos, ¬ pos < stop → motive pos)
    (next : ∀ pos, pos < stop → motive (pos + min (stop - pos) 256) → motive pos) (pos : UInt32) :
    motive pos := by
  induction hk : stop.toNat - pos.toNat using Nat.strong_induction_on generalizing pos with
  | _ k ih =>
    by_cases hlt : pos < stop
    · have hlt' := UInt32.lt_iff_toNat_lt.mp hlt
      have hnext := toNat_piece hlt
      exact next pos hlt (ih _ (by omega) _ rfl)
    · exact done pos hlt

/-- **The rule of the loop**: what `body` carries over a piece, the loop carries over the
range. -/
theorem pieces_succeeds {I : ℕ → β → Prop}
    (hbody : ∀ (pos : UInt32) n acc, pos.toNat + n ≤ stop.toNat → I pos.toNat acc →
      Succeeds (body pos n acc) (I (pos.toNat + n)))
    {pos : UInt32} {acc : β} (hle : pos.toNat ≤ stop.toNat) (h : I pos.toNat acc) :
    Succeeds (pieces o stop body pos acc) (I stop.toNat) := by
  induction pos using (piece_induction stop) generalizing acc with
  | done pos hlt =>
    rw [pieces_of_not_lt hlt]
    have heq : pos.toNat = stop.toNat :=
      Nat.le_antisymm hle (Nat.not_lt.mp (mt UInt32.lt_iff_toNat_lt.mpr hlt))
    exact Succeeds.pure (heq ▸ h)
  | next pos hlt ih =>
    have hnext := toNat_piece hlt
    rw [pieces_of_lt hlt]
    refine Succeeds.bind (hbody pos _ acc (by omega) h) ?_
    rintro acc' hacc'
    rw [← hnext] at hacc'
    exact ih (by omega) hacc'

/-- **The XOR loop** takes in each byte of the data once. -/
theorem xorSegment_serves {start : ℕ} {bytes pre data post : List UInt8} {seg : Segment}
    (h : reader.Serves start bytes) (hbytes : bytes = pre ++ data ++ post)
    (hoffset : seg.dataOffset.toNat = start + pre.length) (hlen : seg.len.toNat = data.length)
    (hfit : start + bytes.length < 2 ^ 32) (xor : UInt8) :
    Succeeds (xorSegment o reader xor seg) fun x => x = data.foldl (· ^^^ ·) xor := by
  have hlength := length_of_eq_append hbytes
  have hloop : Succeeds (xorSegment o reader xor seg)
      fun x => x = (data.take seg.len.toNat).foldl (· ^^^ ·) xor := by
    refine pieces_succeeds (I := fun k x => x = (data.take k).foldl (· ^^^ ·) xor) ?_
      (Nat.zero_le _) rfl
    rintro done n x hdone rfl
    have hsum : seg.dataOffset.toNat + done.toNat < 2 ^ 32 := by omega
    have hat := toNat_add_of_lt hsum
    refine Succeeds.bind (Succeeds.lift (P := (· = seg.dataOffset + done))
      (add_of_lt hsum) rfl) ?_
    rintro offset rfl
    refine Succeeds.bind (h.readExact_within hbytes (hat.trans (by rw [hoffset])) (by omega)) ?_
    rintro buf rfl
    refine Succeeds.pure ?_
    rw [List.take_add, List.foldl_append]
  rwa [hlen, List.take_length] at hloop

/-- **The hash loop** absorbs each byte of its range once. -/
theorem absorb_serves {start : ℕ} {bytes pre data post : List UInt8} {pos stop : UInt32}
    (h : reader.Serves start bytes) (hbytes : bytes = pre ++ data ++ post)
    (hpos : pos.toNat = start + pre.length) (hstop : stop.toNat = pos.toNat + data.length) :
    Succeeds (absorb o reader pos stop) (· = data) := by
  have hloop : Succeeds (absorb o reader pos stop)
      fun absorbed => absorbed = data.take (stop.toNat - pos.toNat) := by
    refine (pieces_succeeds (I := fun k absorbed => pos.toNat ≤ k ∧
      absorbed = data.take (k - pos.toNat)) ?_ (by omega) ⟨Nat.le_refl _, by simp⟩).mono
      fun _ hI => hI.2
    rintro offset n absorbed hle ⟨hfrom, rfl⟩
    have hat : offset.toNat = start + pre.length + (offset.toNat - pos.toNat) := by omega
    refine Succeeds.bind (h.readExact_within hbytes hat (by omega)) ?_
    rintro buf rfl
    refine Succeeds.pure ⟨by omega, ?_⟩
    rw [← List.take_add, Nat.sub_add_comm hfrom]
  rwa [hstop, Nat.add_sub_cancel_left, List.take_length] at hloop

end AtomicOta.Esp
