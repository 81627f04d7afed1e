import AtomicOta.Otadata.Agent

/-!
# The valid entry and the other sector

The relation between the entry that was validated last and the other sector
(`AtomicOta.Otadata.Guarded`): a valid entry there is older, one that is not proven yet
is newer. That is what makes `activate` choose the other sector, and a confirmation win
over the entry it replaces.

Who writes, and what becomes of it:

| write | theorem |
|---|---|
| the seed of a first boot | `AtomicOta.Otadata.guarded_seed` |
| a boot, when the image of the valid entry is bootable | `AtomicOta.Otadata.Guarded.beside_of_decides` |
| an activation | `AtomicOta.Otadata.Guarded.beside_of_activate` |
| a rejection | `AtomicOta.Otadata.Guarded.beside_of_reject` |
| a confirmation | `AtomicOta.Otadata.Guarded.confirm` |

All but the first and the last are *beside* the valid entry
(`AtomicOta.Otadata.Beside`), which is enough to leave it guarded; after a confirmation
it is the confirmed entry that is guarded.
-/

namespace AtomicOta.Otadata

/-- **What guards a validated entry**: a valid entry in the other sector is older,
one that is not proven yet is newer. -/
structure Guarded (v : Write) (b : Book) : Prop where
  entry : b v.sector = some v.entry
  valid : v.entry.trust = .valid
  older : ∀ e, b (other v.sector) = some e → e.trust = .valid →
    e.seq.toNat < v.entry.seq.toNat
  newer : ∀ e, b (other v.sector) = some e → e.trust = .pending ∨ e.trust = .unproven →
    v.entry.seq.toNat < e.seq.toNat

/-- A write that leaves a validated entry guarded: it is in the other sector, and
writes a dead entry or a newer one. -/
structure Beside (v w : Write) : Prop where
  sector : w.sector = other v.sector
  ne_valid : w.entry.trust ≠ .valid
  newer : w.entry.trust = .pending ∨ w.entry.trust = .unproven →
    v.entry.seq.toNat < w.entry.seq.toNat

theorem Beside.sector_ne {v w : Write} (h : Beside v w) : w.sector ≠ v.sector :=
  h.sector ▸ other_ne _

namespace Guarded

variable {v w : Write} {b : Book}

/-- Losing the other sector. -/
theorem erase (h : Guarded v b) {s : Sector} (hs : s ≠ v.sector) :
    Guarded v (Function.update b s none) := by
  have hother : ∀ {e : Entry}, Function.update b s none (other v.sector) = some e → False := by
    intro e he
    rw [← eq_other_of_ne hs, Function.update_self] at he
    exact absurd he (by simp)
  refine ⟨?_, h.valid, fun e he => (hother he).elim, fun e he => (hother he).elim⟩
  rw [Function.update_of_ne hs.symm, h.entry]

/-- A write beside it. -/
theorem write (h : Guarded v b) (hw : Beside v w) :
    Guarded v (Function.update b w.sector (admitted w.entry)) := by
  have hother : ∀ {e : Entry},
      Function.update b w.sector (admitted w.entry) (other v.sector) = some e → e = w.entry := by
    intro e he
    rw [← hw.sector, Function.update_self, admitted_eq_some] at he
    exact he.2
  refine ⟨?_, h.valid, fun e he ht => ?_, fun e he ht => ?_⟩
  · rw [Function.update_of_ne hw.sector_ne.symm, h.entry]
  · obtain rfl := hother he
    exact absurd ht hw.ne_valid
  · obtain rfl := hother he
    exact hw.newer ht

/-- The guarded entry is the highest of the valid ones. -/
theorem eq_of_isHighest (h : Guarded v b) {p : Sector} {e : Entry}
    (he : IsHighest .valid b p e) : p = v.sector ∧ e = v.entry := by
  have hp : p = v.sector := by
    by_contra hne
    have hge := he.highest v.sector v.entry h.entry h.valid
    have hlt := h.older e (eq_other_of_ne hne ▸ he.entry) he.trust
    omega
  subst hp
  exact ⟨rfl, Option.some.inj (he.entry.symm.trans h.entry)⟩

/-- An entry that is not valid is in the other sector. -/
theorem other_of_ne_valid (h : Guarded v b) {s : Sector} {e : Entry} (he : b s = some e)
    (ht : e.trust ≠ .valid) : s = other v.sector := by
  refine eq_other_of_ne fun heq => ht ?_
  rw [heq, h.entry] at he
  rw [← Option.some.inj he, h.valid]

/-- A boot writes beside it, when its image is bootable. -/
theorem beside_of_decides (h : Guarded v b) {n : UInt8} {ok : ImageOk}
    (hok : ∀ k, ok k (slotOf v.entry.seq n) = true) {p : Plan} (hp : Decides b n ok p) :
    ∀ w ∈ p.writes, Beside v w := by
  intro w hw
  cases hp.reason hw with
  | abort e he ht hwe =>
    exact ⟨h.other_of_ne_valid he (by rw [ht]; decide), by simp [hwe], by simp [hwe]⟩
  | invalid e he ht hbad hwe =>
    refine ⟨eq_other_of_ne fun heq => ?_, by simp [hwe], by simp [hwe]⟩
    obtain ⟨j, hj⟩ := hbad
    rw [heq, h.entry] at he
    rw [← Option.some.inj he, hok] at hj
    exact absurd hj (by simp)
  | mark e he ht hboot hwe =>
    have hs := h.other_of_ne_valid he (by rw [ht]; decide)
    refine ⟨hs, by simp [hwe], fun _ => ?_⟩
    rw [hwe]
    exact h.newer e (hs ▸ he) (.inr ht)
  | seed hnone _ _ => exact absurd h.entry (ne_some_of_none hnone)

/-- An activation writes beside it. -/
theorem beside_of_activate (h : Guarded v b) {e : Entry}
    (hbase : IsHighest .valid b (other w.sector) e) (hnew : w.entry.state = State.new)
    (habove : ∀ s e, b s = some e → e.seq.toNat < w.entry.seq.toNat) : Beside v w := by
  refine ⟨?_, ?_, fun _ => habove _ _ h.entry⟩
  · rw [← (h.eq_of_isHighest hbase).1, other_other]
  · rw [Entry.trust_eq_unproven.mpr hnew]
    decide

/-- The pending entry is in the other sector, and newer. -/
theorem pending (h : Guarded v b) {s : Sector} {e : Entry} (he : IsHighest .pending b s e) :
    s = other v.sector ∧ v.entry.seq.toNat < e.seq.toNat := by
  have hs := h.other_of_ne_valid he.entry (by rw [he.trust]; decide)
  exact ⟨hs, h.newer e (hs ▸ he.entry) (.inl he.trust)⟩

/-- A rejection writes beside it. -/
theorem beside_of_reject (h : Guarded v b) {e : Entry} (he : IsHighest .pending b w.sector e)
    (hw : w.entry = ⟨e.seq, State.invalid⟩) : Beside v w :=
  ⟨(h.pending he).1, by simp [hw], by simp [hw]⟩

/-- **A confirmation takes over**: the entry it confirms is guarded, the one that was is
the older one. -/
theorem confirm (h : Guarded v b) {e : Entry} (he : IsHighest .pending b w.sector e)
    (hadm : e.Admissible) (hw : w.entry = ⟨e.seq, State.valid⟩) :
    Guarded w (Function.update b w.sector (admitted w.entry)) := by
  obtain ⟨hsector, hlt⟩ := h.pending he
  have hother : ∀ {e' : Entry},
      Function.update b w.sector (admitted w.entry) (other w.sector) = some e' →
      e' = v.entry := by
    intro e' he'
    rw [Function.update_of_ne (other_ne _), hsector, other_other, h.entry] at he'
    exact (Option.some.inj he').symm
  refine ⟨?_, by simp [hw], fun e' he' _ => ?_, fun e' he' ht' => ?_⟩
  · rw [Function.update_self, hw]
    exact if_pos ⟨hadm.seq_ne_zero, hadm.seq_ne_max, .inr (.inr (.inl rfl))⟩
  · rw [hother he', hw]
    exact hlt
  · rw [hother he', h.valid] at ht'
    exact absurd ht' (by decide)

end Guarded

/-- **The seed of a first boot is guarded**: there is nothing else. -/
theorem guarded_seed {b : Book} (h : ∀ s, b s = none) :
    Guarded ⟨0, ⟨1, State.valid⟩⟩ (Function.update b 0 (admitted ⟨1, State.valid⟩)) := by
  have hother : ∀ {e : Entry},
      Function.update b 0 (admitted ⟨1, State.valid⟩) (other 0) = some e → False := by
    intro e he
    rw [Function.update_of_ne (other_ne 0), h] at he
    exact absurd he (by simp)
  refine ⟨?_, rfl, fun e he => (hother he).elim, fun e he => (hother he).elim⟩
  rw [Function.update_self]
  exact if_pos (by decide)

end AtomicOta.Otadata
