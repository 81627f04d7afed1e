import AtomicOta.Otadata.Attempts
import AtomicOta.Otadata.Acceptable

/-!
# The handover from the bootloader to the agent

The bootloader and the agent do not talk: the entry the agent confirms or rejects is
whichever one it finds pending. This file shows that after a boot that completed, from any
flash and whatever the answers about images, what it finds is the entry that was booted:

* a pending entry left by a boot is the mark of the entry it starts
  (`AtomicOta.Otadata.marked_of_pending`), every pending entry of before having been
  aborted;
* an entry that was started and had never run is marked.

An entry that was valid, or the seed of a first boot, leaves nothing to confirm
(`AtomicOta.Otadata.handover`).
-/

namespace AtomicOta.Otadata

/-- A sector held a new entry of a sequence. -/
def WasNew (f : Flash) (s : Sector) (q : UInt32) : Prop :=
  decode (f s) = .ok ⟨q, State.new⟩

section Boot

variable {f : Flash} {n : UInt8} {ok : ImageOk} {s : Sector} {e : Entry}

/-- **A pending entry left by a boot is the mark of the entry it starts**, which had never
run. -/
theorem marked_of_pending (he : view (execWrites f (planBoot f n ok).writes) s = some e)
    (ht : e.trust = .pending) :
    (planBoot f n ok).boot = .slot (slotOf e.seq n) s e.seq ∧ WasNew f s e.seq := by
  have hp := decides_planBoot f n ok
  generalize planBoot f n ok = p at hp he
  by_cases hs : ∃ w ∈ p.writes, w.sector = s
  · obtain ⟨w, hw, rfl⟩ := hs
    rw [view_execWrites_of_mem hp.pairwise hw, admitted_eq_some] at he
    obtain rfl := he.2
    cases hp.reason hw with
    | abort _ _ _ hwe => simp [hwe] at ht
    | invalid _ _ _ _ hwe => simp [hwe] at ht
    | mark e' he' ht' hboot hwe =>
      rw [hwe]
      refine ⟨hboot, ?_⟩
      rw [WasNew, accepted_eq_some.mp he', ← Entry.trust_eq_unproven.mp ht']
    | seed _ _ hw => simp [hw] at ht
  · -- the sector was not written: the entry was pending before, so it was aborted
    rw [view_execWrites_of_ne fun w hw heq => hs ⟨w, hw, heq⟩] at he
    exact absurd ⟨_, hp.abort_mem he ht, rfl⟩ hs

/-- After a boot that starts nothing new, nothing is pending. -/
theorem pending_eq_none
    (h : ∀ s q slot, (planBoot f n ok).boot = .slot slot s q → ¬WasNew f s q) :
    pending (execWrites f (planBoot f n ok).writes) = none := by
  rcases hp : pending (execWrites f (planBoot f n ok).writes) with _ | ⟨s, q⟩
  · rfl
  · obtain ⟨e, he, rfl⟩ := pending_some hp
    obtain ⟨hboot, hnew⟩ := marked_of_pending he.entry he.trust
    exact absurd hnew (h s e.seq _ hboot)

/-- After a boot that starts a new entry, this one is pending. -/
theorem pending_eq_some {slot : UInt8} {q : UInt32}
    (hb : (planBoot f n ok).boot = .slot slot s q) (hnew : WasNew f s q) :
    pending (execWrites f (planBoot f n ok).writes) = some (s, q) := by
  have hp := decides_planBoot f n ok
  have hview : view f s = some ⟨q, State.new⟩ := accepted_eq_some.mpr hnew
  have hself : ∀ {e}, view f s = some e → e.trust = .unproven := by
    intro e he
    rw [← Option.some.inj (hview.symm.trans he), Entry.trust_new]
  cases hp.launch hb with
  | seed hnone => exact absurd hview (ne_some_of_none hnone)
  | valid e he ht =>
    rw [hself he] at ht
    exact absurd ht (by decide)
  | unproven e he ht hq hslot hok hw =>
    have hmark : view (execWrites f (planBoot f n ok).writes) s =
        some ⟨q, State.pendingVerify⟩ := by
      refine (view_execWrites_of_mem hp.pairwise hw f).trans ?_
      exact if_pos (hq ▸ admissible_of_view he (by decide))
    refine pending_of_only hmark rfl fun s' e' he' ht' => ?_
    obtain ⟨hboot, -⟩ := marked_of_pending he' ht'
    exact (Boot.slot.inj (hboot.symm.trans hb)).2.1

end Boot

/-- **The agent acts on exactly the entry the bootloader just booted**: after a boot that
completed, `confirm` and `reject` write the entry that was started, if it was new, and
nothing if it was valid or a seed, or if nothing was started. -/
theorem handover (f : Flash) (n : UInt8) (ok : ImageOk) :
    let p := planBoot f n ok
    let f' := execWrites f p.writes
    (∀ slot s q, p.boot = .slot slot s q →
      (∀ w, confirm f' = some w ↔ WasNew f s q ∧ w = ⟨s, ⟨q, State.valid⟩⟩) ∧
      (∀ w, reject f' = some w ↔ WasNew f s q ∧ w = ⟨s, ⟨q, State.invalid⟩⟩) ∧
      (decode (f s) = .ok ⟨q, State.valid⟩ ∨ (¬∃ s e, decode (f s) = .ok e) →
        confirm f' = none ∧ reject f' = none) ∧
      (WasNew f s q ∨ decode (f s) = .ok ⟨q, State.valid⟩ ∨ ¬∃ s e, decode (f s) = .ok e)) ∧
    ∀ h, p.boot = .halt h → confirm f' = none ∧ reject f' = none := by
  intro p f'
  have hnone : pending f' = none → confirm f' = none ∧ reject f' = none :=
    fun h => ⟨by rw [confirm, h]; rfl, by rw [reject, h]; rfl⟩
  refine ⟨fun slot s q hb => ?_, fun h hb => hnone (pending_eq_none fun s q slot hb' => ?_)⟩
  · have hothers : ¬WasNew f s q → pending f' = none := by
      intro hnew
      refine pending_eq_none fun s' q' slot' hb' => ?_
      obtain ⟨-, rfl, rfl⟩ := Boot.slot.inj (hb.symm.trans hb')
      exact hnew
    -- what the agent writes, with the state either function gives it
    have hacts : ∀ (state : UInt32) (w : Write),
        (pending f').map (fun b => (⟨b.1, ⟨b.2, state⟩⟩ : Write)) = some w ↔
          WasNew f s q ∧ w = ⟨s, ⟨q, state⟩⟩ := by
      intro state w
      by_cases hnew : WasNew f s q
      · rw [pending_eq_some hb hnew, Option.map_some, Option.some.injEq, eq_comm]
        exact (and_iff_right hnew).symm
      · simp [hothers hnew, hnew]
    refine ⟨hacts State.valid, hacts State.invalid, ?_, ?_⟩
    · rintro (hvalid | hempty)
      · refine hnone (hothers fun hnew => ?_)
        have heq := Decoded.ok.inj (hvalid.symm.trans hnew)
        exact absurd (congrArg Entry.state heq) (show State.valid ≠ State.new by decide)
      · exact hnone (hothers fun hnew => hempty ⟨s, _, hnew⟩)
    · cases (decides_planBoot f n ok).launch hb with
      | seed hempty =>
        refine .inr (.inr ?_)
        rintro ⟨s', e, he⟩
        exact absurd (accepted_eq_some.mpr he) (ne_some_of_none hempty)
      | valid e he ht hq =>
        refine .inr (.inl ?_)
        rw [accepted_eq_some.mp he, ← hq, ← Entry.trust_eq_valid.mp ht]
      | unproven e he ht hq =>
        refine .inl ?_
        rw [WasNew, accepted_eq_some.mp he, ← hq, ← Entry.trust_eq_unproven.mp ht]
  · rw [show (planBoot f n ok).boot = .halt h from hb] at hb'
    cases hb'

end AtomicOta.Otadata
