import AtomicOta.Otadata.Chain
import AtomicOta.Otadata.Search

/-!
# How long the sequence numbers last

`AtomicOta.Otadata.activate` is refused for good when it runs out of sequence numbers. It takes
the least one above all that are present, which is at most a cycle of the slots away, and no
other job takes a new one; but an update that is cut may drop the entry with the highest number,
so what can be said of a run is a bound: after `k` activations that took effect, nothing above
`1 + n * k` is present (`AtomicOta.Otadata.Within`), whatever else was written and wherever the
power went. As long as another cycle fits, an activation that is not refused for want of a valid
entry is not refused at all, and what it writes is accepted
(`AtomicOta.Otadata.activates_below`).
-/

namespace AtomicOta.Otadata

/-- The activations that took effect. -/
def activations (log : List Request) : ℕ := log.countP fun r => r.origin = .activate

/-- **What `k` activations can have used up**, from a flash with no number above `first`. -/
def Within (n : UInt8) (first : ℕ) (l : Ledger) : Prop :=
  ∀ s e, l.book s = some e → e.seq.toNat ≤ first + n.toNat * activations l.log

variable {n : UInt8} {first : ℕ} {l : Ledger} {r : Request}

theorem activations_cons (r : Request) (log : List Request) :
    activations (r :: log) = activations log + if r.origin = .activate then 1 else 0 := by
  rw [activations, List.countP_cons, activations]
  simp

theorem activations_le_cons (r : Request) (log : List Request) :
    activations log ≤ activations (r :: log) := by
  rw [activations_cons]
  exact Nat.le_add_right _ _

/-! ### One update -/

theorem Within.drop (h : Within n first l) (r : Request) : Within n first (l.drop r) :=
  fun s e he => h s e (Ledger.book_of_drop he).2

/-- An update whose number is within what its job is allowed. -/
theorem Within.commit (h : Within n first l)
    (hr : r.write.entry.seq.toNat ≤ first + n.toNat * activations (r :: l.log)) :
    Within n first (l.commit r) := by
  intro s e he
  rw [Ledger.log_commit]
  rcases Ledger.book_commit_cases he with ⟨-, he⟩ | ⟨-, rfl, -⟩
  · exact (h s e he).trans (Nat.add_le_add_left (Nat.mul_le_mul_left _ (activations_le_cons _ _)) _)
  · exact hr

/-- **A job of updates whose numbers are taken already** keeps within what was used up. -/
theorem safe_within {rs : List Request} (h : Within n first l)
    (hrs : ∀ r ∈ rs, r.write.entry.seq.toNat ≤ first + n.toNat * activations l.log) :
    ledgerDevice.Safe (fun _ _ => True) (Within n first) rs l := by
  -- the history only grows, so that what was allowed stays allowed
  refine Crash.Device.Safe.mono (C := fun l' => Within n first l' ∧
    activations l.log ≤ activations l'.log) ?_ (fun _ _ h => h) fun _ h => h.1
  refine ledger_safe_of_preserved (G := fun _ _ => True) (fun r hr l' hl' => ?_) ⟨h, le_rfl⟩
  obtain ⟨hwithin, hle⟩ := hl'
  have hle' := hle.trans (activations_le_cons r l'.log)
  refine ⟨trivial, ⟨hwithin.drop r, hle⟩, hwithin.commit ?_, hle'⟩
  exact (hrs r hr).trans (Nat.add_le_add_left (Nat.mul_le_mul_left _ hle') _)

/-- What is kept of a chip: it holds residues, within what the activations account for. -/
structure Accounted (n : UInt8) (first : ℕ) (st : Chip) : Prop where
  sound : Sound Set.univ st.flash
  within : Within n first st.read

/-! ### Jobs -/

variable {st : Chip}

/-- A boot takes no new number, unless it is the first. -/
theorem safe_boot (h : Within n first st.read) (hfirst : 1 ≤ first) (ok : ImageOk) :
    ledgerDevice.Safe (fun _ _ => True) (Within n first)
      (issue .boot (planBoot st.flash n ok).writes) st.read := by
  have hp := decides_planBoot st.flash n ok
  refine safe_within h fun r hr => ?_
  cases hp.reason (mem_issue.mp hr).1 with
  | abort e he _ hw => exact hw ▸ h _ e he
  | invalid e he _ _ hw => exact hw ▸ h _ e he
  | mark e he _ _ hw => exact hw ▸ h _ e he
  | seed _ _ hw =>
    rw [hw]
    exact Nat.le_add_right_of_le hfirst

/-- The number that an activation takes is at most a cycle above those that are present. -/
theorem seq_activate_le (hn : 1 ≤ n) {f : Flash} {target : UInt8} {w : Write} {k : ℕ}
    (h : ∀ s e, view f s = some e → e.seq.toNat ≤ k) (hw : activate f n target = .ok w) :
    w.entry.seq.toNat ≤ k + n.toNat := by
  obtain ⟨b, hb, -⟩ := activate_ok hw
  obtain ⟨m, hm⟩ := exists_isTop (accepted_eq_some.mp hb.entry)
  obtain ⟨s, e, he, rfl⟩ := hm.mem
  have hle := h s e (accepted_eq_some.mpr he)
  rcases activate_spec hm hb target with ⟨q, hq, hslot, hleast, heq⟩ | ⟨-, heq⟩
  · have hentry := congrArg Write.entry (Except.ok.inj (heq.symm.trans hw))
    have hcycle := sub_le_of_least (n := n) hn (hslot ▸ hleast)
    rw [← hentry]
    dsimp only
    omega
  · rw [heq] at hw
    cases hw

/-- An activation takes a number that it accounts for. -/
theorem safe_activate (hn : 1 ≤ n) (h : Within n first st.read) {target : UInt8} {w : Write}
    (hw : activate st.flash n target = .ok w) :
    ledgerDevice.Safe (fun _ _ => True) (Within n first) (issue .activate [w]) st.read := by
  have hle := seq_activate_le hn h hw
  have hcommit : Within n first (st.read.commit ⟨w, .activate⟩) := by
    refine h.commit ?_
    rw [activations_cons, if_pos rfl, Nat.mul_add, Nat.mul_one, ← Nat.add_assoc]
    exact hle
  refine ⟨h, trivial, fun l' ht => ?_, hcommit⟩
  cases ht with
  | old => exact h
  | dropped => exact h.drop _
  | committed => exact hcommit

/-- The answer to a pending entry takes its number. -/
theorem safe_answer (h : Within n first st.read) {o : Origin} {w : Write} {e : Entry}
    (he : IsHighest .pending (view st.flash) w.sector e) (hw : w.entry.seq = e.seq) :
    ledgerDevice.Safe (fun _ _ => True) (Within n first) (issue o [w]) st.read := by
  refine safe_within h fun r hr => ?_
  obtain rfl := List.mem_singleton.mp hr
  exact hw ▸ h _ e he.entry

/-! ### Runs -/

variable {mayBoot : List Request → ImageOk → Prop} {mayAct : Option Running → Prop}

/-- A job that is safe on the ledger is accounted for on the flash. -/
theorem accounted_commands {rs : List Request} (hs : Sound Set.univ st.flash)
    (h : ledgerDevice.Safe (fun _ _ => True) (Within n first) rs st.read) :
    chipDevice.Safe (fun _ _ => True) (Accounted n first) (commands rs) st :=
  (safe_commands (G := fun _ _ => True) (fun _ _ => Set.mem_univ _) hs h).mono (fun _ _ h => h)
    fun _ h => ⟨h.1, h.2⟩

/-- **Every job keeps within what the activations account for.** -/
theorem keeps_within (hn : 1 ≤ n) (hfirst : 1 ≤ first) :
    (chain n mayBoot mayAct).Keeps (fun _ _ => True) fun _ => Accounted n first := by
  have hsafe : ∀ m st ops m', Accounted n first st → (chain n mayBoot mayAct).Start m st ops m' →
      chipDevice.Safe (fun _ _ => True) (Accounted n first) ops st := by
    rintro m st ops m' ⟨hs, h⟩ hstart
    cases hstart with
    | boot ok hok => exact accounted_commands hs (safe_boot h hfirst ok)
    | activate hm hw => exact accounted_commands hs (safe_activate hn h hw)
    | confirm hm hw =>
      obtain ⟨e, he, hwe⟩ := confirm_some hw
      exact accounted_commands hs (safe_answer h he (hwe ▸ rfl))
    | reject hm hw =>
      obtain ⟨e, he, hwe⟩ := reject_some hw
      exact accounted_commands hs (safe_answer h he (hwe ▸ rfl))
  exact ⟨fun _ _ h => h, hsafe, fun m st ops m' h hstart => (hsafe m st ops m' h hstart).run⟩

/-- **How long the numbers last**: in every run from a flash with no number above `first`, none
is above what the activations that took effect account for; and as long as another cycle of the
slots fits, an activation beside a valid entry is not refused, and what it writes is accepted. -/
theorem activates_below (n : UInt8) (mayBoot : List Request → ImageOk → Prop)
    (mayAct : Option Running → Prop) (f : Flash) (first : ℕ)
    (c : Crash.Config Chip Cmd (Option Running)) (hn : 1 ≤ n) (hfirst : 1 ≤ first)
    (hs : Sound Set.univ f) (hle : ∀ s e, decode (f s) = .ok e → e.seq.toNat ≤ first)
    (h : (chain n mayBoot mayAct).Reaches (atRest ⟨f, []⟩) c) :
    (∀ s e, decode (c.state.flash s) = .ok e →
      e.seq.toNat ≤ first + n.toNat * activations c.state.log) ∧
    ∀ target, target < n →
      first + n.toNat * (activations c.state.log + 1) < 2 ^ 32 - 1 →
      (∃ s e, decode (c.state.flash s) = .ok e ∧ e.state = State.valid) →
      ∃ w, activate c.state.flash n target = .ok w ∧ decode w.entry.encode = .ok w.entry := by
  have hkeeps : (chain n mayBoot mayAct).Keeps (fun _ _ => True) fun _ => Accounted n first :=
    keeps_within hn hfirst
  have hstart : Accounted n first ⟨f, []⟩ :=
    ⟨hs, fun s e he => Nat.le_add_right_of_le (hle s e (accepted_eq_some.mp he))⟩
  have hwithin := (hkeeps.reaches (Crash.Machine.holds_idle hkeeps hstart) h).instant.within
  refine ⟨fun s e he => hwithin s e (accepted_eq_some.mpr he), fun target ht hroom hvalid => ?_⟩
  obtain ⟨s, e, he, hstate⟩ := hvalid
  obtain ⟨p, b, hb⟩ := exists_isHighest (accepted_eq_some.mpr he) (Entry.trust_eq_valid.mpr hstate)
  obtain ⟨m, hm⟩ := exists_isTop he
  obtain ⟨s', e', he', rfl⟩ := hm.mem
  have htop := hwithin s' e' (accepted_eq_some.mpr he')
  rw [Nat.mul_add, Nat.mul_one] at hroom
  change e'.seq.toNat ≤ first + n.toNat * activations c.state.log at htop
  obtain ⟨q, hq, hslot⟩ := exists_slotOf (m := e'.seq) hn ht (by omega)
  rcases activate_spec hm hb target with ⟨w, hw, -, -, heq⟩ | ⟨hnone, -⟩
  · have hlast : w.toNat < 2 ^ 32 - 1 :=
      (seq_activate_le hn (fun s e he => hwithin s e he) heq).trans_lt (by rwa [Nat.add_assoc])
    refine ⟨_, heq, decode_encode ⟨ne_zero_of_lt hw, ?_, show Entry.Known State.new by decide⟩⟩
    rintro hmax
    rw [show w = u32Max from hmax] at hlast
    exact absurd hlast (by decide)
  · exact absurd hslot (hnone q hq)

/-- After the first boot of two slots, either of them can be activated. -/
theorem activates_below_seeded :
    ∃ w, activate Chip.seeded.flash 2 1 = .ok w ∧ decode w.entry.encode = .ok w.entry := by
  have hreach : (chain 2 (fun _ _ => True) fun _ => True).Reaches (atRest Chip.blank)
      ⟨Chip.seeded, [], some ⟨0, 0, 1⟩⟩ := reaches_seeded trivial
  have hvalid : decode (Chip.seeded.flash 0) = .ok ⟨1, State.valid⟩ := by
    rw [flash_seeded, Function.update_self]
    exact decode_encode (by decide)
  have hblank : ∀ s e, decode ((fun _ => blank : Flash) s) = .ok e → e.seq.toNat ≤ 1 := by
    rintro s e he
    rw [decode_blank] at he
    cases he
  exact (activates_below 2 (fun _ _ => True) (fun _ => True) _ 1 _ (by decide) le_rfl
    (fun _ _ => residue_blank) hblank hreach).2 1 (by decide) (by decide) ⟨0, _, hvalid, rfl⟩

end AtomicOta.Otadata
