import AtomicOta.Otadata.Chain

/-!
# What the boot chain asks of its flash

What an erase leaves that is cut is up to the flash. The one of `AtomicOta.Otadata.Chain` leaves
each word old or erased; here the chain is on any *medium* (`AtomicOta.Otadata.Medium`): a relation
that says what a cut erase may leave of a content, and contents that it does not lead out of,
among which it never makes an entry. That is all the chain asks of its flash: on every medium it
refines the ledger (`AtomicOta.Otadata.Medium.refines_ledger`), and the boot chain is the one on the
medium that erases word by word (`AtomicOta.Otadata.chain_wordwise`).

The argument is that of the boot chain, once: a program finds its sector erased, so that only the
erase is the medium's to answer for (`AtomicOta.Otadata.Medium.torn_erase`), and what is known of
the programs is taken from there (`AtomicOta.Otadata.Medium.torn_program`).
-/

namespace AtomicOta.Otadata

/-! ### Media -/

/-- **A flash, as far as a cut erase is concerned.** -/
structure Medium where
  /-- What a cut erase may leave of a content. -/
  Wears : Raw → Raw → Prop
  /-- The contents that arise. -/
  Arises : Raw → Prop
  arises_of_residue : ∀ raw, Residue raw → Arises raw
  arises_of_wears : ∀ raw raw', Arises raw → Wears raw raw' → Arises raw'
  /-- A cut erase does not make an entry of a content that arises. -/
  accepted_of_wears : ∀ raw raw', Arises raw → Wears raw raw' →
    accepted raw' = accepted raw ∨ accepted raw' = none

namespace Medium

/-- What a command that is cut may leave. -/
inductive Torn (M : Medium) : Op → Flash → Flash → Prop
  | erase (s : Sector) (f : Flash) {raw : Raw} (h : M.Wears (f s) raw) :
    Torn M (.erase s) f (Function.update f s raw)
  | program {s : Sector} {offset len : ℕ} {data : Raw} {f f' : Flash}
    (h : TornOp (.program s offset len data) f f') : Torn M (.program s offset len data) f f'

/-- The flash and its history as a device. -/
def device (M : Medium) : Crash.Device Chip Cmd where
  apply := chipDevice.apply
  Torn c s s' := ∃ f', M.Torn c.op s.flash f' ∧ s' = ⟨f', c.record s f'⟩

/-- The boot chain on a medium. -/
def chain (M : Medium) (n : UInt8) (mayBoot : List Request → ImageOk → Prop)
    (mayAct : Option Running → Prop) : Crash.Machine Chip Cmd (Option Running) where
  device := M.device
  Start := Start n mayBoot mayAct
  off := none

/-- Every sector holds a content that arises. -/
def Sound (M : Medium) (f : Flash) : Prop := ∀ s, M.Arises (f s)

variable {M : Medium} {r : Request} {s s' : Chip}

@[simp] theorem device_apply (c : Cmd) (s : Chip) :
    M.device.apply c s = chipDevice.apply c s := rfl

theorem run_eq (ops : List Cmd) (s : Chip) : M.device.run ops s = chipDevice.run ops s := by
  induction ops generalizing s with
  | nil => rfl
  | cons c ops ih => exact ih _

theorem Sound.update {f : Flash} (h : M.Sound f) (t : Sector) {raw : Raw} (hr : M.Arises raw) :
    M.Sound (Function.update f t raw) := by
  intro t'
  rcases eq_or_ne t' t with rfl | hne
  · rwa [Function.update_self]
  · rw [Function.update_of_ne hne]
    exact h t'

theorem sound_blank : M.Sound Chip.blank.flash := fun _ => M.arises_of_residue _ residue_blank

/-! ### One update -/

/-- A cut erase: the sector reads as before, or as nothing. -/
theorem torn_erase (hs : M.Sound s.flash) (ht : M.device.Torn ⟨r, .erase⟩ s s') :
    M.Sound s'.flash ∧ LedgerTorn r s.read s'.read := by
  obtain ⟨f', ht, rfl⟩ := ht
  cases ht with
  | @erase _ _ raw h =>
    refine ⟨hs.update _ (M.arises_of_wears _ _ (hs _) h), ?_⟩
    rw [record_of_ne _ (by simp)]
    change LedgerTorn r s.read ⟨view (Function.update s.flash r.write.sector raw), s.log⟩
    rw [view_update]
    rcases M.accepted_of_wears _ _ (hs _) h with hsame | hnone
    · have hself : Function.update (view s.flash) r.write.sector
          (accepted (s.flash r.write.sector)) = view s.flash := Function.update_eq_self ..
      rw [hsame, hself]
      exact .old
    · rw [hnone]
      exact .dropped

/-- What is left of an update once its sector has been erased is left of the update. -/
theorem ledgerTorn_of_drop {l l' : Ledger} (h : LedgerTorn r (l.drop r) l') :
    LedgerTorn r l l' := by
  cases h with
  | old => exact .dropped
  | dropped =>
    have hdrop : (l.drop r).drop r = l.drop r := by simp only [Ledger.drop, Function.update_idem]
    rw [hdrop]
    exact .dropped
  | committed =>
    have hcommit : (l.drop r).commit r = l.commit r := by
      simp only [Ledger.drop, Ledger.commit, Function.update_idem]
    rw [hcommit]
    exact .committed

/-- A cut program finds an erased sector, so that the medium makes no difference to it: what is
known of the word-wise one, from that sector alone, is enough. -/
theorem torn_program {stage : Stage} (hne : stage ≠ .erase) {raw : Raw} (hs : M.Sound s.flash)
    (hplain : chipDevice.Torn ⟨r, stage⟩ (s.put r.write.sector raw) s' →
      Otadata.Sound {r.write.sector} s'.flash ∧
        LedgerTorn r (s.put r.write.sector blank).read s'.read)
    (ht : M.device.Torn ⟨r, stage⟩ (s.put r.write.sector raw) s') :
    M.Sound s'.flash ∧ LedgerTorn r s.read s'.read := by
  obtain ⟨f', ht, rfl⟩ := ht
  have htorn : TornOp (Cmd.op ⟨r, stage⟩) (s.put r.write.sector raw).flash f' := by
    cases stage with
    | erase => exact absurd rfl hne
    | body => cases ht with | program h => exact h
    | commit => cases ht with | program h => exact h
  obtain ⟨hres, hledger⟩ := hplain ⟨f', htorn, rfl⟩
  refine ⟨fun t => ?_, ledgerTorn_of_drop (read_put_blank (r := r) (s := s) ▸ hledger)⟩
  rcases eq_or_ne t r.write.sector with rfl | hother
  · exact M.arises_of_residue _ (hres _ rfl)
  · have hframe : f' t = s.flash t :=
      (htorn.frame (by rwa [sector_op])).trans (Function.update_of_ne hother ..)
    change M.Arises (f' t)
    rw [hframe]
    exact hs t

/-- To the word-wise chip, of which only the sector is known, it is erased. -/
theorem sound_erased (r : Request) (s : Chip) :
    Otadata.Sound {r.write.sector} (s.put r.write.sector blank).flash := by
  rintro _ rfl
  change Residue (Function.update s.flash r.write.sector blank r.write.sector)
  rw [Function.update_self]
  exact residue_blank

/-- A cut body. -/
theorem torn_body (hs : M.Sound s.flash)
    (ht : M.device.Torn ⟨r, .body⟩ (s.put r.write.sector blank) s') :
    M.Sound s'.flash ∧ LedgerTorn r s.read s'.read := by
  refine torn_program (by decide) hs (fun ht => ?_) ht
  refine Otadata.torn_body (s := s.put r.write.sector blank) (sound_erased r s) ?_
  rwa [put_put]

/-- A cut commit. -/
theorem torn_commit (hs : M.Sound s.flash)
    (ht : M.device.Torn ⟨r, .commit⟩ (s.put r.write.sector r.write.entry.body) s') :
    M.Sound s'.flash ∧ LedgerTorn r s.read s'.read := by
  refine torn_program (by decide) hs (fun ht => ?_) ht
  refine Otadata.torn_commit (s := s.put r.write.sector blank) (sound_erased r s) ?_
  rwa [put_put]

/-! ### Jobs -/

theorem Sound.put (hs : M.Sound s.flash) (t : Sector) {raw : Raw} (h : Residue raw) :
    M.Sound (s.put t raw).flash :=
  hs.update t (M.arises_of_residue _ h)

/-- **Every moment of a job on a medium reads as a moment of the job on the ledger.** -/
theorem safe_commands {G : Request → List Request → Prop} {C : Ledger → Prop} {rs : List Request}
    (hs : M.Sound s.flash) (h : ledgerDevice.Safe (fun r l => G r l.log) C rs s.read) :
    M.device.Safe (fun c s => G c.request s.log) (fun s => M.Sound s.flash ∧ C s.read)
      (commands rs) s := by
  induction rs generalizing s with
  | nil => exact ⟨hs, h⟩
  | cons r rs ih =>
    obtain ⟨hC, hG, htorn, hrest⟩ := h
    have hmoment : ∀ {s' : Chip}, M.Sound s'.flash ∧ LedgerTorn r s.read s'.read →
        M.Sound s'.flash ∧ C s'.read := fun h => ⟨h.1, htorn _ h.2⟩
    refine ⟨⟨hs, hC⟩, hG, fun s' ht => hmoment (torn_erase hs ht), ?_⟩
    rw [device_apply, apply_erase]
    refine ⟨hmoment ⟨hs.put _ residue_blank, read_put_blank ▸ .dropped⟩, hG,
      fun s' ht => hmoment (torn_body hs ht), ?_⟩
    rw [device_apply, apply_body]
    refine ⟨hmoment ⟨hs.put _ (residue_body _), read_put_body ▸ .dropped⟩, hG,
      fun s' ht => hmoment (torn_commit hs ht), ?_⟩
    rw [device_apply, apply_commit]
    exact ih (hs.update _ (M.arises_of_residue _ (residue_encode _))) (read_encode r s ▸ hrest)

/-- **A command that moves the ledger as its update may**: whether it completes or is cut, the
sector is accepted as before, or as nothing, or the update is complete. -/
def Moves (M : Medium) (c : Cmd) (s : Chip) : Prop :=
  ∀ s', s' = chipDevice.apply c s ∨ M.device.Torn c s s' → LedgerTorn c.request s.read s'.read

/-- Every command of a job does. -/
theorem safe_moves (rs : List Request) (hs : M.Sound s.flash) :
    M.device.Safe M.Moves (fun s => M.Sound s.flash) (commands rs) s := by
  induction rs generalizing s with
  | nil => exact hs
  | cons r rs ih =>
    have hblank : M.Sound (s.put r.write.sector blank).flash := hs.put _ residue_blank
    have hbody : M.Sound (s.put r.write.sector r.write.entry.body).flash :=
      hs.put _ (residue_body _)
    -- what a command may leave is known from the content it finds, which the one before left
    have hb := fun s' => @torn_body M r (s.put r.write.sector blank) s' hblank
    have hc := fun s' => @torn_commit M r (s.put r.write.sector r.write.entry.body) s' hbody
    simp only [put_put] at hb hc
    refine ⟨hs, ?_, fun s' ht => (torn_erase hs ht).1, ?_⟩
    · rintro s' (rfl | ht)
      · exact read_put_blank ▸ .dropped
      · exact (torn_erase hs ht).2
    rw [device_apply, apply_erase]
    refine ⟨hblank, ?_, fun s' ht => (hb s' ht).1, ?_⟩
    · rintro s' (rfl | ht)
      · have hread := read_put_body (r := r) (s := s.put r.write.sector blank)
        rw [put_put] at hread
        rw [apply_body, hread]
        exact .dropped
      · exact (hb s' ht).2
    rw [device_apply, apply_body]
    refine ⟨hbody, ?_, fun s' ht => (hc s' ht).1, ?_⟩
    · rintro s' (rfl | ht)
      · have happly := apply_commit r (s.put r.write.sector r.write.entry.body)
        have hread := read_encode r (s.put r.write.sector r.write.entry.body)
        rw [put_put] at happly
        rw [happly, hread]
        exact .committed
      · exact (hc s' ht).2
    rw [device_apply, apply_commit]
    exact ih (hs.update _ (M.arises_of_residue _ (residue_encode _)))

/-- What arises stays so through a job. -/
theorem Sound.run (hs : M.Sound s.flash) (rs : List Request) :
    M.Sound (chipDevice.run (commands rs) s).flash := by
  rw [← M.run_eq]
  exact (safe_moves rs hs).run

/-! ### Runs -/

variable {n : UInt8} {mayBoot : List Request → ImageOk → Prop} {mayAct : Option Running → Prop}

/-- An invariant of the ledger is one of the chain on a medium. -/
theorem keeps_chain {G : Request → List Request → Prop} {I : Option Running → Ledger → Prop}
    (hI : (ledgerMachine n mayBoot mayAct).Keeps (fun r l => G r l.log) I) :
    (M.chain n mayBoot mayAct).Keeps (fun c s => G c.request s.log)
      fun m s => M.Sound s.flash ∧ I m s.read := by
  refine ⟨fun m s h => ⟨h.1, hI.off m _ h.2⟩, fun m s ops m' h hstart => ?_,
    fun m s ops m' h hstart => ?_⟩
  · obtain ⟨rs, rfl, hrs⟩ := Start.ledger hstart
    exact safe_commands h.1 (hI.safe m _ rs m' h.2 hrs)
  · obtain ⟨rs, rfl, hrs⟩ := Start.ledger hstart
    have hdone := hI.done m _ rs m' h.2 hrs
    change M.Sound (M.device.run (commands rs) s).flash ∧
      I m' (M.device.run (commands rs) s).read
    rw [run_eq, read_run]
    exact ⟨h.1.run rs, hdone⟩

/-- **The chain refines the ledger, on every medium**: wherever a run is, if the power goes now,
what the flash reads as is a ledger that the abstract chain reaches; and so it is with what runs,
when no job is under way. -/
theorem refines_ledger {m : Option Running} {c : Crash.Config Chip Cmd (Option Running)}
    (hs : M.Sound s.flash) (hc : (M.chain n mayBoot mayAct).Reaches ⟨s, [], m⟩ c) :
    (ledgerMachine n mayBoot mayAct).Reaches ⟨s.read, [], m⟩ ⟨c.state.read, [], none⟩ ∧
      (c.todo = [] →
        (ledgerMachine n mayBoot mayAct).Reaches ⟨s.read, [], m⟩ ⟨c.state.read, [], c.mode⟩) := by
  have hkeeps : (M.chain n mayBoot mayAct).Keeps (fun _ _ => True) _ :=
    keeps_chain (G := fun _ _ => True) (Crash.Machine.keeps_reaches ⟨s.read, [], m⟩)
  have hholds := hkeeps.reaches (Crash.Machine.holds_idle hkeeps ⟨hs, .refl⟩) hc
  exact ⟨hholds.instant.2, fun htodo => (hholds.idle htodo).2⟩

/-- A step records at most the update its command belongs to. -/
theorem log_of_step {c c' : Crash.Config Chip Cmd (Option Running)}
    (h : (M.chain n mayBoot mayAct).Step c c') :
    c'.state.log = c.state.log ∨
      ∃ cmd cmds, c.todo = cmd :: cmds ∧ c'.state.log = cmd.request :: c.state.log := by
  cases h with
  | start h => exact .inl rfl
  | exec cmd cmds s m =>
    exact (record_cases cmd s _).imp id fun h => ⟨cmd, cmds, rfl, h⟩
  | @torn cmd s s' cmds m h =>
    obtain ⟨f', -, rfl⟩ := h
    exact (record_cases cmd s f').imp id fun h => ⟨cmd, cmds, rfl, h⟩
  | cut s cmds m => exact .inl rfl

end Medium

/-! ### The word-wise medium -/

/-- The medium of the boot chain. -/
def wordwise : Medium where
  Wears raw raw' := ∃ old, raw' = eraseExcept old raw
  Arises := Residue
  arises_of_residue _ h := h
  arises_of_wears := by
    rintro raw _ h ⟨old, rfl⟩
    exact h.eraseExcept old
  accepted_of_wears := by
    rintro raw _ h ⟨old, rfl⟩
    exact h.accepted_eraseExcept old

theorem torn_wordwise {op : Op} {f f' : Flash} : wordwise.Torn op f f' ↔ TornOp op f f' := by
  constructor
  · intro h
    cases h with
    | erase s f h =>
      obtain ⟨old, rfl⟩ := h
      exact .erase s f old
    | program h => exact h
  · intro h
    cases h with
    | erase s f old => exact .erase s f ⟨old, rfl⟩
    | program s offset len data f late => exact .program (.program s offset len data f late)

/-- **The chain on it is the boot chain.** -/
theorem chain_wordwise (n : UInt8) (mayBoot : List Request → ImageOk → Prop)
    (mayAct : Option Running → Prop) :
    wordwise.chain n mayBoot mayAct = chain n mayBoot mayAct := by
  have htorn : wordwise.device.Torn = chipDevice.Torn := by
    funext c s s'
    refine propext (exists_congr fun f' => ?_)
    rw [torn_wordwise]
  have hdevice : wordwise.device = chipDevice := by
    rw [show wordwise.device = ⟨chipDevice.apply, wordwise.device.Torn⟩ from rfl, htorn]
  rw [Medium.chain, hdevice]
  rfl

end AtomicOta.Otadata
