import AtomicOta.Otadata.Ledger

/-!
# The boot chain on its flash

The machine of `AtomicOta.Otadata.Ledger` with its bytes: the state is the flash and
the history of the updates whose commit took effect, an update is its three flash
commands, and a cut may leave anything `AtomicOta.Otadata.TornOp` allows, inside any
of them.

The two levels are related by `AtomicOta.Otadata.Chip.read`, which forgets the bytes
that are not accepted, under the invariant that every sector holds a residue
(`AtomicOta.Otadata.Sound`). One command of the ledger is three of the flash
(`AtomicOta.Otadata.run_cmds`), the moments in between all read as moments of the
ledger (`AtomicOta.Otadata.safe_commands`), and so an invariant of the abstract chain is
one of this one (`AtomicOta.Otadata.keeps_chain`).
-/

namespace AtomicOta.Otadata

/-! ### Commands -/

/-- The three commands of an update. -/
inductive Stage where
  | erase
  | body
  | commit
  deriving DecidableEq, Repr

/-- Its place among them. -/
def Stage.index : Stage → Fin 3
  | .erase => 0
  | .body => 1
  | .commit => 2

/-- A command of an update, with the update it belongs to. -/
structure Cmd where
  request : Request
  stage : Stage
  deriving DecidableEq, Repr

/-- The flash command: that of the write, in its place. -/
def Cmd.op (c : Cmd) : Op := c.request.write.ops.get c.stage.index

/-- The commands of an update. -/
def Request.cmds (r : Request) : List Cmd := [⟨r, .erase⟩, ⟨r, .body⟩, ⟨r, .commit⟩]

/-- They are the flash commands of its write. -/
theorem map_op_cmds (r : Request) : r.cmds.map Cmd.op = r.write.ops := rfl

theorem op_body (r : Request) :
    Cmd.op ⟨r, .body⟩ = .program r.write.sector 0 entrySize r.write.entry.body := rfl

theorem op_commit (r : Request) :
    Cmd.op ⟨r, .commit⟩ = .program r.write.sector offCommit 4 commitData := rfl

@[simp] theorem sector_op (c : Cmd) : c.op.sector = c.request.write.sector := by
  obtain ⟨r, stage⟩ := c
  cases stage <;> rfl

/-- The flash, with the updates whose commit took effect, newest first. -/
structure Chip where
  flash : Flash
  log : List Request

/-- The history after a command that leaves `f'`: an update enters it when its
last command takes complete effect. -/
def Cmd.record (c : Cmd) (s : Chip) (f' : Flash) : List Request :=
  if c.stage = .commit ∧ f' = applyOp c.op s.flash then c.request :: s.log else s.log

/-- The flash and its history as a device. -/
@[simps] def chipDevice : Crash.Device Chip Cmd where
  apply c s := ⟨applyOp c.op s.flash, c.record s (applyOp c.op s.flash)⟩
  Torn c s s' := ∃ f', TornOp c.op s.flash f' ∧ s' = ⟨f', c.record s f'⟩

/-- The commands of a job. -/
def commands (rs : List Request) : List Cmd := rs.flatMap Request.cmds

/-! ### The machine -/

/-- The jobs of the boot chain, as the functions of the source decide them. -/
inductive Start (n : UInt8) (mayBoot : List Request → ImageOk → Prop)
    (mayAct : Option Running → Prop) :
    Option Running → Chip → List Cmd → Option Running → Prop
  /-- A boot attempt: the writes of the plan, then the image it boots. -/
  | boot (m : Option Running) (s : Chip) (ok : ImageOk) (hok : mayBoot s.log ok) :
    Start n mayBoot mayAct m s (commands (issue .boot (planBoot s.flash n ok).writes))
      (planBoot s.flash n ok).boot.running
  /-- The agent's `activate`, when it does not refuse. -/
  | activate {m : Option Running} {s : Chip} {target : UInt8} {w : Write} (hm : mayAct m)
    (hw : activate s.flash n target = .ok w) :
    Start n mayBoot mayAct m s (commands (issue .activate [w])) m
  /-- The agent's `confirm`, when something is pending. -/
  | confirm {m : Option Running} {s : Chip} {w : Write} (hm : mayAct m)
    (hw : confirm s.flash = some w) :
    Start n mayBoot mayAct m s (commands (issue (.confirm m) [w])) m
  /-- The agent's `reject`, when something is pending. -/
  | reject {m : Option Running} {s : Chip} {w : Write} (hm : mayAct m)
    (hw : reject s.flash = some w) :
    Start n mayBoot mayAct m s (commands (issue .reject [w])) m

/-- The boot chain. -/
@[simps] def chain (n : UInt8) (mayBoot : List Request → ImageOk → Prop)
    (mayAct : Option Running → Prop) : Crash.Machine Chip Cmd (Option Running) where
  device := chipDevice
  Start := Start n mayBoot mayAct
  off := none

/-- A command records at most the update it belongs to. -/
theorem record_cases (c : Cmd) (s : Chip) (f' : Flash) :
    c.record s f' = s.log ∨ c.record s f' = c.request :: s.log := by
  unfold Cmd.record
  split_ifs
  exacts [.inr rfl, .inl rfl]

/-- A step records at most the update its command belongs to. -/
theorem log_of_step {n : UInt8} {mayBoot : List Request → ImageOk → Prop}
    {mayAct : Option Running → Prop} {c c' : Crash.Config Chip Cmd (Option Running)}
    (h : (chain n mayBoot mayAct).Step c c') :
    c'.state.log = c.state.log ∨
      ∃ cmd cmds, c.todo = cmd :: cmds ∧ c'.state.log = cmd.request :: c.state.log := by
  cases h with
  | start h => exact .inl rfl
  | exec cmd cmds s m =>
    exact (record_cases cmd s _).imp id fun h => ⟨cmd, cmds, rfl, h⟩
  | @torn cmd s s' cmds m h =>
    obtain ⟨f', -, rfl⟩ := h
    exact (record_cases cmd s f').imp id fun h => ⟨cmd, cmds, rfl, h⟩
  | cut s cmds m => exact .inl rfl

/-- Two blank sectors, no history. -/
def Chip.blank : Chip := ⟨fun _ => Otadata.blank, []⟩

/-- A chain at rest, switched off, on a given flash. -/
def atRest (s : Chip) : Crash.Config Chip Cmd (Option Running) := ⟨s, [], none⟩

/-! ### One update, command by command -/

/-- Every sector of `S` holds a residue. -/
def Sound (S : Set Sector) (f : Flash) : Prop := ∀ s ∈ S, Residue (f s)

theorem Sound.update {S : Set Sector} {f : Flash} (h : Sound S f) (s : Sector) {raw : Raw}
    (hr : Residue raw) : Sound S (Function.update f s raw) := by
  intro s' hs'
  rcases eq_or_ne s' s with rfl | hne
  · rwa [Function.update_self]
  · rw [Function.update_of_ne hne]
    exact h s' hs'

theorem view_update (f : Flash) (s : Sector) (raw : Raw) :
    view (Function.update f s raw) = Function.update (view f) s (accepted raw) := by
  funext s'
  rcases eq_or_ne s' s with rfl | hne
  · rw [view, Function.update_self, Function.update_self]
  · rw [view, Function.update_of_ne hne, Function.update_of_ne hne, view]

/-- Without the commit mark nothing is accepted. -/
theorem accepted_of_word {raw : Raw} (h : word raw offCommit ≠ commit) : accepted raw = none := by
  refine Option.eq_none_iff_forall_ne_some.mpr fun e he => h ?_
  obtain ⟨-, rfl⟩ := (decode_eq_ok_iff _ _).mp (accepted_eq_some.mp he)
  exact word_encode e 5

/-- The ledger a chip reads as. -/
def Chip.read (s : Chip) : Ledger := ⟨view s.flash, s.log⟩

/-- A chip whose sector holds `raw`, the history untouched. -/
def Chip.put (s : Chip) (sector : Sector) (raw : Raw) : Chip :=
  ⟨Function.update s.flash sector raw, s.log⟩

section Commands

variable (r : Request) (s : Chip)

theorem record_of_ne {c : Cmd} (h : c.stage ≠ .commit) (f' : Flash) : c.record s f' = s.log :=
  if_neg fun hc => h hc.1

theorem apply_erase : chipDevice.apply ⟨r, .erase⟩ s = s.put r.write.sector blank := rfl

theorem apply_body : chipDevice.apply ⟨r, .body⟩ (s.put r.write.sector blank) =
    s.put r.write.sector r.write.entry.body := by
  have h : applyOp (Cmd.op ⟨r, .body⟩) (s.put r.write.sector blank).flash =
      Function.update s.flash r.write.sector r.write.entry.body := by
    simp only [op_body, applyOp, Chip.put, Function.update_self, Function.update_idem,
      programRaw_blank]
  change Chip.mk _ _ = _
  rw [h, record_of_ne _ (by simp)]
  rfl

/-- The complete effect of the commit of an update, on its body. -/
theorem applyOp_commit :
    applyOp (Cmd.op ⟨r, .commit⟩) (s.put r.write.sector r.write.entry.body).flash =
      Function.update s.flash r.write.sector r.write.entry.encode := by
  simp only [op_commit, applyOp, Chip.put, Function.update_self, Function.update_idem,
    programRaw_body]

theorem apply_commit : chipDevice.apply ⟨r, .commit⟩ (s.put r.write.sector r.write.entry.body) =
    ⟨Function.update s.flash r.write.sector r.write.entry.encode, r :: s.log⟩ := by
  change Chip.mk _ _ = _
  rw [Cmd.record, if_pos ⟨rfl, rfl⟩, applyOp_commit]
  rfl

/-- An update that completes, with its history. -/
theorem run_cmds : chipDevice.run r.cmds s =
    ⟨Function.update s.flash r.write.sector r.write.entry.encode, r :: s.log⟩ := by
  simp only [Request.cmds, Crash.Device.run_cons, Crash.Device.run_nil, apply_erase, apply_body,
    apply_commit]

theorem read_encode :
    Chip.read ⟨Function.update s.flash r.write.sector r.write.entry.encode, r :: s.log⟩ =
      s.read.commit r := by
  rw [Chip.read, view_update, accepted_encode]
  rfl

variable {r s} {S : Set Sector}

/-- To the ledger, a content without the commit mark is a drop. -/
theorem read_put {raw : Raw} (h : word raw offCommit ≠ commit) :
    (s.put r.write.sector raw).read = s.read.drop r := by
  rw [Chip.read, Chip.put, view_update, accepted_of_word h]
  rfl

theorem read_put_blank : (s.put r.write.sector blank).read = s.read.drop r :=
  read_put ((word_blank 5).trans_ne (by decide))

theorem read_put_body : (s.put r.write.sector r.write.entry.body).read = s.read.drop r :=
  read_put ((word_body r.write.entry 5).trans_ne (show u32Max ≠ commit by decide))

/-- A cut erase: the sector reads as before, or as nothing. -/
theorem torn_erase {s' : Chip} (hS : r.write.sector ∈ S) (hs : Sound S s.flash)
    (ht : chipDevice.Torn ⟨r, .erase⟩ s s') :
    Sound S s'.flash ∧ LedgerTorn r s.read s'.read := by
  obtain ⟨f', ht, rfl⟩ := ht
  cases ht with
  | erase _ _ old =>
    refine ⟨hs.update _ ((hs _ hS).eraseExcept old), ?_⟩
    rw [record_of_ne _ (by simp)]
    change LedgerTorn r s.read ⟨view (Function.update s.flash r.write.sector
      (eraseExcept old (s.flash r.write.sector))), s.log⟩
    rw [view_update]
    rcases (hs _ hS).accepted_eraseExcept old with h | h
    · rw [h]
      have hself : Function.update (view s.flash) r.write.sector
          (accepted (s.flash r.write.sector)) = view s.flash := Function.update_eq_self ..
      rw [hself]
      exact .old
    · rw [h]
      exact .dropped

/-- A cut body: the sector, erased by then, reads as nothing. -/
theorem torn_body {s' : Chip} (hs : Sound S s.flash)
    (ht : chipDevice.Torn ⟨r, .body⟩ (s.put r.write.sector blank) s') :
    Sound S s'.flash ∧ LedgerTorn r s.read s'.read := by
  obtain ⟨f', ht, rfl⟩ := ht
  cases ht with
  | program _ _ _ _ _ late =>
    rw [record_of_ne _ (by simp)]
    simp only [Chip.put, Function.update_self, Function.update_idem, programRaw_blank]
    -- the body programs nothing into the commit word, so neither does a part of it
    have hword : word (fun i => r.write.entry.body i ||| late i) offCommit = u32Max := by
      have hbody : word r.write.entry.body offCommit = u32Max := word_body _ 5
      rw [word_or, hbody, allOnes_or_left]
    refine ⟨hs.update _ (residue_of_word hword), ?_⟩
    have hread := read_put (r := r) (s := s) (hword.trans_ne (show u32Max ≠ commit by decide))
    exact hread ▸ .dropped

/-- A cut commit: the sector reads as nothing, or the update is complete. -/
theorem torn_commit {s' : Chip} (hs : Sound S s.flash)
    (ht : chipDevice.Torn ⟨r, .commit⟩ (s.put r.write.sector r.write.entry.body) s') :
    Sound S s'.flash ∧ LedgerTorn r s.read s'.read := by
  obtain ⟨f', ht, rfl⟩ := ht
  rw [Cmd.record, applyOp_commit]
  cases ht with
  | program _ _ _ _ _ late =>
    simp only [Chip.put, Function.update_self, Function.update_idem]
    by_cases hw : word (programRaw offCommit 4 (fun i => commitData i ||| late i)
        r.write.entry.body) offCommit = commit
    · rw [programRaw_body_of_word hw, if_pos ⟨trivial, rfl⟩, read_encode]
      exact ⟨hs.update _ (residue_encode _), .committed⟩
    · rw [if_neg]
      · exact ⟨hs.update _ (Or.inl hw), read_put (r := r) (s := s) hw ▸ .dropped⟩
      · rintro ⟨-, heq⟩
        have hraw := congrFun heq r.write.sector
        rw [Function.update_self, Function.update_self] at hraw
        exact hw (hraw ▸ word_encode _ 5)

end Commands

/-! ### The first boot -/

/-- The update of a first boot. -/
def seedRequest : Request := ⟨⟨0, ⟨1, State.valid⟩⟩, .boot⟩

/-- The chip once the first boot is over. -/
def Chip.seeded : Chip :=
  ⟨Function.update (fun _ => Otadata.blank) 0 (Entry.encode ⟨1, State.valid⟩), [seedRequest]⟩

theorem flash_seeded : Chip.seeded.flash =
    Function.update (fun _ => Otadata.blank) 0 (Entry.encode ⟨1, State.valid⟩) :=
  rfl

/-- A boot that finds no entry, and slot 0 bootable, seeds it. -/
theorem start_seed {n : UInt8} {mayBoot : List Request → ImageOk → Prop}
    {mayAct : Option Running → Prop} {s : Chip} (hnone : ∀ t, view s.flash t = none)
    (h : mayBoot s.log fun _ _ => true) :
    Start n mayBoot mayAct none s (commands [seedRequest]) (some ⟨0, 0, 1⟩) := by
  have hplan : planBoot s.flash n (fun _ _ => true) = seedPlan := by
    rcases decides_of_none (decides_planBoot s.flash n _) hnone with ⟨hp, -⟩ | ⟨-, hok⟩
    · exact hp
    · exact absurd hok (by simp)
  have hstart : Start n mayBoot mayAct none s _ _ := .boot none s _ h
  rwa [hplan] at hstart

/-- From a blank flash, a boot that finds slot 0 bootable seeds it. -/
theorem reaches_seeded {n : UInt8} {mayBoot : List Request → ImageOk → Prop}
    {mayAct : Option Running → Prop} (h : mayBoot [] fun _ _ => true) :
    (chain n mayBoot mayAct).Reaches (atRest Chip.blank) ⟨Chip.seeded, [], some ⟨0, 0, 1⟩⟩ := by
  have hreach := Crash.Machine.reaches_done (M := chain n mayBoot mayAct)
    (start_seed (s := Chip.blank) (fun _ => accepted_blank) h)
  have hrun : chipDevice.run (commands [seedRequest]) Chip.blank = Chip.seeded :=
    run_cmds seedRequest Chip.blank
  exact hrun ▸ hreach

/-! ### Jobs -/

/-- A job that completes is, to the ledger, the job on the ledger. -/
theorem read_run (rs : List Request) (s : Chip) :
    (chipDevice.run (commands rs) s).read = ledgerDevice.run rs s.read := by
  induction rs generalizing s with
  | nil => rfl
  | cons r rs ih =>
    rw [commands, List.flatMap_cons, Crash.Device.run_append]
    change (chipDevice.run (commands rs) _).read = _
    rw [ih, run_cmds, read_encode]
    rfl

/-- What a job that completes leaves. -/
theorem run_commands (o : Origin) (ws : List Write) (s : Chip) :
    chipDevice.run (commands (issue o ws)) s =
      ⟨execWrites s.flash ws, (issue o ws).reverse ++ s.log⟩ := by
  induction ws generalizing s with
  | nil => rfl
  | cons w ws ih =>
    have hcons : commands (issue o (w :: ws)) = (⟨w, o⟩ : Request).cmds ++ commands (issue o ws) :=
      rfl
    rw [hcons, Crash.Device.run_append, run_cmds, ih, execWrites_cons]
    simp [issue]

theorem sound_run {S : Set Sector} {s : Chip} (hs : Sound S s.flash) (rs : List Request) :
    Sound S (chipDevice.run (commands rs) s).flash := by
  induction rs generalizing s with
  | nil => exact hs
  | cons r rs ih =>
    rw [commands, List.flatMap_cons, Crash.Device.run_append]
    refine ih ?_
    rw [run_cmds]
    exact hs.update _ (residue_encode _)

/-- **Every moment of a job on the flash reads as a moment of the job on the
ledger.** -/
theorem safe_commands {S : Set Sector} {G : Request → List Request → Prop} {C : Ledger → Prop}
    {rs : List Request} {s : Chip} (hS : ∀ r ∈ rs, r.write.sector ∈ S) (hs : Sound S s.flash)
    (h : ledgerDevice.Safe (fun r l => G r l.log) C rs s.read) :
    chipDevice.Safe (fun c s => G c.request s.log) (fun s => Sound S s.flash ∧ C s.read)
      (commands rs) s := by
  induction rs generalizing s with
  | nil => exact ⟨hs, h⟩
  | cons r rs ih =>
    obtain ⟨hC, hG, htorn, hrest⟩ := h
    have hmoment : ∀ {s' : Chip}, Sound S s'.flash ∧ LedgerTorn r s.read s'.read →
        Sound S s'.flash ∧ C s'.read := fun h => ⟨h.1, htorn _ h.2⟩
    have hblank : Sound S (s.put r.write.sector blank).flash := hs.update _ residue_blank
    have hbody : Sound S (s.put r.write.sector r.write.entry.body).flash :=
      hs.update _ (residue_body _)
    -- the three commands in turn: what is there before each, and what it leaves when cut
    refine ⟨⟨hs, hC⟩, hG, fun s' ht => hmoment (torn_erase (hS r List.mem_cons_self) hs ht), ?_⟩
    rw [apply_erase]
    refine ⟨hmoment ⟨hblank, read_put_blank ▸ .dropped⟩, hG,
      fun s' ht => hmoment (torn_body hs ht), ?_⟩
    rw [apply_body]
    refine ⟨hmoment ⟨hbody, read_put_body ▸ .dropped⟩, hG,
      fun s' ht => hmoment (torn_commit hs ht), ?_⟩
    rw [apply_commit]
    exact ih (fun r' hr' => hS r' (List.mem_cons_of_mem _ hr')) (hs.update _ (residue_encode _))
      (read_encode r s ▸ hrest)

theorem put_put (s : Chip) (sector : Sector) (raw raw' : Raw) :
    (s.put sector raw).put sector raw' = s.put sector raw' := by
  simp only [Chip.put, Function.update_idem]

/-- Every job of the chain is the commands of a job of the ledger. -/
theorem Start.ledger {n : UInt8} {mayBoot : List Request → ImageOk → Prop}
    {mayAct : Option Running → Prop} {m m' : Option Running} {s : Chip} {ops : List Cmd}
    (h : Start n mayBoot mayAct m s ops m') :
    ∃ rs, ops = commands rs ∧ LedgerStart n mayBoot mayAct m s.read rs m' := by
  cases h with
  | boot ok hok => exact ⟨_, rfl, .boot hok (decides_planBoot s.flash n ok)⟩
  | activate hm hw =>
    obtain ⟨e, he, hnew, -, habove⟩ := activate_ok hw
    exact ⟨_, rfl, .activate hm he hnew habove⟩
  | confirm hm hw =>
    obtain ⟨e, he, hwe⟩ := confirm_some hw
    exact ⟨_, rfl, .confirm hm he hwe⟩
  | reject hm hw =>
    obtain ⟨e, he, hwe⟩ := reject_some hw
    exact ⟨_, rfl, .reject hm he hwe⟩

/-- **The chain refines the ledger**: an invariant of the abstract machine is one
of the chain, of what its flash reads as. -/
theorem keeps_chain {n : UInt8} {mayBoot : List Request → ImageOk → Prop}
    {mayAct : Option Running → Prop} {G : Request → List Request → Prop}
    {I : Option Running → Ledger → Prop}
    (hI : (ledgerMachine n mayBoot mayAct).Keeps (fun r l => G r l.log) I) :
    (chain n mayBoot mayAct).Keeps (fun c s => G c.request s.log)
      fun m s => Sound Set.univ s.flash ∧ I m s.read := by
  refine ⟨fun m s h => ⟨h.1, hI.off m _ h.2⟩, fun m s ops m' h hstart => ?_,
    fun m s ops m' h hstart => ?_⟩
  · obtain ⟨rs, rfl, hrs⟩ := Start.ledger hstart
    exact safe_commands (fun _ _ => Set.mem_univ _) h.1 (hI.safe m _ rs m' h.2 hrs)
  · obtain ⟨rs, rfl, hrs⟩ := Start.ledger hstart
    refine ⟨sound_run h.1 rs, ?_⟩
    have hdone := hI.done m _ rs m' h.2 hrs
    change I m' (chipDevice.run (commands rs) s).read
    rw [read_run]
    exact hdone

end AtomicOta.Otadata
