import AtomicOta.Otadata.Cycle
import AtomicOta.Otadata.Guarded

/-!
# The last validated image is never lost

The entry that was validated last – the seed of the first boot, or the last
confirmation – stays on the flash byte for byte until another confirmation replaces
it, in the other sector. The only assumption is that its image stays bootable
(`AtomicOta.Otadata.TrustsLast`); every other answer about images, the order of the
agent's steps and the cuts are arbitrary.

The invariant is that the entry is there and guarded
(`AtomicOta.Otadata.Keeping`): every update that is not a seed or a confirmation is
beside it, at every moment and however it is cut, and a confirmation takes its place.
-/

namespace AtomicOta.Otadata

/-- The last validation whose commit took effect. -/
def lastValid (log : List Request) : Option Request :=
  log.find? fun r => r.write.entry.state = State.valid

theorem lastValid_cons_of_valid {r : Request} (log : List Request)
    (h : r.write.entry.state = State.valid) : lastValid (r :: log) = some r := by
  simp [lastValid, h]

theorem lastValid_cons_of_ne {r : Request} (log : List Request)
    (h : r.write.entry.state ≠ State.valid) : lastValid (r :: log) = lastValid log := by
  simp [lastValid, h]

/-- The image validated last is bootable. -/
def TrustsLast (n : UInt8) (log : List Request) (ok : ImageOk) : Prop :=
  ∀ v, lastValid log = some v → ∀ k, ok k (slotOf v.write.entry.seq n) = true

/-- The chain in which it is, and the agent acts whenever it likes. -/
abbrev trustingChain (n : UInt8) : Crash.Machine Chip Cmd (Option Running) :=
  chain n (TrustsLast n) fun _ => True

/-! ### The invariant -/

/-- The validated entry `v`, the last one, is on the flash and guarded. -/
structure Keeping (v : Request) (l : Ledger) : Prop where
  last : lastValid l.log = some v
  guarded : Guarded v.write l.book
  admissible : ∀ s e, l.book s = some e → e.Admissible

/-- **The invariant**: nothing was validated and nothing is on the flash, or the last
validated entry is there and guarded. -/
def Kept (l : Ledger) : Prop :=
  (lastValid l.log = none ∧ ∀ s, l.book s = none) ∨ ∃ v, Keeping v l

/-- What an update that starts may be: not in the sector of the last validated entry,
and a validation only as a confirmation. -/
def Spares (r : Request) (log : List Request) : Prop :=
  ∀ v, lastValid log = some v → r.write.sector ≠ v.write.sector ∧
    (r.write.entry.state = State.valid → ∃ image, r.origin = .confirm image)

theorem admissible_drop {l : Ledger} (h : ∀ s e, l.book s = some e → e.Admissible)
    (r : Request) : ∀ s e, (l.drop r).book s = some e → e.Admissible :=
  fun s e he => h s e (Ledger.book_of_drop he).2

theorem admissible_commit {l : Ledger} (h : ∀ s e, l.book s = some e → e.Admissible)
    (r : Request) : ∀ s e, (l.commit r).book s = some e → e.Admissible := by
  intro s e he
  rcases Ledger.book_commit_cases he with ⟨-, he⟩ | ⟨-, -, hadm⟩
  exacts [h s e he, hadm]

theorem Keeping.drop {v : Request} {l : Ledger} (h : Keeping v l) {r : Request}
    (hr : r.write.sector ≠ v.write.sector) : Keeping v (l.drop r) :=
  ⟨h.last, h.guarded.erase hr, admissible_drop h.admissible r⟩

theorem Keeping.commit {v : Request} {l : Ledger} (h : Keeping v l) {r : Request}
    (hr : Beside v.write r.write) : Keeping v (l.commit r) :=
  ⟨(lastValid_cons_of_ne _ (mt Entry.trust_eq_valid.mpr hr.ne_valid)).trans h.last,
    h.guarded.write hr, admissible_commit h.admissible r⟩

/-- An update in the other sector spares the last validated entry; only a confirmation
may be a validation. -/
theorem Keeping.spares {v : Request} {l : Ledger} (h : Keeping v l) {r : Request}
    (hne : r.write.sector ≠ v.write.sector)
    (hvalid : r.write.entry.state = State.valid → ∃ image, r.origin = .confirm image) :
    Spares r l.log := by
  intro v' hv'
  obtain rfl : v = v' := Option.some.inj (h.last.symm.trans hv')
  exact ⟨hne, hvalid⟩

/-- A job beside the validated entry keeps it at every moment. -/
theorem Keeping.safe {v : Request} {l : Ledger} (h : Keeping v l) {rs : List Request}
    (hrs : ∀ r ∈ rs, Beside v.write r.write) :
    ledgerDevice.Safe (fun r l => Spares r l.log) Kept rs l := by
  have hsafe : ledgerDevice.Safe (fun r l => Spares r l.log) (Keeping v) rs l := by
    refine ledger_safe_of_preserved (fun r hr l hl => ?_) h
    have hb := hrs r hr
    exact ⟨hl.spares hb.sector_ne fun hs => absurd (Entry.trust_eq_valid.mpr hs) hb.ne_valid,
      hl.drop hb.sector_ne, hl.commit hb⟩
  exact hsafe.mono (fun _ _ hG => hG) fun _ hC => .inr ⟨v, hC⟩

/-- A job of one update, from what it may leave. -/
theorem safe_single {G : Request → Ledger → Prop} {C : Ledger → Prop} {r : Request} {l : Ledger}
    (hl : C l) (hG : G r l) (hdrop : C (l.drop r)) (hcommit : C (l.commit r)) :
    ledgerDevice.Safe G C [r] l := by
  refine ⟨hl, hG, fun l' ht => ?_, hcommit⟩
  cases ht with
  | old => exact hl
  | dropped => exact hdrop
  | committed => exact hcommit

/-- The first boot: nothing is there, and what it writes is kept. -/
theorem safe_seed {l : Ledger} (hlast : lastValid l.log = none) (hnone : ∀ s, l.book s = none) :
    ledgerDevice.Safe (fun r l => Spares r l.log) Kept [seedRequest] l := by
  have habsurd : ∀ {s : Sector} {e : Entry} {P : Prop}, l.book s = some e → P :=
    fun he => absurd he (ne_some_of_none hnone)
  refine safe_single (.inl ⟨hlast, hnone⟩) (fun v hv => absurd (hlast.symm.trans hv) (by simp))
    (.inl ⟨hlast, fun s => Option.eq_none_iff_forall_ne_some.mpr fun e he =>
      habsurd (Ledger.book_of_drop he).2⟩) ?_
  exact .inr ⟨seedRequest, lastValid_cons_of_valid _ rfl, guarded_seed hnone,
    admissible_commit (fun s e he => habsurd he) _⟩

/-- **Every job keeps the invariant**, and spares the validated entry, at every
moment. -/
theorem Kept.safe {n : UInt8} {m m' : Option Running} {l : Ledger} {rs : List Request}
    (h : Kept l) (hstart : LedgerStart n (TrustsLast n) (fun _ => True) m l rs m') :
    ledgerDevice.Safe (fun r l => Spares r l.log) Kept rs l := by
  have hsingle : ∀ {o : Origin} {w : Write} {r : Request}, r ∈ issue o [w] → r.write = w :=
    fun hr => List.mem_singleton.mp (mem_issue.mp hr).1
  rcases h with ⟨hlast, hnone⟩ | ⟨v, hv⟩
  · -- nothing is there: the seed, or nothing to do at all
    have habsurd : ∀ {s : Sector} {e : Entry} {P : Prop}, l.book s = some e → P :=
      fun he => absurd he (ne_some_of_none hnone)
    cases hstart with
    | boot hok hp =>
      rcases decides_of_none hp hnone with ⟨rfl, -⟩ | ⟨rfl, -⟩
      · exact safe_seed hlast hnone
      · exact .inl ⟨hlast, hnone⟩
    | activate _ hbase _ _ => exact habsurd hbase.entry
    | confirm _ he _ => exact habsurd he.entry
    | reject _ he _ => exact habsurd he.entry
  · cases hstart with
    | boot hok hp =>
      exact hv.safe fun r hr =>
        hv.guarded.beside_of_decides (hok v hv.last) hp r.write (mem_issue.mp hr).1
    | activate _ hbase hnew habove =>
      exact hv.safe fun r hr => hsingle hr ▸ hv.guarded.beside_of_activate hbase hnew habove
    | reject _ he hw =>
      exact hv.safe fun r hr => hsingle hr ▸ hv.guarded.beside_of_reject he hw
    | @confirm w e _ he hw =>
      have hne : w.sector ≠ v.write.sector := (hv.guarded.pending he).1 ▸ other_ne _
      refine safe_single (.inr ⟨v, hv⟩) (hv.spares hne fun _ => ⟨m, rfl⟩)
        (.inr ⟨v, hv.drop hne⟩) (.inr ⟨⟨w, .confirm m⟩, ?_⟩)
      exact ⟨lastValid_cons_of_valid _ (by simp [hw]),
        hv.guarded.confirm he (hv.admissible _ _ he.entry) hw, admissible_commit hv.admissible _⟩

theorem keeps_kept (n : UInt8) :
    (ledgerMachine n (TrustsLast n) fun _ => True).Keeps (fun r l => Spares r l.log)
      fun _ => Kept :=
  ⟨fun _ _ h => h, fun _ _ _ _ h hstart => h.safe hstart,
    fun _ _ _ _ h hstart => (h.safe hstart).run⟩

/-! ### The runs -/

/-- **What the next boot would do**: it boots the validated entry or a newer one that
has never run, which it marks, and leaves the sector of the validated entry alone. -/
structure FallsBackTo (v : Write) (f : Flash) (n : UInt8) (p : Plan) : Prop where
  writes : ∀ w ∈ p.writes, w.sector ≠ v.sector
  boot : p.boot = .slot (slotOf v.entry.seq n) v.sector v.entry.seq ∨
    ∃ e, decode (f (other v.sector)) = .ok e ∧ e.state = State.new ∧
      v.entry.seq.toNat < e.seq.toNat ∧
      p.boot = .slot (slotOf e.seq n) (other v.sector) e.seq ∧
      (⟨other v.sector, ⟨e.seq, State.pendingVerify⟩⟩ : Write) ∈ p.writes

theorem Keeping.fallsBackTo {v : Request} {s : Chip} (h : Keeping v s.read) {n : UInt8}
    {ok : ImageOk} (hok : ∀ k, ok k (slotOf v.write.entry.seq n) = true) :
    FallsBackTo v.write s.flash n (planBoot s.flash n ok) := by
  have hp := decides_planBoot s.flash n ok
  have hbeside := h.guarded.beside_of_decides hok hp
  have hentry : view s.flash v.write.sector = some v.write.entry := h.guarded.entry
  refine ⟨fun w hw => (hbeside w hw).sector ▸ other_ne _, ?_⟩
  -- the validated entry is a candidate, and its image is bootable
  have hmem : (⟨v.write.sector, v.write.entry.seq, .valid⟩ : Candidate) ∈ ranked (view s.flash) :=
    mem_ranked.mpr ⟨_, hentry, .inl h.guarded.valid, rfl, h.guarded.valid.symm⟩
  generalize hplan : planBoot s.flash n ok = p at hp
  cases hp with
  | boots pre c post hranked hpre hc =>
    rw [hranked, List.mem_append, List.mem_cons] at hmem
    rcases hmem with hmem | rfl | hmem
    · obtain ⟨j, hj⟩ := hpre _ hmem
      rw [hok] at hj
      exact absurd hj (by simp)
    · exact .inl rfl
    · -- it is booted ahead of the validated entry: it is the other one, and unproven
      refine .inr ?_
      have hpair := ranked_pairwise (view s.flash)
      rw [hranked] at hpair
      obtain ⟨hle, hne⟩ := (List.pairwise_cons.mp (List.pairwise_append.mp hpair).2.1).1 _ hmem
      obtain ⟨e, he, ht, hseq, htrust⟩ := mem_ranked.mp
        (hranked ▸ (by simp) : c ∈ ranked (view s.flash))
      have hsector : c.sector = other v.write.sector := eq_other_of_ne hne
      rw [hsector] at he
      rw [hseq] at hle
      rcases ht with ht | ht
      · have hlt := h.guarded.older e he ht
        change v.write.entry.seq.toNat ≤ e.seq.toNat at hle
        omega
      · refine ⟨e, accepted_eq_some.mp he, Entry.trust_eq_unproven.mp ht,
          h.guarded.newer e he (.inr ht), by rw [hsector, hseq], ?_⟩
        have hmark : c.mark = [⟨c.sector, ⟨c.seq, State.pendingVerify⟩⟩] :=
          if_pos (htrust.trans ht)
        rw [hmark, hsector, hseq]
        simp
  | seeds hnone _ => exact absurd hentry (ne_some_of_none hnone)
  | noImage hnone _ => exact absurd hentry (ne_some_of_none hnone)
  | noUsable _ hall =>
    obtain ⟨j, hj⟩ := hall _ hmem
    rw [hok] at hj
    exact absurd hj (by simp)

theorem holds_blank (n : UInt8) : (trustingChain n).Holds (fun c s => Spares c.request s.log)
    (fun _ s => Sound Set.univ s.flash ∧ Kept s.read) (atRest Chip.blank) :=
  Crash.Machine.holds_idle (keeps_chain (keeps_kept n))
    ⟨fun _ _ => residue_blank, .inl ⟨rfl, fun _ => accepted_blank⟩⟩

/-- **The last validated image is never lost.** At every moment of every run the flash
holds the entry validated last, byte for byte; the command that comes next is not in
its sector; the next step leaves it the last one, or completes a confirmation in the
other sector; and a boot attempt made now falls back to it. -/
theorem last_valid_is_kept (n : UInt8) (c : Crash.Config Chip Cmd (Option Running))
    (hc : (trustingChain n).Reaches (atRest Chip.blank) c) (v : Request)
    (hv : lastValid c.state.log = some v) :
    (c.state.flash v.write.sector = v.write.entry.encode ∧
      decode (c.state.flash v.write.sector) = .ok v.write.entry) ∧
    (∀ cmd cmds, c.todo = cmd :: cmds → cmd.op.sector ≠ v.write.sector) ∧
    (∀ c', (trustingChain n).Step c c' → lastValid c'.state.log = some v ∨
      ∃ v' image, lastValid c'.state.log = some v' ∧ v'.origin = .confirm image ∧
        v'.write.sector = other v.write.sector) ∧
    ∀ ok : ImageOk, (∀ k, ok k (slotOf v.write.entry.seq n) = true) →
      FallsBackTo v.write c.state.flash n (planBoot c.state.flash n ok) := by
  have hholds := (keeps_chain (keeps_kept n)).reaches (holds_blank n) hc
  obtain ⟨v', hkeep⟩ : ∃ v, Keeping v c.state.read := by
    rcases hholds.instant.2 with ⟨hlast, -⟩ | h
    · exact absurd (hlast.symm.trans hv) (by simp)
    · exact h
  obtain rfl : v' = v := Option.some.inj (hkeep.last.symm.trans hv)
  have hdec : decode (c.state.flash v'.write.sector) = .ok v'.write.entry :=
    accepted_eq_some.mp hkeep.guarded.entry
  refine ⟨⟨((decode_eq_ok_iff _ _).mp hdec).2, hdec⟩, fun cmd cmds htodo => ?_, fun c' hstep => ?_,
    fun ok hok => hkeep.fallsBackTo hok⟩
  · rw [sector_op]
    exact (hholds.next htodo v' hv).1
  · -- a step records one update at most, and that one was permitted when it began
    rcases log_of_step hstep with hlog | ⟨cmd, cmds, htodo, hlog⟩
    · exact .inl (hlog ▸ hv)
    · obtain ⟨hne, hconfirm⟩ := hholds.next htodo v' hv
      by_cases hvalid : cmd.request.write.entry.state = State.valid
      · obtain ⟨image, himage⟩ := hconfirm hvalid
        rw [hlog]
        exact .inr ⟨cmd.request, image, lastValid_cons_of_valid _ hvalid, himage,
          eq_other_of_ne hne⟩
      · rw [hlog, lastValid_cons_of_ne _ hvalid]
        exact .inl hv

/-- The same for an image that was installed and confirmed, while the next one is activated. -/
theorem last_valid_is_kept_updated :
    let v : Request := ⟨⟨1, ⟨2, State.valid⟩⟩, .confirm (some ⟨1, 1, 2⟩)⟩
    let c : Crash.Config Chip Cmd (Option Running) :=
      ⟨Chip.updated, commands (issue .activate [⟨0, ⟨3, State.new⟩⟩]), some ⟨1, 1, 2⟩⟩
    (c.state.flash v.write.sector = v.write.entry.encode ∧
      decode (c.state.flash v.write.sector) = .ok v.write.entry) ∧
    (∀ cmd cmds, c.todo = cmd :: cmds → cmd.op.sector ≠ v.write.sector) ∧
    (∀ c', (trustingChain 2).Step c c' → lastValid c'.state.log = some v ∨
      ∃ v' image, lastValid c'.state.log = some v' ∧ v'.origin = .confirm image ∧
        v'.write.sector = other v.write.sector) ∧
    ∀ ok : ImageOk, (∀ k, ok k (slotOf v.write.entry.seq 2) = true) →
      FallsBackTo v.write c.state.flash 2 (planBoot c.state.flash 2 ok) :=
  last_valid_is_kept 2 _ (reaches_updating (fun _ _ _ _ => rfl) fun _ => trivial) _ rfl

end AtomicOta.Otadata
