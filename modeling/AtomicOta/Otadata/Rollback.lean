import AtomicOta.Otadata.Cycle
import AtomicOta.Otadata.Guarded

/-!
# Rolling back leaves the image

An entry that is started and not confirmed is aborted by the next boot. Whether the
*slot* it selects is left as well depends on what the boot falls back to: if the valid
entry selects the same slot, the image that was not confirmed runs again, as valid.

`AtomicOta.Otadata.rolls_back` says that this does not happen in the runs in which no
activation targets the slot of the valid entry (`AtomicOta.Otadata.SparesBase`). Nothing
in `activate` prevents it: an image that is running but not confirmed is not running
from that slot, so it may well target it
(`AtomicOta.Otadata.rollback_boots_again`).
-/

namespace AtomicOta.Otadata

/-- What happens to a device: it boots, or its agent acts. -/
inductive Action where
  | boot
  | activate (target : UInt8)
  | confirm
  | reject
  deriving DecidableEq, Repr

/-- A device, with the image that runs on it. -/
structure Host where
  flash : Flash
  running : Option Running

/-- **One action, completed**: a boot with every image bootable, or a step of the
agent. -/
def Host.next (n : UInt8) (h : Host) : Action → Host
  | .boot =>
    let p := planBoot h.flash n allBootable
    ⟨execWrites h.flash p.writes, p.boot.running⟩
  | .activate target =>
    match activate h.flash n target with
    | .ok w => ⟨execWrites h.flash [w], h.running⟩
    | .error _ => h
  | .confirm => ⟨execWrites h.flash (confirm h.flash).toList, h.running⟩
  | .reject => ⟨execWrites h.flash (reject h.flash).toList, h.running⟩

theorem flash_next_boot (n : UInt8) (h : Host) :
    (h.next n .boot).flash = execWrites h.flash (planBoot h.flash n allBootable).writes :=
  rfl

theorem running_next_boot (n : UInt8) (h : Host) :
    (h.next n .boot).running = (planBoot h.flash n allBootable).boot.running :=
  rfl

/-- A blank device, before its first boot. -/
def Host.blank : Host := ⟨fun _ => Otadata.blank, none⟩

/-- **What the agent may do**: act while its image runs, and activate another slot than
the one it runs from. -/
def Allowed (h : Host) : Action → Prop
  | .boot => True
  | .activate target => ∃ i, h.running = some i ∧ target ≠ i.slot
  | .confirm => h.running ≠ none
  | .reject => h.running ≠ none

/-- The activation does not target the slot of the valid entry it would fall back
to. -/
def SparesBase (n : UInt8) (h : Host) (a : Action) : Prop :=
  ∀ target p b, a = .activate target → IsHighest .valid (view h.flash) p b →
    target ≠ slotOf b.seq n

/-- A run whose actions all satisfy a condition. -/
inductive HostRun (n : UInt8) (P : Host → Action → Prop) : Host → List Action → Host → Prop
  | nil (h : Host) : HostRun n P h [] h
  | cons {h h' : Host} {a : Action} {as : List Action} (ha : P h a)
    (hs : HostRun n P (h.next n a) as h') : HostRun n P h (a :: as) h'

/-- Whether the entry of a sector, of a given sequence, is confirmed during a run. -/
def Confirmed (n : UInt8) (s : Sector) (q : UInt32) : Host → List Action → Prop
  | _, [] => False
  | h, a :: as => (a = .confirm ∧ confirm h.flash = some ⟨s, ⟨q, State.valid⟩⟩) ∨
      Confirmed n s q (h.next n a) as

/-- **The rule**, for the runs whose actions satisfy a condition: when a boot starts an
unproven entry and it is not confirmed before the next boot, that boot does not start
the same slot. -/
def RollsBack (n : UInt8) (P : Host → Action → Prop) : Prop :=
  ∀ (before : List Action) (h : Host) (after : List Action) (h' : Host) (slot : UInt8)
    (s : Sector) (q : UInt32), HostRun n P Host.blank before h →
    (planBoot h.flash n allBootable).boot = .slot slot s q →
    decode (h.flash s) = .ok ⟨q, State.new⟩ → (∀ a ∈ after, a ≠ .boot) →
    HostRun n P (h.next n .boot) after h' → ¬Confirmed n s q (h.next n .boot) after →
    ∀ s' q', (planBoot h'.flash n allBootable).boot ≠ .slot slot s' q'

/-! ### The fallback, and the slot of the candidate -/

/-- A guarded entry, and a candidate that selects another slot. -/
structure Based (n : UInt8) (v : Write) (b : Book) : Prop where
  guarded : Guarded v b
  apart : ∀ e, b (other v.sector) = some e → e.trust = .pending ∨ e.trust = .unproven →
    slotOf e.seq n ≠ slotOf v.entry.seq n

/-- A write beside an entry that keeps its candidate apart. -/
structure BesideApart (n : UInt8) (v w : Write) : Prop where
  beside : Beside v w
  apart : w.entry.trust = .pending ∨ w.entry.trust = .unproven →
    slotOf w.entry.seq n ≠ slotOf v.entry.seq n

section Runs

variable {n : UInt8} {v w : Write} {b : Book} {f : Flash} {h h' : Host} {a : Action}

theorem Based.write (hb : Based n v b) (hw : BesideApart n v w) :
    Based n v (Function.update b w.sector (admitted w.entry)) := by
  refine ⟨hb.guarded.write hw.beside, fun e he ht => ?_⟩
  rw [← hw.beside.sector, Function.update_self, admitted_eq_some] at he
  obtain ⟨-, rfl⟩ := he
  exact hw.apart ht

theorem view_execWrites_single (f : Flash) (w : Write) :
    view (execWrites f [w]) = Function.update (view f) w.sector (admitted w.entry) := by
  rw [execWrites_cons, execWrites_nil, view_update, accepted_encode]

theorem Based.execWrites {ws : List Write} (hb : Based n v (view f))
    (hw : ∀ w ∈ ws, BesideApart n v w) : Based n v (view (execWrites f ws)) := by
  induction ws generalizing f with
  | nil => exact hb
  | cons w ws ih =>
    rw [execWrites_cons]
    refine ih ?_ fun w' hw' => hw w' (List.mem_cons_of_mem _ hw')
    rw [view_update, accepted_encode]
    exact hb.write (hw w List.mem_cons_self)

/-- A boot keeps the candidate apart. -/
theorem Based.besideApart_of_decides (hb : Based n v b) {p : Plan}
    (hp : Decides b n allBootable p) : ∀ w ∈ p.writes, BesideApart n v w := by
  intro w hw
  have hbeside := hb.guarded.beside_of_decides (fun _ => rfl) hp w hw
  refine ⟨hbeside, fun ht => ?_⟩
  cases hp.reason hw with
  | abort e _ _ hwe => simp [hwe] at ht
  | invalid e _ _ _ hwe => simp [hwe] at ht
  | mark e he htrust _ hwe =>
    rw [hwe]
    exact hb.apart e (hbeside.sector ▸ he) (.inr htrust)
  | seed hnone => exact absurd hb.guarded.entry (ne_some_of_none hnone)

/-- Nothing on the flash yet, or an entry to fall back to, and a candidate apart from
it. -/
def Home (n : UInt8) (b : Book) : Prop := (∀ s, b s = none) ∨ ∃ v, Based n v b

/-- An activation that spares the fallback keeps the candidate apart. -/
theorem Based.besideApart_of_activate (hb : Based n v (view f)) {target : UInt8}
    (hw : activate f n target = .ok w)
    (hspares : ∀ p e, IsHighest .valid (view f) p e → target ≠ slotOf e.seq n) :
    BesideApart n v w := by
  obtain ⟨e, he, hnew, hslot, habove⟩ := activate_ok hw
  refine ⟨hb.guarded.beside_of_activate he hnew habove, fun _ => ?_⟩
  rw [hslot, ← (hb.guarded.eq_of_isHighest he).2]
  exact hspares _ _ he

/-- A rejection leaves no candidate. -/
theorem Based.besideApart_of_reject (hb : Based n v (view f)) (hw : reject f = some w) :
    BesideApart n v w := by
  obtain ⟨e, he, hwe⟩ := reject_some hw
  exact ⟨hb.guarded.beside_of_reject he hwe, by simp [hwe]⟩

/-- After a confirmation, the fallback is the confirmed entry. -/
theorem Based.confirm (hb : Based n v (view f)) (hw : Otadata.confirm f = some w) :
    Based n w (Function.update (view f) w.sector (admitted w.entry)) := by
  obtain ⟨e, he, hwe⟩ := confirm_some hw
  refine ⟨hb.guarded.confirm he (admissible_of_accepted he.entry) hwe, fun e' he' ht' => ?_⟩
  have hsector := (hb.guarded.pending he).1
  rw [Function.update_of_ne (other_ne _), hsector, other_other, hb.guarded.entry] at he'
  rw [← Option.some.inj he', hb.guarded.valid] at ht'
  simp at ht'

/-- The flash after the agent's write, if there is one. -/
theorem home_of_write {o : Option Write} (hb : Home n (view f))
    (hw : ∀ w, o = some w → Home n (Function.update (view f) w.sector (admitted w.entry))) :
    Home n (view (execWrites f o.toList)) := by
  cases o with
  | none => exact hb
  | some w =>
    rw [Option.toList_some, view_execWrites_single]
    exact hw w rfl

/-- **Every action keeps the candidate apart from the fallback**, if activations spare
it. -/
theorem home_next (hhome : Home n (view h.flash)) (hspares : SparesBase n h a) :
    Home n (view (h.next n a).flash) := by
  cases a with
  | boot =>
    rcases hhome with hnone | ⟨v, hv⟩
    · -- a first boot: the seed is the fallback, and there is no candidate yet
      refine .inr ⟨⟨0, ⟨1, State.valid⟩⟩, ?_⟩
      change Based n _ (view (execWrites h.flash (planBoot h.flash n allBootable).writes))
      rw [planBoot_of_none hnone rfl]
      change Based n _ (view (execWrites h.flash [⟨0, ⟨1, State.valid⟩⟩]))
      rw [view_execWrites_single]
      refine ⟨guarded_seed hnone, fun e he _ => ?_⟩
      rw [Function.update_of_ne (other_ne _)] at he
      exact absurd he (ne_some_of_none hnone)
    · exact .inr ⟨v, hv.execWrites (hv.besideApart_of_decides (decides_planBoot _ _ _))⟩
  | activate target =>
    cases hact : activate h.flash n target with
    | error e => simpa only [Host.next, hact] using hhome
    | ok w =>
      simp only [Host.next, hact]
      refine home_of_write (o := some w) hhome fun w' hw' => ?_
      obtain rfl := Option.some.inj hw'
      rcases hhome with hnone | ⟨v, hv⟩
      · obtain ⟨e, he, -⟩ := activate_ok hact
        exact absurd he.entry (ne_some_of_none hnone)
      · exact .inr ⟨v, hv.write (hv.besideApart_of_activate hact fun p e => hspares target p e rfl)⟩
  | confirm =>
    refine home_of_write hhome fun w hw => ?_
    rcases hhome with hnone | ⟨v, hv⟩
    · obtain ⟨e, he, -⟩ := confirm_some hw
      exact absurd he.entry (ne_some_of_none hnone)
    · exact .inr ⟨w, hv.confirm hw⟩
  | reject =>
    refine home_of_write hhome fun w hw => ?_
    rcases hhome with hnone | ⟨v, hv⟩
    · obtain ⟨e, he, -⟩ := reject_some hw
      exact absurd he.entry (ne_some_of_none hnone)
    · exact .inr ⟨v, hv.write (hv.besideApart_of_reject hw)⟩

/-! ### An image that is not confirmed -/

/-- **While an image runs unconfirmed**: it runs from another slot than the fallback's,
and the other sector holds its own entry or a candidate for yet another slot. -/
structure Unconfirmed (n : UInt8) (v : Write) (slot : UInt8) (q : UInt32) (h : Host) : Prop where
  based : Based n v (view h.flash)
  running : ∃ i, h.running = some i ∧ i.slot = slot
  away : slot ≠ slotOf v.entry.seq n
  ne_valid : ∀ e, view h.flash (other v.sector) = some e → e.trust ≠ .valid
  pending : ∀ e, view h.flash (other v.sector) = some e → e.trust = .pending → e.seq = q
  unproven : ∀ e, view h.flash (other v.sector) = some e → e.trust = .unproven →
    slotOf e.seq n ≠ slot

/-- What is left after a write beside the fallback. -/
theorem Unconfirmed.write {slot : UInt8} {q : UInt32} (hu : Unconfirmed n v slot q h)
    (hw : BesideApart n v w) (hpending : w.entry.trust ≠ .pending)
    (hslot : w.entry.trust = .unproven → slotOf w.entry.seq n ≠ slot) :
    Unconfirmed n v slot q ⟨execWrites h.flash [w], h.running⟩ := by
  have hother : ∀ {e : Entry}, view (execWrites h.flash [w]) (other v.sector) = some e →
      e = w.entry := by
    intro e he
    rw [view_execWrites_single, ← hw.beside.sector, Function.update_self, admitted_eq_some] at he
    exact he.2
  refine ⟨?_, hu.running, hu.away, fun e he => ?_, fun e he ht => ?_, fun e he => ?_⟩
  · rw [view_execWrites_single]
    exact hu.based.write hw
  · obtain rfl := hother he
    exact hw.beside.ne_valid
  · obtain rfl := hother he
    exact absurd ht hpending
  · obtain rfl := hother he
    exact hslot

/-- **A step of the agent that does not confirm it** leaves the image unconfirmed. -/
theorem Unconfirmed.next {slot : UInt8} {q : UInt32} (hu : Unconfirmed n v slot q h)
    (hboot : a ≠ .boot) (hallowed : Allowed h a) (hspares : SparesBase n h a)
    (hconfirm : ¬(a = .confirm ∧
      Otadata.confirm h.flash = some ⟨other v.sector, ⟨q, State.valid⟩⟩)) :
    Unconfirmed n v slot q (h.next n a) := by
  cases a with
  | boot => exact absurd rfl hboot
  | activate target =>
    cases hact : activate h.flash n target with
    | error e => simpa only [Host.next, hact] using hu
    | ok w =>
      simp only [Host.next, hact]
      obtain ⟨e, -, hnew, hslot, -⟩ := activate_ok hact
      refine hu.write (hu.based.besideApart_of_activate hact fun p e => hspares target p e rfl)
        ?_ fun _ => ?_
      · rw [Entry.trust_eq_unproven.mpr hnew]
        decide
      · obtain ⟨i, hi, hne⟩ := hallowed
        obtain ⟨i', hi', rfl⟩ := hu.running
        obtain rfl := Option.some.inj (hi.symm.trans hi')
        exact hslot.trans_ne hne
  | confirm =>
    cases hc : Otadata.confirm h.flash with
    | none => simpa only [Host.next, hc, Option.toList_none, execWrites_nil] using hu
    | some w =>
      -- the only pending entry is the image's own, so this would be its confirmation
      obtain ⟨e, he, hwe⟩ := confirm_some hc
      have hsector := (hu.based.guarded.pending he).1
      have hseq := hu.pending e (hsector ▸ he.entry) he.trust
      refine absurd ⟨rfl, ?_⟩ hconfirm
      rw [hc]
      obtain ⟨s, e'⟩ := w
      exact congrArg some (Write.mk.injEq .. ▸ ⟨hsector, hwe.trans (by rw [hseq])⟩)
  | reject =>
    cases hr : Otadata.reject h.flash with
    | none => simpa only [Host.next, hr, Option.toList_none, execWrites_nil] using hu
    | some w =>
      have hw := hu.based.besideApart_of_reject hr
      obtain ⟨e, -, hwe⟩ := reject_some hr
      have hnext := hu.write hw (by simp [hwe]) (by simp [hwe])
      simpa only [Host.next, hr, Option.toList_some] using hnext

/-- The next boot starts another slot. -/
theorem Unconfirmed.boot_ne {slot : UInt8} {q : UInt32} (hu : Unconfirmed n v slot q h) :
    ∀ s' q', (planBoot h.flash n allBootable).boot ≠ .slot slot s' q' := by
  intro s' q' hboot
  have hbase : ∀ {s : Sector} {e : Entry}, view h.flash s = some e → e.trust ≠ .valid →
      s = other v.sector := fun he ht => hu.based.guarded.other_of_ne_valid he ht
  cases (decides_planBoot h.flash n allBootable).launch hboot with
  | seed hnone => exact absurd hu.based.guarded.entry (ne_some_of_none hnone)
  | valid e he ht hq hslot =>
    have hs : s' = v.sector := by
      by_contra hne
      exact hu.ne_valid e (eq_other_of_ne hne ▸ he) ht
    rw [hs, hu.based.guarded.entry] at he
    rw [← hq, ← Option.some.inj he] at hslot
    exact hu.away hslot
  | unproven e he ht hq hslot =>
    have hs := hbase he (by rw [ht]; decide)
    exact hu.unproven e (hs ▸ he) ht (hq ▸ hslot.symm)

/-- **A boot that starts an unproven entry** leaves it unconfirmed. -/
theorem unconfirmed_of_boot {slot : UInt8} {s : Sector} {q : UInt32}
    (hhome : Home n (view h.flash))
    (hboot : (planBoot h.flash n allBootable).boot = .slot slot s q)
    (hnew : decode (h.flash s) = .ok ⟨q, State.new⟩) :
    ∃ v, s = other v.sector ∧ Unconfirmed n v slot q (h.next n .boot) := by
  have hentry : view h.flash s = some ⟨q, State.new⟩ := accepted_eq_some.mpr hnew
  have hp := decides_planBoot h.flash n allBootable
  rcases hhome with hnone | ⟨v, hv⟩
  · exact absurd hentry (ne_some_of_none hnone)
  have hs : s = other v.sector := hv.guarded.other_of_ne_valid hentry (by simp)
  refine ⟨v, hs, ?_⟩
  cases hp.launch hboot with
  | seed hnone => exact absurd hentry (ne_some_of_none hnone)
  | valid e he ht =>
    rw [← Option.some.inj (hentry.symm.trans he)] at ht
    exact absurd ht (by simp)
  | unproven e he ht hq hslot _ hw =>
    -- the entry is marked first, so its mark is what lies beside the fallback
    have hafter := view_execWrites_of_mem hp.pairwise hw h.flash
    have hmarked : ∀ {e'}, view (h.next n .boot).flash (other v.sector) = some e' →
        e' = ⟨q, State.pendingVerify⟩ := by
      intro e' he'
      rw [← hs, flash_next_boot, hafter] at he'
      exact (admitted_eq_some.mp he').2
    refine ⟨?_, ⟨⟨slot, s, q⟩, ?_, rfl⟩, ?_, fun e' he' => ?_, fun e' he' _ => ?_,
      fun e' he' ht' => ?_⟩
    · rw [flash_next_boot]
      exact hv.execWrites (hv.besideApart_of_decides hp)
    · rw [running_next_boot, hboot]
      rfl
    · rw [hslot]
      exact hv.apart ⟨q, State.new⟩ (hs ▸ hentry) (.inr (Entry.trust_new q))
    · rw [hmarked he']
      simp
    · rw [hmarked he']
    · rw [hmarked he'] at ht'
      exact absurd ht' (by simp)

theorem Unconfirmed.run {P : Host → Action → Prop}
    (hP : ∀ h a, P h a → Allowed h a ∧ SparesBase n h a) {slot : UInt8} {q : UInt32}
    {as : List Action} (hrun : HostRun n P h as h') (hu : Unconfirmed n v slot q h)
    (hboot : ∀ a ∈ as, a ≠ .boot) (hconfirm : ¬Confirmed n (other v.sector) q h as) :
    Unconfirmed n v slot q h' := by
  induction hrun with
  | nil => exact hu
  | @cons h h' a as ha hs ih =>
    rw [Confirmed, not_or] at hconfirm
    obtain ⟨hallowed, hspares⟩ := hP h a ha
    exact ih (hu.next (hboot a List.mem_cons_self) hallowed hspares hconfirm.1)
      (fun a' ha' => hboot a' (List.mem_cons_of_mem _ ha')) hconfirm.2

theorem home_run {P : Host → Action → Prop} (hP : ∀ h a, P h a → Allowed h a ∧ SparesBase n h a)
    {as : List Action} (hrun : HostRun n P h as h') (hhome : Home n (view h.flash)) :
    Home n (view h'.flash) := by
  induction hrun with
  | nil => exact hhome
  | @cons h h' a as ha hs ih => exact ih (home_next hhome (hP h a ha).2)

end Runs

/-- **Rolling back leaves the image**, in every run in which no activation targets the
slot of the valid entry it would fall back to. -/
theorem rolls_back (n : UInt8) : RollsBack n fun h a => Allowed h a ∧ SparesBase n h a := by
  intro before h after h' slot s q hbefore hboot hnew hafter hrun hconfirm
  have hhome := home_run (fun _ _ hP => hP) hbefore (.inl fun _ => accepted_blank)
  obtain ⟨v, rfl, hu⟩ := unconfirmed_of_boot hhome hboot hnew
  exact (Unconfirmed.run (fun _ _ hP => hP) hrun hu hafter hconfirm).boot_ne

/-! ### Two runs -/

theorem next_blank_boot : Host.blank.next 2 .boot = ⟨Chip.seeded.flash, some ⟨0, 0, 1⟩⟩ := by
  have hplan : planBoot Host.blank.flash 2 allBootable = seedPlan :=
    planBoot_of_none (fun _ => accepted_blank) rfl
  have hflash : execWrites Host.blank.flash seedPlan.writes = Chip.seeded.flash := by
    rw [seedPlan, execWrites_cons, execWrites_nil, flash_seeded]
    rfl
  simp only [Host.next, hplan, hflash]
  rfl

theorem next_seeded_activate (i : Option Running) : (⟨Chip.seeded.flash, i⟩ : Host).next 2
    (.activate 1) = ⟨pair ⟨1, State.valid⟩ ⟨2, State.new⟩, i⟩ := by
  simp only [Host.next, activate_seeded, execWrites_seeded]

theorem next_pair_boot (i : Option Running) :
    (⟨pair ⟨1, State.valid⟩ ⟨2, State.new⟩, i⟩ : Host).next 2 .boot =
      ⟨pair ⟨1, State.valid⟩ ⟨2, State.pendingVerify⟩, some ⟨1, 1, 2⟩⟩ := by
  simp only [Host.next, planBoot_pair_new, execWrites_pair]
  rfl

/-- The first update is rolled back to slot 0 if nobody confirms it. -/
theorem rolls_back_first : ∀ s q,
    (planBoot (pair ⟨1, State.valid⟩ ⟨2, State.pendingVerify⟩) 2 allBootable).boot ≠
      .slot 1 s q := by
  have hspares : SparesBase 2 ⟨Chip.seeded.flash, some ⟨0, 0, 1⟩⟩ (.activate 1) := by
    intro target p b ha hb
    cases ha
    rw [← (isHighest_seeded.unique hb).2]
    decide
  have hboots : ∀ h : Host, SparesBase 2 h .boot := fun _ _ _ _ ha => by cases ha
  have hrun : HostRun 2 (fun h a => Allowed h a ∧ SparesBase 2 h a) Host.blank [.boot, .activate 1]
      ⟨pair ⟨1, State.valid⟩ ⟨2, State.new⟩, some ⟨0, 0, 1⟩⟩ := by
    refine .cons ⟨trivial, hboots _⟩ ?_
    rw [next_blank_boot]
    refine .cons ⟨⟨_, rfl, by decide⟩, hspares⟩ ?_
    rw [next_seeded_activate]
    exact .nil _
  have hboot := congrArg Plan.boot planBoot_pair_new
  have hnew : decode (pair ⟨1, State.valid⟩ ⟨2, State.new⟩ 1) = .ok ⟨2, State.new⟩ :=
    decode_encode (by decide)
  have h := rolls_back 2 _ _ [] _ 1 1 2 hrun hboot hnew (by simp) (.nil _) fun hc => hc
  rwa [next_pair_boot] at h

/-- The run: boot, update to slot 1, and from there, unconfirmed, back to slot 0. -/
def backAndForth : List Action := [.boot, .activate 1, .boot, .activate 0]

theorem activate_pair : activate (pair ⟨1, State.valid⟩ ⟨2, State.pendingVerify⟩) 2 0 =
    .ok ⟨1, ⟨3, State.new⟩⟩ :=
  activate_of_next (p := 0) (q := 1) (by decide +kernel) (by decide +kernel) (by decide)

theorem next_pair_activate (i : Option Running) :
    (⟨pair ⟨1, State.valid⟩ ⟨2, State.pendingVerify⟩, i⟩ : Host).next 2 (.activate 0) =
      ⟨pair ⟨1, State.valid⟩ ⟨3, State.new⟩, i⟩ := by
  simp only [Host.next, activate_pair, execWrites_pair]

theorem planBoot_pair_again : planBoot (pair ⟨1, State.valid⟩ ⟨3, State.new⟩) 2 allBootable =
    ⟨.slot 0 1 3, [⟨1, ⟨3, State.pendingVerify⟩⟩]⟩ := by
  decide +kernel

theorem planBoot_pair_back :
    planBoot (pair ⟨1, State.valid⟩ ⟨3, State.pendingVerify⟩) 2 allBootable =
      ⟨.slot 0 0 1, [⟨1, ⟨3, State.aborted⟩⟩]⟩ := by
  decide +kernel

/-- **Rolling back does not always leave the image**: an unconfirmed image activates the
slot of the valid entry, and the candidate that is rolled back is started again, as the
valid entry. -/
theorem rollback_boots_again : ¬∀ n : UInt8, 2 ≤ n → RollsBack n Allowed := by
  intro hall
  set h₄ : Host := ⟨pair ⟨1, State.valid⟩ ⟨3, State.new⟩, some ⟨1, 1, 2⟩⟩ with hh₄
  have hrun : HostRun 2 Allowed Host.blank backAndForth h₄ := by
    refine .cons trivial ?_
    rw [next_blank_boot]
    refine .cons ⟨_, rfl, by decide⟩ ?_
    rw [next_seeded_activate]
    refine .cons trivial ?_
    rw [next_pair_boot]
    refine .cons ⟨_, rfl, by decide⟩ ?_
    rw [next_pair_activate]
    exact .nil _
  have hboot : (planBoot h₄.flash 2 allBootable).boot = .slot 0 1 3 := by
    rw [hh₄, planBoot_pair_again]
  have hnew : decode (h₄.flash 1) = .ok ⟨3, State.new⟩ := decode_encode (by decide)
  have hnext : h₄.next 2 .boot =
      ⟨pair ⟨1, State.valid⟩ ⟨3, State.pendingVerify⟩, some ⟨0, 1, 3⟩⟩ := by
    simp only [hh₄, Host.next, planBoot_pair_again, execWrites_pair]
    rfl
  refine hall 2 (by decide) backAndForth h₄ [] (h₄.next 2 .boot) 0 1 3 hrun hboot hnew (by simp)
    (.nil _) (fun hc => hc) 0 1 ?_
  rw [hnext, planBoot_pair_back]

end AtomicOta.Otadata
