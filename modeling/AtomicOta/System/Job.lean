import AtomicOta.Otadata.Attempts
import AtomicOta.System.Invariant

/-!
# Every job keeps the appliance in order

The induction over the runs of an appliance: `AtomicOta.System.keeps_settled`. Each job is taken
from beginning to end (`AtomicOta.System.Obeys`), with what is true at every moment in between
and, of each command, what it may be when it starts (`AtomicOta.System.Permits`): no write goes
to the sector or to the slot of the entry to fall back to, a command on the flash is a moment of
its update, and an entry is only made valid if its slot is that of the recorded activation.

The jobs on the flash are proved on the ledger and lifted (`AtomicOta.System.obeys_flash`); those
that publish take effect in one piece; a session writes to a slot that nothing rests on.
-/

namespace AtomicOta.System

open Artifact Esp Otadata Transaction

section Jobs

variable {TxId ArtifactId : Type}

/-! ### What is kept, and permitted -/

/-- What the flash of an appliance reads as. -/
def Appliance.read (a : Appliance TxId ArtifactId) : Ledger := a.station.chip.read

/-- What holds at every moment. -/
def Kept (B : Bootloader) (a : Appliance TxId ArtifactId) : Prop :=
  B.medium.Sound a.station.chip.flash ∧ Settled B a.station.store a.memory a.read

/-- What holds of an idle machine. -/
def Ready (B : Bootloader) (m : Mode) (a : Appliance TxId ArtifactId) : Prop :=
  B.medium.Sound a.station.chip.flash ∧
    ((Fresh B a.station.store a.memory a.read ∧ m = .agent .off) ∨
      ∃ v, Core B v a.station.store a.memory a.read ∧
        AtMode B v a.station.store a.memory a.read m)

/-- **What an update may be when it starts**: it is not one of the entry to fall back to, and
makes an entry valid only for the slot that was asked for; the first of all is for slot 0. -/
structure Allowed (B : Bootloader) (store : Option (SlotRecord TxId ArtifactId)) (b : Book)
    (r : Request) : Prop where
  sector_ne : ∀ v, Guarded v b → r.write.sector ≠ v.sector
  requested : ∀ v, Guarded v b → r.write.entry.trust = .valid →
    Requested store (slotOf r.write.entry.seq B.slotCount)
  first : (∀ s, b s = none) → slotOf r.write.entry.seq B.slotCount = 0

/-- **What may be published.** -/
inductive Publishes (store : Option (SlotRecord TxId ArtifactId)) :
    Option (SlotRecord TxId ArtifactId) → Prop
  | clear : Publishes store none
  | stage (r : SlotRecord TxId ArtifactId) (h : store = none) (hr : r.state = .staged) :
    Publishes store (some r)
  | activate (r : SlotRecord TxId ArtifactId) (h : store = some r) (hr : r.state = .staged) :
    Publishes store (some (r.withState .activating))
  | revert (r : SlotRecord TxId ArtifactId) (h : store = some r) (hr : r.state = .activating) :
    Publishes store (some (r.withState .staged))

/-- **What a command may be when it starts.** -/
def Permits (B : Bootloader) :
    ApplianceOp TxId ArtifactId → Appliance TxId ArtifactId → Prop
  | .station (.flash c), a =>
    B.medium.Moves c a.station.chip ∧ Allowed B a.station.store a.read.book c.request
  | .station (.publish r), a => Publishes a.station.store r
  | .fill slot _ _, a => slot < B.slotCount ∧
    fallbackSlot a.station.chip.flash B.slotCount ≠ slot

/-- A job that keeps an appliance in order, and ends in a mode. -/
def Obeys (B : Bootloader) (a : Appliance TxId ArtifactId)
    (ops : List (ApplianceOp TxId ArtifactId)) (m : Mode) : Prop :=
  (applianceDevice B).Safe (Permits B) (Kept B) ops a ∧
    Ready B m ((applianceDevice B).run ops a)

variable {B : Bootloader} {a : Appliance TxId ArtifactId} {m : Mode} {v : Write}

/-- Beside the entry to fall back to. -/
theorem allowed_of_guarded {store : Option (SlotRecord TxId ArtifactId)} {b : Book} {r : Request}
    (hv : Guarded v b) (hne : r.write.sector ≠ v.sector)
    (hrequested : r.write.entry.trust = .valid →
      Requested store (slotOf r.write.entry.seq B.slotCount)) : Allowed B store b r where
  sector_ne _ hv' := hv.unique hv' ▸ hne
  requested _ _ := hrequested
  first hnone := absurd hv.entry (ne_some_of_none hnone)

theorem Ready.kept (h : Ready B m a) : Kept B a :=
  ⟨h.1, h.2.imp And.left fun ⟨v, hv⟩ => ⟨v, hv.1⟩⟩

/-- What is kept is what holds while the device is off. -/
theorem Kept.ready (h : Kept B a) : Ready B (.agent .off) a :=
  ⟨h.1, h.2.imp (fun hf => ⟨hf, rfl⟩) fun ⟨v, hv⟩ => ⟨v, hv, trivial⟩⟩

/-! ### Jobs on the flash -/

/-- The commands of the station leave the memory alone. -/
theorem run_station (ops : List (StationOp TxId ArtifactId)) (a : Appliance TxId ArtifactId) :
    (applianceDevice B).run (ops.map .station) a = ⟨stationDevice.run ops a.station, a.memory⟩ := by
  induction ops generalizing a with
  | nil => rfl
  | cons op ops ih => exact ih _

/-- Writes leave the store and the memory alone. -/
theorem run_station_flash (rs : List Request) (a : Appliance TxId ArtifactId) :
    (applianceDevice B).run ((flashJob rs).map .station) a =
      ⟨⟨chipDevice.run (commands rs) a.station.chip, a.station.store⟩, a.memory⟩ := by
  rw [run_station, run_flashJob]

/-- **A job on the flash is in order if it is on the ledger.** -/
theorem obeys_flash (hs : B.medium.Sound a.station.chip.flash)
    {G : Request → List Request → Prop} {C : Ledger → Prop} {rs : List Request}
    (h : ledgerDevice.Safe (fun r l => G r l.log) C rs a.read)
    (hC : ∀ l, C l → Settled B a.station.store a.memory l)
    (hG : ∀ r l, C l → G r l.log → Allowed B a.station.store l.book r)
    (hdone : ∃ v, Core B v a.station.store a.memory (ledgerDevice.run rs a.read) ∧
      AtMode B v a.station.store a.memory (ledgerDevice.run rs a.read) m) :
    Obeys B a ((flashJob rs).map .station) m := by
  have hchip := (Medium.safe_commands hs h).and (Medium.safe_moves rs hs)
  -- the commands run on the flash alone, with the store and the memory beside it
  set π : Chip → Appliance TxId ArtifactId := fun s => ⟨⟨s, a.station.store⟩, a.memory⟩ with hπ
  have htorn : ∀ (c : Cmd) (s : Chip) (a' : Appliance TxId ArtifactId),
      (applianceDevice B).Torn (.station (.flash c)) (π s) a' →
        ∃ s', B.medium.device.Torn c s s' ∧ π s' = a' := by
    intro c s a' ht
    cases ht with
    | flash h => exact ⟨_, h, rfl⟩
  refine ⟨?_, ?_⟩
  · rw [flashJob, List.map_map]
    exact hchip.lift (D := B.medium.device) (E := applianceDevice B) (π := π)
      (g := .station ∘ .flash) (fun _ _ => rfl) htorn (fun c s hs hGs => ⟨hGs.2, hG c.request s.read hs.1.2 hGs.1⟩)
      fun s hs => ⟨hs.2, hC s.read hs.1.2⟩
  · obtain ⟨v, hcore, hmode⟩ := hdone
    have hread : (chipDevice.run (commands rs) a.station.chip).read = ledgerDevice.run rs a.read :=
      read_run rs a.station.chip
    rw [← hread] at hcore hmode
    rw [run_station_flash]
    exact ⟨hs.run rs, .inr ⟨v, hcore, hmode⟩⟩

/-- **A job of one update is in order**, if it is dropped or committed in order: `C` holds until
it is committed, and `E` then. -/
theorem obeys_turn (hs : B.medium.Sound a.station.chip.flash) {C E : Ledger → Prop} {r : Request}
    (hl : C a.read) (hdrop : C (a.read.drop r)) (hcommit : E (a.read.commit r))
    (hC : ∀ l, C l → Settled B a.station.store a.memory l)
    (hE : ∀ l, E l → Settled B a.station.store a.memory l)
    (hG : ∀ l, C l → Allowed B a.station.store l.book r)
    (hdone : ∃ v, Core B v a.station.store a.memory (a.read.commit r) ∧
      AtMode B v a.station.store a.memory (a.read.commit r) m) :
    Obeys B a ((flashJob [r]).map .station) m := by
  -- the history tells whether it has been committed
  have hsafe : ledgerDevice.Safe (fun r' l => r' = r ∧ l.log = a.read.log)
      (fun l => (C l ∧ l.log = a.read.log) ∨ (E l ∧ l.log = r :: a.read.log)) [r] a.read :=
    safe_single (.inl ⟨hl, rfl⟩) ⟨rfl, rfl⟩ (.inl ⟨hdrop, rfl⟩) (.inr ⟨hcommit, rfl⟩)
  refine obeys_flash (G := fun r' log => r' = r ∧ log = a.read.log) hs hsafe ?_ ?_ hdone
  · rintro l (⟨hl, -⟩ | ⟨hl, -⟩)
    exacts [hC l hl, hE l hl]
  · rintro r' l (⟨hl, -⟩ | ⟨-, hcons⟩) ⟨rfl, hlog⟩
    · exact hG l hl
    · exact absurd (hcons.symm.trans hlog) (List.cons_ne_self _ _)

/-- Updates beside the entry to fall back to, at every moment. -/
theorem Core.safe {store : Option (SlotRecord TxId ArtifactId)} {mem : Memory} {l : Ledger}
    (h : Core B v store mem l) {rs : List Request} (hrs : ∀ r ∈ rs, Beside v r.write)
    (hasked : ∀ r ∈ rs, r.write.entry.Open → Asks B v store r ∧
      ∀ newer, Own (r :: (newer ++ l.log)) r.write.sector r.write.entry.seq) :
    ledgerDevice.Safe (fun r _ => r.write.sector ≠ v.sector ∧ r.write.entry.trust ≠ .valid)
      (fun l' => Core B v store mem l' ∧ ∃ newer, l'.log = newer ++ l.log) rs l := by
  refine ledger_safe_of_preserved (fun r hr l' hl' => ?_) ⟨h, [], rfl⟩
  obtain ⟨hcore, newer, hnewer⟩ := hl'
  have hbeside := hrs r hr
  refine ⟨⟨hbeside.sector_ne, hbeside.ne_valid⟩, ⟨hcore.drop hbeside.sector_ne, newer, hnewer⟩,
    hcore.commit hbeside fun hopen => ?_, r :: newer, ?_⟩
  · rw [hnewer]
    exact ⟨(hasked r hr hopen).1, (hasked r hr hopen).2 newer⟩
  · rw [Ledger.log_commit, hnewer, List.cons_append]

/-- **Updates beside the entry to fall back to are in order**, if what they leave open is asked
for. -/
theorem obeys_beside (hs : B.medium.Sound a.station.chip.flash)
    (h : Core B v a.station.store a.memory a.read) {rs : List Request}
    (hrs : ∀ r ∈ rs, Beside v r.write)
    (hasked : ∀ r ∈ rs, r.write.entry.Open → Asks B v a.station.store r ∧
      ∀ newer, Own (r :: (newer ++ a.read.log)) r.write.sector r.write.entry.seq)
    (hmode : AtMode B v a.station.store a.memory (ledgerDevice.run rs a.read) m) :
    Obeys B a ((flashJob rs).map .station) m := by
  have hsafe := h.safe hrs hasked
  refine obeys_flash (G := fun r _ => r.write.sector ≠ v.sector ∧ r.write.entry.trust ≠ .valid)
    hs hsafe (fun l hl => .inr ⟨v, hl.1⟩) (fun r l hl hG => ?_) ⟨v, hsafe.run.1, hmode⟩
  exact allowed_of_guarded hl.1.guarded hG.1 fun ht => absurd ht hG.2

/-! ### What the phases do on the flash -/

/-- What a boot decides. -/
def plan (B : Bootloader) (a : Appliance TxId ArtifactId) : Plan :=
  planBoot a.station.chip.flash B.slotCount (B.imageOk a.memory)

theorem decides_plan (B : Bootloader) (a : Appliance TxId ArtifactId) :
    Decides a.read.book B.slotCount (B.imageOk a.memory) (plan B a) :=
  decides_planBoot _ _ _

/-- A boot finds the image to fall back to bootable. -/
theorem Core.imageOk {store : Option (SlotRecord TxId ArtifactId)} {mem : Memory} {l : Ledger}
    (hv : Core B v store mem l) (k : ℕ) :
    B.imageOk mem k (slotOf v.entry.seq B.slotCount) = true :=
  B.imageOk_eq_true.mpr hv.bootable

/-- What a boot leaves open, it found there. -/
theorem Core.asks_of_decides {store : Option (SlotRecord TxId ArtifactId)} {mem : Memory}
    {l : Ledger} (hv : Core B v store mem l) {p : Plan}
    (hp : Decides l.book B.slotCount (B.imageOk mem) p) :
    ∀ r ∈ issue .boot p.writes, r.write.entry.Open → Asks B v store r ∧
      ∀ newer, Own (r :: (newer ++ l.log)) r.write.sector r.write.entry.seq := by
  intro r hr hopen
  cases hp.reason (mem_issue.mp hr).1 with
  | abort _ _ _ hwe => simp [hwe, Entry.Open] at hopen
  | invalid _ _ _ _ hwe => simp [hwe, Entry.Open] at hopen
  | mark e he ht _ hwe =>
    have hsector := hv.guarded.other_of_ne_valid he (by rw [ht]; decide)
    obtain ⟨hrequested, hown⟩ := hv.asked e (hsector ▸ he) (.inr ht)
    have helsewhere := hv.elsewhere e (hsector ▸ he) (.inr ht)
    refine ⟨⟨?_, ?_⟩, ?_⟩ <;> rw [hwe]
    · exact hrequested
    · exact helsewhere
    · rw [hsector]
      exact fun newer => hown.append (r :: newer)
  | seed hnone _ _ => exact absurd hv.guarded.entry (ne_some_of_none hnone)

/-- **A boot.** -/
theorem obeys_boot (h : Kept B a) :
    Obeys B a ((flashJob (issue .boot (plan B a).writes)).map .station)
      (.agent (.ofBoot (plan B a).boot)) := by
  have hp := decides_plan B a
  generalize plan B a = p at hp
  obtain ⟨hs, hfresh | ⟨v, hv⟩⟩ := h
  · -- the first boot: it seeds slot 0, which is bootable
    rcases decides_of_none hp hfresh.blank with ⟨rfl, -⟩ | ⟨-, hno⟩
    · obtain ⟨hcore, hquiet⟩ := hfresh.seed
      have hdrop : Fresh B a.station.store a.memory (a.read.drop seedRequest) := by
        refine ⟨fun s => ?_, hfresh.unstaged, hfresh.bootable⟩
        exact Option.eq_none_iff_forall_ne_some.mpr fun e he =>
          absurd (Ledger.book_of_drop he).2 (ne_some_of_none hfresh.blank)
      refine obeys_turn (C := Fresh B a.station.store a.memory)
        (E := Core B ⟨0, ⟨1, State.valid⟩⟩ a.station.store a.memory) hs hfresh hdrop hcore
        (fun l hl => .inl hl) (fun l hl => .inr ⟨_, hl⟩)
        (fun l hl => ⟨fun v' hv' => absurd hv'.entry (ne_some_of_none hl.blank),
          fun v' hv' => absurd hv'.entry (ne_some_of_none hl.blank), fun _ => slotOf_one _⟩)
        ⟨_, hcore, .inl ⟨?_, hquiet⟩⟩
      rw [Runs, slotOf_one]
    · exact absurd hfresh.bootable ((B.imageOk_eq_false).mp hno)
  · have hbeside := hv.guarded.beside_of_decides hv.imageOk hp
    refine obeys_beside hs hv (fun r hr => hbeside r.write (mem_issue.mp hr).1)
      (hv.asks_of_decides hp) ?_
    cases hv.guarded.boots hv.imageOk hp with
    | fallback hboot hquiet =>
      rw [hboot]
      exact .inl ⟨rfl, hquiet⟩
    | trial e he ht hboot hyes hmark =>
      rw [hboot]
      obtain ⟨j, hj⟩ := hyes
      have hadm := hv.admissible _ _ he
      refine .inr ⟨rfl, rfl, ?_, B.imageOk_eq_true.mp hj⟩
      rw [hmark]
      exact if_pos ⟨hadm.seq_ne_zero, hadm.seq_ne_max, .inr (.inl rfl)⟩

variable {image : Running}

/-- What a confirmation or a rejection of an image on trial acts on. -/
theorem Trial.isHighest (hv : Core B v a.station.store a.memory a.read)
    (h : Trial B v a.memory a.read image) {s : Sector} {e : Entry}
    (he : IsHighest .pending a.read.book s e) :
    s = other v.sector ∧ e = ⟨image.seq, State.pendingVerify⟩ := by
  have hsector := (hv.guarded.pending he).1
  subst hsector
  exact ⟨rfl, Option.some.inj (he.entry.symm.trans h.pending)⟩

/-- **The confirmation of the image on trial.** -/
theorem obeys_confirm (hs : B.medium.Sound a.station.chip.flash)
    (hv : Core B v a.station.store a.memory a.read) (h : Trial B v a.memory a.read image) :
    Obeys B a
      ((flashJob (issue (.confirm (some image))
        (Otadata.confirm a.station.chip.flash).toList)).map .station)
      (.agent (.finishing image)) := by
  rcases hc : Otadata.confirm a.station.chip.flash with _ | w
  · -- there is something to confirm
    have hnone := pending_none (Option.map_eq_none_iff.mp hc)
    exact absurd rfl (hnone _ _ h.pending)
  · obtain ⟨e, he, hwe⟩ := confirm_some hc
    obtain ⟨hsector, rfl⟩ := h.isHighest hv he
    have hne : w.sector ≠ v.sector := hsector ▸ other_ne _
    have hok : B.Bootable a.memory (slotOf image.seq B.slotCount) := h.slot ▸ h.bootable
    obtain ⟨hcore, hquiet⟩ := hv.confirm he hwe hok (some image)
    have hrequested := (hv.asked _ h.pending (.inl rfl)).1
    refine obeys_turn (C := Core B v a.station.store a.memory)
      (E := Core B w a.station.store a.memory) hs hv (hv.drop hne) hcore
      (fun l hl => .inr ⟨v, hl⟩) (fun l hl => .inr ⟨w, hl⟩) (fun l hl => ?_) ⟨w, hcore, hquiet⟩
    refine allowed_of_guarded hl.guarded hne fun _ => ?_
    rw [hwe]
    exact hrequested

/-- **Its rejection.** -/
theorem obeys_reject (hs : B.medium.Sound a.station.chip.flash)
    (hv : Core B v a.station.store a.memory a.read) (h : Trial B v a.memory a.read image) :
    Obeys B a ((flashJob (issue .reject (Otadata.reject a.station.chip.flash).toList)).map .station)
      (.agent (.clearing image)) := by
  rcases hc : Otadata.reject a.station.chip.flash with _ | w
  · have hnone := pending_none (Option.map_eq_none_iff.mp hc)
    exact absurd rfl (hnone _ _ h.pending)
  · obtain ⟨e, he, hwe⟩ := reject_some hc
    have hbeside := hv.guarded.beside_of_reject he hwe
    have hsingle : ∀ r ∈ issue .reject [w], r.write = w :=
      fun r hr => List.mem_singleton.mp (mem_issue.mp hr).1
    refine obeys_beside hs hv (fun r hr => hsingle r hr ▸ hbeside) (fun r hr hopen => ?_) ?_
    · rw [hsingle r hr, hwe] at hopen
      simp [Entry.Open] at hopen
    · -- the rejected entry is what is beside the one to fall back to
      intro e' he' hopen
      have hbook := Ledger.book_commit_self ⟨w, .reject⟩ a.read
      change (a.read.commit ⟨w, .reject⟩).book (other v.sector) = some e' at he'
      rw [← hbeside.sector, hbook, admitted_eq_some] at he'
      rw [he'.2, hwe] at hopen
      simp [Entry.Open] at hopen

/-- An activation asks for the slot of the record, beside the entry to fall back to. -/
theorem Core.asks_of_activate (hv : Core B v a.station.store a.memory a.read) {slot : UInt8}
    {w : Write} (hslot : Requested a.station.store slot)
    (hne : slot ≠ slotOf v.entry.seq B.slotCount)
    (hw : Otadata.activate a.station.chip.flash B.slotCount slot = .ok w) :
    Beside v w ∧ Asks B v a.station.store ⟨w, .activate⟩ := by
  obtain ⟨e, he, hnew, rfl, habove⟩ := activate_ok hw
  exact ⟨hv.guarded.beside_of_activate he hnew habove, hslot, hne⟩

/-- **The activation**: the boot chain is asked for the slot of the record. -/
theorem obeys_switch (hs : B.medium.Sound a.station.chip.flash)
    (hv : Core B v a.station.store a.memory a.read) {slot : UInt8} {w : Write}
    (hslot : Requested a.station.store slot) (hne : slot ≠ slotOf v.entry.seq B.slotCount)
    (hw : Otadata.activate a.station.chip.flash B.slotCount slot = .ok w) :
    Obeys B a ((flashJob (issue .activate [w])).map .station) (.agent (.idle image)) := by
  obtain ⟨hbeside, hasks⟩ := hv.asks_of_activate hslot hne hw
  have hsingle : ∀ r ∈ issue .activate [w], r = ⟨w, .activate⟩ :=
    fun r hr => List.mem_singleton.mp hr
  refine obeys_beside hs hv (fun r hr => ?_) (fun r hr _ => ?_) trivial
  · obtain rfl := hsingle r hr
    exact hbeside
  · obtain rfl := hsingle r hr
    exact ⟨hasks, fun newer => ⟨w, List.mem_cons_self, rfl, rfl⟩⟩

/-! ### What the phases do with the store -/

/-- **Publishing while nothing is open.** -/
theorem obeys_publish (hs : B.medium.Sound a.station.chip.flash)
    (hv : Core B v a.station.store a.memory a.read) (hquiet : Quiet v a.read.book)
    {r : Option (SlotRecord TxId ArtifactId)} (hr : Publishes a.station.store r)
    (hverified : ∀ r', r = some r' → Verified B a.memory r')
    (hapart : ∀ r', r = some r' → r'.target ≠ some (slotOf v.entry.seq B.slotCount))
    (hmode : ∀ log, AtMode B v r a.memory ⟨a.read.book, log⟩ m) :
    Obeys B a [.station (.publish r)] m := by
  have hdone : Ready B m ((applianceDevice B).apply (.station (.publish r)) a) := by
    change Ready B m ⟨StationOp.apply (.publish r) a.station, a.memory⟩
    rw [StationOp.apply]
    split_ifs
    · exact ⟨hs, .inr ⟨v, hv.publish hquiet hverified hapart [], hmode []⟩⟩
    · exact ⟨hs, .inr ⟨v, hv.publish hquiet hverified hapart a.read.log, hmode a.read.log⟩⟩
  refine ⟨⟨⟨hs, .inr ⟨v, hv⟩⟩, hr, fun a' ht => ?_, hdone.kept⟩, hdone⟩
  cases ht with
  | publish h =>
    cases h with
    | unpublished => exact ⟨hs, .inr ⟨v, hv⟩⟩
    | published => exact hdone.kept

/-- Publishing that nothing is staged. -/
theorem obeys_clear (hs : B.medium.Sound a.station.chip.flash)
    (hv : Core B v a.station.store a.memory a.read) (hquiet : Quiet v a.read.book)
    (hmode : ∀ log, AtMode B v (none : Option (SlotRecord TxId ArtifactId)) a.memory
      ⟨a.read.book, log⟩ m) :
    Obeys B a [.station (.publish none)] m :=
  obeys_publish hs hv hquiet .clear (fun _ hr => by cases hr) (fun _ hr => by cases hr) hmode

/-- Publishing the record in another state. -/
theorem obeys_restate (hs : B.medium.Sound a.station.chip.flash)
    (hv : Core B v a.station.store a.memory a.read) (hquiet : Quiet v a.read.book)
    {r : SlotRecord TxId ArtifactId} {state : TransactionState} (hr : a.station.store = some r)
    (hpublish : Publishes a.station.store (some (r.withState state)))
    (hapart : r.target ≠ some (slotOf v.entry.seq B.slotCount))
    (hmode : ∀ log, AtMode B v (some (r.withState state)) a.memory ⟨a.read.book, log⟩ m) :
    Obeys B a [.station (.publish (some (r.withState state)))] m := by
  refine obeys_publish hs hv hquiet hpublish ?_ ?_ hmode
  · rintro r' hr'
    cases hr'
    exact hv.verified r hr
  · rintro r' hr'
    cases hr'
    exact hapart

/-- What the agent finds out about the entry it was started from. -/
theorem outcome_of_entry (st : Station TxId ArtifactId) (image : Running) {state : UInt32}
    (h : view st.chip.flash image.sector = some ⟨image.seq, state⟩) :
    st.outcome image = if state = State.pendingVerify then .pendingConfirmation
      else if state = State.valid then .confirmed else .other := by
  have hdecode : decode (st.chip.flash image.sector) = .ok ⟨image.seq, state⟩ :=
    accepted_eq_some.mp h
  simp [Station.outcome, hdecode]

/-- **The answer about an image on trial**: it is the one that is recorded. -/
theorem answer_of_trial (hv : Core B v a.station.store a.memory a.read)
    (h : Trial B v a.memory a.read image) : a.station.answer image = .awaitConfirmation := by
  obtain ⟨r, hr, hstate, htarget⟩ := (hv.asked _ h.pending (.inl rfl)).1
  have hslot : image.slot = slotOf image.seq B.slotCount := h.slot
  have houtcome := outcome_of_entry a.station image (h.sector ▸ h.pending)
  rw [if_pos rfl] at houtcome
  rw [Station.answer, houtcome, hr]
  simp [reconcile, hstate, htarget, hslot]

/-- What the agent decides while the image to fall back to runs: what is staged is kept, and
what was to be activated is over. -/
def settle (store : Option (SlotRecord TxId ArtifactId)) (slot : UInt8) : Transaction.Action :=
  match store with
  | none => .nothing
  | some r =>
    match r.state with
    | .staged => .keepStaged
    | .activating => if r.target = some slot then .finishInterruptedActivation else .clearStale

/-- **The answer about the image to fall back to.** -/
theorem answer_of_runs (hv : Core B v a.station.store a.memory a.read)
    (h : Runs B.slotCount v image) :
    a.station.answer image = settle a.station.store image.slot := by
  have hentry : view a.station.chip.flash v.sector = some v.entry := hv.guarded.entry
  have hstate := Entry.trust_eq_valid.mp hv.guarded.valid
  rw [Runs] at h
  subst h
  have houtcome := outcome_of_entry a.station
    ⟨slotOf v.entry.seq B.slotCount, v.sector, v.entry.seq⟩ hentry
  rw [hstate, if_neg (by decide), if_pos rfl] at houtcome
  rw [Station.answer, houtcome]
  rcases hstore : a.station.store with _ | r
  · rfl
  · have hapart := hv.apart r hstore
    rcases hr : r.state with _ | _ <;> by_cases ht : r.target =
      some (slotOf v.entry.seq B.slotCount)
    · -- nothing is staged for the slot that runs
      exact absurd ((hapart ht).1.symm.trans hr) (by simp)
    all_goals simp [reconcile, settle, hr, ht]

/-- **After an answer the agent is where it has to be.** -/
theorem atPhase_answer (hv : Core B v a.station.store a.memory a.read)
    (h : AtPhase B v a.station.store a.memory a.read (.booted image)) :
    AtPhase B v a.station.store a.memory a.read (.ofAction image (a.station.answer image)) := by
  rcases h with ⟨hruns, hquiet⟩ | htrial
  · rw [answer_of_runs hv hruns]
    unfold settle
    split
    · trivial
    · split
      · trivial
      · split_ifs
        exacts [hquiet, hquiet]
  · rw [answer_of_trial hv htrial]
    exact htrial

/-- Recording an activation: the record was staged. -/
theorem activate_memory [DecidableEq TxId] {expectedId : TxId}
    {store : Option (SlotRecord TxId ArtifactId)} {record : SlotRecord TxId ArtifactId}
    (h : (Transaction.activate (memory TxId ArtifactId) expectedId store).1 = .ok record) :
    ∃ r, store = some r ∧ r.state = .staged ∧ r.id = expectedId ∧
      record = r.withState .activating ∧
      (Transaction.activate (memory TxId ArtifactId) expectedId store).2 = some record := by
  rcases store with _ | r
  · cases h
  · unfold Transaction.activate at h ⊢
    dsimp only [memory] at h ⊢
    split_ifs at h ⊢ with hstate hempty hid
    cases h
    exact ⟨r, rfl, not_ne_iff.mp hstate, not_ne_iff.mp hid, rfl, rfl⟩

/-- **The station's jobs.** -/
theorem obeys_station [DecidableEq TxId] {m m' : Phase} {ops : List (StationOp TxId ArtifactId)}
    (h : Ready B (.agent m) a)
    (hstart : StationStart B.slotCount (fun _ ok => ok = B.imageOk a.memory) m a.station ops m')
    (hstage : ∀ image, m = .idle image → m' ≠ .idle image) :
    Obeys B a (ops.map .station) (.agent m') := by
  have hkept := h.kept
  obtain ⟨hs, hready⟩ := h
  -- whoever is at work, the first boot is over
  have hcore : m ≠ .off → ∃ v, Core B v a.station.store a.memory a.read ∧
      AtPhase B v a.station.store a.memory a.read m := by
    intro hne
    rcases hready with ⟨-, hoff⟩ | hv
    · exact absurd (Mode.agent.inj hoff) hne
    · exact hv
  cases hstart with
  | boot _ _ ok hok =>
    subst hok
    exact obeys_boot hkept
  | reconcile image _ =>
    obtain ⟨v, hv, hmode⟩ := hcore (by simp)
    have hdone : Ready B (.agent (.ofAction image (a.station.answer image))) a :=
      ⟨hs, .inr ⟨v, hv, atPhase_answer hv hmode⟩⟩
    exact ⟨hdone.kept, hdone⟩
  | confirm image _ =>
    obtain ⟨v, hv, hmode⟩ := hcore (by simp)
    exact obeys_confirm hs hv hmode
  | reject image _ =>
    obtain ⟨v, hv, hmode⟩ := hcore (by simp)
    exact obeys_reject hs hv hmode
  | rollback image _ =>
    obtain ⟨v, hv, hmode⟩ := hcore (by simp)
    exact hmode.elim
  | finish image _ =>
    obtain ⟨v, hv, hmode⟩ := hcore (by simp)
    exact obeys_clear hs hv hmode fun _ => trivial
  | clear image _ =>
    obtain ⟨v, hv, hmode⟩ := hcore (by simp)
    exact obeys_clear hs hv hmode fun _ => trivial
  | stage image _ => exact absurd rfl (hstage image rfl)
  | activate image _ expectedId hrecord =>
    obtain ⟨v, hv, -⟩ := hcore (by simp)
    obtain ⟨r, hr, hstate, -, rfl, hstored⟩ := activate_memory hrecord
    rw [hstored]
    -- only a staged record is activated, and while it is staged nothing is open
    have hquiet : Quiet v a.read.book :=
      hv.quiet fun r' hr' => Option.some.inj (hr.symm.trans hr') ▸ hstate
    have hapart : r.target ≠ some (slotOf v.entry.seq B.slotCount) := fun ht =>
      absurd ((hv.apart r hr ht).1.symm.trans hstate) (by simp)
    refine obeys_restate hs hv hquiet hr (.activate r hr hstate) hapart fun log => ⟨hquiet, ?_⟩
    rintro r' hr'
    cases hr'
    exact hapart
  | switch image _ hslot hw =>
    obtain ⟨v, hv, -, hapart⟩ := hcore (by simp)
    refine obeys_switch hs hv hslot (fun hsame => ?_) hw
    obtain ⟨r, hr, -, htarget⟩ := hslot
    exact hapart r hr (hsame ▸ htarget)
  | revert image _ hslot _ =>
    obtain ⟨v, hv, hquiet, hapart⟩ := hcore (by simp)
    obtain ⟨r, hr, hstate, -⟩ := hslot
    have hpublish := Publishes.revert r hr hstate
    rw [hr]
    exact obeys_restate hs hv hquiet hr hpublish (hapart r hr) fun _ => trivial

/-! ### Sessions -/

section Sessions

variable {slot : UInt8} {w : WriteSession}

/-- Filling a slot that nothing rests on, cut or completed. -/
theorem kept_refill (hs : B.medium.Sound a.station.chip.flash)
    (hv : Core B v a.station.store a.memory a.read)
    (hmode : AtMode B v a.station.store a.memory a.read (.uploading image slot w))
    (offset : ℕ) (content : Memory) :
    Kept B ⟨a.station, B.refill slot offset content a.memory⟩ := by
  obtain ⟨hlt, hne, hstore, -⟩ := hmode
  exact ⟨hs, .inr ⟨v, hv.refill hstore hlt hne offset content⟩⟩

/-- **A write to the slot**, and what is done after it. -/
theorem obeys_fill (hs : B.medium.Sound a.station.chip.flash)
    (hv : Core B v a.station.store a.memory a.read)
    (hmode : AtMode B v a.station.store a.memory a.read (.uploading image slot w))
    (offset : ℕ) (content : Memory) {ops : List (ApplianceOp TxId ArtifactId)}
    (hrest : Obeys B ⟨a.station, B.refill slot offset content a.memory⟩ ops m) :
    Obeys B a (.fill slot offset content :: ops) m := by
  refine ⟨⟨⟨hs, .inr ⟨v, hv⟩⟩, ⟨hmode.1, ?_⟩, fun a' ht => ?_, hrest.1⟩, hrest.2⟩
  · have hguarded : Guarded v (view a.station.chip.flash) := hv.guarded
    rw [hguarded.fallbackSlot_eq]
    exact hmode.2.1
  · cases ht with
    | fill _ _ _ left => exact kept_refill hs hv hmode offset left

end Sessions

/-- **Every job keeps the appliance in order.** -/
theorem obeys_start [DecidableEq TxId] {m m' : Mode} {ops : List (ApplianceOp TxId ArtifactId)}
    (h : Ready B m a) (hstart : ApplianceStart B m a ops m') : Obeys B a ops m' := by
  -- the first boot is over, unless the device is off
  have hcore : m ≠ .agent .off → B.medium.Sound a.station.chip.flash ∧
      ∃ v, Core B v a.station.store a.memory a.read ∧
        AtMode B v a.station.store a.memory a.read m := by
    intro hne
    exact ⟨h.1, h.2.resolve_left fun hf => hne hf.2⟩
  cases hstart with
  | station _ hst hstage => exact obeys_station h hst hstage
  | begin image _ slot total expectedDigest hstore hspare htotal =>
    obtain ⟨hs, v, hv, -⟩ := hcore (by simp)
    refine obeys_clear hs hv (hv.quiet hstore) fun _ =>
      ⟨hspare.lt, ?_, rfl, writing_start htotal _ _⟩
    exact hspare.ne_fallback _ _ hv.guarded.isHighest
  | append image _ slot w data S hS =>
    obtain ⟨hs, v, hv, hmode⟩ := hcore (by simp)
    have hslot := hmode
    obtain ⟨hlt, hne, hstore, hwriting⟩ := hslot
    have hmem : B.refill slot w.durable (w.append S data a.memory).2.2 a.memory =
        (w.append S data a.memory).2.2 := refill_append hwriting hS data
    refine obeys_fill hs hv hmode _ _ ⟨kept_refill hs hv hmode _ _, hs, .inr ⟨v, ?_⟩⟩
    refine ⟨hv.refill hstore hlt hne _ _, hlt, hne, hstore, ?_⟩
    change Writing B (B.refill slot w.durable (w.append S data a.memory).2.2 a.memory) slot _
    rw [hmem]
    exact hwriting.append hS data
  | finish image _ slot w id artifactId S hS hc =>
    obtain ⟨hs, v, hv, hmode⟩ := hcore (by simp)
    have hslot := hmode
    obtain ⟨hlt, hne, hstore, hwriting⟩ := hslot
    have hmem : B.refill slot w.durable (w.finish S B.sha256 a.memory).2 a.memory =
        (w.finish S B.sha256 a.memory).2 := refill_finish hwriting hS
    obtain ⟨hsize, hdigest⟩ := hwriting.finish hS hc
    have hcore' := hv.refill hstore hlt hne w.durable (w.finish S B.sha256 a.memory).2
    have hquiet : Quiet v a.read.book :=
      hv.quiet fun r hr => absurd (hstore.symm.trans hr) (by simp)
    refine obeys_fill hs hv hmode _ _ ?_
    refine obeys_publish (a := ⟨a.station, B.refill slot w.durable _ a.memory⟩) hs hcore' hquiet
      (.stage _ hstore rfl) ?_ ?_ fun _ => trivial
    · rintro r hr
      cases hr
      exact ⟨_, rfl, hlt, hsize, hmem.symm ▸ hdigest⟩
    · rintro r hr
      cases hr
      exact fun ht => hne (Option.some.inj ht).symm
  | fail image _ slot w S hS _ =>
    obtain ⟨hs, v, hv, hmode⟩ := hcore (by simp)
    have hslot := hmode
    obtain ⟨hlt, hne, hstore, -⟩ := hslot
    refine obeys_fill hs hv hmode _ _ ⟨kept_refill hs hv hmode _ _, hs, .inr ⟨v, ?_, trivial⟩⟩
    exact hv.refill hstore hlt hne _ _
  | abandon image _ slot w =>
    obtain ⟨hs, v, hv, -⟩ := hcore (by simp)
    exact ⟨⟨hs, .inr ⟨v, hv⟩⟩, hs, .inr ⟨v, hv, trivial⟩⟩

/-- **The induction over runs**: an appliance stays in order. -/
theorem keeps_settled [DecidableEq TxId] (B : Bootloader) :
    (@appliance TxId ArtifactId _ B).Keeps (Permits B) (Ready B) := by
  refine ⟨fun m a h => h.kept.ready, fun m a ops m' h hstart => ?_,
    fun m a ops m' h hstart => (obeys_start h hstart).2⟩
  exact (obeys_start h hstart).1.mono (fun _ _ hG => hG) fun _ hC => hC.ready

/-- What holds of every configuration that a device can get to. -/
theorem Reachable.holds [DecidableEq TxId]
    {c : Crash.Config (Appliance TxId ArtifactId) (ApplianceOp TxId ArtifactId) Mode}
    (h : Reachable B c) : (appliance B).Holds (Permits B) (Ready B) c := by
  obtain ⟨mem, hok, hreach⟩ := h
  refine (keeps_settled B).reaches (Crash.Machine.holds_idle (keeps_settled B) ?_) hreach
  exact ⟨Medium.sound_blank, .inl ⟨⟨fun _ => accepted_blank, rfl, hok⟩, rfl⟩⟩

end Jobs

end AtomicOta.System
