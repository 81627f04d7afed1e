import AtomicOta.Crash.Machine
import AtomicOta.Otadata.Agent

/-!
# The ledger: what the boot chain is for

The abstract model of the boot chain. It has no bytes: the state is what each
sector is accepted as, with the history of the updates whose commit took effect,
and an update is *one* command – it completes, or the power goes and the sector
is accepted as before, or as nothing, or the update was in fact complete
(`AtomicOta.Otadata.ledgerDevice`).

The machine on top (`AtomicOta.Otadata.ledgerMachine`) is who may update what: a boot
attempt applies its plan and then runs the image it chose, and the agent of the
running image activates, confirms and rejects. Two things differ from one
statement about runs to the next, and are parameters: what is assumed about the
answers on images (`mayBoot`, which may look at the history) and when the agent is
allowed to act (`mayAct`, which may look at the image that runs).

`AtomicOta.Otadata.Chain` gives the same machine its bytes and its three flash
commands for an update, and shows that it refines this one.
-/

namespace AtomicOta.Otadata

/-- An image that runs: the boot decision that started it. -/
structure Running where
  slot : UInt8
  sector : Sector
  seq : UInt32
  deriving DecidableEq, Repr

/-- The image a boot decision starts, if it starts one. -/
def Boot.running : Boot → Option Running
  | .slot t s q => some ⟨t, s, q⟩
  | .halt _ => none

/-- Who asks for an update, and, for a confirmation, the image it was asked
under. -/
inductive Origin where
  | boot
  | activate
  | confirm (image : Option Running)
  | reject
  deriving DecidableEq, Repr

/-- An update, with who asks for it. -/
structure Request where
  write : Write
  origin : Origin
  deriving DecidableEq, Repr

/-- The updates of one job. -/
def issue (o : Origin) (ws : List Write) : List Request := ws.map fun w => ⟨w, o⟩

theorem mem_issue {o : Origin} {ws : List Write} {r : Request} :
    r ∈ issue o ws ↔ r.write ∈ ws ∧ r.origin = o := by
  rw [issue, List.mem_map]
  constructor
  · rintro ⟨w, hw, rfl⟩
    exact ⟨hw, rfl⟩
  · rintro ⟨hw, rfl⟩
    exact ⟨r.write, hw, rfl⟩

/-- The last update of a sector whose commit took effect. -/
def lastUpdate (s : Sector) (log : List Request) : Option Request :=
  log.find? fun r => r.write.sector = s

theorem lastUpdate_cons_self (r : Request) (log : List Request) :
    lastUpdate r.write.sector (r :: log) = some r := by
  simp [lastUpdate]

theorem lastUpdate_cons_of_ne {r : Request} {s : Sector} (log : List Request)
    (h : s ≠ r.write.sector) : lastUpdate s (r :: log) = lastUpdate s log := by
  simp [lastUpdate, h.symm]

/-- The state of the abstract chain: what the sectors are accepted as, and the
updates whose commit took effect, newest first. -/
structure Ledger where
  book : Book
  log : List Request

namespace Ledger

/-- An update takes effect. -/
def commit (r : Request) (l : Ledger) : Ledger :=
  ⟨Function.update l.book r.write.sector (admitted r.write.entry), r :: l.log⟩

/-- The sector of an update is left with nothing that is accepted. -/
def drop (r : Request) (l : Ledger) : Ledger :=
  ⟨Function.update l.book r.write.sector none, l.log⟩

@[simp] theorem log_commit (r : Request) (l : Ledger) : (l.commit r).log = r :: l.log := rfl

@[simp] theorem log_drop (r : Request) (l : Ledger) : (l.drop r).log = l.log := rfl

theorem book_commit_self (r : Request) (l : Ledger) :
    (l.commit r).book r.write.sector = admitted r.write.entry :=
  Function.update_self ..

theorem book_commit_of_ne {r : Request} {s : Sector} (l : Ledger) (h : s ≠ r.write.sector) :
    (l.commit r).book s = l.book s :=
  Function.update_of_ne h ..

theorem book_drop_self (r : Request) (l : Ledger) : (l.drop r).book r.write.sector = none :=
  Function.update_self ..

theorem book_drop_of_ne {r : Request} {s : Sector} (l : Ledger) (h : s ≠ r.write.sector) :
    (l.drop r).book s = l.book s :=
  Function.update_of_ne h ..

/-- What an update leaves anywhere was there, or is what it writes. -/
theorem book_commit_cases {r : Request} {l : Ledger} {s : Sector} {e : Entry}
    (h : (l.commit r).book s = some e) :
    (s ≠ r.write.sector ∧ l.book s = some e) ∨
      (s = r.write.sector ∧ e = r.write.entry ∧ e.Admissible) := by
  rcases eq_or_ne s r.write.sector with rfl | hne
  · rw [book_commit_self, admitted_eq_some] at h
    exact Or.inr ⟨rfl, h.2, h.2 ▸ h.1⟩
  · rw [book_commit_of_ne l hne] at h
    exact Or.inl ⟨hne, h⟩

/-- What a drop leaves anywhere was there. -/
theorem book_of_drop {r : Request} {l : Ledger} {s : Sector} {e : Entry}
    (h : (l.drop r).book s = some e) : s ≠ r.write.sector ∧ l.book s = some e := by
  rcases eq_or_ne s r.write.sector with rfl | hne
  · rw [book_drop_self] at h
    exact absurd h (by simp)
  · rw [book_drop_of_ne l hne] at h
    exact ⟨hne, h⟩

end Ledger

/-- What an interrupted update may leave. -/
inductive LedgerTorn (r : Request) (l : Ledger) : Ledger → Prop
  /-- Nothing happened yet. -/
  | old : LedgerTorn r l l
  /-- The sector is not accepted. -/
  | dropped : LedgerTorn r l (l.drop r)
  /-- It was complete after all. -/
  | committed : LedgerTorn r l (l.commit r)

/-- The ledger as a device: an update is one command. -/
@[simps] def ledgerDevice : Crash.Device Ledger Request where
  apply r l := l.commit r
  Torn := LedgerTorn

/-- The jobs of the abstract chain. -/
inductive LedgerStart (n : UInt8) (mayBoot : List Request → ImageOk → Prop)
    (mayAct : Option Running → Prop) :
    Option Running → Ledger → List Request → Option Running → Prop
  /-- A boot attempt. -/
  | boot {m : Option Running} {l : Ledger} {ok : ImageOk} {p : Plan} (hok : mayBoot l.log ok)
    (hp : Decides l.book n ok p) :
    LedgerStart n mayBoot mayAct m l (issue .boot p.writes) p.boot.running
  /-- The agent activates a slot. -/
  | activate {m : Option Running} {l : Ledger} {w : Write} {base : Entry} (hm : mayAct m)
    (hbase : IsHighest .valid l.book (other w.sector) base) (hnew : w.entry.state = State.new)
    (habove : ∀ s e, l.book s = some e → e.seq.toNat < w.entry.seq.toNat) :
    LedgerStart n mayBoot mayAct m l (issue .activate [w]) m
  /-- The agent confirms the pending entry. -/
  | confirm {m : Option Running} {l : Ledger} {w : Write} {e : Entry} (hm : mayAct m)
    (he : IsHighest .pending l.book w.sector e) (hw : w.entry = ⟨e.seq, State.valid⟩) :
    LedgerStart n mayBoot mayAct m l (issue (.confirm m) [w]) m
  /-- The agent rejects the pending entry. -/
  | reject {m : Option Running} {l : Ledger} {w : Write} {e : Entry} (hm : mayAct m)
    (he : IsHighest .pending l.book w.sector e) (hw : w.entry = ⟨e.seq, State.invalid⟩) :
    LedgerStart n mayBoot mayAct m l (issue .reject [w]) m

/-- The abstract chain. -/
@[simps] def ledgerMachine (n : UInt8) (mayBoot : List Request → ImageOk → Prop)
    (mayAct : Option Running → Prop) : Crash.Machine Ledger Request (Option Running) where
  device := ledgerDevice
  Start := LedgerStart n mayBoot mayAct
  off := none

/-! ### Jobs on the ledger -/

/-- A condition that survives each update of a job, dropped or committed, holds
all the way through it. -/
theorem ledger_safe_of_preserved {G : Request → Ledger → Prop} {C : Ledger → Prop}
    {rs : List Request} {l : Ledger}
    (hp : ∀ r ∈ rs, ∀ l, C l → G r l ∧ C (l.drop r) ∧ C (l.commit r)) (hl : C l) :
    ledgerDevice.Safe G C rs l := by
  refine Crash.Device.safe_of_preserved (fun r hr l hl => ?_) hl
  obtain ⟨hG, hdrop, hcommit⟩ := hp r hr l hl
  refine ⟨hG, hcommit, fun l' ht => ?_⟩
  cases ht with
  | old => exact hl
  | dropped => exact hdrop
  | committed => exact hcommit

/-- A sector no update of a job is about keeps its entry. -/
theorem book_run_of_ne {rs : List Request} {s : Sector} (h : ∀ r ∈ rs, r.write.sector ≠ s)
    (l : Ledger) : (ledgerDevice.run rs l).book s = l.book s := by
  induction rs generalizing l with
  | nil => rfl
  | cons r rs ih =>
    rw [Crash.Device.run_cons, ih fun r' hr' => h r' (List.mem_cons_of_mem _ hr')]
    exact Ledger.book_commit_of_ne l (h r List.mem_cons_self).symm

/-- **What a job leaves in a sector it updates**: the entry of the update, if no
sector is updated twice. -/
theorem book_run_of_mem {rs : List Request} {r : Request}
    (hp : rs.Pairwise fun r r' => r.write.sector ≠ r'.write.sector) (hr : r ∈ rs) (l : Ledger) :
    (ledgerDevice.run rs l).book r.write.sector = admitted r.write.entry := by
  induction rs generalizing l with
  | nil => simp at hr
  | cons r' rs ih =>
    rw [Crash.Device.run_cons]
    rw [List.pairwise_cons] at hp
    rcases List.mem_cons.mp hr with rfl | hmem
    · rw [book_run_of_ne fun r' hr' => (hp.1 r' hr').symm]
      exact Ledger.book_commit_self r l
    · exact ih hp.2 hmem _

/-- The history of a job that completes. -/
theorem log_run (rs : List Request) (l : Ledger) :
    (ledgerDevice.run rs l).log = rs.reverse ++ l.log := by
  induction rs generalizing l with
  | nil => rfl
  | cons r rs ih =>
    rw [Crash.Device.run_cons, ih]
    simp

theorem issue_pairwise {o : Origin} {ws : List Write}
    (h : ws.Pairwise fun w w' => w.sector ≠ w'.sector) :
    (issue o ws).Pairwise fun r r' => r.write.sector ≠ r'.write.sector :=
  List.pairwise_map.mpr h

end AtomicOta.Otadata
