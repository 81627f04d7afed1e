import AtomicOta.Crash.Cost
import AtomicOta.Otadata.CrashLoop

/-!
# How much the flash wears

A crash loop stops writing (`AtomicOta.Otadata.crash_loop`), but a device is not in a crash loop
for ever: an agent activates, confirms and rejects, and the power goes, also inside an update.
Here the erases of a whole run are counted, and paid for (`AtomicOta.Otadata.erases_le`): four
for what the flash held, three for each activation, one for each confirmation and each
rejection, and two for each power cut. The number of boots does not enter.

The potential is the rank of what the flash reads as, as in the crash loop: every update of a
boot takes an entry one step down. An activation puts an entry of rank two where there may have
been nothing, so that it brings an income of two beside the cost of its own erase. What a cut
costs is one erase that has to be made again, and one more if the sector that was being written
was the last that held an entry, since a flash that reads as nothing may be seeded again; the
allowance of two is used up by a boot that finds its only image unbootable and loses its power
while it says so.
-/

namespace AtomicOta.Otadata

open Crash

/-! ### Costs -/

/-- A command erases a sector, or does not. -/
def Cmd.erases (c : Cmd) : ℕ := if c.stage = .erase then 1 else 0

/-- How many erases an update is worth to those who ask for it. -/
def Origin.grant : Origin → ℕ
  | .boot => 0
  | .activate => 3
  | .confirm _ => 1
  | .reject => 1

/-- What an update is worth comes in with its first command. -/
def Cmd.grant (c : Cmd) : ℕ := if c.stage = .erase then c.request.origin.grant else 0

/-- What is left to a chip. -/
def Chip.worth (s : Chip) : ℕ := rank (view s.flash)

/-- The account of a job on the flash. -/
abbrev PaysFor : ℕ → List Cmd → Chip → Prop := chipDevice.Pays Cmd.erases Cmd.grant Chip.worth 2

/-! ### The rank of a book that is changed -/

variable {b : Book} {s : Sector} {e e' : Entry}

theorem rankAt_update_self (x : Option Entry) :
    rankAt (Function.update b s x) s = x.elim 0 fun e => e.trust.rank := by
  rw [rankAt, Function.update_self]

theorem rankAt_update_other (x : Option Entry) :
    rankAt (Function.update b s x) (other s) = rankAt b (other s) := by
  rw [rankAt, Function.update_of_ne (other_ne s), rankAt]

/-- The rank of a book that holds something. -/
theorem rank_eq_add (h : b s ≠ none ∨ b (other s) ≠ none) :
    rank b = rankAt b s + rankAt b (other s) := by
  rw [rank, if_neg, sum_sector _ s]
  exact fun hnone => h.elim (fun h => h (hnone s)) fun h => h (hnone _)

/-- An entry takes the place of another. -/
theorem rank_update_some (he : b s = some e) (e' : Entry) :
    rank (Function.update b s (some e')) + e.trust.rank = rank b + e'.trust.rank := by
  rw [rank_eq_add (s := s) (b := b) (.inl (by simp [he])), rank_eq_add (s := s) (.inl (by simp)),
    rankAt_update_self, rankAt_update_other, rankAt_of_some he, Option.elim_some]
  omega

/-- A sector beside an entry is worth what it holds. -/
theorem rank_update_beside (he : b (other s) = some e) (x : Option Entry) :
    rank (Function.update b s x) ≤ rank b + 2 ∧ rank (Function.update b s none) ≤ rank b := by
  have hbeside : ∀ x, rank (Function.update b s x) =
      (x.elim 0 fun e => e.trust.rank) + rankAt b (other s) := by
    intro x
    rw [rank_eq_add (s := s) (.inr (by simp [Function.update_of_ne (other_ne s), he])),
      rankAt_update_self, rankAt_update_other]
  have hbook : rank b = rankAt b s + rankAt b (other s) := rank_eq_add (.inr (by simp [he]))
  rw [hbeside, hbeside, hbook]
  constructor
  · cases x with
    | none =>
      rw [Option.elim_none]
      omega
    | some e =>
      have hle := e.trust.rank_le
      rw [Option.elim_some]
      omega
  · simp

/-- A sector that is lost, when it still had an update left. -/
theorem rank_update_none (he : b s = some e) (hrank : 1 ≤ e.trust.rank) :
    rank (Function.update b s none) ≤ rank b + 1 := by
  have hbook : rank b = rankAt b s + rankAt b (other s) := rank_eq_add (.inl (by simp [he]))
  have hself := rankAt_of_some he
  cases hother : b (other s) with
  | none =>
    have hnone : ∀ t, Function.update b s none t = none := by
      intro t
      rcases eq_or_ne t s with rfl | hne
      · exact Function.update_self ..
      · rw [Function.update_of_ne hne, eq_other_of_ne hne, hother]
    rw [rank, if_pos hnone]
    omega
  | some e' =>
    have hle := (rank_update_beside (b := b) (s := s) hother none).2
    omega

/-! ### One update -/

/-- **An update pays for itself**: out of what the flash is worth and what it brings, whether it
completes or not. -/
structure Worthwhile (r : Request) (b : Book) : Prop where
  drop : rank (Function.update b r.write.sector none) ≤ rank b + 1
  commit : 1 + rank (Function.update b r.write.sector (admitted r.write.entry)) ≤
    rank b + r.origin.grant

/-- Whatever an update that pays for itself leaves, its erase is paid for. -/
theorem Worthwhile.torn {r : Request} {l l' : Ledger} (h : Worthwhile r l.book)
    (ht : LedgerTorn r l l') : 1 + rank l'.book ≤ rank l.book + r.origin.grant + 2 := by
  have hdrop := h.drop
  have hcommit := h.commit
  cases ht with
  | old => omega
  | dropped =>
    change 1 + rank (Function.update l.book r.write.sector none) ≤ _
    omega
  | committed =>
    change 1 + rank (Function.update l.book r.write.sector (admitted r.write.entry)) ≤ _
    omega

/-- The three commands of such an update, and then the rest of the job. -/
theorem paysFor_cmds {r : Request} {st : Chip} {credit : ℕ} {rest : List Cmd}
    (hs : Sound Set.univ st.flash) (h : Worthwhile r (view st.flash)) (hcredit : st.worth ≤ credit)
    (hrest : ∀ credit', (chipDevice.run r.cmds st).worth ≤ credit' →
      PaysFor credit' rest (chipDevice.run r.cmds st)) :
    PaysFor credit (r.cmds ++ rest) st := by
  have hleft : ∀ st' : Chip, LedgerTorn r st.read st'.read →
      1 + st'.worth ≤ credit + r.origin.grant + 2 := by
    intro st' ht
    have hworth := Worthwhile.torn (l := st.read) h ht
    have heq : rank st'.read.book = st'.worth := rfl
    have heq' : rank st.read.book = st.worth := rfl
    omega
  have hblank : 1 + (st.put r.write.sector blank).worth ≤ credit + r.origin.grant + 2 := by
    refine hleft _ ?_
    rw [read_put_blank]
    exact .dropped
  have hbody : 1 + (st.put r.write.sector r.write.entry.body).worth ≤
      credit + r.origin.grant + 2 := by
    refine hleft _ ?_
    rw [read_put_body]
    exact .dropped
  have hworth : rank (view st.flash) = st.worth := rfl
  have hcommit := h.commit
  have hafter : (chipDevice.run r.cmds st).worth ≤ credit + r.origin.grant - 1 := by
    have hview : view (chipDevice.run r.cmds st).flash =
        Function.update (view st.flash) r.write.sector (admitted r.write.entry) := by
      rw [run_cmds, view_update, accepted_encode]
    rw [Chip.worth, hview]
    omega
  have hrun := hrest _ hafter
  rw [run_cmds] at hrun
  -- the erase is paid for, and the other two cost nothing
  have herases : Cmd.erases ⟨r, .erase⟩ = 1 := rfl
  have hgrant : Cmd.grant ⟨r, .erase⟩ = r.origin.grant := rfl
  have hfree : Cmd.erases ⟨r, .body⟩ = 0 ∧ Cmd.grant ⟨r, .body⟩ = 0 ∧
      Cmd.erases ⟨r, .commit⟩ = 0 ∧ Cmd.grant ⟨r, .commit⟩ = 0 := ⟨rfl, rfl, rfl, rfl⟩
  obtain ⟨hb, hb', hc, hc'⟩ := hfree
  refine ⟨Nat.le_add_right_of_le hcredit, fun st' ht => ?_, by omega, ?_⟩
  · have hst' := hleft st' (torn_erase (Set.mem_univ _) hs ht).2
    omega
  rw [apply_erase]
  refine ⟨by omega, fun st' ht => ?_, by omega, ?_⟩
  · have hst' := hleft st' (torn_body hs ht).2
    omega
  rw [apply_body]
  refine ⟨by omega, fun st' ht => ?_, by omega, ?_⟩
  · have hst' := hleft st' (torn_commit hs ht).2
    omega
  rw [apply_commit]
  rw [herases, hgrant, hb, hb', hc, hc']
  exact hrun

/-! ### Jobs -/

/-- An update takes the entry of its sector down in rank. -/
def Demotes (b : Book) (w : Write) : Prop :=
  ∃ e, b w.sector = some e ∧ w.entry.Admissible ∧ w.entry.trust.rank < e.trust.rank

theorem Demotes.worthwhile {w : Write} (h : Demotes b w) (o : Origin) : Worthwhile ⟨w, o⟩ b := by
  obtain ⟨e, he, hadm, hlt⟩ := h
  refine ⟨rank_update_none he (by omega), ?_⟩
  have hadmitted : admitted w.entry = some w.entry := admitted_eq_some.mpr ⟨hadm, rfl⟩
  have hrank := rank_update_some he w.entry
  change 1 + rank (Function.update b w.sector (admitted w.entry)) ≤ rank b + o.grant
  rw [hadmitted]
  omega

/-- **A job of such updates is paid for**, each of them being of another sector. -/
theorem paysFor_demotes {o : Origin} {ws : List Write} {st : Chip} {credit : ℕ}
    (hs : Sound Set.univ st.flash) (hp : ws.Pairwise fun w w' => w.sector ≠ w'.sector)
    (h : ∀ w ∈ ws, Demotes (view st.flash) w) (hcredit : st.worth ≤ credit) :
    PaysFor credit (commands (issue o ws)) st := by
  induction ws generalizing st credit with
  | nil => exact hcredit
  | cons w ws ih =>
    rw [List.pairwise_cons] at hp
    refine paysFor_cmds hs ((h w List.mem_cons_self).worthwhile o) hcredit
      fun credit' hcredit' => ?_
    refine ih ?_ hp.2 (fun w' hw' => ?_) hcredit'
    · rw [run_cmds]
      exact hs.update _ (residue_encode _)
    · -- the entries of the other sectors are as they were
      obtain ⟨e, he, hrest⟩ := h w' (List.mem_cons_of_mem _ hw')
      refine ⟨e, ?_, hrest⟩
      rw [run_cmds, view_update, Function.update_of_ne (hp.1 w' hw').symm]
      exact he

/-- A job of one update. -/
theorem paysFor_one {o : Origin} {w : Write} {st : Chip} (hs : Sound Set.univ st.flash)
    (h : Worthwhile ⟨w, o⟩ (view st.flash)) :
    PaysFor st.worth (commands (issue o [w])) st :=
  paysFor_cmds hs h le_rfl fun _ hcredit => hcredit

/-- The seed of a first boot is worth it. -/
theorem worthwhile_seed (hnone : ∀ s, b s = none) : Worthwhile seedRequest b := by
  have hself : Function.update b (0 : Sector) none = b := by
    rw [← hnone 0]
    exact Function.update_eq_self ..
  have hadmitted : admitted ⟨1, State.valid⟩ = some ⟨1, State.valid⟩ :=
    admitted_eq_some.mpr ⟨by decide, rfl⟩
  have hother : rankAt b (other 0) = 0 := by rw [rankAt, hnone, Option.elim_none]
  refine ⟨?_, ?_⟩
  · change rank (Function.update b 0 none) ≤ _
    rw [hself]
    exact Nat.le_succ _
  · change 1 + rank (Function.update b 0 (admitted ⟨1, State.valid⟩)) ≤ rank b + 0
    rw [hadmitted, rank_eq_add (s := 0) (.inl (by simp)), rankAt_update_self, rankAt_update_other,
      hother, rank, if_pos hnone]
    exact le_rfl

variable {n : UInt8} {ok : ImageOk} {st : Chip}

/-- **A boot is paid for** by what the flash is worth. -/
theorem paysFor_boot (hs : Sound Set.univ st.flash) :
    PaysFor st.worth (commands (issue .boot (planBoot st.flash n ok).writes)) st := by
  have hp := decides_planBoot st.flash n ok
  by_cases hnone : ∀ s, view st.flash s = none
  · rcases decides_of_none hp hnone with ⟨heq, -⟩ | ⟨heq, -⟩
    · rw [heq]
      exact paysFor_one hs (worthwhile_seed hnone)
    · rw [heq]
      exact le_rfl
  · refine paysFor_demotes hs hp.pairwise (fun w hw => ?_) le_rfl
    obtain ⟨s, hsome⟩ := not_forall.mp hnone
    obtain ⟨e₀, he₀⟩ := Option.ne_none_iff_exists'.mp hsome
    obtain ⟨e, e', he, he', -, hlt⟩ := hp.demotes ⟨s, e₀, he₀⟩ hw
    rw [view_execWrites_of_mem hp.pairwise hw, admitted_eq_some] at he'
    obtain ⟨hadm, rfl⟩ := he'
    exact ⟨e, he, hadm, hlt⟩

/-- An activation is worth what it brings: beside the entry to protect, it makes at most two
more updates possible. -/
theorem paysFor_activate (hs : Sound Set.univ st.flash) {target : UInt8} {w : Write}
    (hw : activate st.flash n target = .ok w) :
    PaysFor st.worth (commands (issue .activate [w])) st := by
  obtain ⟨base, hbase, -⟩ := activate_ok hw
  refine paysFor_one hs ⟨?_, ?_⟩
  · exact Nat.le_succ_of_le (rank_update_beside hbase.entry none).2
  · have hrank := (rank_update_beside hbase.entry (admitted w.entry)).1
    change 1 + rank (Function.update (view st.flash) w.sector (admitted w.entry)) ≤ _ + 3
    omega

/-- The answer of the agent to a pending entry leaves no more updates than there were. -/
theorem paysFor_answer (hs : Sound Set.univ st.flash) {o : Origin} (ho : o.grant = 1) {w : Write}
    {e : Entry} (he : IsHighest .pending (view st.flash) w.sector e) {state : UInt32}
    (hw : w.entry = ⟨e.seq, state⟩) (hknown : Entry.Known state)
    (hrank : (Trust.of state).rank ≤ 1) :
    PaysFor st.worth (commands (issue o [w])) st := by
  have hadm := admissible_of_accepted he.entry
  have hpending : e.trust.rank = 1 := by rw [he.trust]; rfl
  have hadmitted : admitted w.entry = some w.entry := by
    rw [hw]
    exact admitted_eq_some.mpr ⟨⟨hadm.seq_ne_zero, hadm.seq_ne_max, hknown⟩, rfl⟩
  have htrust : w.entry.trust.rank ≤ 1 := hw ▸ hrank
  refine paysFor_one hs ⟨rank_update_none he.entry hpending.ge, ?_⟩
  have hsum := rank_update_some he.entry w.entry
  rw [hadmitted, ho]
  dsimp only
  omega

/-! ### Runs -/

/-- **What a whole run erases**: at most four sectors for what the flash held, three for each
activation that was begun, one for each confirmation and each rejection, and two for each time
the power went. -/
theorem erases_le (n : UInt8) (mayBoot : List Request → ImageOk → Prop)
    (mayAct : Option Running → Prop) (st : Chip) (m : Option Running)
    (c : Config Chip Cmd (Option Running)) (t : Tally) (hs : Sound Set.univ st.flash)
    (h : (chain n mayBoot mayAct).Tallies Cmd.erases Cmd.grant ⟨st, [], m⟩ c t) :
    t.spent ≤ 4 + t.earned + 2 * t.cuts := by
  have hkeeps : (ledgerMachine n mayBoot mayAct).Keeps (fun _ _ => True) fun _ _ => True :=
    ⟨fun _ _ _ => trivial, fun _ _ _ _ _ _ => ledger_safe_of_preserved
      (fun _ _ _ _ => ⟨trivial, trivial, trivial⟩) trivial, fun _ _ _ _ _ _ => trivial⟩
  have hpays : ∀ m st ops m', (Sound Set.univ st.flash ∧ True) →
      (chain n mayBoot mayAct).Start m st ops m' → PaysFor st.worth ops st := by
    rintro m st ops m' ⟨hs, -⟩ hstart
    cases hstart with
    | boot ok hok => exact paysFor_boot hs
    | activate hm hw => exact paysFor_activate hs hw
    | confirm hm hw =>
      obtain ⟨e, he, hwe⟩ := confirm_some hw
      exact paysFor_answer hs rfl he hwe (by decide) (by decide)
    | reject hm hw =>
      obtain ⟨e, he, hwe⟩ := reject_some hw
      exact paysFor_answer hs rfl he hwe (by decide) (by decide)
  have hle := h.spent_le (keeps_chain (G := fun _ _ => True) hkeeps) hpays ⟨hs, trivial⟩
  have hworth : st.worth ≤ 4 := rank_le _
  omega

/-- The first boot of all. -/
theorem erases_le_seeded :
    ∃ t, (chain 2 (fun _ _ => True) fun _ => True).Tallies Cmd.erases Cmd.grant
        (atRest Chip.blank) ⟨Chip.seeded, [], some ⟨0, 0, 1⟩⟩ t ∧
      t.spent ≤ 4 + t.earned + 2 * t.cuts := by
  have hreach : (chain 2 (fun _ _ => True) fun _ => True).Reaches (atRest Chip.blank)
      ⟨Chip.seeded, [], some ⟨0, 0, 1⟩⟩ := reaches_seeded trivial
  obtain ⟨t, ht⟩ := Machine.exists_tallies Cmd.erases Cmd.grant hreach
  exact ⟨t, ht, erases_le 2 _ _ Chip.blank none _ t (fun _ _ => residue_blank) ht⟩

end AtomicOta.Otadata
