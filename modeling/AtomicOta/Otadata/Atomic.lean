import AtomicOta.Otadata.Chain

/-!
# An update is atomic

With the commands of an update in their order, each of them complete or cut, an update of a sector
is **atomic** (`AtomicOta.Otadata.decode_of_updates`): after any history of interrupted updates the
sector reads as the last entry whose commit took effect, or as nothing. The order is what carries
it – the commit word is programmed last, over a body that is complete. What is left without the
order is `AtomicOta.Otadata.Protected`'s.
-/

namespace AtomicOta.Otadata

/-- Anyone may update the sector, at any time it is idle. -/
@[simps] def updater (s : Sector) : Crash.Machine Chip Cmd Unit where
  device := chipDevice
  Start _ _ ops _ := ∃ r : Request, r.write.sector = s ∧ ops = commands [r]
  off := ()

/-- What a sector is accepted as is the entry of its last update. -/
def Latest (s : Sector) (l : Ledger) : Prop :=
  ∀ e, l.book s = some e → ∃ r, lastUpdate s l.log = some r ∧ r.write.entry = e

theorem Latest.drop {s : Sector} {l : Ledger} (h : Latest s l) (r : Request) :
    Latest s (l.drop r) :=
  fun e he => h e (Ledger.book_of_drop he).2

theorem Latest.commit {s : Sector} {l : Ledger} (h : Latest s l) (r : Request) :
    Latest s (l.commit r) := by
  intro e he
  rcases Ledger.book_commit_cases he with ⟨hne, he⟩ | ⟨rfl, rfl, -⟩
  · rw [Ledger.log_commit, lastUpdate_cons_of_ne _ hne]
    exact h e he
  · exact ⟨r, lastUpdate_cons_self r l.log, rfl⟩

theorem keeps_updater (s : Sector) : (updater s).Keeps (fun _ _ => True)
    fun _ c => Sound {s} c.flash ∧ Latest s c.read := by
  have hsafe : ∀ (c : Chip) (r : Request), r.write.sector = s → Sound {s} c.flash →
      Latest s c.read → chipDevice.Safe (fun _ _ => True)
        (fun c => Sound {s} c.flash ∧ Latest s c.read) (commands [r]) c := by
    intro c r hr hs hl
    refine safe_commands (G := fun _ _ => True) (fun r' hr' => ?_) hs
      (ledger_safe_of_preserved (fun r' _ l h => ?_) hl)
    · rw [List.mem_singleton.mp hr']
      exact hr
    · exact ⟨trivial, h.drop r', h.commit r'⟩
  refine ⟨fun _ _ h => h, fun _ c ops _ h hstart => ?_, fun _ c ops _ h hstart => ?_⟩
  · obtain ⟨r, hr, rfl⟩ := hstart
    exact hsafe c r hr h.1 h.2
  · obtain ⟨r, hr, rfl⟩ := hstart
    exact (hsafe c r hr h.1 h.2).run

/-- **An update is atomic, however many attempts at it were interrupted**: what the
sector is accepted as is, byte for byte, the entry of the last update whose commit
took effect, and an update that completes leaves its entry whatever was there. -/
theorem decode_of_updates (s : Sector) (f : Flash) (hf : f s = blank)
    (c : Crash.Config Chip Cmd Unit) (hc : (updater s).Reaches ⟨⟨f, []⟩, [], ()⟩ c) :
    (∀ e, decode (c.state.flash s) = .ok e →
      (∃ r, lastUpdate s c.state.log = some r ∧ r.write.entry = e) ∧
      word (c.state.flash s) offCommit = commit ∧ c.state.flash s = e.encode) ∧
    ∀ (g : Flash) (w : Write), flashDevice.run w.ops g w.sector = w.entry.encode := by
  have hstart : (updater s).Holds (fun _ _ => True)
      (fun _ c => Sound {s} c.flash ∧ Latest s c.read) ⟨⟨f, []⟩, [], ()⟩ := by
    refine Crash.Machine.holds_idle (keeps_updater s) ⟨?_, fun e he => ?_⟩
    · rintro s' rfl
      exact (congrArg Residue hf).mpr residue_blank
    · have hnone : view f s = none := (congrArg accepted hf).trans accepted_blank
      exact absurd (hnone.symm.trans he) (by simp)
  have hlatest := ((keeps_updater s).reaches hstart hc).instant.2
  refine ⟨fun e he => ⟨hlatest e (accepted_eq_some.mpr he), ?_⟩, fun g w => ?_⟩
  · obtain ⟨-, hraw⟩ := (decode_eq_ok_iff _ _).mp he
    rw [hraw]
    exact ⟨word_encode e 5, rfl⟩
  · rw [run_ops, Function.update_self]

/-- The same for the sector a run of one update leaves. -/
theorem decode_of_updates_once :
    let r : Request := ⟨⟨0, ⟨1, State.valid⟩⟩, .boot⟩
    let c := chipDevice.run (commands [r]) Chip.blank
    (∀ e, decode (c.flash 0) = .ok e →
      (∃ r, lastUpdate 0 c.log = some r ∧ r.write.entry = e) ∧
      word (c.flash 0) offCommit = commit ∧ c.flash 0 = e.encode) ∧
    ∀ (g : Flash) (w : Write), flashDevice.run w.ops g w.sector = w.entry.encode :=
  decode_of_updates 0 (fun _ => blank) rfl ⟨_, [], ()⟩
    (Crash.Machine.reaches_done (M := updater 0) ⟨⟨⟨0, ⟨1, State.valid⟩⟩, .boot⟩, rfl, rfl⟩)

end AtomicOta.Otadata
