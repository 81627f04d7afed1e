import AtomicOta.Crash.Machine

/-!
# What runs cost

Amortised accounts for the machines of `AtomicOta.Crash.Machine`. Every command that is started
has a **cost**, and may bring an **income**; a state has a **potential**, which is what it can
still pay for. A run is kept with its accounts (`Crash.Machine.Tallies`): what was spent, what
came in, and how often the power went.

`Crash.Device.Pays` is the account of one job, command by command: there is credit for each
command before it starts, and wherever the power goes, the state that is left is worth no more
than the credit that is left and an **allowance**. A machine whose jobs pay out of the potential
they start from pays for every run out of its potential, its income, and one allowance for each
power cut: `Crash.Machine.Tallies.spent_le`.

What a job may do that starts over after a cut is therefore not bounded by the number of jobs:
a machine may start as many as it likes that cost nothing.
-/

namespace Crash

variable {σ Op μ : Type}

/-- **The account of a job**, with some credit: each command can be paid for when it starts,
out of the credit and its income, and a cut leaves a state that is worth at most an allowance
more than what is left. -/
def Device.Pays (D : Device σ Op) (cost income : Op → ℕ) (potential : σ → ℕ) (allowance : ℕ) :
    ℕ → List Op → σ → Prop
  | credit, [], s => potential s ≤ credit
  | credit, op :: ops, s => potential s ≤ credit + allowance ∧
    (∀ s', D.Torn op s s' → cost op + potential s' ≤ credit + income op + allowance) ∧
    cost op ≤ credit + income op ∧
    D.Pays cost income potential allowance (credit + income op - cost op) ops (D.apply op s)

/-- The accounts of a run. -/
structure Tally where
  spent : ℕ
  earned : ℕ
  cuts : ℕ

/-- A command was started. -/
def Tally.charge (t : Tally) (cost income : ℕ) : Tally :=
  { t with spent := t.spent + cost, earned := t.earned + income }

/-- The power went. -/
def Tally.cut (t : Tally) : Tally := { t with cuts := t.cuts + 1 }

namespace Machine

/-- **A run with its accounts**, from a configuration on. -/
inductive Tallies (M : Machine σ Op μ) (cost income : Op → ℕ) (c₀ : Config σ Op μ) :
    Config σ Op μ → Tally → Prop
  | refl : Tallies M cost income c₀ c₀ ⟨0, 0, 0⟩
  | start {m m' : μ} {s : σ} {ops : List Op} {t : Tally}
    (h : Tallies M cost income c₀ ⟨s, [], m⟩ t) (hs : M.Start m s ops m') :
    Tallies M cost income c₀ ⟨s, ops, m'⟩ t
  | exec {op : Op} {ops : List Op} {s : σ} {m : μ} {t : Tally}
    (h : Tallies M cost income c₀ ⟨s, op :: ops, m⟩ t) :
    Tallies M cost income c₀ ⟨M.device.apply op s, ops, m⟩ (t.charge (cost op) (income op))
  | torn {op : Op} {ops : List Op} {s s' : σ} {m : μ} {t : Tally}
    (h : Tallies M cost income c₀ ⟨s, op :: ops, m⟩ t) (ht : M.device.Torn op s s') :
    Tallies M cost income c₀ ⟨s', [], M.off⟩ (t.charge (cost op) (income op)).cut
  | cut {s : σ} {ops : List Op} {m : μ} {t : Tally}
    (h : Tallies M cost income c₀ ⟨s, ops, m⟩ t) :
    Tallies M cost income c₀ ⟨s, [], M.off⟩ t.cut

variable {M : Machine σ Op μ} {cost income : Op → ℕ} {c₀ c c' : Config σ Op μ} {t : Tally}

/-- A run with its accounts is a run. -/
theorem Tallies.reaches (h : M.Tallies cost income c₀ c t) : M.Reaches c₀ c := by
  induction h with
  | refl => exact .refl
  | start h hs ih => exact ih.tail (.start hs)
  | exec h ih => exact ih.tail (.exec _ _ _ _)
  | torn h ht ih => exact ih.tail (.torn _ _ ht)
  | cut h ih => exact ih.tail (.cut _ _ _)

/-- Every run has its accounts. -/
theorem exists_tallies (cost income : Op → ℕ) (h : M.Reaches c₀ c) :
    ∃ t, M.Tallies cost income c₀ c t := by
  induction h with
  | refl => exact ⟨_, .refl⟩
  | tail _ hs ih =>
    obtain ⟨t, ht⟩ := ih
    cases hs with
    | start hs => exact ⟨_, ht.start hs⟩
    | exec => exact ⟨_, ht.exec⟩
    | torn _ _ hs => exact ⟨_, ht.torn hs⟩
    | cut => exact ⟨_, ht.cut⟩

variable {potential : σ → ℕ} {allowance : ℕ} {G : Op → σ → Prop} {I : μ → σ → Prop}

/-- **A machine pays for its runs**: what was spent is at most the potential it began with, what
came in, and an allowance for each power cut. -/
theorem Tallies.spent_le (hI : M.Keeps G I)
    (hpays : ∀ m s ops m', I m s → M.Start m s ops m' →
      M.device.Pays cost income potential allowance (potential s) ops s)
    {s₀ : σ} {m₀ : μ} (h₀ : I m₀ s₀) (h : M.Tallies cost income ⟨s₀, [], m₀⟩ c t) :
    t.spent ≤ potential s₀ + t.earned + allowance * t.cuts := by
  -- at every moment there is a credit that pays for the rest of the job
  suffices hcredit : ∃ credit, t.spent + credit ≤ potential s₀ + t.earned + allowance * t.cuts ∧
      M.device.Pays cost income potential allowance credit c.todo c.state by
    obtain ⟨credit, hle, -⟩ := hcredit
    omega
  induction h with
  | refl => exact ⟨potential s₀, by simp, Nat.le_refl _⟩
  | @start m m' s ops t h hs ih =>
    obtain ⟨credit, hle, hidle⟩ := ih
    have hnow := (hI.reaches (holds_idle hI h₀) h.reaches).idle rfl
    have hworth : potential s ≤ credit := hidle
    exact ⟨potential s, by omega, hpays m s ops m' hnow hs⟩
  | @exec op ops s m t h ih =>
    obtain ⟨credit, hle, -, -, hcost, hrest⟩ := ih
    refine ⟨_, ?_, hrest⟩
    simp only [Tally.charge]
    omega
  | @torn op ops s s' m t h ht ih =>
    obtain ⟨credit, hle, -, htorn, -⟩ := ih
    refine ⟨potential s', ?_, Nat.le_refl _⟩
    have hleft := htorn s' ht
    simp only [Tally.charge, Tally.cut, Nat.mul_succ]
    omega
  | @cut s ops m t h ih =>
    obtain ⟨credit, hle, hjob⟩ := ih
    refine ⟨potential s, ?_, Nat.le_refl _⟩
    have hleft : potential s ≤ credit + allowance := by
      cases ops with
      | nil => exact Nat.le_add_right_of_le hjob
      | cons op ops => exact hjob.1
    simp only [Tally.cut, Nat.mul_succ]
    omega

end Machine

end Crash
