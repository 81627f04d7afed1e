import AtomicOta.Crash.Device

/-!
# Machines that are interrupted

A machine runs jobs on a device of `AtomicOta.Crash.Device`: when it is idle it
may start one, which is a list of commands and the mode it will be in once they
are all done; while a job is running it executes the next command, or the power
goes and whatever was left of the job is forgotten.

Every configuration of such a machine is a moment an observer can look at it –
between two commands, in the middle of a job, after a cut – so a statement about
all reachable configurations is a statement about every instant of every run.
`Crash.Machine.Keeps.reaches` is the one induction over runs: an invariant of
the *idle* machine, indexed by its mode, that every job keeps and whose
powered-off instance holds all the way through the job, holds of the whole run.
-/

namespace Crash

/-- A machine: its device, the jobs it may start when idle in a given mode, and
the mode it comes up in when the power returns. -/
structure Machine (σ Op μ : Type) where
  /-- The device the jobs run on. -/
  device : Device σ Op
  /-- The jobs an idle machine may start, with the mode each one ends in. -/
  Start : μ → σ → List Op → μ → Prop
  /-- The mode after a power cut. -/
  off : μ

/-- A moment of a run: the state of the device, the commands still to execute,
and the mode the machine is in once they are done. -/
structure Config (σ Op μ : Type) where
  state : σ
  todo : List Op
  mode : μ

namespace Machine

variable {σ Op μ : Type} (M : Machine σ Op μ)

/-- One step of a run. -/
inductive Step : Config σ Op μ → Config σ Op μ → Prop
  /-- An idle machine starts a job. -/
  | start {m m' : μ} {s : σ} {ops : List Op} (h : M.Start m s ops m') : Step ⟨s, [], m⟩ ⟨s, ops, m'⟩
  /-- The next command completes. -/
  | exec (op : Op) (ops : List Op) (s : σ) (m : μ) :
    Step ⟨s, op :: ops, m⟩ ⟨M.device.apply op s, ops, m⟩
  /-- The power goes inside the next command. -/
  | torn {op : Op} {s s' : σ} (ops : List Op) (m : μ) (h : M.device.Torn op s s') :
    Step ⟨s, op :: ops, m⟩ ⟨s', [], M.off⟩
  /-- The power goes between two commands, or while the machine is idle. -/
  | cut (s : σ) (ops : List Op) (m : μ) : Step ⟨s, ops, m⟩ ⟨s, [], M.off⟩

/-- A run: any number of steps. -/
abbrev Reaches : Config σ Op μ → Config σ Op μ → Prop := Relation.ReflTransGen M.Step

/-- An invariant `I` of the idle machine, carried through a job: what is left of
the job is safe for the powered-off instance of the invariant, and leads to the
instance of the mode it ends in. -/
def Holds (G : Op → σ → Prop) (I : μ → σ → Prop) (c : Config σ Op μ) : Prop :=
  M.device.Safe G (I M.off) c.todo c.state ∧ I c.mode (M.device.run c.todo c.state)

/-- **The obligations of an invariant**: losing the power keeps it, and every
job keeps it from beginning to end. -/
structure Keeps (G : Op → σ → Prop) (I : μ → σ → Prop) : Prop where
  /-- A machine that loses its power keeps the powered-off instance. -/
  off : ∀ m s, I m s → I M.off s
  /-- A job started under the invariant is safe for it. -/
  safe : ∀ m s ops m', I m s → M.Start m s ops m' → M.device.Safe G (I M.off) ops s
  /-- A job that completes ends under the invariant. -/
  done : ∀ m s ops m', I m s → M.Start m s ops m' → I m' (M.device.run ops s)

variable {M} {G : Op → σ → Prop} {I : μ → σ → Prop} {c c' : Config σ Op μ}

/-! ### Runs, job by job -/

/-- A job runs to its end. -/
theorem reaches_exec (ops : List Op) (s : σ) (m : μ) :
    M.Reaches ⟨s, ops, m⟩ ⟨M.device.run ops s, [], m⟩ := by
  induction ops generalizing s with
  | nil => exact .refl
  | cons op ops ih => exact .head (.exec op ops s m) (ih _)

/-- A job starts, and runs to its end. -/
theorem reaches_done {m m' : μ} {s : σ} {ops : List Op} (h : M.Start m s ops m') :
    M.Reaches ⟨s, [], m⟩ ⟨M.device.run ops s, [], m'⟩ :=
  .head (.start h) (reaches_exec ops s m')

/-! ### Invariants -/

theorem holds_idle {s : σ} {m : μ} (hI : M.Keeps G I) (h : I m s) : M.Holds G I ⟨s, [], m⟩ :=
  ⟨hI.off m s h, h⟩

/-- One step keeps a carried invariant. -/
theorem Keeps.step (hI : M.Keeps G I) (hc : M.Holds G I c) (hs : M.Step c c') :
    M.Holds G I c' := by
  cases hs with
  | start h => exact ⟨hI.safe _ _ _ _ hc.2 h, hI.done _ _ _ _ hc.2 h⟩
  | exec op ops s m => exact ⟨hc.1.2.2.2, hc.2⟩
  | torn ops m h => exact holds_idle hI (hc.1.2.2.1 _ h)
  | cut s ops m => exact holds_idle hI hc.1.start

/-- **The induction over runs**: an invariant the idle machine keeps is carried
through every run. -/
theorem Keeps.reaches (hI : M.Keeps G I) (hc : M.Holds G I c) (hr : M.Reaches c c') :
    M.Holds G I c' := by
  induction hr with
  | refl => exact hc
  | tail _ hs ih => exact hI.step ih hs

/-- **The strongest invariant**: to be reachable from a given moment, at rest. An invariant that
is carried over from one machine to another carries this one over too. -/
theorem keeps_reaches (c₀ : Config σ Op μ) :
    M.Keeps (fun _ _ => True) fun m s => M.Reaches c₀ ⟨s, [], m⟩ := by
  have hsafe : ∀ (ops : List Op) (s : σ) (m : μ), M.Reaches c₀ ⟨s, ops, m⟩ →
      M.device.Safe (fun _ _ => True) (fun s => M.Reaches c₀ ⟨s, [], M.off⟩) ops s := by
    intro ops
    induction ops with
    | nil =>
      intro s m h
      exact h.tail (.cut s [] m)
    | cons op ops ih =>
      intro s m h
      exact ⟨h.tail (.cut s _ m), trivial, fun s' ht => h.tail (.torn ops m ht),
        ih _ m (h.tail (.exec op ops s m))⟩
  exact ⟨fun m s h => h.tail (.cut s [] m),
    fun _ _ _ _ h hstart => hsafe _ _ _ (h.tail (.start hstart)),
    fun _ _ _ _ h hstart => h.trans (reaches_done hstart)⟩

/-- The powered-off instance of a carried invariant holds at every moment. -/
theorem Holds.instant (hc : M.Holds G I c) : I M.off c.state := hc.1.start

/-- A carried invariant permits the next command. -/
theorem Holds.next {op : Op} {ops : List Op} (hc : M.Holds G I c) (h : c.todo = op :: ops) :
    G op c.state := by
  have hsafe := hc.1
  rw [h] at hsafe
  exact hsafe.2.1

/-- An idle machine satisfies the invariant of its mode. -/
theorem Holds.idle (hc : M.Holds G I c) (h : c.todo = []) : I c.mode c.state := by
  have hrun := hc.2
  rwa [h] at hrun

end Machine

end Crash
