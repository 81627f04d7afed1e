import Mathlib.Logic.Relation
import Mathlib.Data.List.Basic

/-!
# Interrupted executions

What a device does while a list of commands runs on it, when the power may go at
any moment. Nothing here names a flash memory or an update protocol: a device
(`Crash.Device`) is a state space with, for each command, what the command does
when it completes and what it may leave behind when it is cut short.

Two readings of “at every moment” are kept apart, and related.

* `Crash.Device.Safe` is the **forward** one: a predicate on the list of
  commands and the state, computed by recursion on the list, saying that every
  state the execution can be observed in – before a command, inside it, after
  the last – satisfies a given condition, and that every command that starts is
  permitted in the state it starts in.
* `Crash.Device.Cut` is the **backward** one: the states an execution that does
  not complete can leave.

`Crash.Device.Safe.cut` is the link: what is safe holds wherever the power went.

The rules below are the ones a proof about a concrete device uses: `Safe`
is monotone, follows from a condition every command preserves
(`Crash.Device.safe_of_preserved`), and is carried along a projection
(`Crash.Device.Safe.map`).
-/

namespace Crash

/-- A device, as far as interruption is concerned: the complete effect of each
command, and the states a command that is cut short may leave. -/
structure Device (σ Op : Type) where
  /-- What a command does when it completes. -/
  apply : Op → σ → σ
  /-- What a command may leave when it is cut. -/
  Torn : Op → σ → σ → Prop

namespace Device

variable {σ Op : Type} (D : Device σ Op)

/-- The state a list of commands leaves when all of them complete. -/
def run : List Op → σ → σ
  | [], s => s
  | op :: ops, s => run ops (D.apply op s)

@[simp] theorem run_nil (s : σ) : D.run [] s = s := rfl

@[simp] theorem run_cons (op : Op) (ops : List Op) (s : σ) :
    D.run (op :: ops) s = D.run ops (D.apply op s) := rfl

@[simp] theorem run_append (ops ops' : List Op) (s : σ) :
    D.run (ops ++ ops') s = D.run ops' (D.run ops s) := by
  induction ops generalizing s with
  | nil => rfl
  | cons op ops ih => exact ih (D.apply op s)

/-- **Every moment of an execution**: the states it can be observed in satisfy
`C`, and each command that starts is permitted by `G` in the state it starts
in. -/
def Safe (G : Op → σ → Prop) (C : σ → Prop) : List Op → σ → Prop
  | [], s => C s
  | op :: ops, s => C s ∧ G op s ∧ (∀ s', D.Torn op s s' → C s') ∧ Safe G C ops (D.apply op s)

/-- **The states a cut leaves**: the execution stops before a command, or inside
it. -/
inductive Cut : List Op → σ → σ → Prop
  /-- The power goes before the next command starts. -/
  | before (op : Op) (ops : List Op) (s : σ) : Cut (op :: ops) s s
  /-- The power goes inside the next command. -/
  | inside {op : Op} {s s' : σ} (ops : List Op) (h : D.Torn op s s') : Cut (op :: ops) s s'
  /-- The next command completes, and the power goes later. -/
  | later {op : Op} {ops : List Op} {s s' : σ} (h : Cut ops (D.apply op s) s') :
    Cut (op :: ops) s s'

variable {D} {G G' : Op → σ → Prop} {C C' : σ → Prop} {ops ops' : List Op} {s s' : σ}

theorem Safe.start (h : D.Safe G C ops s) : C s := by
  cases ops with
  | nil => exact h
  | cons op ops => exact h.1

/-- What holds at every moment holds once the execution is over. -/
theorem Safe.run (h : D.Safe G C ops s) : C (D.run ops s) := by
  induction ops generalizing s with
  | nil => exact h
  | cons op ops ih => exact ih h.2.2.2

/-- **What is safe holds wherever the power went.** -/
theorem Safe.cut (h : D.Safe G C ops s) (hc : D.Cut ops s s') : C s' := by
  induction hc with
  | before op ops s => exact h.1
  | inside ops ht => exact h.2.2.1 _ ht
  | later _ ih => exact ih h.2.2.2

theorem Safe.mono (h : D.Safe G C ops s) (hG : ∀ op s, G op s → G' op s)
    (hC : ∀ s, C s → C' s) : D.Safe G' C' ops s := by
  induction ops generalizing s with
  | nil => exact hC _ h
  | cons op ops ih =>
    exact ⟨hC _ h.1, hG _ _ h.2.1, fun s' ht => hC _ (h.2.2.1 s' ht), ih h.2.2.2⟩

/-- **The induction rule**: a condition that every command preserves, cut or
completed, holds at every moment. -/
theorem safe_of_preserved
    (hp : ∀ op ∈ ops, ∀ s, C s → G op s ∧ C (D.apply op s) ∧ ∀ s', D.Torn op s s' → C s')
    (hs : C s) : D.Safe G C ops s := by
  induction ops generalizing s with
  | nil => exact hs
  | cons op ops ih =>
    obtain ⟨hG, happly, htorn⟩ := hp op List.mem_cons_self s hs
    exact ⟨hs, hG, htorn, ih (fun op' h => hp op' (List.mem_cons_of_mem _ h)) happly⟩

/-- Two conditions that hold at every moment. -/
theorem Safe.and (h : D.Safe G C ops s) (h' : D.Safe G' C' ops s) :
    D.Safe (fun op s => G op s ∧ G' op s) (fun s => C s ∧ C' s) ops s := by
  induction ops generalizing s with
  | nil => exact ⟨h, h'⟩
  | cons op ops ih =>
    obtain ⟨hC, hG, ht, hrest⟩ := h
    obtain ⟨hC', hG', ht', hrest'⟩ := h'
    exact ⟨⟨hC, hC'⟩, ⟨hG, hG'⟩, fun s' hs' => ⟨ht s' hs', ht' s' hs'⟩, ih hrest hrest'⟩

/-- **Projection**: what is safe on a device is safe on one it projects onto, if the
projection commutes with the commands and every cut of the second is the projection
of one of the first. -/
theorem Safe.map {τ Op' : Type} {E : Device τ Op'} {π : σ → τ} {g : Op → Op'} {C : τ → Prop}
    (happly : ∀ op s, π (D.apply op s) = E.apply (g op) (π s))
    (htorn : ∀ op s t, E.Torn (g op) (π s) t → ∃ s', D.Torn op s s' ∧ π s' = t)
    (h : D.Safe G (fun s => C (π s)) ops s) :
    E.Safe (fun _ _ => True) C (ops.map g) (π s) := by
  induction ops generalizing s with
  | nil => exact h
  | cons op ops ih =>
    refine ⟨h.1, trivial, fun t ht => ?_, happly op s ▸ ih h.2.2.2⟩
    obtain ⟨s', hs', rfl⟩ := htorn op s t ht
    exact h.2.2.1 s' hs'

/-- **Projection, with what is permitted**: as `Crash.Device.Safe.map`, from a condition of the
first device to one of the second; a command is permitted on the second one if it is on the
first, in a state that satisfies the condition. -/
theorem Safe.lift {τ Op' : Type} {E : Device τ Op'} {π : σ → τ} {g : Op → Op'}
    {G' : Op' → τ → Prop} {C' : τ → Prop}
    (happly : ∀ op s, π (D.apply op s) = E.apply (g op) (π s))
    (htorn : ∀ op s t, E.Torn (g op) (π s) t → ∃ s', D.Torn op s s' ∧ π s' = t)
    (hG : ∀ op s, C s → G op s → G' (g op) (π s)) (hC : ∀ s, C s → C' (π s))
    (h : D.Safe G C ops s) : E.Safe G' C' (ops.map g) (π s) := by
  induction ops generalizing s with
  | nil => exact hC s h
  | cons op ops ih =>
    obtain ⟨hs, hop, hcut, hrest⟩ := h
    refine ⟨hC s hs, hG op s hs hop, fun t ht => ?_, happly op s ▸ ih hrest⟩
    obtain ⟨s', hs', rfl⟩ := htorn op s t ht
    exact hC s' (hcut s' hs')

end Device

end Crash
