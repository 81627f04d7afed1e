import AtomicOta.Fallible
import Mathlib.Algebra.Ring.Nat

/-!
# Computations on a ration

How often a computation asks for something, when it is only known by what it returns. The
second of two computations has a **ration** in its state, and the effects that are counted use
it up one by one; as long as some of it is left they are those of the first computation, and
then they may be anything. If it does what the first one does whenever it starts with `k` left
(`AtomicOta.Fallible.Spends`), then nothing the first one returns depends on what it would get
after `k` effects – also where it ends with an error, after which there is no state to ask.

The rule for a sequence adds the rations up, and lets what is known of the intermediate result
bound the second one (`AtomicOta.Fallible.Spends.bind`).
-/

namespace AtomicOta.Fallible

variable {ρ ε α β : Type}

/-- The errors of a sequence. -/
theorem bind_run_eq_error {x : StateT ρ (Except ε) α} {f : α → StateT ρ (Except ε) β} {s : ρ}
    {e : ε} (h : (x >>= f) s = .error e) :
    x s = .error e ∨ ∃ a s', x s = .ok (a, s') ∧ f a s' = .error e := by
  rw [bind_run] at h
  cases hs : x s with
  | error e' =>
    rw [hs] at h
    obtain rfl := Except.error.inj h
    exact .inl rfl
  | ok p =>
    rw [hs] at h
    exact .inr ⟨p.1, p.2, rfl, h⟩

/-- **A computation that makes do with `k`**: with as much left, the second one does what the
first one does, and uses up no more. -/
structure Spends (k : ℕ) (x : StateT ρ (Except ε) α) (y : StateT (ρ × ℕ) (Except ε) α) :
    Prop where
  ok : ∀ s b a s', k ≤ b → x s = .ok (a, s') → ∃ b', b ≤ b' + k ∧ y (s, b) = .ok (a, (s', b'))
  error : ∀ s b e, k ≤ b → x s = .error e → y (s, b) = .error e

variable {k j : ℕ} {x : StateT ρ (Except ε) α} {y : StateT (ρ × ℕ) (Except ε) α}
variable {f : α → StateT ρ (Except ε) β} {g : α → StateT (ρ × ℕ) (Except ε) β}

theorem Spends.pure (a : α) :
    Spends 0 (Pure.pure a : StateT ρ (Except ε) α) (Pure.pure a) := by
  constructor
  · rintro s b a' s' - hrun
    cases hrun
    exact ⟨b, Nat.le_refl _, rfl⟩
  · rintro s b e - hrun
    cases hrun

theorem Spends.throw (e : ε) :
    Spends 0 (throw e : StateT ρ (Except ε) α) (throw e) := by
  constructor
  · rintro s b a s' - hrun
    cases hrun
  · rintro s b e' - hrun
    cases hrun
    rfl

/-- A step that does not look at the state. -/
theorem Spends.lift (u : Except ε α) :
    Spends 0 (liftM u : StateT ρ (Except ε) α) (liftM u) := by
  cases u with
  | error e => exact Spends.throw e
  | ok a => exact Spends.pure a

/-- Less is enough. -/
theorem Spends.mono (h : Spends k x y) (hle : k ≤ j) : Spends j x y := by
  constructor
  · rintro s b a s' hb hrun
    obtain ⟨b', hb', hy⟩ := h.ok s b a s' (Nat.le_trans hle hb) hrun
    exact ⟨b', Nat.le_trans hb' (Nat.add_le_add_left hle b'), hy⟩
  · rintro s b e hb hrun
    exact h.error s b e (Nat.le_trans hle hb) hrun

/-- **The rule of a sequence**: the rations add up. -/
theorem Spends.bind {P : α → Prop} (hx : Spends k x y) (hP : Ends x P)
    (hf : ∀ a, P a → Spends j (f a) (g a)) : Spends (k + j) (x >>= f) (y >>= g) := by
  constructor
  · rintro s b c s'' hb hrun
    obtain ⟨a, s', hrunx, hrunf⟩ := bind_run_eq_ok hrun
    obtain ⟨b', hb', hy⟩ := hx.ok s b a s' (by omega) hrunx
    obtain ⟨b'', hb'', hg⟩ := (hf a (hP s a s' hrunx)).ok s' b' c s'' (by omega) hrunf
    refine ⟨b'', by omega, ?_⟩
    rw [bind_run, hy]
    exact hg
  · rintro s b e hb hrun
    rw [bind_run]
    rcases bind_run_eq_error hrun with hrunx | ⟨a, s', hrunx, hrunf⟩
    · rw [hx.error s b e (by omega) hrunx]
    · obtain ⟨b', hb', hy⟩ := hx.ok s b a s' (by omega) hrunx
      rw [hy]
      exact (hf a (hP s a s' hrunx)).error s' b' e (by omega) hrunf

/-- A sequence whose second part makes do with as much after any result. -/
theorem Spends.bind_always (hx : Spends k x y) (hf : ∀ a, Spends j (f a) (g a)) :
    Spends (k + j) (x >>= f) (y >>= g) :=
  hx.bind Ends.trivial fun a _ => hf a

/-- A loop over a list, with a ration for each element. -/
theorem Spends.foldlM {γ : Type} {body : β → γ → StateT ρ (Except ε) β}
    {body' : β → γ → StateT (ρ × ℕ) (Except ε) β} {cost : γ → ℕ}
    (hbody : ∀ acc c, Spends (cost c) (body acc c) (body' acc c)) (cs : List γ) (acc : β) :
    Spends (cs.map cost).sum (cs.foldlM body acc) (cs.foldlM body' acc) := by
  induction cs generalizing acc with
  | nil => exact Spends.pure acc
  | cons c cs ih =>
    rw [List.foldlM_cons, List.foldlM_cons, List.map_cons, List.sum_cons]
    exact (hbody acc c).bind_always fun acc' => ih acc'

end AtomicOta.Fallible
