import AtomicOta.Fallible

/-!
# Computations that follow each other

Two computations over states of their own, of which the second is known to get as far as the
first, `AtomicOta.Fallible.Follows`: whenever the first ends with a result, so does the
second, with a related one, and the states stay related on the way.

What is asked of the first computation may only be known at its end – that its result passes
a **guard** – although it is needed on the way. The rule for a sequence therefore asks that a
guarded result come from a guarded intermediate one, which is a matter of the first
computation alone (`AtomicOta.Fallible.Follows.bind`).
-/

namespace AtomicOta.Fallible

variable {ρ σ ε α β γ δ : Type}

/-- **The second computation follows the first**, from states related by `J`, as long as the
result of the first passes the guard `G`; the results are related by `R`. -/
def Follows (J : ρ → σ → Prop) (x : StateT ρ (Except ε) α) (y : StateT σ (Except ε) β)
    (G : α → Prop) (R : α → β → Prop) : Prop :=
  ∀ s t a s', J s t → x s = .ok (a, s') → G a → ∃ b t', y t = .ok (b, t') ∧ J s' t' ∧ R a b

variable {J : ρ → σ → Prop} {x : StateT ρ (Except ε) α} {y : StateT σ (Except ε) β}
variable {f : α → StateT ρ (Except ε) γ} {g : β → StateT σ (Except ε) δ}
variable {G : α → Prop} {R : α → β → Prop} {G' : γ → Prop} {R' : γ → δ → Prop}

theorem Follows.pure {a : α} {b : β} (h : G a → R a b) :
    Follows J (Pure.pure a : StateT ρ (Except ε) α) (Pure.pure b) G R := by
  rintro s t a' s' hJ hx hG
  cases hx
  exact ⟨b, t, rfl, hJ, h hG⟩

/-- An error is followed by anything. -/
theorem Follows.throw {e : ε} : Follows J (throw e : StateT ρ (Except ε) α) y G R := by
  rintro s t a s' hJ hx
  cases hx

/-- Fallible steps that do not look at the state. -/
theorem Follows.lift {u : Except ε α} {v : Except ε β}
    (h : ∀ a, u = .ok a → G a → ∃ b, v = .ok b ∧ R a b) :
    Follows J (liftM u : StateT ρ (Except ε) α) (liftM v) G R := by
  rintro s t a s' hJ hx hG
  cases u with
  | error e => cases hx
  | ok a =>
    cases hx
    obtain ⟨b, rfl, hR⟩ := h _ rfl hG
    exact ⟨b, t, rfl, hJ, hR⟩

/-- One step that both of them take. -/
theorem Follows.lift_same (u : Except ε α) :
    Follows J (liftM u : StateT ρ (Except ε) α) (liftM u) (fun _ => True) Eq :=
  Follows.lift fun a h _ => ⟨a, h, rfl⟩

/-- **The rule of a sequence**: what the guard asks of the end has to be so on the way. -/
theorem Follows.bind (hx : Follows J x y G R) (hG : ∀ a, Ends (f a) fun c => G' c → G a)
    (hf : ∀ a b, R a b → Follows J (f a) (g b) G' R') :
    Follows J (x >>= f) (y >>= g) G' R' := by
  rintro s t c s'' hJ hrun hG'
  rw [bind_run] at hrun
  cases hs : x s with
  | error e => simp [hs] at hrun
  | ok p =>
    simp only [hs] at hrun
    obtain ⟨b, t', hy, hJ', hR⟩ := hx s t p.1 p.2 hJ hs (hG p.1 p.2 c s'' hrun hG')
    obtain ⟨d, t'', hg, hrest⟩ := hf p.1 b hR p.2 t' c s'' hJ' hrun hG'
    refine ⟨d, t'', ?_, hrest⟩
    rw [bind_run, hy]
    exact hg

/-- A sequence of which every step is followed whatever comes out. -/
theorem Follows.bind_always (hx : Follows J x y (fun _ => True) R)
    (hf : ∀ a b, R a b → Follows J (f a) (g b) G' R') : Follows J (x >>= f) (y >>= g) G' R' :=
  hx.bind (fun _ _ _ _ _ _ => True.intro) hf

/-- What is known of a result of the first computation, and that it has passed the guard, can
be used on the way. -/
theorem Follows.of_ends (h : Follows J x y G R) {P G₀ : α → Prop} (hx : Ends x P)
    (hG : ∀ a, P a → G₀ a → G a) : Follows J x y G₀ fun a b => R a b ∧ P a ∧ G₀ a := by
  rintro s t a s' hJ hrun hG₀
  have hP := hx s a s' hrun
  obtain ⟨b, t', hy, hJ', hab⟩ := h s t a s' hJ hrun (hG a hP hG₀)
  exact ⟨b, t', hy, hJ', hab, hP, hG₀⟩

theorem Follows.mono (h : Follows J x y G R) {G₀ : α → Prop} {R₀ : α → β → Prop}
    (hG : ∀ a, G₀ a → G a) (hR : ∀ a b, R a b → R₀ a b) : Follows J x y G₀ R₀ := by
  rintro s t a s' hJ hx hG₀
  obtain ⟨b, t', hy, hJ', hab⟩ := h s t a s' hJ hx (hG a hG₀)
  exact ⟨b, t', hy, hJ', hR a b hab⟩

/-- What follows a computation that has ended with a result has one from every state. -/
theorem Follows.succeeds (h : Follows (fun _ _ => True) x y G R) {s s' : ρ} {a : α}
    (hx : x s = .ok (a, s')) (hG : G a) : Succeeds y (R a) := by
  rintro t
  obtain ⟨b, t', hy, -, hR⟩ := h s t a s' True.intro hx hG
  exact ⟨b, t', hy, hR⟩

end AtomicOta.Fallible
