import Mathlib.Logic.Basic

/-!
# Computations that may fail

Rules for a computation over a state that ends with a result or with an error,
`StateT ρ (Except ε) α`, when what matters is the result and not the state it leaves:

* `AtomicOta.Fallible.Ends` – every result satisfies a condition, should there be one;
* `AtomicOta.Fallible.Succeeds` – there is a result from every state, and it satisfies a
  condition;
* `AtomicOta.Fallible.Fails` – there is none, and always the same error;
* `AtomicOta.Fallible.Decides` – a condition decides between a result and an error;
* `AtomicOta.Fallible.Avoids` – an error that never is the end.

Each has a rule for every way a computation is built, so that one is followed in the order
of its steps and never unfolded into what it does to the state. So has the relation of two
computations of which one is trusted as long as it does not end with a certain error,
`AtomicOta.Fallible.SameUnless`.
-/

namespace AtomicOta.Fallible

variable {ρ ε α β : Type}

/-- Every result satisfies `P`. -/
def Ends (x : StateT ρ (Except ε) α) (P : α → Prop) : Prop :=
  ∀ s a s', x s = .ok (a, s') → P a

/-- There is a result from every state, and it satisfies `P`. -/
def Succeeds (x : StateT ρ (Except ε) α) (P : α → Prop) : Prop :=
  ∀ s, ∃ a s', x s = .ok (a, s') ∧ P a

/-- There is no result from any state, but the error `e`. -/
def Fails (x : StateT ρ (Except ε) α) (e : ε) : Prop :=
  ∀ s, x s = .error e

variable {x : StateT ρ (Except ε) α} {f : α → StateT ρ (Except ε) β}
variable {P : α → Prop} {Q : β → Prop} {e : ε}

/-- What a sequence of two computations does from a state. -/
theorem bind_run (s : ρ) :
    (x >>= f) s = (match x s with
      | .ok p => f p.1 p.2
      | .error e => .error e) := by
  change (x s >>= fun p => f p.1 p.2) = _
  cases x s <;> rfl

/-- The step a result of a sequence went through. -/
theorem bind_eq_ok {y : Except ε α} {g : α → Except ε β} {b : β} (h : y >>= g = .ok b) :
    ∃ a, y = .ok a ∧ g a = .ok b := by
  cases y with
  | error e => cases h
  | ok a => exact ⟨a, rfl, h⟩

/-- The states a sequence with a result went through. -/
theorem bind_run_eq_ok {s s'' : ρ} {b : β} (h : (x >>= f) s = .ok (b, s'')) :
    ∃ a s', x s = .ok (a, s') ∧ f a s' = .ok (b, s'') := by
  rw [bind_run] at h
  cases hs : x s with
  | error e => simp [hs] at h
  | ok p =>
    rw [hs] at h
    exact ⟨p.1, p.2, rfl, h⟩

/-- An error that neither step of a sequence ends with. -/
theorem bind_ne_error {y : Except ε α} {g : α → Except ε β} (hy : y ≠ .error e)
    (hg : ∀ a, y = .ok a → g a ≠ .error e) : y >>= g ≠ .error e := by
  cases y with
  | error e' =>
    intro h
    cases h
    exact hy rfl
  | ok a => exact hg a rfl

/-- An error that a sequence ends with, whichever step it comes from. -/
theorem bind_eq_error {y : Except ε α} {g : α → Except ε β} (hy : ∀ e', y = .error e' → e' = e)
    (hg : ∀ a, y = .ok a → g a = .error e) : y >>= g = .error e := by
  cases y with
  | error e' =>
    rw [hy e' rfl]
    rfl
  | ok a => exact hg a rfl

/-! ### Whenever there is a result -/

theorem Ends.pure {a : α} (h : P a) : Ends (Pure.pure a : StateT ρ (Except ε) α) P := by
  rintro s b s' hb
  cases hb
  exact h

theorem Ends.throw : Ends (ρ := ρ) (throw e : StateT ρ (Except ε) α) P := by
  rintro s b s' hb
  cases hb

/-- A fallible step that does not look at the state. -/
theorem Ends.lift {y : Except ε α} (h : ∀ a, y = .ok a → P a) :
    Ends (liftM y : StateT ρ (Except ε) α) P := by
  rintro s b s' hb
  cases y with
  | error e => cases hb
  | ok a =>
    cases hb
    exact h _ rfl

theorem Ends.bind (hx : Ends x P) (hf : ∀ a, P a → Ends (f a) Q) : Ends (x >>= f) Q := by
  intro s b s' hb
  rw [bind_run] at hb
  cases hrun : x s with
  | error e => simp [hrun] at hb
  | ok p =>
    rw [hrun] at hb
    exact hf p.1 (hx s p.1 p.2 hrun) p.2 b s' hb

theorem Ends.mono (hx : Ends x P) {P' : α → Prop} (h : ∀ a, P a → P' a) : Ends x P' :=
  fun s a s' ha => h a (hx s a s' ha)

theorem Ends.and (hx : Ends x P) {P' : α → Prop} (hx' : Ends x P') :
    Ends x fun a => P a ∧ P' a :=
  fun s a s' ha => ⟨hx s a s' ha, hx' s a s' ha⟩

/-- Nothing is known of a result that nothing is said about. -/
theorem Ends.trivial : Ends x fun _ => True := fun _ _ _ _ => True.intro

/-! ### There is a result -/

theorem Succeeds.pure {a : α} (h : P a) : Succeeds (Pure.pure a : StateT ρ (Except ε) α) P :=
  fun s => ⟨a, s, rfl, h⟩

theorem Succeeds.lift {y : Except ε α} {a : α} (hy : y = .ok a) (h : P a) :
    Succeeds (liftM y : StateT ρ (Except ε) α) P := by
  rintro s
  subst hy
  exact ⟨a, s, rfl, h⟩

theorem Succeeds.bind (hx : Succeeds x P) (hf : ∀ a, P a → Succeeds (f a) Q) :
    Succeeds (x >>= f) Q := by
  intro s
  obtain ⟨a, s₁, hrun, ha⟩ := hx s
  obtain ⟨b, s₂, hrun', hb⟩ := hf a ha s₁
  refine ⟨b, s₂, ?_, hb⟩
  rw [bind_run, hrun]
  exact hrun'

theorem Succeeds.mono (hx : Succeeds x P) {P' : α → Prop} (h : ∀ a, P a → P' a) :
    Succeeds x P' := by
  intro s
  obtain ⟨a, s', hrun, ha⟩ := hx s
  exact ⟨a, s', hrun, h a ha⟩

/-- Where there is a result from every state, every result is one of these. -/
theorem Succeeds.ends (hx : Succeeds x P) : Ends x P := by
  intro s a s' ha
  obtain ⟨b, s'', hrun, hb⟩ := hx s
  rw [ha] at hrun
  cases hrun
  exact hb

/-! ### There is none -/

theorem Fails.throw : Fails (throw e : StateT ρ (Except ε) α) e := fun _ => rfl

theorem Fails.lift {y : Except ε α} (hy : y = .error e) :
    Fails (ρ := ρ) (liftM y : StateT ρ (Except ε) α) e := by
  rintro s
  subst hy
  rfl

theorem Fails.ne_ok (h : Fails x e) {s : ρ} {p : α × ρ} : x s ≠ .ok p := by
  rw [h s]
  simp

/-- What comes after an error is not run. -/
theorem Fails.bind_left (hx : Fails x e) : Fails (x >>= f) e := by
  intro s
  rw [bind_run, hx s]

theorem Fails.bind (hx : Succeeds x P) (hf : ∀ a, P a → Fails (f a) e) : Fails (x >>= f) e := by
  intro s
  obtain ⟨a, s₁, hrun, ha⟩ := hx s
  rw [bind_run, hrun]
  exact hf a ha s₁

/-! ### A check -/

/-- **A check**: whether `c` holds decides between the result `a` and the error `e`. -/
def Decides (x : StateT ρ (Except ε) α) (c : Prop) (a : α) (e : ε) : Prop :=
  (c → Succeeds x (· = a)) ∧ (¬ c → Fails x e)

variable {c : Prop} {a : α} {b : β}

theorem Decides.check {c' : Prop} [Decidable c'] (h : c' ↔ ¬ c) :
    Decides (if c' then throw e else Pure.pure a : StateT ρ (Except ε) α) c a e := by
  constructor
  · rintro hc
    rw [if_neg fun hc' => h.mp hc' hc]
    exact Succeeds.pure rfl
  · rintro hc
    rw [if_pos (h.mpr hc)]
    exact Fails.throw

/-- What is checked may depend on what came before. -/
theorem Decides.bind (hx : Succeeds x P) (hf : ∀ a, P a → Decides (f a) c b e) :
    Decides (x >>= f) c b e := by
  constructor
  · exact fun hc => hx.bind fun a ha => (hf a ha).1 hc
  · exact fun hc => Fails.bind hx fun a ha => (hf a ha).2 hc

/-- After a check that has passed, only the rest matters. -/
theorem Decides.bind_left (hx : Decides x c a e) (hf : Succeeds (f a) (· = b)) :
    Decides (x >>= f) c b e := by
  constructor
  · rintro hc
    refine (hx.1 hc).bind ?_
    rintro _ rfl
    exact hf
  · exact fun hc => (hx.2 hc).bind_left

/-- From any state, the result comes out exactly if the check passes. -/
theorem Decides.exists_ok_iff (hx : Decides x c a e) (s : ρ) : (∃ s', x s = .ok (a, s')) ↔ c := by
  constructor
  · rintro ⟨s', hok⟩
    exact not_not.mp fun hc => (hx.2 hc).ne_ok hok
  · rintro hc
    obtain ⟨_, s', hok, rfl⟩ := hx.1 hc s
    exact ⟨s', hok⟩

/-! ### An error that is avoided -/

/-- No run ends with the error `e`. -/
def Avoids (x : StateT ρ (Except ε) α) (e : ε) : Prop :=
  ∀ s, x s ≠ .error e

theorem Avoids.pure {a : α} : Avoids (Pure.pure a : StateT ρ (Except ε) α) e := by
  rintro s h
  cases h

theorem Avoids.throw {e' : ε} (h : e' ≠ e) : Avoids (throw e' : StateT ρ (Except ε) α) e := by
  rintro s hs
  cases hs
  exact h rfl

theorem Avoids.lift {y : Except ε α} (h : y ≠ .error e) :
    Avoids (liftM y : StateT ρ (Except ε) α) e := by
  rintro s hs
  cases y with
  | error e' =>
    cases hs
    exact h rfl
  | ok a => cases hs

theorem Avoids.bind (hx : Avoids x e) (hP : Ends x P) (hf : ∀ a, P a → Avoids (f a) e) :
    Avoids (x >>= f) e := by
  intro s hs
  rw [bind_run] at hs
  cases hrun : x s with
  | error e' =>
    rw [hrun] at hs
    cases hs
    exact hx s hrun
  | ok p =>
    rw [hrun] at hs
    exact hf p.1 (hP s p.1 p.2 hrun) p.2 hs

/-! ### Two computations -/

/-- The second ends as the first does, unless that is the error `e`. -/
def SameUnless (e : ε) (x y : Except ε α) : Prop := x ≠ .error e → y = x

theorem SameUnless.refl (y : Except ε α) : SameUnless e y y := fun _ => rfl

theorem SameUnless.bind {y z : Except ε α} {g h : α → Except ε β} (hy : SameUnless e y z)
    (hg : ∀ a, SameUnless e (g a) (h a)) : SameUnless e (y >>= g) (z >>= h) := by
  intro hne
  cases y with
  | error e' =>
    rw [hy fun heq => hne (heq ▸ rfl)]
    rfl
  | ok a =>
    rw [hy (by simp)]
    exact hg a hne

/-- Two computations over one state, from each of its values. -/
theorem SameUnless.bind_run {y : StateT ρ (Except ε) α} {g : α → StateT ρ (Except ε) β}
    (hx : ∀ s, SameUnless e (x s) (y s)) (hf : ∀ a s, SameUnless e (f a s) (g a s)) (s : ρ) :
    SameUnless e ((x >>= f) s) ((y >>= g) s) :=
  SameUnless.bind (hx s) fun p => hf p.1 p.2

theorem SameUnless.lift {y z : Except ε α} (h : SameUnless e y z) (s : ρ) :
    SameUnless e ((liftM y : StateT ρ (Except ε) α) s) ((liftM z : StateT ρ (Except ε) α) s) :=
  SameUnless.bind h fun _ => SameUnless.refl _

end AtomicOta.Fallible
