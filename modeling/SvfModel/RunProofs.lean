import Mathlib

/-!
# Runs of partial and total state machines

Everything the stores of this development do is "call after call": a state, a call, an
output and the next state. The code's own assertions make a call *partial*, so a step
lives in `Except ε`. This module fixes what a run of calls is and proves, once, the
rules every later run argument is an instance of:

* `runM_inv` — what each successful step preserves holds after every successful run;
* `runM_sim` — a step-by-step simulation by a total machine is a simulation of runs,
  outputs included;
* `runM_error` — what a failing step says, a failing run says, with a measure that grows
  by at most `k` per step bounding when it can happen.

Nothing here mentions a particular program.
-/

namespace SvfRun

variable {σ τ ι ο ε : Type}

theorem bind_ok {A B : Type} {x : Except ε A} {f : A → Except ε B} {b : B} :
    (x >>= f) = .ok b ↔ ∃ a, x = .ok a ∧ f a = .ok b := by
  cases x with
  | error e => exact ⟨fun h => (nomatch h), fun ⟨_, h, _⟩ => (nomatch h)⟩
  | ok a =>
    constructor
    · intro h
      exact ⟨a, rfl, h⟩
    · rintro ⟨a', ha, hf⟩
      rw [Except.ok.inj ha]
      exact hf

theorem bind_error {A B : Type} {x : Except ε A} {f : A → Except ε B} {e : ε} :
    (x >>= f) = .error e ↔ x = .error e ∨ ∃ a, x = .ok a ∧ f a = .error e := by
  cases x with
  | error e' =>
    constructor
    · intro h
      exact .inl (congrArg Except.error (Except.error.inj h))
    · rintro (h | ⟨_, h, _⟩)
      · exact congrArg Except.error (Except.error.inj h)
      · cases h
  | ok a =>
    constructor
    · intro h
      exact .inr ⟨a, rfl, h⟩
    · rintro (h | ⟨a', ha, hf⟩)
      · cases h
      · rw [Except.ok.inj ha]
        exact hf

def runM (step : σ → ι → Except ε (ο × σ)) : σ → List ι → Except ε (List ο × σ)
  | s, [] => .ok ([], s)
  | s, i :: is =>
    match step s i with
    | .error e => .error e
    | .ok (o, s') =>
      match runM step s' is with
      | .error e => .error e
      | .ok (os, s'') => .ok (o :: os, s'')

def run (step : τ → ι → ο × τ) : τ → List ι → List ο × τ
  | t, [] => ([], t)
  | t, i :: is => ((step t i).1 :: (run step (step t i).2 is).1, (run step (step t i).2 is).2)

@[simp] theorem runM_nil (step : σ → ι → Except ε (ο × σ)) (s : σ) :
    runM step s [] = .ok ([], s) := rfl

@[simp] theorem run_nil (step : τ → ι → ο × τ) (t : τ) : run step t [] = ([], t) := rfl

theorem run_concat (step : τ → ι → ο × τ) (t : τ) (is : List ι) (i : ι) :
    run step t (is ++ [i]) = ((run step t is).1 ++ [(step (run step t is).2 i).1],
      (step (run step t is).2 i).2) := by
  induction is generalizing t with
  | nil => rfl
  | cons j is ih => rw [List.cons_append, run, ih]; rfl

variable {step : σ → ι → Except ε (ο × σ)}

/-- A successful run of `i :: is` is a successful step followed by a successful run. -/
theorem runM_cons_ok {s s'' : σ} {i : ι} {is : List ι} {os : List ο}
    (h : runM step s (i :: is) = .ok (os, s'')) :
    ∃ o s' os', step s i = .ok (o, s') ∧ runM step s' is = .ok (os', s'') ∧ os = o :: os' := by
  cases hstep : step s i with
  | error e => simp [runM, hstep] at h
  | ok r =>
    obtain ⟨o, s'⟩ := r
    cases hrun : runM step s' is with
    | error e => simp [runM, hstep, hrun] at h
    | ok r' =>
      obtain ⟨os', t⟩ := r'
      simp only [runM, hstep, hrun, Except.ok.injEq, Prod.mk.injEq] at h
      obtain ⟨rfl, rfl⟩ := h
      exact ⟨o, s', os', rfl, hrun, rfl⟩

/-- A failed run of `i :: is` failed at its first step or later. -/
theorem runM_cons_error {s : σ} {i : ι} {is : List ι} {e : ε} (h : runM step s (i :: is) = .error e)
    :
    step s i = .error e ∨ ∃ o s', step s i = .ok (o, s') ∧ runM step s' is = .error e := by
  cases hstep : step s i with
  | error e' =>
    simp only [runM, hstep, Except.error.injEq] at h
    exact .inl (by rw [h])
  | ok r =>
    obtain ⟨o, s'⟩ := r
    cases hrun : runM step s' is with
    | error e' =>
      simp only [runM, hstep, hrun, Except.error.injEq] at h
      exact .inr ⟨o, s', rfl, by rw [hrun, h]⟩
    | ok r' => simp [runM, hstep, hrun] at h

/-- **Invariant rule.** What every successful step preserves, every successful run does. -/
theorem runM_inv {I : σ → Prop} (hstep : ∀ s i o s', I s → step s i = .ok (o, s') → I s') :
    ∀ (is : List ι) (s s'' : σ) (os : List ο), I s → runM step s is = .ok (os, s'') → I s'' := by
  intro is
  induction is with
  | nil =>
    intro s s'' os hI h
    simp only [runM_nil, Except.ok.injEq, Prod.mk.injEq] at h
    exact h.2 ▸ hI
  | cons i is ih =>
    intro s s'' os hI h
    obtain ⟨o, s', os', h1, h2, -⟩ := runM_cons_ok h
    exact ih s' s'' os' (hstep s i o s' hI h1) h2

/-- **Simulation rule.** If a total machine matches every successful step of a partial one,
    output for output, it matches every successful run. -/
theorem runM_sim {stepT : τ → ι → ο × τ} {R : σ → τ → Prop}
    (hsim : ∀ s t i o s', R s t → step s i = .ok (o, s') → o = (stepT t i).1 ∧ R s' (stepT t i).2) :
    ∀ (is : List ι) (s s'' : σ) (t : τ) (os : List ο), R s t → runM step s is = .ok (os, s'') →
      os = (run stepT t is).1 ∧ R s'' (run stepT t is).2 := by
  intro is
  induction is with
  | nil =>
    intro s s'' t os hR h
    simp only [runM_nil, Except.ok.injEq, Prod.mk.injEq] at h
    obtain ⟨rfl, rfl⟩ := h
    exact ⟨rfl, hR⟩
  | cons i is ih =>
    intro s s'' t os hR h
    obtain ⟨o, s', os', h1, h2, rfl⟩ := runM_cons_ok h
    obtain ⟨ho, hR'⟩ := hsim s t i o s' hR h1
    obtain ⟨hos, hR''⟩ := ih s' s'' (stepT t i).2 os' hR' h2
    exact ⟨by simp only [run, ho, hos], hR''⟩

/-- **Error rule.** `E e n` says what a failure with `e` says once the measure is `n`, and
    only gets weaker as `n` grows. If a failing step gives it `k` above the measure, and a
    successful step grows the measure by at most `k`, then a failed run of `n` calls gives
    it `k * n` above. -/
theorem runM_error {I : σ → Prop} {E : ε → Nat → Prop} {size : σ → Nat} {k : Nat}
    (hmono : ∀ e m n, m ≤ n → E e m → E e n)
    (hok : ∀ s i o s', I s → step s i = .ok (o, s') → I s' ∧ size s' ≤ size s + k)
    (herr : ∀ s i e, I s → step s i = .error e → E e (size s + k)) :
    ∀ (is : List ι) (s : σ) (e : ε), I s → runM step s is = .error e →
      E e (size s + k * is.length) := by
  intro is
  induction is with
  | nil => intro s e _ h; exact absurd h (by simp)
  | cons i is ih =>
    intro s e hI h
    rw [List.length_cons, Nat.mul_succ]
    rcases runM_cons_error h with h1 | ⟨o, s', h1, h2⟩
    · exact hmono e (size s + k) _ (by omega) (herr s i e hI h1)
    · obtain ⟨hI', hsz⟩ := hok s i o s' hI h1
      exact hmono e (size s' + k * is.length) _ (by omega) (ih s' e hI' h2)

end SvfRun
