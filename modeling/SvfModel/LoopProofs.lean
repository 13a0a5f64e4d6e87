import Mathlib

/-!
# Loops

`while` loops over a state whose body may fail, and `for` loops over a list that only ever
add facts. A `while` loop is run with fuel; the rules below are what lets a caller forget
the fuel again:

* `whileM_mono` — more fuel never changes an answer;
* `whileM_total` — an invariant and a measure that the body decreases give an answer;
* `whileM_ghost` — the same when the invariant speaks of more than the state holds;
* `foldl_grows` — a `for` loop whose body adds a set of facts per element has, at the end,
  added the facts of every element.
-/

namespace SvfLoop

open List Option

variable {σ : Type}

/-- `while (cond) body`, at most `fuel` tests of the condition. `none` is a run that has not
    stopped yet, or whose body failed. -/
def whileM (cond : σ → Bool) (body : σ → Option σ) : Nat → σ → Option σ
  | 0, _ => none
  | fuel + 1, s => if cond s then (body s).bind (whileM cond body fuel) else some s

variable {cond : σ → Bool} {body : σ → Option σ}

theorem whileM_succ : ∀ (fuel : Nat) (s t : σ), whileM cond body fuel s = some t →
    whileM cond body (fuel + 1) s = some t := by
  intro fuel
  induction fuel with
  | zero => intro s t h; exact nomatch h
  | succ fuel ih =>
    intro s t h
    rw [whileM] at h ⊢
    by_cases hc : cond s
    · rw [if_pos hc] at h ⊢
      obtain ⟨s', hb, hs'⟩ := bind_eq_some_iff.mp h
      exact bind_eq_some_iff.mpr ⟨s', hb, ih s' t hs'⟩
    · rw [if_neg hc] at h ⊢
      exact h

theorem whileM_mono {m n : Nat} {s t : σ} (hmn : m ≤ n)
    (h : whileM cond body m s = some t) : whileM cond body n s = some t := by
  induction hmn with
  | refl => exact h
  | step _ ih => exact whileM_succ _ s t ih

theorem cond_of_whileM : ∀ {fuel : Nat} {s t : σ}, whileM cond body fuel s = some t →
    cond t = false := by
  intro fuel
  induction fuel with
  | zero => exact nofun
  | succ fuel ih =>
    intro s t h
    rw [whileM] at h
    by_cases hc : cond s
    · rw [if_pos hc] at h
      obtain ⟨s', -, hs'⟩ := bind_eq_some_iff.mp h
      exact ih hs'
    · rw [if_neg hc] at h
      exact some.inj h ▸ Bool.not_eq_true _ ▸ hc

theorem whileM_keeps {I : σ → Prop} (hbody : ∀ s s', I s → body s = some s' → I s') :
    ∀ (fuel : Nat) (s t : σ), I s → whileM cond body fuel s = some t → I t := by
  intro fuel
  induction fuel with
  | zero => exact fun _ _ _ h => nomatch h
  | succ fuel ih =>
    intro s t hI h
    rw [whileM] at h
    by_cases hc : cond s
    · rw [if_pos hc] at h
      obtain ⟨s', hs', ht⟩ := bind_eq_some_iff.mp h
      exact ih s' t (hbody s s' hI hs') ht
    · rw [if_neg hc] at h
      exact some.inj h ▸ hI

variable {τ υ : Type}

def Stops (run : Nat → Option τ) (t : τ) : Prop :=
  ∃ n, ∀ fuel, n < fuel → run fuel = some t

theorem Stops.unique {run : Nat → Option τ} {t u : τ} (ht : Stops run t)
    (hu : Stops run u) : t = u := by
  obtain ⟨m, hm⟩ := ht
  obtain ⟨n, hn⟩ := hu
  have h1 := hm (m + n + 1) (by omega)
  have h2 := hn (m + n + 1) (by omega)
  exact mem_unique h1 h2

theorem Stops.bind {run : Nat → Option τ} {next : τ → Nat → Option υ} {t : τ}
    {u : υ} (ht : Stops run t) (hu : Stops (next t) u) :
    Stops (fun fuel => (run fuel).bind fun t => next t fuel) u := by
  obtain ⟨m, hm⟩ := ht
  obtain ⟨n, hn⟩ := hu
  refine ⟨m + n, fun fuel hf => ?_⟩
  show (run fuel).bind (fun t => next t fuel) = some u
  rw [hm fuel (by omega)]
  exact hn fuel (by omega)

theorem Stops.congr {run run' : Nat → Option τ} {t : τ} {n : Nat}
    (heq : ∀ fuel, n < fuel → run' fuel = run fuel) (h : Stops run t) : Stops run' t := by
  obtain ⟨m, hm⟩ := h
  refine ⟨m + n, fun fuel hf => ?_⟩
  rw [heq fuel (by omega)]
  exact hm fuel (by omega)

theorem Stops.map {run : Nat → Option τ} {t : τ} (f : τ → υ) (h : Stops run t) :
    Stops (fun fuel => (run fuel).map f) (f t) := by
  obtain ⟨n, hn⟩ := h
  refine ⟨n, fun fuel hf => ?_⟩
  show (run fuel).map f = some (f t)
  rw [hn fuel hf]
  rfl

theorem stops_forall {A : Type} {run : A → Nat → Option τ} {f : A → τ} (l : List A)
    (h : ∀ a ∈ l, Stops (run a) (f a)) :
    ∃ n, ∀ fuel, n < fuel → ∀ a ∈ l, run a fuel = some (f a) := by
  induction l with
  | nil => exact ⟨0, nofun⟩
  | cons a l ih =>
    obtain ⟨m, hm⟩ := h a mem_cons_self
    obtain ⟨n, hn⟩ := ih (forall_mem_cons.mp h).2
    refine ⟨m + n, fun fuel hf b hb => ?_⟩
    rcases mem_cons.mp hb with rfl | hb
    · exact hm fuel (by omega)
    · exact hn fuel (by omega) b hb

theorem stops_of_succ {run : Nat → Option τ}
    (hsucc : ∀ n t, run n = some t → run (n + 1) = some t) {n : Nat} {t : τ}
    (h : run n = some t) : Stops run t := by
  refine ⟨n, fun fuel hf => ?_⟩
  obtain ⟨k, rfl⟩ : ∃ k, fuel = n + k := ⟨fuel - n, by omega⟩
  clear hf
  induction k with
  | zero => exact h
  | succ k ih => exact hsucc _ t ih

theorem stops_of_whileM {n : Nat} {s t : σ} (h : whileM cond body n s = some t) :
    Stops (fun fuel => whileM cond body fuel s) t :=
  ⟨n, fun _ hf => whileM_mono (Nat.le_of_lt hf) h⟩

theorem Stops.cond_false {s t : σ} (h : Stops (fun fuel => whileM cond body fuel s) t) :
    cond t = false := by
  obtain ⟨n, hn⟩ := h
  exact cond_of_whileM (hn (n + 1) (Nat.lt_succ_self n))

/-- **Total correctness of a loop, with a ghost.** The invariant may speak of something that
    the state does not hold, and the measure may be taken of that. -/
theorem whileM_ghost {γ : Type} {I : γ → σ → Prop} {μ : γ → σ → Nat}
    (hbody : ∀ g s, I g s → cond s →
      ∃ s' g', body s = some s' ∧ I g' s' ∧ μ g' s' < μ g s) {g : γ} {s : σ} (hI : I g s) :
    ∃ t g', Stops (fun fuel => whileM cond body fuel s) t ∧ I g' t ∧ cond t = false := by
  suffices h : ∀ (n : Nat) (g : γ) (s : σ), μ g s ≤ n → I g s →
      ∃ t g', (∀ fuel, n < fuel → whileM cond body fuel s = some t) ∧ I g' t ∧ cond t = false by
    obtain ⟨t, g', hrun, hIt, hct⟩ := h (μ g s) g s le_rfl hI
    exact ⟨t, g', ⟨μ g s, hrun⟩, hIt, hct⟩
  clear hI g s
  intro n
  induction n using Nat.strong_induction_on with
  | _ n ih =>
    intro g s hμ hI
    by_cases hc : cond s
    · obtain ⟨s', g', hb, hI', hlt⟩ := hbody g s hI hc
      obtain ⟨t, g'', hrun, hIt, hct⟩ := ih (μ g' s') (by omega) g' s' le_rfl hI'
      refine ⟨t, g'', fun fuel hf => ?_, hIt, hct⟩
      obtain ⟨k, rfl⟩ : ∃ k, fuel = k + 1 := ⟨fuel - 1, by omega⟩
      rw [whileM, if_pos hc, hb]
      exact hrun k (by omega)
    · refine ⟨s, g, fun fuel hf => ?_, hI, Bool.not_eq_true _ ▸ hc⟩
      obtain ⟨k, rfl⟩ : ∃ k, fuel = k + 1 := ⟨fuel - 1, by omega⟩
      rw [whileM, if_neg hc]

/-- **Total correctness of a loop.** If the body, entered with the invariant and the
    condition, succeeds, keeps the invariant and decreases the measure, the loop stops with
    the invariant and without the condition. -/
theorem whileM_total {I : σ → Prop} {μ : σ → Nat}
    (hbody : ∀ s, I s → cond s → ∃ s', body s = some s' ∧ I s' ∧ μ s' < μ s)
    {s : σ} (hI : I s) :
    ∃ t, Stops (fun fuel => whileM cond body fuel s) t ∧ I t ∧ cond t = false := by
  have hghost : ∀ (g : Unit) s, I s → cond s →
      ∃ (s' : σ) (_ : Unit), body s = some s' ∧ I s' ∧ μ s' < μ s := by
    intro g s hI hc
    obtain ⟨s', hb, hI', hlt⟩ := hbody s hI hc
    exact ⟨s', g, hb, hI', hlt⟩
  obtain ⟨t, _, hrun, hIt, hct⟩ :=
    whileM_ghost (I := fun _ => I) (μ := fun _ => μ) hghost (g := ()) hI
  exact ⟨t, hrun, hIt, hct⟩

variable {A : Type} {P : σ → Prop}

/-- **A loop that accumulates.** `E` is what has been collected so far and `C a` what the
    round of `a` has to collect. If every round keeps `P`, loses nothing and collects its own
    share, then after the loop nothing is lost and every share is there. -/
theorem foldlM_grows {F : Type} {f : σ → A → Option σ} {E : σ → Set F} {C : A → Set F} :
    ∀ (l : List A) (s : σ),
      (∀ s a, a ∈ l → P s → ∃ s', f s a = some s' ∧ P s' ∧ E s ⊆ E s' ∧ C a ⊆ E s') →
      P s → ∃ t, l.foldlM f s = some t ∧ P t ∧ E s ⊆ E t ∧ ∀ a ∈ l, C a ⊆ E t := by
  intro l
  induction l with
  | nil =>
    intro s _ hP
    exact ⟨s, rfl, hP, subset_rfl, nofun⟩
  | cons a l ih =>
    intro s hstep hP
    obtain ⟨s', hf, hP1, hE1, hC1⟩ := hstep s a mem_cons_self hP
    obtain ⟨t, ht, hP2, hE2, hC2⟩ := ih s' (fun s b hb => hstep s b (mem_cons_of_mem a hb)) hP1
    refine ⟨t, ?_, hP2, hE1.trans hE2, fun b hb => ?_⟩
    · rw [foldlM_cons, hf]
      exact ht
    · rcases mem_cons.mp hb with rfl | hb
      · exact hC1.trans hE2
      · exact hC2 b hb

theorem foldl_grows {F : Type} {f : σ → A → σ} {E : σ → Set F} {C : A → Set F} :
    ∀ (l : List A) (s : σ), (∀ s a, a ∈ l → P s → P (f s a) ∧ E s ⊆ E (f s a) ∧ C a ⊆ E (f s a)) →
      P s → P (l.foldl f s) ∧ E s ⊆ E (l.foldl f s) ∧ ∀ a ∈ l, C a ⊆ E (l.foldl f s) := by
  intro l s hstep hP
  obtain ⟨t, ht, h⟩ := foldlM_grows (f := fun s a => some (f s a)) l s
    (fun s a ha hP => ⟨_, rfl, hstep s a ha hP⟩) hP
  cases List.foldlM_pure.symm.trans ht
  exact h

theorem foldlM_keeps {f : σ → A → Option σ} :
    ∀ (l : List A) (s t : σ), (∀ s a t, a ∈ l → P s → f s a = some t → P t) → P s →
      l.foldlM f s = some t → P t := by
  intro l
  induction l with
  | nil =>
    intro s t _ hs h
    exact some.inj h ▸ hs
  | cons a l ih =>
    intro s t hstep hs h
    rw [foldlM_cons] at h
    obtain ⟨u, hu, ht⟩ := bind_eq_some_iff.mp h
    exact ih u t (fun s b t hb => hstep s b t (mem_cons_of_mem a hb))
      (hstep s a u mem_cons_self hs hu) ht

theorem foldl_keeps {f : σ → A → σ} :
    ∀ (l : List A) (s : σ), (∀ s a, a ∈ l → P s → P (f s a)) → P s → P (l.foldl f s) := by
  intro l s hstep hs
  refine foldlM_keeps (f := fun s a => some (f s a)) l s _ ?_ hs List.foldlM_pure
  intro s a t ha hs ht
  exact some.inj ht ▸ hstep s a ha hs

/-- **A loop whose rounds do not meet.** A round changes what is seen at the key of its own
    element only. If the keys are distinct, then at a key of the list one sees what the round
    of its element makes of what was there before the loop. -/
theorem foldl_local {K V : Type} {f : σ → A → σ} (key : A → K) (view : K → σ → V)
    (hP : ∀ s a, P s → P (f s a))
    (hview : ∀ s a k, P s → k ≠ key a → view k (f s a) = view k s) :
    ∀ (l : List A) (s : σ), (l.map key).Nodup → P s →
      P (l.foldl f s) ∧ (∀ k, k ∉ l.map key → view k (l.foldl f s) = view k s) ∧
      ∀ a ∈ l, ∃ t, P t ∧ view (key a) t = view (key a) s ∧
        view (key a) (l.foldl f s) = view (key a) (f t a) := by
  intro l
  induction l with
  | nil => exact fun s _ hs => ⟨hs, fun _ _ => rfl, nofun⟩
  | cons a l ih =>
    intro s hnd hs
    rw [map_cons, nodup_cons] at hnd
    obtain ⟨hP', hout, hin⟩ := ih (f s a) hnd.2 (hP s a hs)
    refine ⟨hP', fun k hk => ?_, fun b hb => ?_⟩
    · rw [map_cons, mem_cons, not_or] at hk
      exact (hout k hk.2).trans (hview s a k hs hk.1)
    · rcases mem_cons.mp hb with rfl | hb
      · exact ⟨s, hs, rfl, hout (key b) hnd.1⟩
      · obtain ⟨t, ht, hbefore, hafter⟩ := hin b hb
        have hne : key b ≠ key a := by
          intro he
          exact hnd.1 (he ▸ mem_map_of_mem hb)
        exact ⟨t, ht, hbefore.trans (hview s a (key b) hs hne), hafter⟩

theorem foldlM_mono {f g : σ → A → Option σ}
    (hfg : ∀ s a t, f s a = some t → g s a = some t) :
    ∀ (l : List A) (s t : σ), l.foldlM f s = some t → l.foldlM g s = some t := by
  intro l
  induction l with
  | nil => exact fun _ _ h => h
  | cons a l ih =>
    intro s t h
    rw [foldlM_cons] at h ⊢
    obtain ⟨s', hs', ht⟩ := bind_eq_some_iff.mp h
    exact bind_eq_some_iff.mpr ⟨s', hfg s a s' hs', ih s' t ht⟩

-- ── A condition on the steps of a loop

/-- In every step of a loop, the state it is taken in and its element meet `P`. -/
def FoldMeets (P : σ → A → Prop) (f : σ → A → Option σ) : σ → List A → Prop
  | _, [] => True
  | s, a :: l => P s a ∧ ∀ t ∈ f s a, FoldMeets P f t l

instance instDecidableFoldMeets {P : σ → A → Prop} [∀ s a, Decidable (P s a)]
    {f : σ → A → Option σ} : ∀ s l, Decidable (FoldMeets P f s l)
  | _, [] => inferInstanceAs (Decidable True)
  | s, a :: l =>
    have := fun t => instDecidableFoldMeets (P := P) (f := f) t l
    inferInstanceAs (Decidable (P s a ∧ ∀ t ∈ f s a, FoldMeets P f t l))

theorem foldMeets_of_forall {P : σ → A → Prop} {f : σ → A → Option σ}
    (h : ∀ s a, P s a) : ∀ (l : List A) (s : σ), FoldMeets P f s l := by
  intro l
  induction l with
  | nil => exact fun _ => trivial
  | cons a l ih => exact fun s => ⟨h s a, fun t _ => ih t⟩

/-- A loop whose steps all meet `P` ends, and keeps what such a step keeps. The invariant may
    speak of the elements that are left. -/
theorem foldlM_meets {P : σ → A → Prop} {f : σ → A → Option σ} {I : List A → σ → Prop}
    (hstep : ∀ a l s, I (a :: l) s → P s a → ∃ t, f s a = some t ∧ I l t) :
    ∀ (l : List A) (s : σ), I l s → FoldMeets P f s l → ∃ t, l.foldlM f s = some t ∧ I [] t := by
  intro l
  induction l with
  | nil => exact fun s hs _ => ⟨s, rfl, hs⟩
  | cons a l ih =>
    intro s hs hmeets
    obtain ⟨hP, hrest⟩ := hmeets
    obtain ⟨t, ht, hI⟩ := hstep a l s hs hP
    obtain ⟨u, hu, hend⟩ := ih t hI (hrest t ht)
    refine ⟨u, ?_, hend⟩
    rw [foldlM_cons, ht]
    exact hu

theorem foldl_meets {P : σ → A → Prop} {f : σ → A → σ} {I : List A → σ → Prop}
    (hstep : ∀ a l s, I (a :: l) s → P s a → I l (f s a)) :
    ∀ (l : List A) (s : σ), I l s → FoldMeets P (fun s a => some (f s a)) s l →
      I [] (l.foldl f s) := by
  intro l s hs hmeets
  obtain ⟨t, ht, hI⟩ := foldlM_meets (fun a l s hs hP => ⟨_, rfl, hstep a l s hs hP⟩) l s hs hmeets
  cases List.foldlM_pure.symm.trans ht
  exact hI

/-- A loop over a list whose rounds are fuelled runs stops if they do. The invariant may speak
    of the elements that are left. -/
theorem stops_foldlM {f : Nat → σ → A → Option σ} {I : List A → σ → Prop}
    (hstep : ∀ a l s, I (a :: l) s → ∃ t, Stops (fun fuel => f fuel s a) t ∧ I l t) :
    ∀ (l : List A) (s : σ), I l s → ∃ t, Stops (fun fuel => l.foldlM (f fuel) s) t ∧ I [] t := by
  intro l
  induction l with
  | nil => exact fun s hs => ⟨s, ⟨0, fun _ _ => rfl⟩, hs⟩
  | cons a l ih =>
    intro s hs
    obtain ⟨t, ht, hI⟩ := hstep a l s hs
    obtain ⟨u, hu, hend⟩ := ih t hI
    exact ⟨u, Stops.bind ht hu, hend⟩

theorem mapM_some {B : Type} {f : A → Option B} {g : A → B} (l : List A)
    (h : ∀ a ∈ l, f a = some (g a)) : l.mapM f = some (l.map g) := by
  induction l with
  | nil => rfl
  | cons a l ih =>
    rw [mapM_cons, h a mem_cons_self, ih fun b hb => h b (mem_cons_of_mem _ hb)]
    rfl

-- ── More fuel does not change an answer

/-- A run that has answered answers the same with one more unit of fuel. -/
def Keeps (run : Nat → Option τ) : Prop :=
  ∀ n t, run n = some t → run (n + 1) = some t

theorem Keeps.const (o : Option τ) : Keeps fun _ => o := fun _ _ h => h

theorem Keeps.map {run : Nat → Option τ} (f : τ → υ) (h : Keeps run) :
    Keeps fun n => (run n).map f := by
  intro n u hu
  obtain ⟨t, ht, rfl⟩ := map_eq_some_iff.mp hu
  exact map_eq_some_iff.mpr ⟨t, h n t ht, rfl⟩

theorem Keeps.bind {run : Nat → Option τ} {next : τ → Nat → Option υ}
    (h : Keeps run) (hnext : ∀ t, Keeps (next t)) :
    Keeps fun n => (run n).bind fun t => next t n := by
  intro n u hu
  obtain ⟨t, ht, hu⟩ := bind_eq_some_iff.mp hu
  exact bind_eq_some_iff.mpr ⟨t, h n t ht, hnext t n u hu⟩

theorem Keeps.foldlM {f : Nat → σ → A → Option σ}
    (h : ∀ s a, Keeps fun n => f n s a) (l : List A) (s : σ) :
    Keeps fun n => l.foldlM (f n) s :=
  fun n t ht => foldlM_mono (fun s a t => h s a n t) l s t ht

theorem Keeps.whileM {body : Nat → σ → Option σ} (h : ∀ s, Keeps fun n => body n s) (s : σ) :
    Keeps fun n => whileM cond (body n) n s := by
  intro n t ht
  have hbody : ∀ (fuel : Nat) (s t : σ), SvfLoop.whileM cond (body n) fuel s = some t →
      SvfLoop.whileM cond (body (n + 1)) fuel s = some t := by
    intro fuel
    induction fuel with
    | zero => exact fun _ _ h => nomatch h
    | succ fuel ih =>
      intro s t ht
      rw [SvfLoop.whileM] at ht ⊢
      by_cases hc : cond s
      · rw [if_pos hc] at ht ⊢
        obtain ⟨s', hs', ht⟩ := bind_eq_some_iff.mp ht
        exact bind_eq_some_iff.mpr ⟨s', h s n s' hs', ih s' t ht⟩
      · rw [if_neg hc] at ht ⊢
        exact ht
  exact whileM_succ n s t (hbody n s t ht)

theorem mem_foldl_listInsert [DecidableEq A] {l acc : List A} {a : A} :
    a ∈ l.foldl (fun acc a => acc.insert a) acc ↔ a ∈ acc ∨ a ∈ l := by
  induction l generalizing acc with
  | nil => simp
  | cons b l ih =>
    rw [foldl_cons, ih, mem_insert_iff, mem_cons]
    tauto

end SvfLoop
