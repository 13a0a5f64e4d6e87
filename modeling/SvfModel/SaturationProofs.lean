import SvfModel.LoopProofs

/-!
# Saturation by a worklist

Facts over a finite type, rules with one or two premises, and the least set of facts that
contains a base and is closed under the rules (`Closure`). A worklist algorithm computes it
by keeping the set `E` of facts found and the set `W ⊆ E` of facts whose consequences are
still to be drawn. One round takes a fact `e` out of `W` and joins it with all of `E`
(`Fired`). The invariant is that every rule whose premises are all outside `W` has been
applied (`Saturating`): a two-premise rule is applied in the round of the later of its two
premises, whichever that is. `saturate_total` is the conclusion for a whole loop.
-/

namespace SvfSaturation

open SvfLoop Set

variable {F : Type}

/-- Rules with one premise and with two; the last argument is the conclusion. -/
structure Rules (F : Type) where
  unary : F → F → Prop
  binary : F → F → F → Prop

inductive Closure (R : Rules F) (base : Set F) : F → Prop
  | base {f : F} (h : f ∈ base) : Closure R base f
  | unary {f c : F} (hf : Closure R base f) (h : R.unary f c) : Closure R base c
  | binary {f g c : F} (hf : Closure R base f) (hg : Closure R base g) (h : R.binary f g c) :
      Closure R base c

structure Rules.Closed (R : Rules F) (P : Set F) : Prop where
  unary : ∀ f c : F, f ∈ P → R.unary f c → c ∈ P
  binary : ∀ f g c : F, f ∈ P → g ∈ P → R.binary f g c → c ∈ P

variable {R : Rules F} {base : Set F}

theorem closed_closure : R.Closed {f | Closure R base f} :=
  ⟨fun _ _ hf h => .unary hf h, fun _ _ _ hf hg h => .binary hf hg h⟩

theorem Closure.least {P : Set F} (hP : R.Closed P) (hb : base ⊆ P) {f : F}
    (h : Closure R base f) : f ∈ P := by
  induction h with
  | base h => exact hb h
  | unary _ h ih => exact hP.unary _ _ ih h
  | binary _ _ h ihf ihg => exact hP.binary _ _ _ ihf ihg h

/-- `c` follows from `e`, alone or with a fact of `E` on either side. -/
def Concludes (R : Rules F) (e : F) (E : Set F) (c : F) : Prop :=
  R.unary e c ∨ (∃ f ∈ E, R.binary e f c) ∨ ∃ f ∈ E, R.binary f e c

/-- In the middle of the round of `e`, begun with `E₀` and the rest `W₀` of the worklist:
    nothing was lost, exactly the new facts were queued, and all of them follow. -/
structure Firing (R : Rules F) (e : F) (E₀ W₀ E W : Set F) : Prop where
  grow : E₀ ⊆ E
  pending : W = W₀ ∪ (E \ E₀)
  sound : ∀ P : Set F, R.Closed P → E₀ ⊆ P → E ⊆ P

theorem Firing.start (e : F) (E0 W0 : Set F) : Firing R e E0 W0 E0 W0 := by
  refine ⟨subset_rfl, ?_, fun P _ h => h⟩
  rw [sdiff_self]
  exact (union_empty W0).symm

theorem Firing.add {e : F} {E0 W0 E W C E' W' : Set F} (he : e ∈ E0)
    (h : Firing R e E0 W0 E W) (hC : ∀ c ∈ C, Concludes R e E c)
    (hE' : E' = E ∪ C) (hW' : W' = W ∪ (C \ E)) : Firing R e E0 W0 E' W' := by
  subst hE' hW'
  refine ⟨h.grow.trans subset_union_left, ?_, fun P hP h0 => ?_⟩
  · rw [h.pending]
    ext x
    have hg : x ∈ E0 → x ∈ E := fun hx => h.grow hx
    simp only [mem_union, mem_sdiff]
    tauto
  · have hE := h.sound P hP h0
    rintro c (hc | hc)
    · exact hE hc
    · rcases hC c hc with hr | ⟨f, hf, hr⟩ | ⟨f, hf, hr⟩
      · exact hP.unary _ _ (h0 he) hr
      · exact hP.binary _ _ _ (h0 he) (hE hf) hr
      · exact hP.binary _ _ _ (hE hf) (h0 he) hr

/-- A finished round: besides, every conclusion with the facts it began with is drawn. -/
structure Fired (R : Rules F) (e : F) (E₀ W₀ E W : Set F) : Prop
    extends Firing R e E₀ W₀ E W where
  complete : ∀ c : F, Concludes R e E₀ c → c ∈ E

/-- The invariant of the worklist. -/
structure Saturating (R : Rules F) (base E W : Set F) : Prop where
  start : base ⊆ E
  found : W ⊆ E
  sound : ∀ f ∈ E, Closure R base f
  unary : ∀ f c : F, f ∈ E → f ∉ W → R.unary f c → c ∈ E
  binary : ∀ f g c : F, f ∈ E → f ∉ W → g ∈ E → g ∉ W → R.binary f g c → c ∈ E

theorem Saturating.init (R : Rules F) (base : Set F) : Saturating R base base base :=
  ⟨subset_rfl, subset_rfl, fun _ h => .base h, fun _ _ h hn => absurd h hn,
    fun _ _ _ h hn => absurd h hn⟩

theorem Saturating.fire {E W E' W' : Set F} {e : F} (h : Saturating R base E W) (he : e ∈ W)
    (hr : Fired R e E (W \ {e}) E' W') : Saturating R base E' W' := by
  -- what is outside the new worklist was outside the old one, or is `e`
  have hout : ∀ f, f ∈ E' → f ∉ W' → f ∈ E ∧ (f = e ∨ f ∉ W) := by
    intro f hf hn
    rw [hr.pending] at hn
    have hfE : f ∈ E := by
      by_contra hc
      exact hn (.inr ⟨hf, hc⟩)
    refine ⟨hfE, ?_⟩
    by_cases hfe : f = e
    · exact .inl hfe
    · exact .inr fun hw => hn (.inl ⟨hw, hfe⟩)
  refine ⟨h.start.trans hr.grow, ?_, ?_, ?_, ?_⟩
  · rw [hr.pending]
    rintro f (hf | hf)
    · exact hr.grow (h.found hf.1)
    · exact hf.1
  · exact fun f hf => hr.sound _ closed_closure h.sound hf
  · intro f c hf hn hu
    obtain ⟨hfE, rfl | hfW⟩ := hout f hf hn
    · exact hr.complete c (.inl hu)
    · exact hr.grow (h.unary f c hfE hfW hu)
  · intro f g c hf hnf hg hng hb
    obtain ⟨hfE, rfl | hfW⟩ := hout f hf hnf
    · exact hr.complete c (.inr (.inl ⟨g, (hout g hg hng).1, hb⟩))
    · obtain ⟨hgE, rfl | hgW⟩ := hout g hg hng
      · exact hr.complete c (.inr (.inr ⟨f, hfE, hb⟩))
      · exact hr.grow (h.binary f g c hfE hfW hgE hgW hb)

theorem Saturating.done {E : Set F} (h : Saturating R base E ∅) (f : F) :
    f ∈ E ↔ Closure R base f := by
  refine ⟨h.sound f, Closure.least ⟨?_, ?_⟩ h.start⟩
  · exact fun f c hf hu => h.unary f c hf (notMem_empty f) hu
  · exact fun f g c hf hg hb => h.binary f g c hf (notMem_empty f) hg (notMem_empty g) hb

/-- Facts not found yet, and facts queued. -/
noncomputable def work [Finite F] (E W : Set F) : Nat := Eᶜ.ncard + W.ncard

theorem ncard_compl_eq [Finite F] {E E1 : Set F} (h : E ⊆ E1) :
    Eᶜ.ncard = E1ᶜ.ncard + (E1 \ E).ncard := by
  have hdisj : Disjoint E1ᶜ (E1 \ E) := by
    rw [disjoint_left]
    exact fun x hx hx' => hx hx'.1
  rw [← ncard_union_eq hdisj (Set.toFinite _) (Set.toFinite _)]
  congr 1
  ext x
  have hg : x ∈ E → x ∈ E1 := fun hx => h hx
  simp only [mem_compl_iff, mem_union, mem_sdiff]
  tauto

/-- A round takes one fact off the queue and moves the new ones from "not found" to
    "queued", so the sum goes down. -/
theorem work_fired [Finite F] {E W E1 W1 : Set F} {e : F} (he : e ∈ W)
    (hr : Firing R e E (W \ {e}) E1 W1) : work E1 W1 < work E W := by
  have hE := ncard_compl_eq hr.grow
  have hW1 : W1.ncard ≤ (W \ {e}).ncard + (E1 \ E).ncard := by
    rw [hr.pending]
    exact ncard_union_le _ _
  have hlt : (W \ {e}).ncard < W.ncard := ncard_sdiff_singleton_lt_of_mem he (Set.toFinite _)
  unfold work
  omega

/-- **Saturation with an early exit.** A loop over states `s` that show a set of facts `E s`
    and a queue `W s`, each of whose iterations is a round or the last one, stops: with the
    invariant, or with what the early exit leaves. `J` is whatever the representation needs. -/
theorem saturate_until {σ : Type} [Finite F] (cond : σ → Bool) (body : σ → Option σ)
    {J Out : σ → Prop} {E W : σ → Set F}
    (hround : ∀ s, J s → Saturating R base (E s) (W s) → cond s → ∃ s', body s = some s' ∧
        ((J s' ∧ ∃ e ∈ W s, Fired R e (E s) (W s \ {e}) (E s') (W s')) ∨
          (cond s' = false ∧ Out s')))
    {s : σ} (hJ : J s) (hsat : Saturating R base (E s) (W s)) :
    ∃ t, Stops (fun fuel => whileM cond body fuel s) t ∧ cond t = false ∧
      ((J t ∧ Saturating R base (E t) (W t)) ∨ Out t) := by
  -- the ghost tells whether the loop has been left early
  let I : Bool → σ → Prop := fun left s =>
    if left then cond s = false ∧ Out s else J s ∧ Saturating R base (E s) (W s)
  have hbody : ∀ left s, I left s → cond s → ∃ s' left', body s = some s' ∧ I left' s' ∧
        (if left' then 0 else work (E s') (W s') + 1) <
          (if left then 0 else work (E s) (W s) + 1) := by
    intro left s hI hc
    cases left with
    | true => cases hI.1.symm.trans hc
    | false =>
      obtain ⟨s', hb, ⟨hJ', e, he, hr⟩ | hout⟩ := hround s hI.1 hI.2 hc
      · exact ⟨s', false, hb, ⟨hJ', hI.2.fire he hr⟩, Nat.succ_lt_succ (work_fired he hr.toFiring)⟩
      · exact ⟨s', true, hb, hout, Nat.succ_pos _⟩
  obtain ⟨t, left, hrun, hIt, hct⟩ :=
    whileM_ghost (I := I) hbody (g := false) (show I false s from ⟨hJ, hsat⟩)
  refine ⟨t, hrun, hct, ?_⟩
  cases left with
  | false => exact .inl hIt
  | true => exact .inr hIt.2

/-- **Saturation.** If every iteration is a round and the loop stops when the queue is empty,
    it stops with exactly the closure of its base. -/
theorem saturate_total {σ : Type} [Finite F] (cond : σ → Bool) (body : σ → Option σ)
    {J : σ → Prop} {E W : σ → Set F} (hcond : ∀ s, cond s = false → W s = ∅)
    (hround : ∀ s, J s → W s ⊆ E s → cond s →
      ∃ s' e, body s = some s' ∧ J s' ∧ e ∈ W s ∧ Fired R e (E s) (W s \ {e}) (E s') (W s'))
    {s : σ} (hJ : J s) (hsat : Saturating R base (E s) (W s)) :
    ∃ t, Stops (fun fuel => whileM cond body fuel s) t ∧ J t ∧ ∀ f, f ∈ E t ↔ Closure R base f := by
  have hround' : ∀ s, J s → Saturating R base (E s) (W s) → cond s → ∃ s', body s = some s' ∧
        ((J s' ∧ ∃ e ∈ W s, Fired R e (E s) (W s \ {e}) (E s') (W s')) ∨
          (cond s' = false ∧ False)) := by
    intro s hJ hs hc
    obtain ⟨s', e, hb, hJ', he, hr⟩ := hround s hJ hs.found hc
    exact ⟨s', hb, .inl ⟨hJ', e, he, hr⟩⟩
  obtain ⟨t, hrun, hct, ⟨hJt, hst⟩ | hfalse⟩ := saturate_until cond body hround' hJ hsat
  · refine ⟨t, hrun, hJt, ?_⟩
    rw [hcond t hct] at hst
    exact hst.done
  · exact hfalse.elim

-- ── Reachability

/-- The rules of a graph search. -/
def Rules.ofEdges (r : F → F → Prop) : Rules F := ⟨r, fun _ _ _ => False⟩

theorem closure_ofEdges {r : F → F → Prop} {x : F} :
    Closure (Rules.ofEdges r) base x ↔ ∃ b ∈ base, Relation.ReflTransGen r b x := by
  constructor
  · intro h
    induction h with
    | base h => exact ⟨_, h, .refl⟩
    | unary _ h ih =>
      obtain ⟨b, hb, hreach⟩ := ih
      exact ⟨b, hb, hreach.tail h⟩
    | binary _ _ h => exact h.elim
  · rintro ⟨b, hb, hreach⟩
    induction hreach with
    | refl => exact .base hb
    | tail _ h ih => exact .unary ih h

theorem fired_ofEdges {r : F → F → Prop} {e : F} {E0 W0 E W : Set F} (he : e ∈ E0)
    (hE : E = E0 ∪ {c | r e c}) (hW : W = W0 ∪ ({c | r e c} \ E0)) :
    Fired (Rules.ofEdges r) e E0 W0 E W := by
  refine ⟨(Firing.start e E0 W0).add he (fun c hc => .inl hc) hE hW, ?_⟩
  rintro c (hc | ⟨f, -, hc⟩ | ⟨f, -, hc⟩)
  · rw [hE]
    exact .inr hc
  · exact hc.elim
  · exact hc.elim

/-- The same for a search that marks what it takes out of the queue, and queues what is not
    marked: found is what is marked or queued. -/
theorem fired_visits {r : F → F → Prop} {e : F} {V W V' W' : Set F} (he : e ∈ W)
    (hW : W' = (W \ {e}) ∪ {c | r e c ∧ c ∉ insert e V})
    (hV : V' ∪ W' = V ∪ W ∪ {c | r e c}) :
    Fired (Rules.ofEdges r) e (V ∪ W) (W \ {e}) (V' ∪ W') W' := by
  refine fired_ofEdges (.inr he) hV ?_
  rw [hW]
  ext c
  simp only [mem_union, mem_sdiff, mem_singleton_iff, mem_ofPred_eq, mem_insert_iff]
  by_cases hce : c = e
  · subst hce
    tauto
  · tauto

end SvfSaturation
