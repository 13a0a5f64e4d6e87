import Mathlib

/-!
# Context-free derivations

A grammar here is a relation `R X rhs`, "`X → rhs` is a production", over one alphabet:
terminals and nonterminals are not kept apart, because the grammars that instantiate this
are matched against graphs whose labels may be either. `Derives` is the usual rewriting
relation. `Yields` is the same relation read as a derivation forest, one tree per symbol of
the left string; `derives_iff_yields` connects the two, and proofs about derivations go by
induction on the forest.
-/

namespace SvfCfg

open List

variable {S : Type}

/-- One rewriting step: one occurrence of a left-hand side becomes the right-hand side. -/
inductive Rewrites (R : S → List S → Prop) : List S → List S → Prop
  | rewrite (α : List S) {X : S} {rhs : List S} (β : List S) (h : R X rhs) :
      Rewrites R (α ++ X :: β) (α ++ rhs ++ β)

/-- `α ⇒* β`. -/
def Derives (R : S → List S → Prop) : List S → List S → Prop :=
  Relation.ReflTransGen (Rewrites R)

/-- `Yields R α w`: a forest with roots `α` and frontier `w`, whose leaves are symbols that
    were not expanded. -/
inductive Yields (R : S → List S → Prop) : List S → List S → Prop
  | nil : Yields R [] []
  | leaf (X : S) {α w : List S} (h : Yields R α w) : Yields R (X :: α) (X :: w)
  | node {X : S} {rhs α u w : List S} (hX : R X rhs) (hu : Yields R rhs u) (hw : Yields R α w) :
      Yields R (X :: α) (u ++ w)

variable {R : S → List S → Prop}

variable {α w : List S} {X : S}

theorem Yields.refl : ∀ α : List S, Yields R α α := by
  intro α
  induction α with
  | nil => exact .nil
  | cons X α ih => exact .leaf X ih

theorem Yields.append (h : Yields R α w) :
    ∀ {β v : List S}, Yields R β v → Yields R (α ++ β) (w ++ v) := by
  induction h with
  | nil => exact fun hβ => hβ
  | leaf X _ ih => exact fun hβ => .leaf X (ih hβ)
  | node hX hu _ _ ih =>
    intro β v hβ
    rw [cons_append, append_assoc]
    exact .node hX hu (ih hβ)

/-- A forest over `α ++ β` is a forest over `α` beside one over `β`. -/
theorem Yields.split : ∀ {α β w : List S}, Yields R (α ++ β) w →
    ∃ u v, w = u ++ v ∧ Yields R α u ∧ Yields R β v := by
  intro α
  induction α with
  | nil => exact fun h => ⟨[], _, rfl, .nil, h⟩
  | cons X α ih =>
    intro β w h
    cases h with
    | leaf _ h =>
      obtain ⟨u, v, rfl, hu, hv⟩ := ih h
      exact ⟨X :: u, v, rfl, .leaf X hu, hv⟩
    | node hX hr h =>
      obtain ⟨u, v, rfl, hu, hv⟩ := ih h
      exact ⟨_ ++ u, v, (append_assoc _ _ _).symm, .node hX hr hu, hv⟩

theorem Yields.trans {α β : List S} (h : Yields R α β) :
    ∀ {w : List S}, Yields R β w → Yields R α w := by
  induction h with
  | nil => exact fun hw => hw
  | leaf X _ ih =>
    intro w hw
    cases hw with
    | leaf _ hw => exact .leaf X (ih hw)
    | node hX hr hw => exact .node hX hr (ih hw)
  | node hX _ _ ihu ihw =>
    intro w hw
    obtain ⟨u', w', rfl, hu', hw'⟩ := Yields.split hw
    exact .node hX (ihu hu') (ihw hw')

theorem Rewrites.append_left (γ : List S) {α β : List S} (h : Rewrites R α β) :
    Rewrites R (γ ++ α) (γ ++ β) := by
  cases h with
  | rewrite α1 β1 hX =>
    have := Rewrites.rewrite (γ ++ α1) β1 hX
    simpa [append_assoc] using this

theorem Rewrites.append_right (γ : List S) {α β : List S} (h : Rewrites R α β) :
    Rewrites R (α ++ γ) (β ++ γ) := by
  cases h with
  | rewrite α1 β1 hX =>
    have := Rewrites.rewrite α1 (β1 ++ γ) hX
    simpa [append_assoc] using this

theorem Derives.append {α β α' β' : List S} (h : Derives R α α') (h' : Derives R β β') :
    Derives R (α ++ β) (α' ++ β') := by
  have h1 : Derives R (α ++ β) (α' ++ β) := h.lift (fun γ => γ ++ β) fun _ _ hr => hr.append_right β
  have h2 : Derives R (α' ++ β) (α' ++ β') :=
    h'.lift (fun γ => α' ++ γ) fun _ _ hr => hr.append_left α'
  exact h1.trans h2

theorem Derives.single {rhs : List S} (h : R X rhs) : Derives R [X] rhs := by
  have := Rewrites.rewrite [] [] h
  simp only [nil_append, append_nil] at this
  exact Relation.ReflTransGen.single this

/-- **Rewriting and forests agree.** -/
theorem derives_iff_yields : Derives R α w ↔ Yields R α w := by
  constructor
  · intro h
    induction h with
    | refl => exact Yields.refl α
    | tail _ hr ih =>
      refine Yields.trans ih ?_
      cases hr with
      | rewrite α1 β1 hX =>
        rw [append_assoc]
        exact (Yields.refl α1).append (.node hX (Yields.refl _) (Yields.refl β1))
  · intro h
    induction h with
    | nil => exact .refl
    | leaf X _ ih =>
      exact Derives.append (.refl : Derives R [X] [X]) ih
    | node hX _ _ ihu ihw =>
      exact Derives.append ((Derives.single hX).trans ihu) ihw

-- ── changing the productions

variable {R' : S → List S → Prop}

theorem Yields.of_rules (hR : ∀ X rhs, R X rhs → Yields R' [X] rhs) (h : Yields R α w)
    : Yields R' α w := by
  induction h with
  | nil => exact .nil
  | leaf X _ ih => exact .leaf X ih
  | @node X rhs α u w hX _ _ ihu ihw =>
    have := ((hR X rhs hX).trans ihu).append ihw
    rwa [singleton_append] at this

theorem Derives.of_rules (hR : ∀ X rhs, R X rhs → Derives R' [X] rhs) (h : Derives R α w)
    : Derives R' α w :=
  derives_iff_yields.mpr
    ((derives_iff_yields.mp h).of_rules fun X rhs hX => derives_iff_yields.mp (hR X rhs hX))

theorem Yields.single {rhs : List S} (h : R X rhs) : Yields R [X] rhs := by
  have := Yields.node h (Yields.refl rhs) Yields.nil
  rwa [append_nil] at this

theorem Yields.root {w : List S} (h : Yields R [X] w) :
    w = [X] ∨ ∃ rhs, R X rhs ∧ Yields R rhs w := by
  cases h with
  | leaf _ h =>
    cases h
    exact .inl rfl
  | node hX hu h =>
    cases h
    rw [append_nil]
    exact .inr ⟨_, hX, hu⟩

theorem Yields.stuck (h : Yields R α w) (hα : ∀ X ∈ α, ∀ rhs, ¬ R X rhs) : w = α := by
  induction h with
  | nil => rfl
  | leaf X _ ih => rw [ih fun Y hY => hα Y (mem_cons_of_mem X hY)]
  | node hX _ _ _ _ => exact absurd hX (hα _ mem_cons_self _)

/-- **Naming a suffix.** Where productions `Y → f T` became `Y → f X`, and `X` has no
    production but `X → T`, every forest whose leaves are not `X` is one of the old grammar:
    the `X` in it was expanded, and that by `T`. -/
theorem Yields.unname {f X : S} {T : List S}
    (hR : ∀ Y rhs, R' Y rhs → R Y rhs ∨ (rhs = [f, X] ∧ R Y (f :: T)))
    (hX : ∀ rhs, R X rhs → rhs = T) (h : Yields R' α w) :
    X ∉ w → Yields R α w := by
  induction h with
  | nil => exact fun _ => .nil
  | leaf Y _ ih =>
    intro hw
    exact .leaf Y (ih fun h => hw (mem_cons_of_mem Y h))
  | @node Y rhs α u w hY _ _ ihu ihw =>
    intro hw
    have hu := ihu fun h => hw (mem_append_left w h)
    have hα := ihw fun h => hw (mem_append_right u h)
    rcases hR Y rhs hY with hold | ⟨rfl, hold⟩
    · exact .node hold hu hα
    · obtain ⟨u1, u2, rfl, hf, hu2⟩ := Yields.split (α := [f]) hu
      rcases hu2.root with rfl | ⟨rhs, hrhs, hu2⟩
      · exact absurd (mem_append_left w (mem_append_right u1 mem_cons_self)) hw
      · rw [hX rhs hrhs] at hu2
        exact .node hold (hf.append hu2) hα

theorem Yields.unreached (hR : ∀ Y rhs, R' Y rhs → Y ≠ X → R Y rhs ∧ X ∉ rhs) (h : Yields R' α w)
    : X ∉ α → Yields R α w := by
  induction h with
  | nil => exact fun _ => .nil
  | leaf Y _ ih =>
    intro hα
    exact .leaf Y (ih fun h => hα (mem_cons_of_mem Y h))
  | @node Y rhs α u w hY _ _ ihu ihw =>
    intro hα
    obtain ⟨hY', hrhs⟩ := hR Y rhs hY fun h => hα (h ▸ mem_cons_self)
    exact .node hY' (ihu hrhs) (ihw fun h => hα (mem_cons_of_mem Y h))

end SvfCfg
