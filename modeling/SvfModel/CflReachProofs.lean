import SvfModel.CfgProofs
import SvfModel.SaturationProofs

/-!
# Context-free language reachability

A labelled graph and a grammar: the edge `i –X→ j` is reachable when `X` derives the labels
of some path from `i` to `j`. For a grammar whose right-hand sides have at most two symbols
the reachable edges are a saturation: the base is the graph with the self edges of the
`ε`-productions, and each production is a rule with one or two premises
(`closure_iff_path`).
-/

namespace SvfCflReach

open SvfCfg SvfSaturation

structure LabelledEdge (N S : Type) where
  src : N
  dst : N
  kind : S
deriving DecidableEq

instance instFiniteLabelledEdge {N S : Type} [Finite N] [Finite S] :
    Finite (LabelledEdge N S) :=
  Finite.of_injective (fun e : LabelledEdge N S => (e.src, e.dst, e.kind)) fun a b h => by
    cases a
    cases b
    simp only [Prod.mk.injEq] at h
    obtain ⟨rfl, rfl, rfl⟩ := h
    rfl

variable {N S : Type}

inductive Path (E : Set (LabelledEdge N S)) : N → List S → N → Prop
  | nil (i : N) : Path E i [] i
  | cons {i j k : N} {X : S} {w : List S} (h : ⟨i, j, X⟩ ∈ E) (hw : Path E j w k) :
      Path E i (X :: w) k

variable {E : Set (LabelledEdge N S)}

theorem Path.append {i j : N} {w : List S} (h : Path E i w j) :
    ∀ {k : N} {v : List S}, Path E j v k → Path E i (w ++ v) k := by
  induction h with
  | nil => exact fun hv => hv
  | cons h _ ih => exact fun hv => .cons h (ih hv)

theorem Path.split : ∀ {w v : List S} {i k : N}, Path E i (w ++ v) k →
    ∃ j, Path E i w j ∧ Path E j v k := by
  intro w
  induction w with
  | nil => exact fun h => ⟨_, .nil _, h⟩
  | cons X w ih =>
    intro v i k h
    cases h with
    | cons h hw =>
      obtain ⟨j, h1, h2⟩ := ih hw
      exact ⟨j, .cons h h1, h2⟩

/-- The productions `X → Y` and `X → Y Z` as rules on edges. -/
def edgeRules (R : S → List S → Prop) : Rules (LabelledEdge N S) where
  unary f c := c.src = f.src ∧ c.dst = f.dst ∧ R c.kind [f.kind]
  binary f g c := f.dst = g.src ∧ c.src = f.src ∧ c.dst = g.dst ∧ R c.kind [f.kind, g.kind]

/-- The self edges the productions `X → ε` put on the nodes of `V`. -/
def selfEdges (R : S → List S → Prop) (V : Set N) : Set (LabelledEdge N S) :=
  {e | e.src = e.dst ∧ e.src ∈ V ∧ R e.kind []}

variable {R : S → List S → Prop}

theorem path_of_closure {V : Set N} {e : LabelledEdge N S}
    (h : Closure (edgeRules R) (E ∪ selfEdges R V) e) :
    ∃ w, Path E e.src w e.dst ∧ Derives R [e.kind] w := by
  induction h with
  | @base e h =>
    rcases h with h | ⟨heq, _, hX⟩
    · exact ⟨[e.kind], .cons h (.nil _), .refl⟩
    · exact ⟨[], heq ▸ .nil _, Derives.single hX⟩
  | unary _ h ih =>
    obtain ⟨w, hw, hd⟩ := ih
    obtain ⟨hs, ht, hX⟩ := h
    exact ⟨w, hs ▸ ht ▸ hw, (Derives.single hX).trans hd⟩
  | binary _ _ h ihf ihg =>
    obtain ⟨w, hw, hd⟩ := ihf
    obtain ⟨v, hv, hd'⟩ := ihg
    obtain ⟨hm, hs, ht, hX⟩ := h
    refine ⟨w ++ v, ?_, (Derives.single hX).trans (Derives.append hd hd')⟩
    rw [hs, ht]
    exact hw.append (hm ▸ hv)

/-- A path whose labels a string derives is a path of closure edges labelled with that
    string. The induction is on the derivation forest: an unexpanded leaf is an edge of the
    graph, an expanded root is one rule over the path of its right-hand side. -/
theorem path_of_yields (hnf : ∀ X rhs, R X rhs → rhs.length ≤ 2) {α w : List S} (h : Yields R α w) :
    ∀ {i j : N}, Path E i w j →
      Path {e | Closure (edgeRules R) (E ∪ selfEdges R Set.univ) e} i α j := by
  induction h with
  | nil =>
    intro i j hp
    cases hp
    exact .nil _
  | leaf X _ ih =>
    intro i j hp
    cases hp with
    | cons h hw => exact .cons (.base (.inl h)) (ih hw)
  | @node X rhs α u w hX hu hw ihu ihw =>
    intro i k hp
    obtain ⟨j, hp1, hp2⟩ := hp.split
    refine .cons (j := j) ?_ (ihw hp2)
    have hlen := hnf X rhs hX
    have hpu := ihu hp1
    match rhs, hlen with
    | [], _ =>
      cases hpu
      exact .base (.inr ⟨rfl, Set.mem_univ _, hX⟩)
    | [Y], _ =>
      cases hpu with
      | cons hY hnil =>
        cases hnil
        exact .unary hY ⟨rfl, rfl, hX⟩
    | [Y, Z], _ =>
      cases hpu with
      | cons hY hrest =>
        cases hrest with
        | cons hZ hnil =>
          cases hnil
          exact .binary hY hZ ⟨rfl, rfl, rfl, hX⟩

/-- **The closure is reachability.** -/
theorem closure_iff_path (hnf : ∀ X rhs, R X rhs → rhs.length ≤ 2) {i j : N} {X : S} :
    Closure (edgeRules R) (E ∪ selfEdges R Set.univ) ⟨i, j, X⟩ ↔
      ∃ w, Path E i w j ∧ Derives R [X] w := by
  constructor
  · intro h
    exact path_of_closure h
  · rintro ⟨w, hw, hd⟩
    have hp := path_of_yields hnf (derives_iff_yields.mp hd) hw
    cases hp with
    | cons h hnil =>
      cases hnil
      exact h

end SvfCflReach
