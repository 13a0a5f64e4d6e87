import SvfModel.SccProofs

/-!
# Walks and dominance

Walks of a graph with the list of nodes they visit, dominance as "every walk from the entry
passes", post-dominance as "every walk to an exit passes", and trees with levels. The fact
on trees that the queries turn on is **`DomTree.child_or_deeper`**: a node below another one is
the node itself, its child, or at least two levels deeper.
-/

namespace SvfDominance

open SvfScc List
open Relation (ReflTransGen)

variable {N : Type}

/-- The nodes visited on the way from the first node to the last, both included. -/
inductive Walk (E : N → N → Prop) : N → N → List N → Prop
  | single (a : N) : Walk E a a [a]
  | cons {a b c : N} {p : List N} (hE : E a b) (hW : Walk E b c p) : Walk E a c (a :: p)

namespace Walk

variable {E : N → N → Prop} {a b : N} {p : List N}

theorem first_mem (h : Walk E a b p) : a ∈ p := by
  cases h with
  | single => exact mem_cons_self
  | cons => exact mem_cons_self

theorem last_mem (h : Walk E a b p) : b ∈ p := by
  induction h with
  | single => exact mem_cons_self
  | cons _ _ ih => exact mem_cons_of_mem _ ih

theorem reach_mem (h : Walk E a b p) : ∀ x ∈ p, Reach E a x := by
  induction h with
  | single a =>
    intro x hx
    rw [List.mem_singleton.mp hx]
  | cons hE _ ih =>
    intro x hx
    rcases List.mem_cons.mp hx with rfl | hx
    · exact .refl
    · exact .head hE (ih x hx)

theorem of_reach (h : Reach E a b) : ∃ p, Walk E a b p := by
  induction h using ReflTransGen.head_induction_on with
  | refl => exact ⟨[b], .single b⟩
  | head hE _ ih =>
    obtain ⟨p, hp⟩ := ih
    exact ⟨_, .cons hE hp⟩

theorem append {c d : N} {q : List N} (h : Walk E a b p) (hE : E b c) (hq : Walk E c d q) :
    Walk E a d (p ++ q) := by
  induction h with
  | single => exact .cons hE hq
  | cons hE' _ ih => exact .cons hE' (ih hE)

theorem getLast?_eq (h : Walk E a b p) : p.getLast? = some b := by
  induction h with
  | single => rfl
  | cons _ hW ih =>
    obtain ⟨c, p, rfl⟩ := exists_cons_of_ne_nil (ne_nil_of_mem hW.first_mem)
    rw [getLast?_cons_cons]
    exact ih

/-- Walks whose steps all satisfy `Q` are walks along the edges that do. -/
theorem exists_isChain_iff {Q : N → N → Prop} :
    (∃ p, Walk E a b p ∧ p.IsChain Q) ↔ Reach (fun x y => E x y ∧ Q x y) a b := by
  constructor
  · rintro ⟨p, hp, hchain⟩
    induction hp with
    | single => exact .refl
    | cons hE hW ih =>
      cases hW with
      | single =>
        rw [isChain_pair] at hchain
        exact .single ⟨hE, hchain⟩
      | cons hE' hW =>
        rw [isChain_cons_cons] at hchain
        exact .head ⟨hE, hchain.1⟩ (ih hchain.2)
  · intro h
    induction h using ReflTransGen.head_induction_on with
    | refl => exact ⟨[b], .single b, isChain_singleton b⟩
    | head hstep _ ih =>
      obtain ⟨p, hp, hchain⟩ := ih
      refine ⟨_ :: p, .cons hstep.1 hp, ?_⟩
      cases hp with
      | single => exact List.isChain_pair.mpr hstep.2
      | cons => exact List.isChain_cons_cons.mpr ⟨hstep.2, hchain⟩

/-- The same where `Q` speaks of the node that a step leaves. -/
theorem exists_dropLast_iff {Q : N → Prop} :
    (∃ p, Walk E a b p ∧ ∀ x ∈ p.dropLast, Q x) ↔ Reach (fun x y => E x y ∧ Q x) a b := by
  have hleft : ∀ p : List N, p.IsChain (fun x _ => Q x) ↔ ∀ x ∈ p.dropLast, Q x := by
    intro p
    induction p with
    | nil => simp
    | cons x p ih =>
      cases p with
      | nil => simp
      | cons y p =>
        rw [isChain_cons_cons, dropLast_cons_cons, forall_mem_cons, ih]
  simp only [← hleft]
  exact exists_isChain_iff

end Walk

def Dominates (E : N → N → Prop) (entry a b : N) : Prop :=
  ∀ p, Walk E entry b p → a ∈ p

def PostDominates (E : N → N → Prop) (exits : List N) (a b : N) : Prop :=
  ∀ e ∈ exits, ∀ p, Walk E b e p → a ∈ p

/-- A node of a dominator tree, the block it stands for left out. -/
structure DomTreeNode (N : Type) where
  level : Nat
  idom : Option N
  children : List N

/-- A forest of such nodes: a child names its parent and lies one level deeper. -/
structure DomTree (N : Type) where
  getNode : N → Option (DomTreeNode N)
  child : ∀ (a b : N) (n : DomTreeNode N), getNode a = some n → b ∈ n.children →
    ∃ m, getNode b = some m ∧ m.idom = some a ∧ m.level = n.level + 1

namespace DomTree

variable (t : DomTree N)

def Child (a b : N) : Prop := ∃ n, t.getNode a = some n ∧ b ∈ n.children

def level (a : N) : Nat :=
  match t.getNode a with
  | none => 0
  | some n => n.level

variable {t} {a b : N}

theorem Child.isNode (h : t.Child a b) : (t.getNode b).isSome := by
  obtain ⟨n, hn, hb⟩ := h
  obtain ⟨m, hm, _, _⟩ := t.child a b n hn hb
  rw [hm]
  rfl

theorem Child.level_eq (h : t.Child a b) : t.level b = t.level a + 1 := by
  obtain ⟨n, hn, hb⟩ := h
  obtain ⟨m, hm, _, hlevel⟩ := t.child a b n hn hb
  unfold DomTree.level
  rw [hn, hm]
  exact hlevel

theorem level_le_of_reach (h : Reach t.Child a b) : t.level a ≤ t.level b := by
  induction h with
  | refl => exact le_rfl
  | tail _ hc ih =>
    rw [hc.level_eq]
    omega

/-- **Below a node**: the node itself, a child of it, or two levels deeper and more. -/
theorem child_or_deeper (h : Reach t.Child a b) :
    a = b ∨ t.Child a b ∨ t.level a + 2 ≤ t.level b := by
  induction h with
  | refl => exact .inl rfl
  | tail hac hc _ =>
    rename_i c b
    rcases ReflTransGen.cases_tail hac with rfl | ⟨d, had, hdc⟩
    · exact .inr (.inl hc)
    · have had' := level_le_of_reach had
      have hdc' := hdc.level_eq
      have hcb' := hc.level_eq
      exact .inr (.inr (by omega))

theorem reach_antisymm (hab : Reach t.Child a b) (hba : Reach t.Child b a) : a = b := by
  have hle := level_le_of_reach hab
  have hge := level_le_of_reach hba
  rcases child_or_deeper hab with heq | hc | hdeep
  · exact heq
  · have hlevel := hc.level_eq
    omega
  · omega

theorem Child.getNode_ne (h : t.Child a b) : t.getNode b ≠ none := by
  intro hnone
  have hnode := h.isNode
  rw [hnone] at hnode
  exact Bool.noConfusion hnode

/-- The parent a node names is its parent, and the nodes that name none are all on level 1, below
    a root that stands for no node. -/
structure Rooted (t : DomTree N) : Prop where
  idom : ∀ {a b n}, t.getNode b = some n → n.idom = some a → t.Child a b
  root : ∀ {b n}, t.getNode b = some n → n.idom = none → n.level = 1

theorem level_of_node {n : DomTreeNode N} (h : t.getNode a = some n) : t.level a = n.level := by
  unfold DomTree.level
  rw [h]

theorem Child.idom_eq {n : DomTreeNode N} (h : t.Child a b) (hn : t.getNode b = some n) :
    n.idom = some a := by
  obtain ⟨m, hm, hb⟩ := h
  obtain ⟨n', hn', hidom, _⟩ := t.child a b m hm hb
  rw [hn, Option.some_inj] at hn'
  rw [hn']
  exact hidom

theorem strict_ancestor {n : DomTreeNode N} (hn : t.getNode b = some n) (h : Reach t.Child a b)
    (hne : a ≠ b) : ∃ p, n.idom = some p ∧ t.Child p b ∧ Reach t.Child a p := by
  rcases ReflTransGen.cases_tail h with rfl | ⟨p, hap, hpb⟩
  · exact absurd rfl hne
  · exact ⟨p, hpb.idom_eq hn, hpb, hap⟩

theorem eq_of_reach_of_level (h : Reach t.Child a b) (hlevel : t.level b ≤ t.level a) : a = b := by
  rcases child_or_deeper h with heq | hc | hdeep
  · exact heq
  · have hnext := hc.level_eq
    omega
  · omega

theorem Rooted.level_pos (ht : t.Rooted) (hb : t.getNode b ≠ none) : 1 ≤ t.level b := by
  obtain ⟨n, hn⟩ := Option.ne_none_iff_exists'.mp hb
  cases hidom : n.idom with
  | none => rw [level_of_node hn, ht.root hn hidom]
  | some p =>
    rw [(ht.idom hn hidom).level_eq]
    omega

theorem ancestors_comparable {c : N} (ha : Reach t.Child a c) (hb : Reach t.Child b c) :
    Reach t.Child a b ∨ Reach t.Child b a := by
  induction ha with
  | refl => exact .inr hb
  | tail hab hc ih =>
    rename_i d c
    by_cases hbc : b = c
    · subst hbc
      exact .inl (hab.tail hc)
    · obtain ⟨n, hn⟩ := Option.ne_none_iff_exists'.mp hc.getNode_ne
      obtain ⟨p, hp, _, hbp⟩ := strict_ancestor hn hb hbc
      rw [hc.idom_eq hn, Option.some_inj] at hp
      subst hp
      exact ih hbp

end DomTree

end SvfDominance
