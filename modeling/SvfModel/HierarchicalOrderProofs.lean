import Mathlib

/-!
# Hierarchical orders

A hierarchical order is a list of components, each a vertex or a cycle, which is a head with
a hierarchical order of its own. Read from left to right, heads first, it is a total order of
its vertices. An edge is *placed* if it goes forward in that order or back to the head of a
cycle that contains its source; a weak topological order of a set of nodes is a hierarchical
order of exactly these in which every edge between them is placed.
-/

namespace SvfHierarchicalOrder

open List

variable {N : Type}

/-- A component of a hierarchical order. -/
inductive WTOComponent (N : Type) where
  | node (n : N)
  | cycle (head : N) (components : List (WTOComponent N))

mutual

def WTOComponent.order : WTOComponent N → List N
  | .node n => [n]
  | .cycle head components => head :: orderAll components

def orderAll : List (WTOComponent N) → List N
  | [] => []
  | c :: cs => c.order ++ orderAll cs

end

theorem orderAll_append (q p : List (WTOComponent N)) :
    orderAll (q ++ p) = orderAll q ++ orderAll p := by
  induction q with
  | nil => rfl
  | cons c q ih =>
    show c.order ++ orderAll (q ++ p) = (c.order ++ orderAll q) ++ orderAll p
    rw [ih, append_assoc]

inductive HeadOf (h u : N) : List (WTOComponent N) → Prop where
  | here {l cs : List (WTOComponent N)} (hc : WTOComponent.cycle h cs ∈ l)
      (hu : u ∈ (WTOComponent.cycle h cs).order) : HeadOf h u l
  | inside {h' : N} {l cs : List (WTOComponent N)} (hc : WTOComponent.cycle h' cs ∈ l)
      (hin : HeadOf h u cs) : HeadOf h u l

theorem HeadOf.mono {h u : N} {l l' : List (WTOComponent N)} (hh : HeadOf h u l) (hl : l ⊆ l') :
    HeadOf h u l' := by
  cases hh with
  | here hc hu => exact .here (hl hc) hu
  | inside hc hin => exact .inside (hl hc) hin

def Placed (l : List (WTOComponent N)) (u w : N) : Prop :=
  [u, w].Sublist (orderAll l) ∨ HeadOf w u l

theorem Placed.append_right {q : List (WTOComponent N)} {u w : N} (h : Placed q u w)
    (p : List (WTOComponent N)) : Placed (q ++ p) u w := by
  refine h.imp (fun h => ?_) (fun h => h.mono (subset_append_left q p))
  rw [orderAll_append]
  exact h.trans (sublist_append_left _ _)

theorem Placed.append_left {p : List (WTOComponent N)} {u w : N} (h : Placed p u w)
    (q : List (WTOComponent N)) : Placed (q ++ p) u w := by
  refine h.imp (fun h => ?_) (fun h => h.mono (subset_append_right q p))
  rw [orderAll_append]
  exact h.trans (sublist_append_right _ _)

theorem placed_append {q p : List (WTOComponent N)} {u w : N} (hu : u ∈ orderAll q)
    (hw : w ∈ orderAll p) : Placed (q ++ p) u w := by
  refine .inl ?_
  rw [orderAll_append]
  exact (singleton_sublist.mpr hu).append (singleton_sublist.mpr hw)

section

variable {cs : List (WTOComponent N)}

theorem Placed.cycle {u w : N} (h : Placed cs u w) (v : N) :
    Placed [WTOComponent.cycle v cs] u w := by
  refine h.imp (fun h => ?_) (fun h => .inside (mem_singleton.mpr rfl) h)
  show [u, w].Sublist ((v :: orderAll cs) ++ [])
  rw [append_nil]
  exact h.cons v

theorem placed_head {u v : N} (hu : u ∈ (WTOComponent.cycle v cs).order) :
    Placed [WTOComponent.cycle v cs] u v :=
  .inr (.here (mem_singleton.mpr rfl) hu)

theorem placed_of_head {v w : N} (hw : w ∈ orderAll cs) :
    Placed [WTOComponent.cycle v cs] v w := by
  refine .inl ?_
  show [v, w].Sublist ((v :: orderAll cs) ++ [])
  rw [append_nil]
  exact (singleton_sublist.mpr hw).cons_cons v

end

end SvfHierarchicalOrder
