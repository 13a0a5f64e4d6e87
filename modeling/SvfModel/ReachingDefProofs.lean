import SvfModel.DominanceProofs

/-!
# Reaching definitions along a dominator tree

Some nodes of a graph define a variable, at their end or, by a phi, at their start. A walk from
the entry reaches a node with the last definition that it meets; the dominator tree offers
another one, that of the parent. The heart is **`Placement.out_eq_of_edge`**: an edge into a node
without a phi comes from a node that ends with the definition that the parent of the target ends
with, if a phi is wherever the dominance frontier of a definition is. So all walks agree with
the tree (`Placement.reaching`).
-/

namespace SvfDominance

open SvfScc List
open Relation.ReflTransGen (cases_tail)

variable {N : Type} {E : N → N → Prop} {entry : N}

/-- The nodes where the dominance of `w` ends: it dominates a predecessor, but not the node
    itself, or only as the node itself. -/
def Frontier (E : N → N → Prop) (entry w v : N) : Prop :=
  ∃ u, Reach E entry u ∧ E u v ∧ Dominates E entry w u ∧ ¬ (Dominates E entry w v ∧ w ≠ v)

theorem Walk.concat {a b c : N} {p : List N} (h : Walk E a b p) (hE : E b c) :
    Walk E a c (p ++ [c]) := by
  induction h with
  | single a => exact .cons hE (.single c)
  | cons hE' _ ih => exact .cons hE' (ih hE)

theorem Walk.concat_cases {a b : N} {p : List N} (h : Walk E a b p) :
    (a = b ∧ p = [a]) ∨ ∃ c q, Walk E a c q ∧ E c b ∧ p = q ++ [b] := by
  induction h with
  | single a => exact .inl ⟨rfl, rfl⟩
  | cons hE hW ih =>
    rename_i a b c p
    rcases ih with ⟨rfl, rfl⟩ | ⟨d, q, hq, hd, rfl⟩
    · exact .inr ⟨a, [a], .single a, hE, rfl⟩
    · exact .inr ⟨d, a :: q, .cons hE hq, hd, rfl⟩

theorem Walk.last_eq {a b u : N} {q : List N} (h : Walk E a b (q ++ [u])) : u = b := by
  rcases h.concat_cases with ⟨rfl, heq⟩ | ⟨_, r, _, _, heq⟩
  · have heq' : q ++ [u] = [] ++ [a] := heq
    exact singleton_inj.mp (append_inj' heq' rfl).2
  · exact singleton_inj.mp (append_inj' heq rfl).2

namespace DomTree

variable {t : DomTree N} {a b c : N}

theorem Child.parent_unique (ha : t.Child a c) (hb : t.Child b c) : a = b := by
  obtain ⟨n, hn, hc⟩ := ha
  obtain ⟨n', hn', hc'⟩ := hb
  obtain ⟨m, hm, hidom, -⟩ := t.child a c n hn hc
  obtain ⟨m', hm', hidom', -⟩ := t.child b c n' hn' hc'
  rw [hm] at hm'
  rw [← Option.some.inj hm', hidom] at hidom'
  exact Option.some.inj hidom'

theorem Child.reach_of_ne (h : t.Child b c) (ha : Reach t.Child a c) (hne : a ≠ c) :
    Reach t.Child a b := by
  rcases cases_tail ha with heq | ⟨d, had, hd⟩
  · exact absurd heq.symm hne
  · rw [h.parent_unique hd]
    exact had

theorem Child.disjoint (ha : t.Child c a) (hb : t.Child c b) {x : N} (hax : Reach t.Child a x)
    (hbx : Reach t.Child b x) : a = b := by
  have hlevel := ha.level_eq.trans hb.level_eq.symm
  have eq_of_above : ∀ {d e : N}, t.level d = t.level e → Reach t.Child d e → d = e := by
    intro d e hde h
    rcases child_or_deeper h with heq | hc | hdeep
    · exact heq
    · have hc' := hc.level_eq
      omega
    · omega
  rcases ancestors_comparable hax hbx with h | h
  · exact eq_of_above hlevel h
  · exact (eq_of_above hlevel.symm h).symm

theorem Child.not_above (h : t.Child a b) : ¬ Reach t.Child b a := by
  intro hba
  have hup := t.level_le_of_reach hba
  have hdown := h.level_eq
  omega

end DomTree

/-- Definitions on a graph with a right dominator tree: `last` is the last one of a node and
    `phi` says whether the node starts with one. A node where the dominance of a definition ends
    starts with one. -/
structure Placement (E : N → N → Prop) (entry : N) (S : Type) where
  tree : DomTree N
  node : ∀ b, (tree.getNode b).isSome ↔ Reach E entry b
  ancestor : ∀ a b, Reach E entry a → Reach E entry b →
    (Reach tree.Child a b ↔ Dominates E entry a b)
  phi : N → Prop
  last : N → Option S
  phi_last : ∀ b, phi b → last b ≠ none
  frontier : ∀ w v, Reach E entry w → last w ≠ none → Frontier E entry w v → phi v

namespace Placement

variable {S : Type} (P : Placement E entry S) (init : S)

/-- What comes into a node along the tree: at the entry `init`, at another node what its
    parent ends with. -/
inductive In : N → S → Prop
  | entry : In entry init
  | last {a v : N} {s : S} (hc : P.tree.Child a v) (hs : P.last a = some s) : In v s
  | through {a v : N} {s : S} (hc : P.tree.Child a v) (hn : P.last a = none) (hs : In a s) :
      In v s

/-- What a node ends with, along the tree. -/
def Out (a : N) (s : S) : Prop := P.last a = some s ∨ (P.last a = none ∧ P.In init a s)

def met (p : List N) : S := p.foldl (fun s b => (P.last b).getD s) init

variable {P} {init} {a b c u v w : N} {s : S}

@[simp] theorem met_concat (p : List N) (b : N) :
    P.met init (p ++ [b]) = (P.last b).getD (P.met init p) := by
  unfold met
  rw [foldl_append]
  rfl

theorem Out.child (h : P.Out init a s) (hc : P.tree.Child a v) : P.In init v s := by
  rcases h with hs | ⟨hn, hs⟩
  · exact .last hc hs
  · exact .through hc hn hs

theorem reach_of_child (hc : P.tree.Child a v) : Reach E entry v := (P.node v).mp hc.isNode

theorem reach_parent (hc : P.tree.Child a v) : Reach E entry a := by
  obtain ⟨n, hn, -⟩ := hc
  exact (P.node a).mp (hn ▸ rfl)

theorem entry_above (h : Reach E entry v) : Reach P.tree.Child entry v :=
  (P.ancestor entry v .refl h).mpr fun _ hp => hp.first_mem

theorem not_child_entry (hc : P.tree.Child a entry) : False := by
  exact hc.not_above (entry_above (P := P) (reach_parent hc))

theorem In.unique (h : P.In init v s) : ∀ {s' : S}, P.In init v s' → s = s' := by
  induction h with
  | entry =>
    intro s' h'
    cases h' with
    | entry => rfl
    | last hc _ => exact absurd (not_child_entry hc) not_false
    | through hc _ _ => exact absurd (not_child_entry hc) not_false
  | last hc hs =>
    intro s' h'
    cases h' with
    | entry => exact absurd (not_child_entry hc) not_false
    | last hc' hs' =>
      rw [hc.parent_unique hc', hs'] at hs
      exact (Option.some.inj hs).symm
    | through hc' hn' _ =>
      rw [hc.parent_unique hc', hn'] at hs
      cases hs.symm
  | through hc hn _ ih =>
    intro s' h'
    cases h' with
    | entry => exact absurd (not_child_entry hc) not_false
    | last hc' hs' =>
      rw [hc.parent_unique hc', hs'] at hn
      cases hn
    | through hc' _ hs' =>
      rw [← hc.parent_unique hc'] at hs'
      exact ih hs'

theorem Out.up (hau : Reach P.tree.Child a u)
    (hnone : ∀ w, Reach P.tree.Child a w → w ≠ a → Reach P.tree.Child w u → P.last w = none)
    (h : P.Out init u s) : P.Out init a s := by
  induction hau with
  | refl => exact h
  | @tail c u hac hc ih =>
    have hau := hac.tail hc
    have hne : u ≠ a := by
      rintro rfl
      exact hc.not_above hac
    refine ih (fun w hw hwne hwc => hnone w hw hwne (hwc.tail hc)) ?_
    rcases h with hs | ⟨-, hs⟩
    · rw [hnone u hau hne .refl] at hs
      cases hs.symm
    · cases hs with
      | entry => exact absurd (not_child_entry hc) not_false
      | last hc' hs =>
        rw [hc'.parent_unique hc] at hs
        exact .inl hs
      | through hc' hn hs =>
        rw [hc'.parent_unique hc] at hn hs
        exact .inr ⟨hn, hs⟩

/-- Above the source of an edge, a node whose dominance ends at the target has no definition if
    the target does not start with one. -/
theorem last_eq_none (hphi : ¬ P.phi v) (hu : Reach E entry u) (huv : E u v)
    (hwu : Reach P.tree.Child w u) (hw : Reach E entry w)
    (hend : ¬ (Dominates E entry w v ∧ w ≠ v)) : P.last w = none := by
  by_contra hlast
  exact hphi (P.frontier w v hw hlast ⟨u, hu, huv, (P.ancestor w u hw hu).mp hwu, hend⟩)

/-- **An edge into a node without a phi** brings what the tree brings. -/
theorem out_eq_of_edge (hphi : ¬ P.phi v) (hu : Reach E entry u) (huv : E u v)
    (h : P.Out init u s) : P.In init v s := by
  have hv : Reach E entry v := hu.tail huv
  have reach_of_above : ∀ {a w : N}, Reach E entry a → Reach P.tree.Child a w →
      Reach E entry w := by
    intro a w ha hw
    rcases cases_tail hw with rfl | ⟨_, _, hc⟩
    · exact ha
    · exact reach_of_child hc
  rcases cases_tail (entry_above (P := P) hv) with rfl | ⟨a, -, hav⟩
  · -- back to the entry: no node on the way down from the entry to `u` defines anything
    have hnone : ∀ w, Reach P.tree.Child v w → Reach P.tree.Child w u → P.last w = none := by
      intro w hw hwu
      refine last_eq_none hphi hu huv hwu (reach_of_above .refl hw) fun ⟨hdom, hne⟩ => hne ?_
      exact mem_singleton.mp (hdom _ (.single v))
    have hentry := h.up (entry_above hu) fun w hw _ hwu => hnone w hw hwu
    rcases hentry with hs | ⟨-, hs⟩
    · rw [hnone v .refl (entry_above hu)] at hs
      cases hs.symm
    · exact hs
  · -- the parent of `v` dominates `u`, and what lies between them does not dominate `v`
    have ha : Reach E entry a := reach_parent hav
    have hdomv : Dominates E entry a v := (P.ancestor a v ha hv).mp (.single hav)
    have hne : a ≠ v := by
      rintro rfl
      exact hav.not_above .refl
    have hdomu : Dominates E entry a u := by
      intro p hp
      rcases mem_append.mp (hdomv _ (hp.concat huv)) with hmem | hmem
      · exact hmem
      · exact absurd (mem_singleton.mp hmem) hne
    refine (h.up ((P.ancestor a u ha hu).mpr hdomu) fun w haw hwa hwu => ?_).child hav
    have hw := reach_of_above ha haw
    refine last_eq_none hphi hu huv hwu hw fun ⟨hdom, hwv⟩ => hwa ?_
    have hwv' := (P.ancestor w v hw hv).mpr hdom
    exact (DomTree.reach_antisymm haw (hav.reach_of_ne hwv' hwv)).symm

/-- **All walks agree with the tree.** At a node without a phi, the last definition met on a
    walk is the one that the tree brings. -/
theorem met_of_walk : ∀ (q : List N) (v : N), Walk E entry v (q ++ [v]) → ¬ P.phi v →
    P.In init v (P.met init q) := by
  intro q
  induction q using List.reverseRecOn with
  | nil =>
    intro v hwalk _
    rcases hwalk.concat_cases with ⟨rfl, -⟩ | ⟨c, q, hq, -, heq⟩
    · exact .entry
    · have hnil : q = [] := by simpa using heq.symm
      subst hnil
      cases hq
  | append_singleton q u ih =>
    intro v hwalk hphi
    rcases hwalk.concat_cases with ⟨rfl, heq⟩ | ⟨c, q', hq, huv, heq⟩
    · have hlen := congrArg List.length heq
      simp at hlen
    · obtain rfl : q ++ [u] = q' := (append_inj' heq rfl).1
      obtain rfl := hq.last_eq
      refine out_eq_of_edge hphi (hq.reach_mem _ hq.last_mem) huv ?_
      rw [met_concat]
      cases hlast : P.last u with
      | some s => exact .inl hlast
      | none =>
        exact .inr ⟨hlast, ih u hq fun hphi => P.phi_last u hphi hlast⟩

end Placement

end SvfDominance
