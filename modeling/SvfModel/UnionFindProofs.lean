import Mathlib

/-!
# Classes kept by a representative

A partition kept as a map from each element to the representative of its class, and the
relation it stands for: two elements have one representative exactly if the pairs joined so
far connect them. The heart is **`Represents.merge`**: sending one whole class to the
representative of another adds exactly the joined pair to the relation.
-/

namespace SvfUnionFind

open Relation (EqvGen)

variable {N : Type}

/-- `rep` tells the classes of the equivalence that `R` generates apart. -/
def Represents (rep : N → N) (R : N → N → Prop) : Prop :=
  ∀ a b : N, rep a = rep b ↔ EqvGen R a b

def WithPair (R : N → N → Prop) (a b : N) : N → N → Prop :=
  fun x y => R x y ∨ (x = a ∧ y = b)

theorem eq_of_connected {R : N → N → Prop} {v : N → N} (agrees : ∀ a b, R a b → v a = v b)
    {a b : N} (h : EqvGen R a b) : v a = v b := by
  induction h with
  | rel x y hxy => exact agrees x y hxy
  | refl x => rfl
  | symm x y _ ih => exact ih.symm
  | trans x y z _ _ ih1 ih2 => exact ih1.trans ih2

theorem represents_id : Represents (fun a : N => a) (fun _ _ => False) := by
  intro a b
  constructor
  · rintro rfl
    exact EqvGen.refl a
  · intro h
    exact eq_of_connected (v := fun a => a) (fun x y hxy => hxy.elim) h

section Merge

variable {rep : N → N} {R : N → N → Prop} [DecidableEq N]

/-- The map after the class of `a` has been sent to the representative of `b`. -/
def mergeRep (rep : N → N) (a b : N) : N → N :=
  fun x => if rep x = rep a then rep b else rep x

omit [DecidableEq N] in
theorem connected_mono {a b x y : N} (h : EqvGen R x y) : EqvGen (WithPair R a b) x y :=
  EqvGen.mono (fun _ _ hxy => .inl hxy) _ _ h

omit [DecidableEq N] in
theorem connected_pair (a b : N) : EqvGen (WithPair R a b) a b := EqvGen.rel a b (.inr ⟨rfl, rfl⟩)

/-- **Merging two classes adds the pair.** -/
theorem Represents.merge (h : Represents rep R) (a b : N) :
    Represents (mergeRep rep a b) (WithPair R a b) := by
  intro x y
  constructor
  · intro heq
    have hab := connected_pair (R := R) a b
    have old : ∀ u v : N, rep u = rep v → EqvGen (WithPair R a b) u v :=
      fun u v huv => connected_mono ((h u v).mp huv)
    unfold mergeRep at heq
    by_cases hx : rep x = rep a
    · rw [if_pos hx] at heq
      by_cases hy : rep y = rep a
      · exact old x y (hx.trans hy.symm)
      · rw [if_neg hy] at heq
        exact ((old x a hx).trans x a b hab).trans x b y (old b y heq)
    · rw [if_neg hx] at heq
      by_cases hy : rep y = rep a
      · rw [if_pos hy] at heq
        exact (old x b heq).trans x b y ((hab.symm a b).trans b a y (old a y hy.symm))
      · rw [if_neg hy] at heq
        exact old x y heq
  · intro hxy
    refine eq_of_connected (v := mergeRep rep a b) ?_ hxy
    rintro u v (huv | ⟨rfl, rfl⟩)
    · unfold mergeRep
      rw [(h u v).mpr (EqvGen.rel u v huv)]
    · unfold mergeRep
      rw [if_pos rfl]
      split <;> rfl

theorem Represents.join_same (h : Represents rep R) {a b : N} (hab : rep a = rep b) :
    Represents rep (WithPair R a b) := by
  have hsame : mergeRep rep a b = rep := by
    funext x
    unfold mergeRep
    by_cases hx : rep x = rep a
    · rw [if_pos hx, hx, hab]
    · rw [if_neg hx]
  have hm := h.merge a b
  rwa [hsame] at hm

end Merge

end SvfUnionFind
