import Mathlib

/-!
# Strongly connected components

Mutual reachability in a directed graph, given as a relation, and the one fact a depth-first
search needs to recognise a component: a set around `v` that is connected both ways with `v`
and that can only be left into a set closed under edges not containing `v` is the whole
component of `v`.
-/

namespace SvfScc

variable {N : Type} {E : N → N → Prop}

abbrev Reach (E : N → N → Prop) : N → N → Prop := Relation.ReflTransGen E

/-- `a` and `b` are in one strongly connected component. -/
def Mutual (E : N → N → Prop) (a b : N) : Prop := Reach E a b ∧ Reach E b a

theorem Mutual.refl (a : N) : Mutual E a a := ⟨.refl, .refl⟩

theorem Mutual.symm {a b : N} (h : Mutual E a b) : Mutual E b a := ⟨h.2, h.1⟩

theorem Mutual.trans {a b c : N} (h : Mutual E a b) (h' : Mutual E b c) : Mutual E a c :=
  ⟨h.1.trans h'.1, h'.2.trans h.2⟩

theorem Reach.mem_of_closed {S : Set N} (hS : ∀ x y, x ∈ S → E x y → y ∈ S) {a b : N}
    (h : Reach E a b) (ha : a ∈ S) : b ∈ S := by
  induction h with
  | refl => exact ha
  | tail _ hE ih => exact hS _ _ ih hE

/-- **A component recognised.** -/
theorem mem_iff_mutual {D C : Set N} {v : N} (hDone : ∀ x y, x ∈ D → E x y → y ∈ D)
    (hC : ∀ x y, x ∈ C → E x y → y ∈ C ∨ y ∈ D) (hv : v ∈ C) (hvD : v ∉ D)
    (hfrom : ∀ x ∈ C, Reach E v x) (hto : ∀ x ∈ C, Reach E x v) (x : N) :
    x ∈ C ↔ Mutual E x v := by
  constructor
  · intro hx
    exact ⟨hto x hx, hfrom x hx⟩
  · rintro ⟨hxv, hvx⟩
    have hclosed : ∀ x y, x ∈ C ∪ D → E x y → y ∈ C ∪ D := by
      rintro x y (hx | hx) hE
      · exact hC x y hx hE
      · exact .inr (hDone x y hx hE)
    rcases Reach.mem_of_closed hclosed hvx (.inl hv) with hx | hx
    · exact hx
    · exact absurd (Reach.mem_of_closed hDone hxv hx) hvD

end SvfScc
