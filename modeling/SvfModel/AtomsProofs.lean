import Mathlib.Data.Finset.Basic
import Mathlib.Data.Finset.SDiff
import Mathlib.Tactic.Common

/-!
# The atoms of a family of sets

Two elements are alike in a family when every set of it has both or neither; the classes of the
covered elements are the atoms of the family. They are the coarsest sets of which every member is
a disjoint union (`IsAtoms.partitions`), and one more member cuts each in two and adds what was
not covered before (**`IsAtoms.refine`**). A member that is an atom, or meets none, is the easy
case of that.
-/

namespace SvfAtoms

open Finset

variable {α : Type} [DecidableEq α] {cs : List (Finset α)} {regions : Set (Finset α)}
  {c r s : Finset α} {x y z : α}

/-- Some set of the family has the element. -/
def Covered (cs : List (Finset α)) (x : α) : Prop := ∃ c ∈ cs, x ∈ c

/-- No set of the family has one of the two only. -/
def Alike (cs : List (Finset α)) (x y : α) : Prop := ∀ c ∈ cs, x ∈ c ↔ y ∈ c

/-- Non-empty sets, no two of which meet, such that every set of the family is the union of those
    it contains. -/
structure Partitions (regions : Set (Finset α)) (cs : List (Finset α)) : Prop where
  nonempty : ∀ r ∈ regions, r.Nonempty
  disjoint : ∀ r ∈ regions, ∀ s ∈ regions, r ≠ s → Disjoint r s
  union : ∀ c ∈ cs, ∀ x, x ∈ c ↔ ∃ r ∈ regions, r ⊆ c ∧ x ∈ r

structure IsAtoms (cs : List (Finset α)) (regions : Set (Finset α)) : Prop where
  sound : ∀ {r}, r ∈ regions → ∃ x, Covered cs x ∧ ∀ y, y ∈ r ↔ Alike cs x y
  complete : ∀ {x}, Covered cs x → ∃ r ∈ regions, ∀ y, y ∈ r ↔ Alike cs x y

/-- The pieces of the regions inside and outside one more set, and the rest of the set. -/
def Refines (regions : Set (Finset α)) (c s : Finset α) : Prop :=
  s.Nonempty ∧ ((∃ r ∈ regions, s = r ∩ c ∨ s = r \ c) ∨
    ∀ y, y ∈ s ↔ y ∈ c ∧ ∀ r ∈ regions, y ∉ r)

-- ── Being alike

section

omit [DecidableEq α]

theorem Alike.refl (cs : List (Finset α)) (x : α) : Alike cs x x := fun _ _ => Iff.rfl

theorem Alike.symm (h : Alike cs x y) : Alike cs y x := fun c hc => (h c hc).symm

theorem Alike.trans (h : Alike cs x y) (h' : Alike cs y z) : Alike cs x z :=
  fun c hc => (h c hc).trans (h' c hc)

theorem alike_concat : Alike (cs ++ [c]) x y ↔ Alike cs x y ∧ (x ∈ c ↔ y ∈ c) := by
  simp only [Alike, List.mem_append, List.mem_singleton, or_imp, forall_and, forall_eq]

theorem covered_concat : Covered (cs ++ [c]) x ↔ Covered cs x ∨ x ∈ c := by
  simp only [Covered, List.mem_append, List.mem_singleton, or_and_right, exists_or, exists_eq_left]

theorem Alike.covered (h : Alike cs x y) (hx : Covered cs x) : Covered cs y := by
  obtain ⟨c, hc, hxc⟩ := hx
  exact ⟨c, hc, (h c hc).mp hxc⟩

end

-- ── Atoms

namespace IsAtoms

section

omit [DecidableEq α]

theorem nil : IsAtoms ([] : List (Finset α)) ∅ where
  sound h := absurd h (Set.notMem_empty _)
  complete h := by
    obtain ⟨c, hc, _⟩ := h
    cases hc

section

variable (h : IsAtoms cs regions)
include h

theorem mem_iff (hr : r ∈ regions) (hx : x ∈ r) :
    y ∈ r ↔ Alike cs x y := by
  obtain ⟨w, _, hw⟩ := h.sound hr
  have hwx := (hw x).mp hx
  rw [hw]
  exact ⟨hwx.symm.trans, hwx.trans⟩

theorem covered (hr : r ∈ regions) (hx : x ∈ r) : Covered cs x := by
  obtain ⟨w, hcov, hw⟩ := h.sound hr
  exact ((hw x).mp hx).covered hcov

theorem eq_of_mem (hr : r ∈ regions) (hs : s ∈ regions) (hxr : x ∈ r)
    (hxs : x ∈ s) : r = s := by
  ext y
  rw [h.mem_iff hr hxr, h.mem_iff hs hxs]

theorem partitions : Partitions regions cs where
  nonempty r hr := by
    obtain ⟨x, _, hx⟩ := h.sound hr
    exact ⟨x, (hx x).mpr (Alike.refl cs x)⟩
  disjoint r hr s hs hne := by
    rw [disjoint_left]
    intro x hxr hxs
    exact hne (h.eq_of_mem hr hs hxr hxs)
  union c hc x := by
    constructor
    · intro hx
      obtain ⟨r, hr, hmem⟩ := h.complete ⟨c, hc, hx⟩
      refine ⟨r, hr, ?_, (hmem x).mpr (Alike.refl cs x)⟩
      intro y hy
      exact ((hmem y).mp hy c hc).mp hx
    · rintro ⟨r, _, hrc, hx⟩
      exact hrc hx

end

end

theorem refine (h : IsAtoms cs regions) (c : Finset α) :
    IsAtoms (cs ++ [c]) {s | Refines regions c s} := by
  -- an uncovered element is alike to the uncovered ones only
  have hfresh : ∀ {x}, ¬Covered cs x → x ∈ c → ∀ y, Alike (cs ++ [c]) x y ↔
      y ∈ c ∧ ∀ r ∈ regions, y ∉ r := by
    intro x hx hxc y
    rw [alike_concat]
    constructor
    · rintro ⟨hal, hc⟩
      refine ⟨hc.mp hxc, ?_⟩
      intro r hr hyr
      exact hx (hal.symm.covered (h.covered hr hyr))
    · rintro ⟨hyc, hout⟩
      refine ⟨?_, iff_of_true hxc hyc⟩
      intro d hd
      refine iff_of_false (fun hxd => hx ⟨d, hd, hxd⟩) ?_
      intro hyd
      obtain ⟨r, hr, hmem⟩ := h.complete ⟨d, hd, hyd⟩
      exact hout r hr ((hmem y).mpr (Alike.refl cs y))
  constructor
  case sound =>
    rintro s ⟨⟨x, hx⟩, ⟨r, hr, rfl | rfl⟩ | hrest⟩
    · obtain ⟨hxr, hxc⟩ := mem_inter.mp hx
      refine ⟨x, covered_concat.mpr (.inl (h.covered hr hxr)), ?_⟩
      intro y
      rw [mem_inter, alike_concat, h.mem_iff hr hxr, iff_true_left hxc]
    · obtain ⟨hxr, hxc⟩ := mem_sdiff.mp hx
      refine ⟨x, covered_concat.mpr (.inl (h.covered hr hxr)), ?_⟩
      intro y
      rw [mem_sdiff, alike_concat, h.mem_iff hr hxr, iff_false_left hxc]
    · obtain ⟨hxc, hout⟩ := (hrest x).mp hx
      have hun : ¬Covered cs x := by
        intro hcov
        obtain ⟨r, hr, hmem⟩ := h.complete hcov
        exact hout r hr ((hmem x).mpr (Alike.refl cs x))
      refine ⟨x, covered_concat.mpr (.inr hxc), ?_⟩
      intro y
      rw [hrest, hfresh hun hxc]
  case complete =>
    intro x hcov
    by_cases hx : Covered cs x
    · obtain ⟨r, hr, hmem⟩ := h.complete hx
      have hxr : x ∈ r := (hmem x).mpr (Alike.refl cs x)
      by_cases hxc : x ∈ c
      · refine ⟨r ∩ c, ⟨⟨x, mem_inter.mpr ⟨hxr, hxc⟩⟩, .inl ⟨r, hr, .inl rfl⟩⟩, ?_⟩
        intro y
        rw [mem_inter, alike_concat, hmem, iff_true_left hxc]
      · refine ⟨r \ c, ⟨⟨x, mem_sdiff.mpr ⟨hxr, hxc⟩⟩, .inl ⟨r, hr, .inr rfl⟩⟩, ?_⟩
        intro y
        rw [mem_sdiff, alike_concat, hmem, iff_false_left hxc]
    · have hxc : x ∈ c := (covered_concat.mp hcov).resolve_left hx
      classical
      have hrest : ∀ y, y ∈ c.filter (fun y => ∀ r ∈ regions, y ∉ r) ↔
          y ∈ c ∧ ∀ r ∈ regions, y ∉ r := fun y => mem_filter
      refine ⟨c.filter (fun y => ∀ r ∈ regions, y ∉ r), ⟨⟨x, ?_⟩, .inr hrest⟩, ?_⟩
      · exact (hrest x).mpr ((hfresh hx hxc x).mp (Alike.refl _ x))
      · intro y
        rw [hrest, hfresh hx hxc]

end IsAtoms

end SvfAtoms
