import SvfModel.AtomsProofs
import SvfModel.MemRegionProofs

/-!
# Disjoint memory regions

`computeIntersections` takes one more points-to set to a list of disjoint sets: what meets the new
set is cut in two, and what of the new set is left goes in last. A set that is already there is
skipped, and so is all of this for a set with one element, which is inserted as it is: the sets
of one function come smallest first, and then a singleton meets nothing.

Where that holds, the list stays the list of atoms of the sets seen
(**`mem_computeIntersections`**, `IsAtoms.refine`). Within a function it always does; in
`InterDisjointMRG` one list serves all functions, and a singleton of a later function may lie in
a larger region of an earlier one. `SingletonsTold` says of the sets that it never does.
-/

namespace SvfMSSA

open SvfOrderedSet SvfAtoms Finset
open OrderedSet (not_mem_empty)

-- ── `computeIntersections`

/-- The loop's variables: what is left of the set, and the regions to take out and put in. -/
structure Splits where
  cpts_copy : NodeBS
  toBeDeleted : PointsToList
  newInters : PointsToList

namespace Splits

/-- Replace a region by the part that meets the set and the part that does not. -/
def replace (s : Splits) (inter new_inter : NodeBS) : Splits :=
  if new_inter ≠ inter then
    let complement := inter \ new_inter
    { s with
      toBeDeleted := s.toBeDeleted.insert inter
      newInters := if complement ≠ ∅ then (s.newInters.insert new_inter).insert complement
                     else s.newInters.insert new_inter }
  else s

/-- The loop over the regions; it breaks when nothing is left of the set. -/
def scan : List NodeBS → Splits → Splits
  | [], s => s
  | inter :: rest, s =>
    if (s.cpts_copy ∩ inter).Nonempty then
      let new_inter := inter ∩ s.cpts_copy
      let s' : Splits := { s.replace inter new_inter with cpts_copy := s.cpts_copy \ new_inter }
      if s'.cpts_copy = ∅ then s' else scan rest s'
    else scan rest s

end Splits

def computeIntersections (cpts : NodeBS) (inters : PointsToList) : PointsToList :=
  if (inters.find cpts).isSome then inters
  else if cpts.card = 1 then inters.insert cpts
  else
    let s := Splits.scan inters.elems ⟨cpts, OrderedSet.empty, OrderedSet.empty⟩
    let kept := s.toBeDeleted.elems.foldl OrderedSet.erase inters
    let cut := s.newInters.elems.foldl OrderedSet.insert kept
    if s.cpts_copy = ∅ then cut else cut.insert s.cpts_copy

/-- The list after the sets were taken to it one by one. -/
def interList (cptss : List NodeBS) (inters : PointsToList) : PointsToList :=
  cptss.foldl (fun inters cpts => computeIntersections cpts inters) inters

-- ── What one pass over the regions finds

/-- The pass over disjoint regions with a set: what is left of the set is what no region has, the
    regions to delete are those that have a part inside and a part outside, and these parts are
    what to put in. -/
structure Scanned (l : List NodeBS) (s s' : Splits) : Prop where
  copy : ∀ y, y ∈ s'.cpts_copy ↔ y ∈ s.cpts_copy ∧ ∀ r ∈ l, y ∉ r
  deleted : ∀ d, d ∈ s'.toBeDeleted ↔ d ∈ s.toBeDeleted ∨
    d ∈ l ∧ (d ∩ s.cpts_copy).Nonempty ∧ ¬d ⊆ s.cpts_copy
  added : ∀ e, e ∈ s'.newInters ↔ e ∈ s.newInters ∨ ∃ d ∈ l,
    ((d ∩ s.cpts_copy).Nonempty ∧ ¬d ⊆ s.cpts_copy) ∧ (e = d ∩ s.cpts_copy ∨ e = d \ s.cpts_copy)

theorem scanned_nil (s : Splits) : Scanned [] s s where
  copy _ := by simp
  deleted _ := by simp
  added _ := by simp

theorem scanned_replace {s : Splits} {inter : NodeBS} (hmeet : (inter ∩ s.cpts_copy).Nonempty) :
    Scanned [inter] s { s.replace inter (inter ∩ s.cpts_copy) with
      cpts_copy := s.cpts_copy \ (inter ∩ s.cpts_copy) } := by
  have hcopy : ∀ y, y ∈ s.cpts_copy \ (inter ∩ s.cpts_copy) ↔
      y ∈ s.cpts_copy ∧ ∀ r ∈ [inter], y ∉ r := by
    intro y
    simp only [mem_sdiff, mem_inter, List.mem_singleton, forall_eq]
    tauto
  by_cases hsub : inter ⊆ s.cpts_copy
  · have hsame : inter ∩ s.cpts_copy = inter := inter_eq_left.mpr hsub
    have hnone : s.replace inter (inter ∩ s.cpts_copy) = s := by
      rw [Splits.replace, if_neg (not_not.mpr hsame)]
    rw [hnone]
    refine ⟨hcopy, ?_, ?_⟩
    · intro d
      refine ⟨.inl, ?_⟩
      rintro (h | ⟨hd, _, hnot⟩)
      · exact h
      · rw [List.mem_singleton.mp hd] at hnot
        exact absurd hsub hnot
    · intro e
      refine ⟨.inl, ?_⟩
      rintro (h | ⟨d, hd, ⟨_, hnot⟩, _⟩)
      · exact h
      · rw [List.mem_singleton.mp hd] at hnot
        exact absurd hsub hnot
  · have hdiff : inter ∩ s.cpts_copy ≠ inter := fun h => hsub (inter_eq_left.mp h)
    have hcompl : inter \ (inter ∩ s.cpts_copy) = inter \ s.cpts_copy := sdiff_inter_self_left ..
    have hrest : inter \ s.cpts_copy ≠ ∅ := by
      rw [ne_eq, sdiff_eq_empty_iff_subset]
      exact hsub
    have hreplace : s.replace inter (inter ∩ s.cpts_copy) =
        { s with
          toBeDeleted := s.toBeDeleted.insert inter
          newInters := (s.newInters.insert (inter ∩ s.cpts_copy)).insert
                           (inter \ s.cpts_copy) } := by
      simp only [Splits.replace, hcompl, if_pos hdiff, if_pos hrest]
    rw [hreplace]
    refine ⟨hcopy, ?_, ?_⟩
    · intro d
      show d ∈ s.toBeDeleted.insert inter ↔ _
      rw [OrderedSet.mem_insert]
      constructor
      · rintro (rfl | h)
        · exact .inr ⟨List.mem_singleton_self _, hmeet, hsub⟩
        · exact .inl h
      · rintro (h | ⟨hd, _⟩)
        · exact .inr h
        · exact .inl (List.mem_singleton.mp hd)
    · intro e
      show e ∈ (s.newInters.insert _).insert _ ↔ _
      rw [OrderedSet.mem_insert, OrderedSet.mem_insert]
      constructor
      · rintro (rfl | rfl | h)
        · exact .inr ⟨inter, List.mem_singleton_self _, ⟨hmeet, hsub⟩, .inr rfl⟩
        · exact .inr ⟨inter, List.mem_singleton_self _, ⟨hmeet, hsub⟩, .inl rfl⟩
        · exact .inl h
      · rintro (h | ⟨d, hd, _, he⟩)
        · exact .inr (.inr h)
        · rw [List.mem_singleton.mp hd] at he
          rcases he with he | he
          · exact .inr (.inl he)
          · exact .inl he

theorem Scanned.cons {inter : NodeBS} {l : List NodeBS} {s s' s'' : Splits}
    (hdis : ∀ d ∈ l, Disjoint inter d) (h : Scanned [inter] s s') (h' : Scanned l s' s'') :
    Scanned (inter :: l) s s'' := by
  have hcopy : ∀ y, y ∈ s'.cpts_copy ↔ y ∈ s.cpts_copy ∧ y ∉ inter := by
    intro y
    rw [h.copy, List.forall_mem_singleton]
  have hmem : ∀ d ∈ l, ∀ y ∈ d, y ∈ s'.cpts_copy ↔ y ∈ s.cpts_copy := by
    intro d hd y hy
    rw [hcopy]
    exact and_iff_left (fun hyi => disjoint_left.mp (hdis d hd) hyi hy)
  have hinter : ∀ d ∈ l, d ∩ s'.cpts_copy = d ∩ s.cpts_copy := by
    intro d hd
    ext y
    rw [mem_inter, mem_inter]
    exact and_congr_right (hmem d hd y)
  have hsdiff : ∀ d ∈ l, d \ s'.cpts_copy = d \ s.cpts_copy := by
    intro d hd
    ext y
    rw [mem_sdiff, mem_sdiff]
    exact and_congr_right (fun hy => not_congr (hmem d hd y hy))
  have hsub : ∀ d ∈ l, d ⊆ s'.cpts_copy ↔ d ⊆ s.cpts_copy := by
    intro d hd
    exact forall₂_congr (fun y hy => hmem d hd y hy)
  constructor
  case copy =>
    intro y
    rw [h'.copy, hcopy, List.forall_mem_cons, and_assoc]
  case deleted =>
    intro d
    rw [h'.deleted, h.deleted, or_assoc]
    refine or_congr_right ?_
    rw [List.mem_singleton, List.mem_cons, or_and_right]
    refine or_congr_right (and_congr_right ?_)
    intro hd
    rw [hinter d hd, hsub d hd]
  case added =>
    intro e
    rw [h'.added, h.added, or_assoc]
    refine or_congr_right ?_
    simp only [List.mem_cons, List.not_mem_nil, or_false, or_and_right, exists_or, exists_eq_left]
    refine or_congr_right (exists_congr ?_)
    intro d
    refine and_congr_right ?_
    intro hd
    rw [hinter d hd, hsub d hd, hsdiff d hd]

theorem scan_scanned {l : List NodeBS} (hdis : l.Pairwise Disjoint) (s : Splits) :
    Scanned l s (Splits.scan l s) := by
  induction l generalizing s with
  | nil => exact scanned_nil s
  | cons inter rest ih =>
    obtain ⟨hhead, hrest⟩ := List.pairwise_cons.mp hdis
    rw [Splits.scan]
    by_cases hmeet : (s.cpts_copy ∩ inter).Nonempty
    · rw [if_pos hmeet]
      rw [inter_comm] at hmeet
      have hbody := scanned_replace hmeet
      by_cases hempty : s.cpts_copy \ (inter ∩ s.cpts_copy) = ∅
      · -- the loop breaks; the regions behind meet nothing of what is left
        have hstop : Scanned rest
            { s.replace inter (inter ∩ s.cpts_copy) with
              cpts_copy := s.cpts_copy \ (inter ∩ s.cpts_copy) }
            { s.replace inter (inter ∩ s.cpts_copy) with
              cpts_copy := s.cpts_copy \ (inter ∩ s.cpts_copy) } := by
          constructor
          case copy => simp [hempty]
          case deleted => simp [hempty]
          case added => simp [hempty]
        rw [if_pos hempty]
        exact hbody.cons hhead hstop
      · rw [if_neg hempty]
        exact hbody.cons hhead (ih hrest _)
    · rw [if_neg hmeet]
      rw [inter_comm] at hmeet
      have hskip : Scanned [inter] s s := by
        have hout : ∀ y ∈ s.cpts_copy, y ∉ inter := by
          intro y hy hyi
          exact hmeet ⟨y, mem_inter.mpr ⟨hyi, hy⟩⟩
        constructor
        case copy =>
          intro y
          rw [List.forall_mem_singleton]
          exact ⟨fun hy => ⟨hy, hout y hy⟩, And.left⟩
        case deleted =>
          intro d
          refine ⟨.inl, ?_⟩
          rintro (h | ⟨hd, hm, _⟩)
          · exact h
          · rw [List.mem_singleton.mp hd] at hm
            exact absurd hm hmeet
        case added =>
          intro e
          refine ⟨.inl, ?_⟩
          rintro (h | ⟨d, hd, ⟨hm, _⟩, _⟩)
          · exact h
          · rw [List.mem_singleton.mp hd] at hm
            exact absurd hm hmeet
      exact hskip.cons hhead (ih hrest s)

-- ── One more set

def regionsOf (inters : PointsToList) : Set NodeBS := {r | r ∈ inters}

/-- The list has no empty region, and no two regions meet. -/
structure DisjointList (inters : PointsToList) : Prop where
  nonempty : ∀ r ∈ inters, r.Nonempty
  disjoint : ∀ r ∈ inters, ∀ s ∈ inters, r ≠ s → Disjoint r s

variable {inters : PointsToList} {cpts s : NodeBS}

section

variable (h : DisjointList inters)
include h

theorem DisjointList.pairwise : inters.elems.Pairwise Disjoint := by
  refine inters.sorted.imp_of_mem ?_
  intro r s hr hs hlt
  refine h.disjoint r hr s hs ?_
  rintro rfl
  have hirr : cmpNodeBS r r = false := StrictTotal.irrefl r
  rw [hirr] at hlt
  exact Bool.noConfusion hlt

theorem refines_of_mem (hc : cpts ∈ inters) : s ∈ inters ↔ Refines (regionsOf inters) cpts s := by
  constructor
  · intro hs
    refine ⟨h.nonempty s hs, .inl ⟨s, hs, ?_⟩⟩
    by_cases hsc : s = cpts
    · left
      rw [hsc, inter_self]
    · right
      exact (sdiff_eq_self_of_disjoint (h.disjoint s hs cpts hc hsc)).symm
  · rintro ⟨⟨y, hy⟩, ⟨r, hr, hs⟩ | hrest⟩
    · by_cases hrc : r = cpts
      · rw [hrc, inter_self, sdiff_self] at hs
        rcases hs with rfl | rfl
        · exact hc
        · exact absurd hy (notMem_empty y)
      · have hdis := h.disjoint r hr cpts hc hrc
        rw [disjoint_iff_inter_eq_empty.mp hdis, sdiff_eq_self_of_disjoint hdis] at hs
        rcases hs with rfl | rfl
        · exact absurd hy (notMem_empty y)
        · exact hr
    · exact absurd ((hrest y).mp hy).1 (((hrest y).mp hy).2 cpts hc)

theorem refines_of_disjoint (hne : cpts.Nonempty) (hdis : ∀ r ∈ inters, Disjoint r cpts) :
    s = cpts ∨ s ∈ inters ↔ Refines (regionsOf inters) cpts s := by
  have hout : ∀ y, y ∈ cpts ↔ y ∈ cpts ∧ ∀ r ∈ regionsOf inters, y ∉ r := by
    intro y
    exact ⟨fun hy => ⟨hy, fun r hr hyr => disjoint_left.mp (hdis r hr) hyr hy⟩, And.left⟩
  constructor
  · rintro (rfl | hs)
    · exact ⟨hne, .inr hout⟩
    · refine ⟨h.nonempty s hs, .inl ⟨s, hs, .inr ?_⟩⟩
      exact (sdiff_eq_self_of_disjoint (hdis s hs)).symm
  · rintro ⟨⟨y, hy⟩, ⟨r, hr, hs⟩ | hrest⟩
    · rw [disjoint_iff_inter_eq_empty.mp (hdis r hr), sdiff_eq_self_of_disjoint (hdis r hr)] at hs
      rcases hs with rfl | rfl
      · exact absurd hy (notMem_empty y)
      · exact .inr hr
    · left
      ext y
      rw [hrest, ← hout]

theorem mem_cut {sp : Splits}
    (hsp : Scanned inters.elems ⟨cpts, OrderedSet.empty, OrderedSet.empty⟩ sp) :
    (s ∈ sp.newInters ∨ s ∈ inters ∧ s ∉ sp.toBeDeleted) ∨ s.Nonempty ∧ s = sp.cpts_copy ↔
      Refines (regionsOf inters) cpts s := by
  have hcopy : ∀ y, y ∈ sp.cpts_copy ↔ y ∈ cpts ∧ ∀ r ∈ regionsOf inters, y ∉ r := hsp.copy
  have hdel : ∀ d, d ∈ sp.toBeDeleted ↔ d ∈ inters ∧ (d ∩ cpts).Nonempty ∧ ¬d ⊆ cpts := by
    intro d
    rw [hsp.deleted]
    exact or_iff_right not_mem_empty
  have hadd : ∀ e, e ∈ sp.newInters ↔ ∃ d ∈ inters, ((d ∩ cpts).Nonempty ∧ ¬d ⊆ cpts) ∧
      (e = d ∩ cpts ∨ e = d \ cpts) := by
    intro e
    rw [hsp.added]
    exact or_iff_right not_mem_empty
  constructor
  · rintro ((hs | ⟨hs, hkept⟩) | ⟨hne, hs⟩)
    · obtain ⟨d, hd, ⟨hmeet, hnot⟩, he⟩ := (hadd s).mp hs
      refine ⟨?_, .inl ⟨d, hd, he⟩⟩
      rcases he with rfl | rfl
      · exact hmeet
      · exact sdiff_nonempty.mpr hnot
    · refine ⟨h.nonempty s hs, .inl ⟨s, hs, ?_⟩⟩
      by_cases hmeet : (s ∩ cpts).Nonempty
      · left
        by_contra hcut
        have hnot : ¬s ⊆ cpts := fun hsub => hcut (inter_eq_left.mpr hsub).symm
        exact hkept ((hdel s).mpr ⟨hs, hmeet, hnot⟩)
      · right
        rw [not_nonempty_iff_eq_empty, ← disjoint_iff_inter_eq_empty] at hmeet
        exact (sdiff_eq_self_of_disjoint hmeet).symm
    · subst hs
      exact ⟨hne, .inr hcopy⟩
  · rintro ⟨hne, ⟨r, hr, hs⟩ | hrest⟩
    · left
      by_cases hcut : (r ∩ cpts).Nonempty ∧ ¬r ⊆ cpts
      · exact .inl ((hadd s).mpr ⟨r, hr, hcut, hs⟩)
      · right
        have hsr : s = r := by
          rcases hs with rfl | rfl
          · have hsub : r ⊆ cpts := not_not.mp (fun hnot => hcut ⟨hne, hnot⟩)
            exact inter_eq_left.mpr hsub
          · have hnot := sdiff_nonempty.mp hne
            have hmeet : ¬(r ∩ cpts).Nonempty := fun hm => hcut ⟨hm, hnot⟩
            rw [not_nonempty_iff_eq_empty, ← disjoint_iff_inter_eq_empty] at hmeet
            exact sdiff_eq_self_of_disjoint hmeet
        subst hsr
        exact ⟨hr, fun hd => hcut ((hdel s).mp hd).2⟩
    · right
      refine ⟨hne, ?_⟩
      ext y
      rw [hrest, hcopy]

theorem mem_computeIntersections
    (hone : cpts.card = 1 → cpts ∈ inters ∨ ∀ r ∈ inters, Disjoint r cpts) :
    s ∈ computeIntersections cpts inters ↔ Refines (regionsOf inters) cpts s := by
  rw [computeIntersections]
  by_cases hold : cpts ∈ inters
  · rw [if_pos (OrderedSet.find_isSome.mpr hold)]
    exact refines_of_mem h hold
  · rw [if_neg (by rw [OrderedSet.find_isSome]; exact hold)]
    by_cases hcard : cpts.card = 1
    · rw [if_pos hcard, OrderedSet.mem_insert]
      have hne : cpts.Nonempty := card_pos.mp (by omega)
      exact refines_of_disjoint h hne ((hone hcard).resolve_left hold)
    · rw [if_neg hcard]
      have hsp := scan_scanned h.pairwise ⟨cpts, OrderedSet.empty, OrderedSet.empty⟩
      rw [← mem_cut h hsp]
      simp only
      by_cases hempty : (Splits.scan inters.elems
          ⟨cpts, OrderedSet.empty, OrderedSet.empty⟩).cpts_copy = ∅
      · rw [if_pos hempty, OrderedSet.mem_foldl_insert, OrderedSet.mem_foldl_erase, hempty]
        have hno : ¬(s.Nonempty ∧ s = ∅) := fun hs => hs.1.ne_empty hs.2
        rw [or_iff_left hno]
        rfl
      · rw [if_neg hempty, OrderedSet.mem_insert, OrderedSet.mem_foldl_insert,
          OrderedSet.mem_foldl_erase, or_comm]
        refine or_congr .rfl ⟨?_, And.right⟩
        intro hs
        refine ⟨?_, hs⟩
        rw [hs]
        exact nonempty_iff_ne_empty.mpr hempty

end

-- ── Lists of sets

/-- No singleton comes when its element shares a region with another: an element of a singleton
    that an earlier set has is told apart by the earlier sets from every other element. -/
def SingletonsTold (cptss : List NodeBS) : Prop :=
  ∀ pre x post, cptss = pre ++ {x} :: post → Covered pre x → ∀ y, Alike pre x y → y = x

theorem interList_concat {cptss : List NodeBS} :
    interList (cptss ++ [cpts]) inters = computeIntersections cpts (interList cptss inters) := by
  rw [interList, List.foldl_append]
  rfl

theorem DisjointList.of_isAtoms {cptss : List NodeBS} (h : IsAtoms cptss (regionsOf inters)) :
    DisjointList inters :=
  ⟨h.partitions.nonempty, h.partitions.disjoint⟩

theorem isAtoms_step {pre : List NodeBS} (h : IsAtoms pre (regionsOf inters))
    (hone : ∀ x, cpts = {x} → Covered pre x → ∀ y, Alike pre x y → y = x) :
    IsAtoms (pre ++ [cpts]) (regionsOf (computeIntersections cpts inters)) := by
  have hlist := DisjointList.of_isAtoms h
  have hcond : cpts.card = 1 → cpts ∈ inters ∨ ∀ r ∈ inters, Disjoint r cpts := by
    intro hcard
    obtain ⟨x, rfl⟩ := card_eq_one.mp hcard
    by_cases hx : Covered pre x
    · left
      obtain ⟨r, hr, hmem⟩ := h.complete hx
      have hrx : r = {x} := by
        ext y
        rw [hmem, mem_singleton]
        constructor
        · exact hone x rfl hx y
        · rintro rfl
          exact Alike.refl pre y
      rw [← hrx]
      exact hr
    · right
      intro r hr
      rw [disjoint_singleton_right]
      exact fun hxr => hx (h.covered hr hxr)
  have hset : regionsOf (computeIntersections cpts inters) =
      {s | Refines (regionsOf inters) cpts s} := by
    ext s
    exact mem_computeIntersections hlist hcond
  rw [hset]
  exact h.refine cpts

theorem interList_isAtoms {cptss : List NodeBS} (h : SingletonsTold cptss) :
    IsAtoms cptss (regionsOf (interList cptss OrderedSet.empty)) := by
  induction cptss using List.reverseRecOn with
  | nil =>
    have hempty : regionsOf (OrderedSet.empty : PointsToList) = ∅ := by
      ext r
      simp [regionsOf]
    show IsAtoms [] (regionsOf OrderedSet.empty)
    rw [hempty]
    exact IsAtoms.nil
  | append_singleton cptss cpts ih =>
    have hpre : SingletonsTold cptss := by
      intro pre x post heq
      refine h pre x (post ++ [cpts]) ?_
      rw [heq, List.append_assoc]
      rfl
    rw [interList_concat]
    refine isAtoms_step (ih hpre) ?_
    intro x hx
    exact h cptss x [] (by rw [hx])

theorem not_disjoint_of_untold {pre : List NodeBS} (h : IsAtoms pre (regionsOf inters)) {x y : ℕ}
    (hx : Covered pre x) (hal : Alike pre x y) (hne : y ≠ x) :
    ¬∀ r ∈ regionsOf (computeIntersections {x} inters),
      ∀ s ∈ regionsOf (computeIntersections {x} inters), r ≠ s → Disjoint r s := by
  intro hdis
  obtain ⟨r, hr, hmem⟩ := h.complete hx
  have hxr : x ∈ r := (hmem x).mpr (Alike.refl pre x)
  have hyr : y ∈ r := (hmem y).mpr hal
  have hrx : r ≠ {x} := by
    rintro rfl
    exact hne (mem_singleton.mp hyr)
  have hold : ¬(inters.find {x}).isSome := by
    rw [OrderedSet.find_isSome]
    intro hin
    exact hrx (h.eq_of_mem hr hin hxr (mem_singleton_self x))
  have hins : computeIntersections {x} inters = inters.insert {x} := by
    rw [computeIntersections, if_neg hold, if_pos (card_singleton x)]
  rw [hins] at hdis
  have hboth := hdis r (OrderedSet.mem_insert.mpr (.inr hr)) {x}
    (OrderedSet.mem_insert.mpr (.inl rfl)) hrx
  rw [disjoint_singleton_right] at hboth
  exact hboth hxr

/-- After every set seen the regions so far partition the sets so far exactly if the singletons
    are told apart. -/
theorem interList_partitions_iff (cptss : List NodeBS) :
    (∀ pre, pre <+: cptss → Partitions (regionsOf (interList pre OrderedSet.empty)) pre) ↔
      SingletonsTold cptss := by
  constructor
  · intro h
    induction cptss using List.reverseRecOn with
    | nil =>
      intro pre x post heq
      exact absurd heq (by simp)
    | append_singleton cptss cpts ih =>
      have hpre : SingletonsTold cptss :=
        ih (fun pre hpre => h pre (hpre.trans (List.prefix_append _ _)))
      intro pre x post heq hx y hal
      rcases List.eq_nil_or_concat post with rfl | ⟨post, last, rfl⟩
      · -- the last set is the singleton
        obtain ⟨rfl, hlast⟩ := List.append_inj' heq rfl
        obtain rfl : cpts = {x} := by simpa using hlast
        by_contra hne
        have hpart := h (cptss ++ [{x}]) (List.prefix_refl _)
        rw [interList_concat] at hpart
        exact not_disjoint_of_untold (interList_isAtoms hpre) hx hal hne hpart.disjoint
      · have hsplit : cptss ++ [cpts] = (pre ++ {x} :: post) ++ [last] := by
          rw [heq, List.concat_eq_append, List.append_assoc]
          rfl
        exact hpre pre x post (List.append_inj' hsplit rfl).1 hx y hal
  · intro h pre hpre
    obtain ⟨post, rfl⟩ := hpre
    refine (interList_isAtoms ?_).partitions
    intro pre' x post' heq
    refine h pre' x (post' ++ post) ?_
    rw [heq, List.append_assoc]
    rfl

-- ── Creating the regions

namespace MRGenerator

variable {F A : Type} [DecidableEq F] {g : MRGenerator F}

def createDisjointMR (g : MRGenerator F) (func : F) (cpts : NodeBS) : Option (MRGenerator F) :=
  createMR { g with cptsToRepCPtsMap := g.cptsToRepCPtsMap.set cpts cpts } func cpts

def getMRsForLoadFromInterList (g : MRGenerator F) (cpts : NodeBS) (inters : PointsToList) :
    Option MRSet :=
  inters.elems.foldlM (fun mrs inter =>
    if NodeBS.contains cpts inter then (g.memRegSet.find ⟨inter⟩).map mrs.insert
    else some mrs) OrderedSet.empty

/-- The regions added are those that `P` has for some function, each for the functions that it
    has it for. -/
structure Made (g : MRGenerator F) (P : F → NodeBS → Prop) (g' : MRGenerator F) : Prop where
  regions : ∀ mr, mr ∈ g'.memRegSet ↔ mr ∈ g.memRegSet ∨ ∃ f, P f mr.cptsSet
  funs : ∀ f mr, mr ∈ g'.funToMRsMap f ↔ mr ∈ g.funToMRsMap f ∨ P f mr.cptsSet

omit [DecidableEq F] in
theorem made_none {P : F → NodeBS → Prop} (hP : ∀ f r, ¬P f r) : Made g P g where
  regions _ := ⟨.inl, fun h => h.resolve_right (fun hf => hP _ _ hf.choose_spec)⟩
  funs f mr := ⟨.inl, fun h => h.resolve_right (hP f mr.cptsSet)⟩

theorem createDisjointMR_made (g : MRGenerator F) (func : F) (cpts : NodeBS) :
    ∃ g', g.createDisjointMR func cpts = some g' ∧ Made g (fun f r => f = func ∧ r = cpts) g' := by
  have hrep : getRepPointsTo (g.cptsToRepCPtsMap.set cpts cpts) cpts = some cpts := by
    rw [getRepPointsTo, OrderedMap.find_of_mem (OrderedMap.mem_keys_set.mpr (.inl rfl)),
      OrderedMap.value_set, if_pos rfl]
  obtain ⟨g', hg', hadds⟩ := createMR_adds
    { g with cptsToRepCPtsMap := g.cptsToRepCPtsMap.set cpts cpts } func hrep
  refine ⟨g', hg', ?_, ?_⟩
  · intro ⟨r⟩
    rw [hadds.regions, or_comm]
    simp
  · intro f ⟨r⟩
    rw [hadds.funs, or_comm]
    simp

omit [DecidableEq F] in
theorem foldlM_made {step : MRGenerator F → A → Option (MRGenerator F)}
    {P : A → F → NodeBS → Prop} (h : ∀ g a, ∃ g', step g a = some g' ∧ Made g (P a) g')
    (l : List A) (g : MRGenerator F) :
    ∃ g', l.foldlM step g = some g' ∧ Made g (fun f r => ∃ a ∈ l, P a f r) g' := by
  induction l generalizing g with
  | nil => exact ⟨g, rfl, made_none (by simp)⟩
  | cons a l ih =>
    obtain ⟨g1, hg1, hm1⟩ := h g a
    obtain ⟨g2, hg2, hm2⟩ := ih g1
    refine ⟨g2, ?_, ?_, ?_⟩
    · rw [List.foldlM_cons, hg1]
      exact hg2
    · intro mr
      rw [hm2.regions, hm1.regions, or_assoc]
      refine or_congr_right ?_
      rw [← exists_or]
      refine exists_congr ?_
      intro f
      simp only [List.mem_cons, or_and_right, exists_or, exists_eq_left]
    · intro f mr
      rw [hm2.funs, hm1.funs, or_assoc]
      simp only [List.mem_cons, or_and_right, exists_or, exists_eq_left]

omit [DecidableEq F] in
theorem getMRsForLoad_spec {inters : PointsToList} {cpts : NodeBS}
    (hin : ∀ r ∈ inters, r ⊆ cpts → ⟨r⟩ ∈ g.memRegSet) :
    ∃ mrs, g.getMRsForLoadFromInterList cpts inters = some mrs ∧
      ∀ mr : MemRegion, mr ∈ mrs ↔ mr.cptsSet ∈ inters ∧ mr.cptsSet ⊆ cpts := by
  have hloop : ∀ (l : List NodeBS) (mrs : MRSet), (∀ r ∈ l, r ⊆ cpts → ⟨r⟩ ∈ g.memRegSet) →
      ∃ mrs', l.foldlM (fun (mrs : MRSet) inter =>
          if NodeBS.contains cpts inter then (g.memRegSet.find ⟨inter⟩).map mrs.insert
          else some mrs) mrs = some mrs' ∧
        ∀ mr : MemRegion, mr ∈ mrs' ↔ mr ∈ mrs ∨ mr.cptsSet ∈ l ∧ mr.cptsSet ⊆ cpts := by
    intro l
    induction l with
    | nil => exact fun mrs _ => ⟨mrs, rfl, by simp⟩
    | cons inter l ih =>
      intro mrs hl
      have hl' : ∀ r ∈ l, r ⊆ cpts → ⟨r⟩ ∈ g.memRegSet := (List.forall_mem_cons.mp hl).2
      by_cases hsub : inter ⊆ cpts
      · have hfind := OrderedSet.find_iff.mpr
          ⟨hl inter List.mem_cons_self hsub, (rfl : (⟨inter⟩ : MemRegion) = ⟨inter⟩)⟩
        obtain ⟨mrs', hmrs', hmem⟩ := ih (mrs.insert ⟨inter⟩) hl'
        refine ⟨mrs', ?_, ?_⟩
        · rw [List.foldlM_cons, if_pos (NodeBS.contains_iff.mpr hsub), hfind]
          exact hmrs'
        · rintro ⟨r⟩
          rw [hmem, OrderedSet.mem_insert, List.mem_cons, MemRegion.mk.injEq]
          exact or_and_cons (P := (· ⊆ cpts)) hsub
      · obtain ⟨mrs', hmrs', hmem⟩ := ih mrs hl'
        refine ⟨mrs', ?_, ?_⟩
        · rw [List.foldlM_cons, if_neg (by rw [NodeBS.contains_iff]; exact hsub)]
          exact hmrs'
        · rintro ⟨r⟩
          rw [hmem, List.mem_cons]
          exact or_and_skip (P := (· ⊆ cpts)) hsub
  obtain ⟨mrs, hmrs, hmem⟩ := hloop inters.elems OrderedSet.empty hin
  refine ⟨mrs, hmrs, ?_⟩
  intro mr
  rw [hmem, or_iff_right not_mem_empty]
  rfl

end MRGenerator

-- ── The two partitions

variable {F : Type} [DecidableEq F]

structure IntraDisjointMRG (F : Type) where
  base : MRGenerator F
  funcToInterMap : F → PointsToList

namespace IntraDisjointMRG

def partitionFun (g : IntraDisjointMRG F) (entry : F × PointsToList) :
    Option (IntraDisjointMRG F) :=
  let inters := interList entry.2.elems (g.funcToInterMap entry.1)
  match inters.elems.foldlM (fun base inter => base.createDisjointMR entry.1 inter) g.base with
  | none => none
  | some base => some
      { base := base
        funcToInterMap := Function.update g.funcToInterMap entry.1 inters }

def partitionMRs (funs : FunToPointsTosMap F) : Option (IntraDisjointMRG F) :=
  funs.entries.foldlM partitionFun ⟨MRGenerator.new F, fun _ => OrderedSet.empty⟩

def getMRsForLoad (g : IntraDisjointMRG F) (cpts : NodeBS) (func : F) : Option MRSet :=
  g.base.getMRsForLoadFromInterList cpts (g.funcToInterMap func)

end IntraDisjointMRG

structure InterDisjointMRG (F : Type) where
  base : MRGenerator F
  inters : PointsToList

namespace InterDisjointMRG

/-- The loop of `partitionMRs` over the regions contained in one set of a function. -/
def createContained (inters : PointsToList) (base : MRGenerator F) (func : F) (cpts : NodeBS) :
    Option (MRGenerator F) :=
  inters.elems.foldlM (fun base inter =>
    if NodeBS.contains cpts inter then base.createDisjointMR func inter else some base) base

def partitionMRs (funs : FunToPointsTosMap F) : Option (InterDisjointMRG F) :=
  let inters := interList funs.allPts OrderedSet.empty
  match funs.entries.foldlM (fun base entry =>
      entry.2.elems.foldlM (fun base cpts => createContained inters base entry.1 cpts) base)
      (MRGenerator.new F) with
  | none => none
  | some base => some ⟨base, inters⟩

def getMRsForLoad (g : InterDisjointMRG F) (cpts : NodeBS) : Option MRSet :=
  g.base.getMRsForLoadFromInterList cpts g.inters

end InterDisjointMRG

def CoversLoad (found : Option MRSet) (cpts : NodeBS) : Prop :=
  ∃ mrs, found = some mrs ∧ ∀ x, x ∈ cpts ↔ ∃ mr ∈ mrs, x ∈ mr.cptsSet

/-- The points-to sets of regions. -/
def cptsSetsOf (mrs : MRSet) : Set NodeBS := {r | (⟨r⟩ : MemRegion) ∈ mrs}

omit [DecidableEq F] in
theorem coversLoad_of_partitions {g : MRGenerator F} {cptss : List NodeBS}
    (hpart : Partitions (regionsOf inters) cptss) (hcpts : cpts ∈ cptss)
    (hin : ∀ r ∈ inters, r ⊆ cpts → ⟨r⟩ ∈ g.memRegSet) :
    CoversLoad (g.getMRsForLoadFromInterList cpts inters) cpts := by
  obtain ⟨mrs, hmrs, hmem⟩ := MRGenerator.getMRsForLoad_spec hin
  refine ⟨mrs, hmrs, ?_⟩
  intro x
  rw [hpart.union cpts hcpts]
  constructor
  · rintro ⟨r, hr, hsub, hx⟩
    exact ⟨⟨r⟩, (hmem _).mpr ⟨hr, hsub⟩, hx⟩
  · rintro ⟨mr, hmr, hx⟩
    obtain ⟨hr, hsub⟩ := (hmem mr).mp hmr
    exact ⟨mr.cptsSet, hr, hsub, hx⟩

-- ── Within a function

theorem singletonsTold_of_sorted (pts : PointsToList) : SingletonsTold pts.elems := by
  rintro pre x post heq ⟨c, hc, hxc⟩ y hal
  have hsorted := pts.sorted
  rw [heq, List.pairwise_append] at hsorted
  have hcard := card_le_of_cmpNodeBS (hsorted.2.2 c hc {x} List.mem_cons_self)
  rw [card_singleton, card_le_one] at hcard
  exact hcard y ((hal c hc).mp hxc) x hxc

namespace IntraDisjointMRG

structure Partitioned (done : List (F × PointsToList)) (g : IntraDisjointMRG F) : Prop where
  untouched : ∀ f, f ∉ done.map Prod.fst →
    g.funcToInterMap f = OrderedSet.empty ∧ ∀ mr, mr ∉ g.base.funToMRsMap f
  inters : ∀ e ∈ done, g.funcToInterMap e.1 = interList e.2.elems OrderedSet.empty
  funs : ∀ e ∈ done, ∀ mr : MemRegion, mr ∈ g.base.funToMRsMap e.1 ↔
    mr.cptsSet ∈ interList e.2.elems OrderedSet.empty
  regions : ∀ e ∈ done, ∀ r ∈ interList e.2.elems OrderedSet.empty, ⟨r⟩ ∈ g.base.memRegSet

theorem partitionFun_partitioned {done : List (F × PointsToList)} {g : IntraDisjointMRG F}
    (h : Partitioned done g) (e : F × PointsToList) (hnew : e.1 ∉ done.map Prod.fst) :
    ∃ g', g.partitionFun e = some g' ∧ Partitioned (done ++ [e]) g' := by
  obtain ⟨hempty, hnone⟩ := h.untouched e.1 hnew
  obtain ⟨base, hbase, hmade⟩ := MRGenerator.foldlM_made
    (fun base inter => base.createDisjointMR_made e.1 inter)
    (interList e.2.elems OrderedSet.empty).elems g.base
  have hdone : ∀ d ∈ done, d.1 ≠ e.1 := by
    rintro d hd heq
    exact hnew (List.mem_map.mpr ⟨d, hd, heq⟩)
  have hrun : g.partitionFun e = some
      { base := base
        funcToInterMap := Function.update g.funcToInterMap e.1
          (interList e.2.elems OrderedSet.empty) } := by
    simp only [partitionFun, hempty, hbase]
  have hother : ∀ f, f ≠ e.1 → ∀ mr, mr ∈ base.funToMRsMap f ↔ mr ∈ g.base.funToMRsMap f := by
    intro f hf mr
    rw [hmade.funs, or_iff_left]
    rintro ⟨_, _, rfl, _⟩
    exact hf rfl
  refine ⟨_, hrun, ?_, ?_, ?_, ?_⟩
  · intro f hf
    rw [List.map_append, List.mem_append, not_or, List.map_singleton, List.mem_singleton] at hf
    obtain ⟨hinter, hmrs⟩ := h.untouched f hf.1
    refine ⟨?_, ?_⟩
    · show Function.update _ _ _ f = _
      rw [Function.update_of_ne hf.2, hinter]
    · intro mr
      show mr ∉ base.funToMRsMap f
      rw [hother f hf.2]
      exact hmrs mr
  · intro d hd
    show Function.update _ _ _ d.1 = _
    rcases List.mem_append.mp hd with hd | hd
    · rw [Function.update_of_ne (hdone d hd), h.inters d hd]
    · rw [List.mem_singleton.mp hd, Function.update_self]
  · intro d hd mr
    show mr ∈ base.funToMRsMap d.1 ↔ _
    rcases List.mem_append.mp hd with hd | hd
    · rw [hother d.1 (hdone d hd), h.funs d hd]
    · rw [List.mem_singleton.mp hd, hmade.funs, or_iff_right (hnone mr)]
      constructor
      · rintro ⟨r, hr, _, hmr⟩
        rw [hmr]
        exact hr
      · intro hr
        exact ⟨mr.cptsSet, hr, rfl, rfl⟩
  · intro d hd r hr
    show _ ∈ base.memRegSet
    rw [hmade.regions]
    rcases List.mem_append.mp hd with hd | hd
    · exact .inl (h.regions d hd r hr)
    · rw [List.mem_singleton.mp hd] at hr
      exact .inr ⟨e.1, r, hr, rfl, rfl⟩

theorem foldlM_partitioned {todo done : List (F × PointsToList)} {g : IntraDisjointMRG F}
    (h : Partitioned done g) (hnodup : ((done ++ todo).map Prod.fst).Nodup) :
    ∃ g', todo.foldlM partitionFun g = some g' ∧ Partitioned (done ++ todo) g' := by
  induction todo generalizing done g with
  | nil => exact ⟨g, rfl, by rwa [List.append_nil]⟩
  | cons e todo ih =>
    have hnew : e.1 ∉ done.map Prod.fst := by
      rw [List.map_append, List.nodup_append] at hnodup
      intro hin
      exact hnodup.2.2 e.1 hin e.1 (List.mem_cons_self ..) rfl
    obtain ⟨g1, hg1, h1⟩ := partitionFun_partitioned h e hnew
    have happ : done ++ e :: todo = (done ++ [e]) ++ todo := by
      rw [List.append_assoc]
      rfl
    rw [happ] at hnodup ⊢
    obtain ⟨g2, hg2, h2⟩ := ih h1 hnodup
    refine ⟨g2, ?_, h2⟩
    rw [List.foldlM_cons, hg1]
    exact hg2

section

variable (funs : FunToPointsTosMap F)

theorem partitionMRs_partitioned :
    ∃ g, partitionMRs funs = some g ∧ Partitioned funs.entries g := by
  have hnew : Partitioned [] (⟨MRGenerator.new F, fun _ => OrderedSet.empty⟩ :
      IntraDisjointMRG F) := by
    constructor
    case untouched => exact fun f _ => ⟨rfl, fun mr => not_mem_empty⟩
    case inters => exact nofun
    case funs => exact nofun
    case regions => exact nofun
  exact foldlM_partitioned hnew funs.nodup

def Correct : Prop :=
  ∃ g, partitionMRs funs = some g ∧ ∀ e ∈ funs.entries,
    Partitions (cptsSetsOf (g.base.funToMRsMap e.1)) e.2.elems ∧
      ∀ cpts ∈ e.2.elems, CoversLoad (g.getMRsForLoad cpts e.1) cpts

theorem correct : Correct funs := by
  obtain ⟨g, hg, h⟩ := partitionMRs_partitioned funs
  refine ⟨g, hg, ?_⟩
  intro e he
  have hpart := (interList_isAtoms (singletonsTold_of_sorted e.2)).partitions
  constructor
  · have hsame : cptsSetsOf (g.base.funToMRsMap e.1) =
        regionsOf (interList e.2.elems OrderedSet.empty) := by
      ext r
      exact h.funs e he ⟨r⟩
    rw [hsame]
    exact hpart
  · intro cpts hcpts
    rw [getMRsForLoad, h.inters e he]
    exact coversLoad_of_partitions hpart hcpts (fun r hr _ => h.regions e he r hr)

end

end IntraDisjointMRG

-- ── Over the whole program

namespace InterDisjointMRG

theorem createContained_made (inters : PointsToList) (base : MRGenerator F) (func : F)
    (cpts : NodeBS) :
    ∃ base', createContained inters base func cpts = some base' ∧
      MRGenerator.Made base (fun f r => ∃ inter ∈ inters.elems,
        inter ⊆ cpts ∧ f = func ∧ r = inter) base' := by
  refine MRGenerator.foldlM_made ?_ inters.elems base
  intro g inter
  by_cases hsub : inter ⊆ cpts
  · rw [if_pos (NodeBS.contains_iff.mpr hsub)]
    obtain ⟨g', hg', hmade⟩ := g.createDisjointMR_made func inter
    refine ⟨g', hg', ?_⟩
    simpa only [hsub, true_and] using hmade
  · rw [if_neg (by rw [NodeBS.contains_iff]; exact hsub)]
    exact ⟨g, rfl, MRGenerator.made_none (fun f r h => hsub h.1)⟩

/-- `partitionMRs` creates the regions of the list that some set contains. -/
theorem partitionMRs_made (funs : FunToPointsTosMap F) :
    ∃ g, partitionMRs funs = some g ∧ g.inters = interList funs.allPts OrderedSet.empty ∧
      ∀ r, (⟨r⟩ : MemRegion) ∈ g.base.memRegSet ↔
        r ∈ g.inters ∧ ∃ cpts ∈ funs.allPts, r ⊆ cpts := by
  have hsets : ∀ (base : MRGenerator F) (e : F × PointsToList), ∃ base',
      e.2.elems.foldlM (fun base cpts => createContained
          (interList funs.allPts OrderedSet.empty) base e.1 cpts) base = some base' ∧
        MRGenerator.Made base (fun f r => ∃ cpts ∈ e.2.elems,
          ∃ inter ∈ (interList funs.allPts OrderedSet.empty).elems,
            inter ⊆ cpts ∧ f = e.1 ∧ r = inter) base' :=
    fun base e => MRGenerator.foldlM_made
      (fun base cpts => createContained_made _ base e.1 cpts) e.2.elems base
  obtain ⟨base, hbase, hmade⟩ := MRGenerator.foldlM_made hsets funs.entries (MRGenerator.new F)
  refine ⟨⟨base, interList funs.allPts OrderedSet.empty⟩, ?_, rfl, ?_⟩
  · simp only [partitionMRs, hbase]
  · intro r
    show _ ∈ base.memRegSet ↔ _
    rw [hmade.regions, or_iff_right (show (⟨r⟩ : MemRegion) ∉ (MRGenerator.new F).memRegSet from
      not_mem_empty)]
    constructor
    · rintro ⟨f, e, he, cpts, hcpts, inter, hinter, hsub, _, hr⟩
      obtain rfl : r = inter := hr
      exact ⟨hinter, cpts, List.mem_flatMap.mpr ⟨e, he, hcpts⟩, hsub⟩
    · rintro ⟨hr, cpts, hcpts, hsub⟩
      obtain ⟨e, he, hcpts⟩ := List.mem_flatMap.mp hcpts
      exact ⟨e.1, e, he, cpts, hcpts, r, hr, hsub, rfl, rfl⟩

def Correct (funs : FunToPointsTosMap F) : Prop :=
  ∃ g, partitionMRs funs = some g ∧
    Partitions (cptsSetsOf g.base.memRegSet) funs.allPts ∧
      ∀ cpts ∈ funs.allPts, CoversLoad (g.getMRsForLoad cpts) cpts

theorem correct_of_told {funs : FunToPointsTosMap F} (h : SingletonsTold funs.allPts) :
    Correct funs := by
  obtain ⟨g, hg, hinters, hregions⟩ := partitionMRs_made funs
  have hatoms := interList_isAtoms h
  have hpart := hatoms.partitions
  rw [← hinters] at hatoms hpart
  refine ⟨g, hg, ?_, ?_⟩
  · have hsame : cptsSetsOf g.base.memRegSet = regionsOf g.inters := by
      ext r
      refine (hregions r).trans (and_iff_left_of_imp ?_)
      intro hr
      -- an atom lies in every set that covers one of its elements
      obtain ⟨x, ⟨c, hc, hxc⟩, hmem⟩ := hatoms.sound hr
      refine ⟨c, hc, ?_⟩
      intro y hy
      exact ((hmem y).mp hy c hc).mp hxc
    rw [hsame]
    exact hpart
  · intro cpts hcpts
    exact coversLoad_of_partitions hpart hcpts
      (fun r hr hsub => (hregions r).mpr ⟨hr, cpts, hcpts, hsub⟩)

/-- `IntraDisjointMRG` partitions the sets of every function. `InterDisjointMRG` has partitioned
    the sets met so far, at every point of its pass over the functions, exactly if no singleton
    comes when its element shares a region with another; and then the regions it creates
    partition all sets and cover every load. -/
theorem partitionMRs_partitions_iff (funs : FunToPointsTosMap F) : IntraDisjointMRG.Correct funs ∧
      ((∀ pre, pre <+: funs.allPts →
        Partitions (regionsOf (interList pre OrderedSet.empty)) pre) ↔
          SingletonsTold funs.allPts) ∧
      (SingletonsTold funs.allPts → Correct funs) :=
  ⟨IntraDisjointMRG.correct funs, interList_partitions_iff funs.allPts, correct_of_told⟩

/-- The sets {1, 2} of one function, then {1} of another. -/
def singletonLast : FunToPointsTosMap Bool where
  entries := [(false, OrderedSet.empty.insert {1, 2}), (true, OrderedSet.empty.insert {1})]
  nodup := by decide

/-- The regions {1} and {1, 2} are both there. -/
theorem partitionMRs_overlaps : ¬Correct singletonLast := by
  rintro ⟨g, hg, hpart, _⟩
  obtain ⟨g', hg', hinters, hregions⟩ := partitionMRs_made singletonLast
  obtain rfl : g = g' := Option.some_inj.mp (hg.symm.trans hg')
  have hone : ({1} : NodeBS) ∈ cptsSetsOf g.base.memRegSet := by
    refine (hregions {1}).mpr ⟨?_, {1}, by decide, by decide⟩
    rw [hinters]
    decide
  have htwo : ({1, 2} : NodeBS) ∈ cptsSetsOf g.base.memRegSet := by
    refine (hregions {1, 2}).mpr ⟨?_, {1, 2}, by decide, by decide⟩
    rw [hinters]
    decide
  have hdis := hpart.disjoint {1} hone {1, 2} htwo (by decide)
  exact absurd hdis (by decide)

end InterDisjointMRG

end SvfMSSA
