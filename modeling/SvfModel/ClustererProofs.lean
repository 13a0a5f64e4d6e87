import SvfModel.RegionObjectsProofs

/-!
# `Clusterer`: new numbers for the objects

`cluster` numbers the objects anew, one region after the other, so that objects that are pointed
to together get close numbers; `getReverseNodeMapping` goes back.

Without the width of the counter this is a layout: every region has a range of its own, at the
next word where regions are aligned (`layoutEnd`), and within it one position for each object
(`LaidOut`). The identifiers are the positions modulo `UINT_MAX + 1` (`cluster_laidOut`). The
heart is the end of the layout: as long as it fits a `NodeID` the numbers are a renaming
(`LaidOut.renaming`), and where it does not, two objects share the number 0, or the reverse
mapping cannot be built (`LaidOut.not_renaming`). **`cluster_renaming_iff`** puts them together.
-/

namespace SvfClusterer

open SvfLoop SvfNodeIDAllocator List Option Nat

-- ── Clustering

/-- The bits of a word. -/
def NATIVE_INT_SIZE : ℕ := 64

inductive HclustMethod | SINGLE | COMPLETE | AVERAGE | SVF_BEST
deriving DecidableEq

/-- What `cluster` works on: the points-to sets of its keys, as they are iterated, and the
    options. The allocator counts from 4. -/
structure Clustering where
  numObjects : ℕ
  pointsTos : List (List ℕ)
  regionedClustering : Bool
  regionAlign : Bool
  clusterMethod : HclustMethod
  evaluated : Bool
  special : 4 ≤ numObjects
  nodeID : numObjects ≤ UINT_MAX
  objects : ∀ pts ∈ pointsTos, ∀ o ∈ pts, o < numObjects

namespace Clustering

section

variable (c : Clustering)

def methods : List HclustMethod :=
  match c.clusterMethod with
  | .SVF_BEST => [.SINGLE, .COMPLETE, .AVERAGE]
  | method => [method]

def objectsRegion (order : HashOrder) (fuel : ℕ) : Option (List ℕ × ℕ) :=
  if c.regionedClustering then regionObjects order (coPointeeGraph c.pointsTos) c.numObjects fuel
  else some (List.replicate c.numObjects 0, 1)

def regionsObjects (labels : List ℕ) (region : ℕ) : List ℕ :=
  (List.range c.numObjects).filter fun o => labels[o]? = some region

def regionsPointsTos (labels : List ℕ) (region : ℕ) : List (List ℕ) :=
  c.pointsTos.filter fun pts => pts ≠ [] ∧ labels[pts.head?.getD 0]? = some region

/-- Round up to next word, if we are aligning. -/
def align (allocCounter : ℕ) : ℕ :=
  if c.regionAlign then ((allocCounter + NATIVE_INT_SIZE - 1) / NATIVE_INT_SIZE) * NATIVE_INT_SIZE
  else allocCounter

/-- One region: a small one in order, another by its dendrogram. The distance matrix asserts
    that the sets of the region have no other objects. -/
def clusterRegion (labels : List ℕ) (dendrogram : ℕ → ℕ → ℤ) (fuel : ℕ)
    (alloc : Allocation) (region : ℕ) : Option Allocation :=
  let objs := c.regionsObjects labels region
  let alloc := { alloc with allocCounter := c.align alloc.allocCounter % (UINT_MAX + 1) }
  if objs.length < NATIVE_INT_SIZE then some (objs.foldl Allocation.place alloc)
  else if ∀ pts ∈ c.regionsPointsTos labels region, ∀ o ∈ pts, o ∈ objs then
    (traverseDendrogram (dendrogram region) objs.length objs fuel ⟨alloc, ∅⟩ (objs.length - 1)).map
      Traversal.alloc
  else none

def candidate (labels : List ℕ) (numRegions : ℕ) (dendrogram : ℕ → ℕ → ℤ)
    (fuel : ℕ) : Option (List ℕ) :=
  ((List.range numRegions).foldlM (c.clusterRegion labels dendrogram fuel)
    ⟨List.replicate c.numObjects UINT_MAX, 0⟩).map Allocation.nodeMap

end

def SIZE_MAX : ℕ := 18446744073709551615

def determineBestMapping (c : Clustering) (words : List ℕ → ℕ) : List (List ℕ) → Option (List ℕ)
  | [] => none
  | first :: others =>
    if c.evaluated ∨ c.clusterMethod = .SVF_BEST then
      some ((first :: others).foldl (fun (best : List ℕ × ℕ) candidate =>
        if words candidate < best.2 then (candidate, words candidate) else best)
          (first, SIZE_MAX)).1
    else some first

/-- `cluster(pta, keys, candidates, evalSubtitle)`; `none` where an assertion fails. -/
def cluster (c : Clustering) (order : HashOrder) (hclust_fast : HclustMethod → ℕ → ℕ → ℤ)
    (words : List ℕ → ℕ) (fuel : ℕ) : Option (List ℕ) :=
  (c.objectsRegion order fuel).bind fun (labels, numRegions) =>
    if (∀ o < c.numObjects, ∃ region ∈ labels[o]?, region < numRegions) ∧
        ∀ region < numRegions, c.regionsObjects labels region ≠ [] then
      (c.methods.mapM fun method => c.candidate labels numRegions (hclust_fast method) fuel).bind
        (c.determineBestMapping words)
    else none

end Clustering

def resize (l : List ℕ) (n : ℕ) : List ℕ := l.take n ++ List.replicate (n - l.length) UINT_MAX

/-- One round of `getReverseNodeMapping`; `none` where `at` throws. -/
def putReverse (reverse : List ℕ) (entry : ℕ × ℕ) : Option (List ℕ) :=
  let (mapsTo, i) := entry
  let reverse := if mapsTo ≥ reverse.length then resize reverse (increment mapsTo) else reverse
  if mapsTo < reverse.length then some (reverse.set mapsTo i) else none

def getReverseNodeMapping (nodeMapping : List ℕ) : Option (List ℕ) :=
  nodeMapping.zipIdx.foldlM putReverse (List.replicate nodeMapping.length UINT_MAX)

/-- A points-to set under a mapping; `none` where an element is not mapped. -/
def translate (mapping pts : List ℕ) : Option (List ℕ) := pts.mapM fun o => mapping[o]?

-- ── Laying out regions

/-- Where the first `region` regions end, if positions are not cut to a `NodeID`. -/
def Clustering.layoutEnd (c : Clustering) (size : ℕ → ℕ) : ℕ → ℕ
  | 0 => 0
  | region + 1 => c.align (c.layoutEnd size region) + size region

variable {c : Clustering} {size : ℕ → ℕ}

theorem Clustering.le_align (n : ℕ) : n ≤ c.align n := by
  rw [Clustering.align, NATIVE_INT_SIZE]
  split_ifs <;> omega

/-- A word does not straddle the last `NodeID`. -/
theorem Clustering.align_le {n : ℕ} (h : n ≤ UINT_MAX + 1) : c.align n ≤ UINT_MAX + 1 := by
  rw [UINT_MAX] at h ⊢
  rw [Clustering.align, NATIVE_INT_SIZE]
  split_ifs <;> omega

theorem Clustering.align_mod (n : ℕ) :
    c.align (n % (UINT_MAX + 1)) % (UINT_MAX + 1) = c.align n % (UINT_MAX + 1) := by
  rw [Clustering.align, Clustering.align, NATIVE_INT_SIZE, UINT_MAX]
  split_ifs <;> omega

variable (size) in
theorem Clustering.layoutEnd_mono {i j : ℕ} (h : i ≤ j) :
    c.layoutEnd size i ≤ c.layoutEnd size j := by
  induction h with
  | refl => exact le_rfl
  | step _ ih =>
    exact ih.trans ((Clustering.le_align _).trans (le_add_right _ _))

theorem Clustering.position_cases {p : ℕ} : ∀ {numRegions : ℕ}, p < c.layoutEnd size numRegions →
    ∃ i < numRegions, (∃ j < size i, c.align (c.layoutEnd size i) + j = p) ∨
      (c.layoutEnd size i ≤ p ∧ p < c.align (c.layoutEnd size i)) := by
  intro numRegions
  induction numRegions with
  | zero => exact fun h => absurd h (not_lt_zero p)
  | succ i ih =>
    intro h
    rw [Clustering.layoutEnd] at h
    by_cases hbefore : p < c.layoutEnd size i
    · obtain ⟨i', hi', hor⟩ := ih hbefore
      exact ⟨i', lt_succ_of_lt hi', hor⟩
    · by_cases hgap : p < c.align (c.layoutEnd size i)
      · exact ⟨i, lt_succ_self i, .inr ⟨by omega, hgap⟩⟩
      · exact ⟨i, lt_succ_self i, .inl ⟨p - c.align (c.layoutEnd size i), by omega, by omega⟩⟩

-- ── Placing objects in order

theorem place_foldl : ∀ (ord : List ℕ) (a : Allocation) (n : ℕ),
    a.allocCounter = n % (UINT_MAX + 1) → ord.Nodup → (∀ o ∈ ord, o < a.nodeMap.length) →
    (ord.foldl Allocation.place a).allocCounter = (n + ord.length) % (UINT_MAX + 1) ∧
    (ord.foldl Allocation.place a).nodeMap.length = a.nodeMap.length ∧
    (∀ j o, ord[j]? = some o →
      (ord.foldl Allocation.place a).nodeMap[o]? = some ((n + j) % (UINT_MAX + 1))) ∧
    ∀ o, o ∉ ord → (ord.foldl Allocation.place a).nodeMap[o]? = a.nodeMap[o]? := by
  intro ord
  induction ord with
  | nil =>
    intro a n ha _ _
    refine ⟨ha, rfl, fun j o hj => ?_, fun _ _ => rfl⟩
    rw [getElem?_nil] at hj
    cases hj.symm
  | cons o ord ih =>
    intro a n ha hnd hlt
    rw [nodup_cons] at hnd
    have hcounter : (a.place o).allocCounter = (n + 1) % (UINT_MAX + 1) := by
      show increment a.allocCounter = _
      rw [increment, ha, mod_add_mod]
    have hlen : (a.place o).nodeMap.length = a.nodeMap.length := length_set
    obtain ⟨hc, hl, hin, hout⟩ := ih (a.place o) (n + 1) hcounter hnd.2 fun x hx => by
      rw [hlen]
      exact hlt x (mem_cons_of_mem o hx)
    refine ⟨?_, hl.trans hlen, fun j x hj => ?_, fun x hx => ?_⟩
    · rw [foldl_cons, hc, length_cons]
      congr 1
      omega
    · rw [foldl_cons]
      cases j with
      | zero =>
        have heq : o = x := some.inj hj
        subst heq
        rw [hout o hnd.1]
        show (a.nodeMap.set o a.allocCounter)[o]? = _
        rw [getElem?_set_self (hlt o mem_cons_self), ha]
        rfl
      | succ j =>
        rw [hin j x hj]
        congr 2
        omega
    · rw [mem_cons, not_or] at hx
      rw [foldl_cons, hout x hx.2]
      exact getElem?_set_ne (Ne.symm hx.1)

-- ── The regions of a clustering

/-- What is one region: everything, or what a chain of points-to sets connects. -/
def Clustering.InRegion (c : Clustering) (o o' : ℕ) : Prop :=
  if c.regionedClustering then SameRegion c.pointsTos o o' else True

theorem Clustering.InRegion.refl (o : ℕ) : c.InRegion o o := by
  rw [Clustering.InRegion]
  split_ifs
  exact .refl

theorem Clustering.InRegion.symm {o o' : ℕ} (h : c.InRegion o o') : c.InRegion o' o := by
  rw [Clustering.InRegion] at h ⊢
  split_ifs at h ⊢
  exact SameRegion.symm h

theorem Clustering.InRegion.trans {o o' o'' : ℕ} (h : c.InRegion o o') (h' : c.InRegion o' o'') :
    c.InRegion o o'' := by
  rw [Clustering.InRegion] at h h' ⊢
  split_ifs at h h' ⊢
  exact SameRegion.trans h h'

open Classical in
/-- The number of objects in the region of `o`. -/
noncomputable def Clustering.regionSize (c : Clustering) (o : ℕ) : ℕ :=
  ((Finset.range c.numObjects).filter (c.InRegion o)).card

/-- One object for each region, in the order in which the regions are met. -/
noncomputable def Clustering.reps (c : Clustering) (order : HashOrder) : List ℕ :=
  if c.regionedClustering then regionReps order c.pointsTos c.numObjects else [0]

/-- The identifiers that the regions need. -/
noncomputable def Clustering.identifiers (c : Clustering) (order : HashOrder) : ℕ :=
  c.layoutEnd (fun region => c.regionSize ((c.reps order).getD region 0)) (c.reps order).length

structure RegionsOf (c : Clustering) (reps labels : List ℕ) : Prop where
  length : labels.length = c.numObjects
  lt : ∀ r ∈ reps, r < c.numObjects
  apart : reps.Pairwise fun r r' => ¬ c.InRegion r r'
  met : ∀ i r, reps[i]? = some r → ∀ o < c.numObjects, c.InRegion r o → labels[o]? = some i
  cover : ∀ o < c.numObjects, ∃ r ∈ reps, c.InRegion r o

theorem Clustering.objectsRegion_spec (c : Clustering) (order : HashOrder) : ∃ labels,
    Stops (c.objectsRegion order) (labels, (c.reps order).length) ∧
    RegionsOf c (c.reps order) labels := by
  have hspecial := c.special
  by_cases hreg : c.regionedClustering
  · obtain ⟨l, hstops, hl, hcover⟩ := regionObjects_labels order
      (show 0 < c.numObjects by omega) c.nodeID c.objects
    have hin : ∀ o o', c.InRegion o o' ↔ SameRegion c.pointsTos o o' := by
      intro o o'
      rw [Clustering.InRegion, if_pos hreg]
    refine ⟨l.labels, ?_, ?_⟩
    · rw [Clustering.reps, if_pos hreg]
      refine hstops.congr (n := 0) fun fuel _ => ?_
      rw [Clustering.objectsRegion, if_pos hreg]
    · rw [Clustering.reps, if_pos hreg]
      refine ⟨hl.length, hl.lt, ?_, ?_, ?_⟩
      · simpa only [hin] using hl.apart
      · simpa only [hin] using hl.met
      · simpa only [hin] using hcover
  · have hin : ∀ o o', c.InRegion o o' := by
      intro o o'
      rw [Clustering.InRegion, if_neg hreg]
      exact trivial
    refine ⟨List.replicate c.numObjects 0, ⟨0, fun fuel _ => ?_⟩, ?_⟩
    · rw [Clustering.objectsRegion, if_neg hreg, Clustering.reps, if_neg hreg]
      rfl
    · rw [Clustering.reps, if_neg hreg]
      refine ⟨length_replicate, ?_, pairwise_singleton _ 0, ?_, ?_⟩
      · intro r hr
        rw [mem_singleton.mp hr]
        omega
      · intro i r hi o ho _
        have hlt := (List.getElem?_eq_some_iff.mp hi).1
        have hzero : i = 0 := by
          rw [length_singleton] at hlt
          omega
        rw [getElem?_replicate, if_pos ho, hzero]
      · exact fun o _ => ⟨0, mem_singleton_self 0, hin 0 o⟩

variable {reps labels : List ℕ}

theorem RegionsOf.label_iff (h : RegionsOf c reps labels) {o i : ℕ} (ho : o < c.numObjects) :
    labels[o]? = some i ↔ ∃ r, reps[i]? = some r ∧ c.InRegion r o := by
  constructor
  · intro hl
    obtain ⟨r, hr, hrel⟩ := h.cover o ho
    obtain ⟨i', hi'⟩ := mem_iff_getElem?.mp hr
    have heq : i' = i := some.inj ((h.met i' r hi' o ho hrel).symm.trans hl)
    exact ⟨r, heq ▸ hi', hrel⟩
  · rintro ⟨r, hi, hrel⟩
    exact h.met i r hi o ho hrel

theorem mem_regionsObjects {o region : ℕ} : o ∈ c.regionsObjects labels region ↔
    o < c.numObjects ∧ labels[o]? = some region := by
  rw [Clustering.regionsObjects, mem_filter, mem_range, decide_eq_true_eq]

theorem regionsObjects_nodup (region : ℕ) : (c.regionsObjects labels region).Nodup :=
  nodup_range.filter _

theorem RegionsOf.inRegion_iff (h : RegionsOf c reps labels) {o o' i : ℕ}
    (ho : o ∈ c.regionsObjects labels i) (ho' : o' < c.numObjects) :
    c.InRegion o o' ↔ o' ∈ c.regionsObjects labels i := by
  obtain ⟨hlt, hl⟩ := mem_regionsObjects.mp ho
  obtain ⟨r, hi, hrel⟩ := (h.label_iff hlt).mp hl
  rw [mem_regionsObjects, h.label_iff ho']
  constructor
  · exact fun hoo => ⟨ho', r, hi, hrel.trans hoo⟩
  · rintro ⟨-, r', hi', hrel'⟩
    have heq : r = r' := mem_unique hi hi'
    exact hrel.symm.trans (heq ▸ hrel')

/-- A points-to set has objects of one region only. -/
theorem RegionsOf.mem_of_pointsTo (h : RegionsOf c reps labels) {i : ℕ} :
    ∀ pts ∈ c.regionsPointsTos labels i, ∀ o ∈ pts, o ∈ c.regionsObjects labels i := by
  intro pts hpts o ho
  rw [Clustering.regionsPointsTos, mem_filter, decide_eq_true_eq] at hpts
  obtain ⟨hpts, -, hhead⟩ := hpts
  have hf := head_mem ho
  have hfobj := mem_regionsObjects.mpr ⟨c.objects pts hpts _ hf, hhead⟩
  refine (h.inRegion_iff hfobj (c.objects pts hpts o ho)).mp ?_
  rw [Clustering.InRegion]
  split_ifs
  exact sameRegion_of_mem hpts hf ho

theorem Clustering.length_regionsObjects_le (c : Clustering) (labels : List ℕ) (i : ℕ) :
    (c.regionsObjects labels i).length ≤ c.numObjects := by
  have := length_filter_le (fun o => decide (labels[o]? = some i)) (List.range c.numObjects)
  rwa [length_range] at this

open Classical in
theorem RegionsOf.regionSize_eq (h : RegionsOf c reps labels) {o i : ℕ}
    (ho : o ∈ c.regionsObjects labels i) :
    c.regionSize o = (c.regionsObjects labels i).length := by
  rw [← toFinset_card_of_nodup (regionsObjects_nodup i), Clustering.regionSize]
  congr 1
  ext o'
  rw [Finset.mem_filter, Finset.mem_range, List.mem_toFinset]
  constructor
  · exact fun ⟨ho', hrel⟩ => (h.inRegion_iff ho ho').mp hrel
  · intro ho'
    have hlt := (mem_regionsObjects.mp ho').1
    exact ⟨hlt, (h.inRegion_iff ho hlt).mpr ho'⟩

theorem RegionsOf.rep_mem (h : RegionsOf c reps labels) {i : ℕ} (hi : i < reps.length) :
    reps[i] ∈ c.regionsObjects labels i := by
  have hlt := h.lt reps[i] (getElem_mem hi)
  exact mem_regionsObjects.mpr ⟨hlt, (h.label_iff hlt).mpr
    ⟨reps[i], getElem?_eq_getElem hi, Clustering.InRegion.refl _⟩⟩

-- ── The layout that `cluster` computes

structure LaidOut (c : Clustering) (reps labels nodeMap : List ℕ) : Prop where
  length : nodeMap.length = c.numObjects
  placed : ∀ i < reps.length, ∃ ord : List ℕ, ord.Perm (c.regionsObjects labels i) ∧
    ∀ j o, ord[j]? = some o → nodeMap[o]? = some ((c.align (c.layoutEnd (fun region =>
      (c.regionsObjects labels region).length) i) + j) % (UINT_MAX + 1))

variable {dendrogram : ℕ → ℕ → ℤ}

/-- **One region.** No assertion fails, and its objects are placed in some order. -/
theorem RegionsOf.clusterRegion (h : RegionsOf c reps labels) {i : ℕ}
    (hvalid : NATIVE_INT_SIZE ≤ (c.regionsObjects labels i).length →
      ValidDendrogram (c.regionsObjects labels i).length (dendrogram i)) (alloc : Allocation) :
    ∃ ord : List ℕ, ord.Perm (c.regionsObjects labels i) ∧ ∀ fuel, c.numObjects ≤ fuel →
      c.clusterRegion labels dendrogram fuel alloc i = some (ord.foldl Allocation.place
        { alloc with allocCounter := c.align alloc.allocCounter % (UINT_MAX + 1) }) := by
  by_cases hsmall : (c.regionsObjects labels i).length < NATIVE_INT_SIZE
  · refine ⟨c.regionsObjects labels i, .refl _, fun fuel _ => ?_⟩
    rw [Clustering.clusterRegion]
    simp only [hsmall, if_true]
  · have hle := c.length_regionsObjects_le labels i
    have hbig : NATIVE_INT_SIZE ≤ (c.regionsObjects labels i).length := Nat.le_of_not_lt hsmall
    have htwo : 2 ≤ (c.regionsObjects labels i).length := le_trans (by decide) hbig
    obtain ⟨t, ord, hperm, halloc, hrun⟩ := traverse_order (hvalid hbig) htwo rfl
      { alloc with allocCounter := c.align alloc.allocCounter % (UINT_MAX + 1) }
    refine ⟨ord, hperm, fun fuel hfuel => ?_⟩
    rw [Clustering.clusterRegion]
    simp only [hsmall, if_false]
    rw [if_pos h.mem_of_pointsTo, hrun fuel (hle.trans hfuel), map_some, halloc]

theorem RegionsOf.candidate (h : RegionsOf c reps labels)
    (hvalid : ∀ i < reps.length, NATIVE_INT_SIZE ≤ (c.regionsObjects labels i).length →
      ValidDendrogram (c.regionsObjects labels i).length (dendrogram i)) :
    ∃ nodeMap, LaidOut c reps labels nodeMap ∧ ∀ fuel, c.numObjects ≤ fuel →
      c.candidate labels reps.length dendrogram fuel = some nodeMap := by
  suffices hloop : ∀ k ≤ reps.length, ∃ alloc : Allocation,
      (∀ fuel, c.numObjects ≤ fuel → (List.range k).foldlM (c.clusterRegion labels dendrogram fuel)
        ⟨List.replicate c.numObjects UINT_MAX, 0⟩ = some alloc) ∧
      alloc.allocCounter = c.layoutEnd (fun region =>
        (c.regionsObjects labels region).length) k % (UINT_MAX + 1) ∧
      alloc.nodeMap.length = c.numObjects ∧
      ∀ i < k, ∃ ord : List ℕ, ord.Perm (c.regionsObjects labels i) ∧
        ∀ j o, ord[j]? = some o → alloc.nodeMap[o]? = some ((c.align (c.layoutEnd (fun region =>
          (c.regionsObjects labels region).length) i) + j) % (UINT_MAX + 1)) by
    obtain ⟨alloc, hrun, -, hlen, hplaced⟩ := hloop reps.length le_rfl
    refine ⟨alloc.nodeMap, ⟨hlen, hplaced⟩, fun fuel hfuel => ?_⟩
    rw [Clustering.candidate, hrun fuel hfuel]
    rfl
  intro k
  induction k with
  | zero =>
    intro _
    refine ⟨⟨List.replicate c.numObjects UINT_MAX, 0⟩, fun _ _ => rfl, rfl, length_replicate, ?_⟩
    exact fun i hi => absurd hi (not_lt_zero i)
  | succ k ih =>
    intro hk
    obtain ⟨alloc, hrun, hcounter, hlen, hplaced⟩ := ih (by omega)
    obtain ⟨ord, hperm, hregion⟩ := h.clusterRegion (hvalid k (by omega)) alloc
    have hord : ∀ o, o ∈ ord ↔ o < c.numObjects ∧ labels[o]? = some k :=
      fun o => hperm.mem_iff.trans mem_regionsObjects
    obtain ⟨hc, hl, hin, hout⟩ := place_foldl ord
      { alloc with allocCounter := c.align alloc.allocCounter % (UINT_MAX + 1) }
      (c.align (c.layoutEnd (fun region => (c.regionsObjects labels region).length) k))
      (by rw [hcounter]; exact Clustering.align_mod _)
      (hperm.nodup_iff.mpr (regionsObjects_nodup k))
      (fun o ho => hlen ▸ ((hord o).mp ho).1)
    refine ⟨_, fun fuel hfuel => ?_, ?_, hl.trans hlen, fun i hi => ?_⟩
    · rw [range_succ, foldlM_append, hrun fuel hfuel]
      exact (bind_pure _).trans (hregion fuel hfuel)
    · rw [hc, Clustering.layoutEnd, hperm.length_eq]
    · by_cases hik : i = k
      · subst hik
        exact ⟨ord, hperm, hin⟩
      · obtain ⟨ord', hperm', hin'⟩ := hplaced i (by omega)
        refine ⟨ord', hperm', fun j o hj => ?_⟩
        -- an object of an earlier region is not touched
        rw [hout o, hin' j o hj]
        intro ho
        have hl' := (mem_regionsObjects.mp (hperm'.mem_iff.mp (mem_of_getElem? hj))).2
        exact hik (some.inj (hl'.symm.trans ((hord o).mp ho).2))

theorem determineBestMapping_mem (words : List ℕ → ℕ) {candidates : List (List ℕ)}
    (hne : candidates ≠ []) :
    ∃ best ∈ candidates, c.determineBestMapping words candidates = some best := by
  cases candidates with
  | nil => exact absurd rfl hne
  | cons first others =>
    rw [Clustering.determineBestMapping]
    split_ifs
    · refine ⟨_, ?_, rfl⟩
      refine foldl_keeps (P := fun best : List ℕ × ℕ => best.1 ∈ first :: others) _ _ ?_
        mem_cons_self
      intro best candidate hmem hbest
      split_ifs
      · exact hmem
      · exact hbest
    · exact ⟨first, mem_cons_self, rfl⟩

theorem methods_ne_nil (c : Clustering) : c.methods ≠ [] := by
  rw [Clustering.methods]
  split <;> exact cons_ne_nil _ _

variable {order : HashOrder} {hclust_fast : HclustMethod → ℕ → ℕ → ℤ} {words : List ℕ → ℕ}

/-- The dendrograms that the library returns for the regions are valid. -/
def ValidDendrograms (c : Clustering) (order : HashOrder)
    (hclust_fast : HclustMethod → ℕ → ℕ → ℤ) : Prop :=
  ∀ method region r, (c.reps order)[region]? = some r → NATIVE_INT_SIZE ≤ c.regionSize r →
    ValidDendrogram (c.regionSize r) (hclust_fast method region)

variable (words) in
/-- **What `cluster` returns is a layout of the regions.** -/
theorem cluster_laidOut (hvalid : ValidDendrograms c order hclust_fast) :
    ∃ nodeMap labels, Stops (c.cluster order hclust_fast words) nodeMap ∧
      RegionsOf c (c.reps order) labels ∧ LaidOut c (c.reps order) labels nodeMap := by
  obtain ⟨labels, ⟨n, hstops⟩, hregions⟩ := c.objectsRegion_spec order
  have hdendrogram : ∀ method, ∀ i < (c.reps order).length,
      NATIVE_INT_SIZE ≤ (c.regionsObjects labels i).length →
      ValidDendrogram (c.regionsObjects labels i).length (hclust_fast method i) := by
    intro method i hi hbig
    have hsize := hregions.regionSize_eq (hregions.rep_mem hi)
    have := hvalid method i _ (getElem?_eq_getElem hi)
    rw [hsize] at this
    exact this hbig
  choose candidates hlaid hrun using fun method => hregions.candidate (hdendrogram method)
  have hne : c.methods.map candidates ≠ [] := by
    rw [Ne, map_eq_nil_iff]
    exact methods_ne_nil c
  obtain ⟨best, hbest, hdet⟩ := determineBestMapping_mem (c := c) words hne
  obtain ⟨method, -, rfl⟩ := mem_map.mp hbest
  refine ⟨candidates method, labels, ⟨n + c.numObjects, fun fuel hfuel => ?_⟩, hregions,
    hlaid method⟩
  have hassert : (∀ o < c.numObjects, ∃ region ∈ labels[o]?, region < (c.reps order).length) ∧
      ∀ region < (c.reps order).length, c.regionsObjects labels region ≠ [] := by
    refine ⟨fun o ho => ?_, fun region hr => ne_nil_of_mem (hregions.rep_mem hr)⟩
    obtain ⟨r, hr, hrel⟩ := hregions.cover o ho
    obtain ⟨i, hi⟩ := mem_iff_getElem?.mp hr
    exact ⟨i, hregions.met i r hi o ho hrel, (List.getElem?_eq_some_iff.mp hi).1⟩
  rw [Clustering.cluster, hstops fuel (by omega), bind_some]
  dsimp only
  rw [if_pos hassert, mapM_some _ fun method _ => hrun method fuel (by omega), bind_some, hdet]

-- ── The reverse mapping

theorem resize_length (l : List ℕ) (n : ℕ) : (resize l n).length = n := by
  rw [resize, length_append, length_take, length_replicate]
  omega

theorem resize_getElem {l : List ℕ} {n m v : ℕ} (hn : l.length ≤ n) (h : l[m]? = some v) :
    (resize l n)[m]? = some v := by
  have hlt := (List.getElem?_eq_some_iff.mp h).1
  rw [resize, take_of_length_le hn, List.getElem?_append_left hlt, h]

/-- Numbers below the largest `NodeID`, each once: the loop puts every entry back. -/
theorem putReverse_foldlM : ∀ (l : List (ℕ × ℕ)) (reverse : List ℕ),
    (∀ p ∈ l, p.1 < UINT_MAX) → l.Pairwise (fun p q => p.1 ≠ q.1) →
    ∃ reverse', l.foldlM putReverse reverse = some reverse' ∧ (∀ p ∈ l, reverse'[p.1]? = some p.2) ∧
      ∀ m v, reverse[m]? = some v → (∀ p ∈ l, p.1 ≠ m) → reverse'[m]? = some v := by
  intro l
  induction l with
  | nil =>
    intro reverse _ _
    exact ⟨reverse, rfl, nofun, fun _ _ h _ => h⟩
  | cons p l ih =>
    intro reverse hlt hapart
    obtain ⟨mapsTo, i⟩ := p
    rw [pairwise_cons] at hapart
    have hp : mapsTo < UINT_MAX := hlt _ mem_cons_self
    have hinc : increment mapsTo = mapsTo + 1 := mod_eq_of_lt (by omega)
    obtain ⟨grown, hgrown, hroom, hkeep⟩ : ∃ grown : List ℕ,
        (if mapsTo ≥ reverse.length then resize reverse (increment mapsTo) else reverse) = grown ∧
        mapsTo < grown.length ∧ ∀ m v, reverse[m]? = some v → grown[m]? = some v := by
      refine ⟨_, rfl, ?_, ?_⟩
      · split_ifs with hge
        · rw [resize_length, hinc]
          omega
        · omega
      · intro m v hv
        split_ifs with hge
        · exact resize_getElem (by omega) hv
        · exact hv
    obtain ⟨reverse', hrun, hin, hout⟩ := ih (grown.set mapsTo i)
      (forall_mem_cons.mp hlt).2 hapart.2
    refine ⟨reverse', ?_, ?_, ?_⟩
    · rw [foldlM_cons, putReverse]
      simp only [hgrown, hroom, if_true]
      exact hrun
    · intro q hq
      rcases mem_cons.mp hq with rfl | hq
      · refine hout mapsTo i (getElem?_set_self hroom) fun q hq => ?_
        exact Ne.symm (hapart.1 q hq)
      · exact hin q hq
    · intro m v hv hne
      refine hout m v ?_ (forall_mem_cons.mp hne).2
      rw [getElem?_set_ne (hne _ mem_cons_self)]
      exact hkeep m v hv

/-- The reverse mapping never gets a place for the largest `NodeID`. -/
theorem putReverse_length {reverse reverse' : List ℕ} {p : ℕ × ℕ}
    (hlen : reverse.length ≤ UINT_MAX) (h : putReverse reverse p = some reverse') :
    reverse'.length ≤ UINT_MAX ∧ p.1 ≠ UINT_MAX := by
  obtain ⟨mapsTo, i⟩ := p
  rw [putReverse] at h
  have hinc : mapsTo ≠ UINT_MAX → increment mapsTo ≤ UINT_MAX := by
    intro hne
    have hlt : (mapsTo + 1) % (UINT_MAX + 1) < UINT_MAX + 1 := mod_lt _ (succ_pos _)
    exact le_of_lt_succ hlt
  have hmax : increment UINT_MAX = 0 := by decide
  by_cases hge : mapsTo ≥ reverse.length
  · simp only [hge, if_true, resize_length] at h
    split_ifs at h with hroom
    have hne : mapsTo ≠ UINT_MAX := by
      rintro rfl
      omega
    rw [← some.inj h, length_set, resize_length]
    exact ⟨hinc hne, hne⟩
  · simp only [hge, if_false] at h
    split_ifs at h
    rw [← some.inj h, length_set]
    exact ⟨hlen, show mapsTo ≠ UINT_MAX by omega⟩

theorem ne_max_of_putReverse : ∀ (l : List (ℕ × ℕ)) (reverse reverse' : List ℕ),
    reverse.length ≤ UINT_MAX → l.foldlM putReverse reverse = some reverse' →
    ∀ p ∈ l, p.1 ≠ UINT_MAX := by
  intro l
  induction l with
  | nil => exact nofun
  | cons q l ih =>
    intro reverse reverse' hlen h p hp
    rw [foldlM_cons] at h
    obtain ⟨next, hnext, hrest⟩ := bind_eq_some_iff.mp h
    obtain ⟨hlen', hne⟩ := putReverse_length hlen hnext
    rcases mem_cons.mp hp with rfl | hp
    · exact hne
    · exact ih next reverse' hlen' hrest p hp

-- ── A renaming

/-- What a node mapping is for: every object has a number, no two the same one, every region a
    range of its own that is as long as the region is large; and the reverse mapping exists and
    goes back, for an object and for a points-to set. -/
structure Renaming (c : Clustering) (nodeMap : List ℕ) : Prop where
  total : nodeMap.length = c.numObjects
  injective : ∀ o < c.numObjects, ∀ o' < c.numObjects, nodeMap[o]? = nodeMap[o']? → o = o'
  ranges : ∃ low : ℕ → ℕ,
    (∀ o < c.numObjects, ∃ id, nodeMap[o]? = some id ∧ low o ≤ id ∧ id < low o + c.regionSize o) ∧
    (∀ o < c.numObjects, ∀ o' < c.numObjects, c.InRegion o o' → low o = low o') ∧
    ∀ o < c.numObjects, ∀ o' < c.numObjects, ¬ c.InRegion o o' →
      low o + c.regionSize o ≤ low o' ∨ low o' + c.regionSize o' ≤ low o
  reverse : ∃ reverse, getReverseNodeMapping nodeMap = some reverse ∧
    (∀ o < c.numObjects, ∃ id, nodeMap[o]? = some id ∧ reverse[id]? = some o) ∧
    ∀ pts : List ℕ, (∀ o ∈ pts, o < c.numObjects) →
      (translate nodeMap pts).bind (translate reverse) = some pts

variable {nodeMap : List ℕ}

theorem LaidOut.position (h : LaidOut c reps labels nodeMap) (hregions : RegionsOf c reps labels)
    {o : ℕ} (ho : o < c.numObjects) : ∃ i < reps.length, o ∈ c.regionsObjects labels i ∧
      ∃ j < (c.regionsObjects labels i).length, nodeMap[o]? = some ((c.align (c.layoutEnd
        (fun region => (c.regionsObjects labels region).length) i) + j) % (UINT_MAX + 1)) := by
  obtain ⟨r, hr, hrel⟩ := hregions.cover o ho
  obtain ⟨i, hi⟩ := mem_iff_getElem?.mp hr
  have hlt := (List.getElem?_eq_some_iff.mp hi).1
  have hmem : o ∈ c.regionsObjects labels i :=
    mem_regionsObjects.mpr ⟨ho, hregions.met i r hi o ho hrel⟩
  obtain ⟨ord, hperm, hord⟩ := h.placed i hlt
  obtain ⟨j, hj⟩ := mem_iff_getElem?.mp (hperm.mem_iff.mpr hmem)
  exact ⟨i, hlt, hmem, j, hperm.length_eq ▸ (List.getElem?_eq_some_iff.mp hj).1, hord j o hj⟩

theorem LaidOut.object_at (h : LaidOut c reps labels nodeMap) {i j : ℕ} (hi : i < reps.length)
    (hj : j < (c.regionsObjects labels i).length) : ∃ o ∈ c.regionsObjects labels i,
      nodeMap[o]? = some ((c.align (c.layoutEnd
        (fun region => (c.regionsObjects labels region).length) i) + j) % (UINT_MAX + 1)) := by
  obtain ⟨ord, hperm, hord⟩ := h.placed i hi
  have hlt : j < ord.length := hperm.length_eq.symm ▸ hj
  exact ⟨ord[j], hperm.mem_iff.mp (getElem_mem hlt), hord j _ (getElem?_eq_getElem hlt)⟩

theorem RegionsOf.layoutEnd_eq (h : RegionsOf c reps labels) : ∀ k ≤ reps.length,
    c.layoutEnd (fun region => c.regionSize (reps.getD region 0)) k =
      c.layoutEnd (fun region => (c.regionsObjects labels region).length) k := by
  intro k
  induction k with
  | zero => exact fun _ => rfl
  | succ k ih =>
    intro hk
    rw [Clustering.layoutEnd, Clustering.layoutEnd, ih (by omega),
      getD_eq_getElem _ _ (show k < reps.length by omega),
      h.regionSize_eq (h.rep_mem (by omega))]

variable (c size) in
theorem layout_disjoint {i j : ℕ} (h : i < j) :
    c.align (c.layoutEnd size i) + size i ≤ c.align (c.layoutEnd size j) :=
  (Clustering.layoutEnd_mono size h).trans (Clustering.le_align _)

/-- **As long as the layout fits, it is a renaming.** -/
theorem LaidOut.renaming (h : LaidOut c reps labels nodeMap) (hregions : RegionsOf c reps labels)
    (hfits : c.layoutEnd (fun region => (c.regionsObjects labels region).length) reps.length ≤
      UINT_MAX) : Renaming c nodeMap := by
  set size : ℕ → ℕ := fun region => (c.regionsObjects labels region).length with hsize
  have hbound : ∀ {i j : ℕ}, i < reps.length → j < size i →
      c.align (c.layoutEnd size i) + j < UINT_MAX := by
    intro i j hi hj
    have := Clustering.layoutEnd_mono (c := c) size (show i + 1 ≤ reps.length from hi)
    rw [Clustering.layoutEnd] at this
    omega
  -- nothing is cut
  have hpos : ∀ o < c.numObjects, ∃ i < reps.length, o ∈ c.regionsObjects labels i ∧
      ∃ j < size i, nodeMap[o]? = some (c.align (c.layoutEnd size i) + j) := by
    intro o ho
    obtain ⟨i, hi, hmem, j, hj, hid⟩ := h.position hregions ho
    refine ⟨i, hi, hmem, j, hj, ?_⟩
    rw [hid, mod_eq_of_lt (lt_succ_of_lt (hbound hi hj))]
  have hlabel : ∀ {o i i' : ℕ}, o ∈ c.regionsObjects labels i → o ∈ c.regionsObjects labels i' →
      i = i' := fun hi hi' => some.inj
    ((mem_regionsObjects.mp hi).2.symm.trans (mem_regionsObjects.mp hi').2)
  have hinj : ∀ o < c.numObjects, ∀ o' < c.numObjects, nodeMap[o]? = nodeMap[o']? → o = o' := by
    intro o ho o' ho' heq
    obtain ⟨i, hi, hmem, j, hj, hid⟩ := hpos o ho
    obtain ⟨i', hi', hmem', j', hj', hid'⟩ := hpos o' ho'
    have hsum : c.align (c.layoutEnd size i) + j = c.align (c.layoutEnd size i') + j' :=
      mem_unique hid (heq.trans hid')
    have hii : i = i' := by
      rcases lt_trichotomy i i' with hlt | heq | hlt
      · have := layout_disjoint c size hlt
        omega
      · exact heq
      · have := layout_disjoint c size hlt
        omega
    subst hii
    have hjj : j = j' := by omega
    subst hjj
    -- both are the object at one place of one order
    obtain ⟨ord, hperm, hord⟩ := h.placed i hi
    obtain ⟨k, hk⟩ := mem_iff_getElem?.mp (hperm.mem_iff.mpr hmem)
    obtain ⟨k', hk'⟩ := mem_iff_getElem?.mp (hperm.mem_iff.mpr hmem')
    have hkl := hbound hi (hperm.length_eq ▸ (List.getElem?_eq_some_iff.mp hk).1)
    have hkl' := hbound hi (hperm.length_eq ▸ (List.getElem?_eq_some_iff.mp hk').1)
    have hidk := (hord k o hk).symm.trans hid
    have hidk' := (hord k' o' hk').symm.trans hid'
    rw [mod_eq_of_lt (lt_succ_of_lt hkl)] at hidk
    rw [mod_eq_of_lt (lt_succ_of_lt hkl')] at hidk'
    have heqk : k = k' := by
      have h1 := some.inj hidk
      have h2 := some.inj hidk'
      omega
    subst heqk
    exact mem_unique hk hk'
  have hlt : ∀ p ∈ nodeMap.zipIdx, p.1 < UINT_MAX := by
    intro p hp
    obtain ⟨id, o⟩ := p
    have hid := mk_mem_zipIdx_iff_getElem?.mp hp
    have ho : o < c.numObjects := h.length ▸ (List.getElem?_eq_some_iff.mp hid).1
    obtain ⟨i, hi, -, j, hj, hid'⟩ := hpos o ho
    rw [mem_unique hid hid']
    exact hbound hi hj
  have hapart : nodeMap.zipIdx.Pairwise fun p q => p.1 ≠ q.1 := by
    rw [pairwise_iff_getElem]
    intro a b ha hb hab heq
    rw [length_zipIdx] at ha hb
    rw [getElem_zipIdx, getElem_zipIdx] at heq
    have hsame := hinj a (h.length ▸ ha) b (h.length ▸ hb) (by
      rw [getElem?_eq_getElem ha, getElem?_eq_getElem hb]
      exact congrArg some heq)
    omega
  obtain ⟨reverse, hreverse, hback, -⟩ := putReverse_foldlM nodeMap.zipIdx
    (List.replicate nodeMap.length UINT_MAX) hlt hapart
  have hinverse : ∀ o < c.numObjects, ∃ id, nodeMap[o]? = some id ∧ reverse[id]? = some o := by
    intro o ho
    obtain ⟨i, hi, -, j, hj, hid⟩ := hpos o ho
    exact ⟨_, hid, hback (_, o) (mk_mem_zipIdx_iff_getElem?.mpr hid)⟩
  refine ⟨h.length, hinj, ?_, reverse, hreverse, hinverse, ?_⟩
  · choose! i hi hmem j hj hid using hpos
    have hreg : ∀ o < c.numObjects, c.regionSize o = size (i o) :=
      fun o ho => hregions.regionSize_eq (hmem o ho)
    refine ⟨fun o => c.align (c.layoutEnd size (i o)), fun o ho => ?_, ?_, ?_⟩
    · refine ⟨_, hid o ho, le_add_right _ _, ?_⟩
      rw [hreg o ho]
      exact Nat.add_lt_add_left (hj o ho) _
    · intro o ho o' ho' hrel
      have hmem' := (hregions.inRegion_iff (hmem o ho) ho').mp hrel
      exact congrArg (fun i => c.align (c.layoutEnd size i)) (hlabel hmem' (hmem o' ho'))
    · intro o ho o' ho' hrel
      rw [hreg o ho, hreg o' ho']
      have hne : i o ≠ i o' := by
        intro heq
        refine hrel ((hregions.inRegion_iff (hmem o ho) ho').mpr ?_)
        rw [heq]
        exact hmem o' ho'
      rcases lt_or_gt_of_ne hne with hlt | hlt
      · exact .inl (layout_disjoint c size hlt)
      · exact .inr (layout_disjoint c size hlt)
  · intro pts hpts
    induction pts with
    | nil => rfl
    | cons o pts ih =>
      obtain ⟨id, hid, hrev⟩ := hinverse o (hpts o mem_cons_self)
      have ih := ih (forall_mem_cons.mp hpts).2
      obtain ⟨ids, hids, hrevs⟩ := bind_eq_some_iff.mp ih
      rw [translate] at hids hrevs
      rw [translate, mapM_cons, hid, hids]
      show translate reverse (id :: ids) = some (o :: pts)
      rw [translate, mapM_cons, hrev, hrevs]
      rfl

/-- **A layout that does not fit is none.** Either the largest `NodeID` is handed out, for which
    there is no place in the reverse mapping, or the counter wraps between two regions. -/
theorem LaidOut.not_renaming (h : LaidOut c reps labels nodeMap)
    (hregions : RegionsOf c reps labels) (hover : UINT_MAX < c.layoutEnd
      (fun region => (c.regionsObjects labels region).length) reps.length) :
    ¬ Renaming c nodeMap := by
  intro hren
  obtain ⟨i, hi, ⟨j, hj, hpos⟩ | ⟨hle, hgap⟩⟩ := Clustering.position_cases hover
  · -- the largest `NodeID` is the number of an object
    obtain ⟨o, -, hid⟩ := h.object_at hi hj
    rw [hpos, mod_eq_of_lt (lt_succ_self _)] at hid
    obtain ⟨reverse, hreverse, -⟩ := hren.reverse
    refine ne_max_of_putReverse nodeMap.zipIdx _ reverse ?_ hreverse (UINT_MAX, o)
      (mk_mem_zipIdx_iff_getElem?.mpr hid) rfl
    rw [length_replicate, h.length]
    exact c.nodeID
  · -- region `i` starts from 0 again
    have hstart : c.align (c.layoutEnd (fun region => (c.regionsObjects labels region).length) i) =
        UINT_MAX + 1 := by
      have := Clustering.align_le (c := c) (le_succ_of_le hle)
      omega
    have hpos : ∀ k < reps.length, 0 < (c.regionsObjects labels k).length :=
      fun k hk => length_pos_of_mem (hregions.rep_mem hk)
    have hne : i ≠ 0 := by
      rintro rfl
      rw [Clustering.layoutEnd, Clustering.align] at hstart
      split_ifs at hstart
      cases hstart
    obtain ⟨o, ho, hid⟩ := h.object_at hi (hpos i hi)
    obtain ⟨o', ho', hid'⟩ := h.object_at (i := 0) (by omega) (hpos 0 (by omega))
    have hzero : c.align (c.layoutEnd (fun region => (c.regionsObjects labels region).length) 0) =
        0 := by
      rw [Clustering.layoutEnd, Clustering.align]
      split_ifs <;> rfl
    rw [hstart, add_zero, mod_self] at hid
    rw [hzero, add_zero, zero_mod] at hid'
    have heq := hren.injective o (mem_regionsObjects.mp ho).1 o' (mem_regionsObjects.mp ho').1
      (hid.trans hid'.symm)
    subst heq
    exact hne (some.inj ((mem_regionsObjects.mp ho).2.symm.trans (mem_regionsObjects.mp ho').2))

variable (words) in
/-- **`cluster` makes a renaming exactly when its identifiers fit.** For valid dendrograms it
    returns a node mapping, and that renames the objects if and only if the ranges of the
    regions, each from the next word where regions are aligned, end at the largest `NodeID`. -/
theorem cluster_renaming_iff (hvalid : ValidDendrograms c order hclust_fast) :
    ∃ nodeMap, Stops (c.cluster order hclust_fast words) nodeMap ∧
      (Renaming c nodeMap ↔ c.identifiers order ≤ UINT_MAX) := by
  obtain ⟨nodeMap, labels, hstops, hregions, hlaid⟩ := cluster_laidOut words hvalid
  refine ⟨nodeMap, hstops, ?_⟩
  rw [Clustering.identifiers, hregions.layoutEnd_eq _ le_rfl]
  constructor
  · intro hren
    by_contra hover
    exact hlaid.not_renaming hregions (Nat.lt_of_not_le hover) hren
  · exact hlaid.renaming hregions

def oneRegion : Clustering where
  numObjects := 64
  pointsTos := []
  regionedClustering := false
  regionAlign := true
  clusterMethod := .SINGLE
  evaluated := false
  special := by omega
  nodeID := by decide
  objects := nofun

/-- The objects are merged in order. -/
def chain (j : ℕ) : ℤ := if j < 64 then -((j + 1 : ℕ) : ℤ) else ((j - 63 : ℕ) : ℤ)

theorem chain_valid : ValidDendrogram 64 chain where
  small := by decide
  entry := by
    intro i hi him e he
    rw [rowEntries, mem_cons, mem_singleton] at he
    rcases he with rfl | rfl
    · refine .inl ⟨i, hi, by omega, ?_⟩
      rw [chain, if_pos (by omega), Nat.sub_add_cancel hi]
    · by_cases hone : i = 1
      · subst hone
        exact .inl ⟨64, by decide, by decide, rfl⟩
      · refine .inr ⟨i - 1, by omega, by omega, ?_⟩
        rw [chain, if_neg (by omega)]
        congr 1
        omega
  distinct := by
    intro a _ b _ hab
    rw [chain, chain] at hab
    split_ifs at hab <;> omega

open Classical in
theorem oneRegion_regionSize (o : ℕ) : oneRegion.regionSize o = 64 := by
  rw [Clustering.regionSize, Finset.filter_true_of_mem, Finset.card_range]
  · rfl
  · exact fun o' _ => trivial

/-- Any unordered container may be gone through in the order of its insertions. -/
def insertionOrder : HashOrder := ⟨id, Iff.rfl⟩

theorem cluster_oneRegion : ∃ nodeMap,
    Stops (oneRegion.cluster insertionOrder (fun _ _ => chain) fun _ => 0) nodeMap ∧
      Renaming oneRegion nodeMap := by
  have hvalid : ValidDendrograms oneRegion insertionOrder fun _ _ => chain := by
    intro method region r _ _
    rw [oneRegion_regionSize]
    exact chain_valid
  obtain ⟨nodeMap, hstops, hiff⟩ := cluster_renaming_iff (fun _ => 0) hvalid
  refine ⟨nodeMap, hstops, hiff.mpr ?_⟩
  show oneRegion.align 0 + oneRegion.regionSize 0 ≤ UINT_MAX
  rw [oneRegion_regionSize]
  decide

-- ── Objects without points-to sets

def singletons (n : ℕ) (hspecial : 4 ≤ n) (hnodeID : n ≤ UINT_MAX) : Clustering where
  numObjects := n
  pointsTos := []
  regionedClustering := true
  regionAlign := true
  clusterMethod := .SVF_BEST
  evaluated := true
  special := hspecial
  nodeID := hnodeID
  objects := nofun

variable {n : ℕ} {hspecial : 4 ≤ n} {hnodeID : n ≤ UINT_MAX}

theorem sameRegion_nil {o o' : ℕ} : SameRegion [] o o' ↔ o = o' := by
  constructor
  · exact eq_of_not_mem_keys not_mem_nil
  · rintro rfl
    exact .refl

theorem firstMets_nil : ∀ (l reps : List ℕ), (∀ o ∈ l, o ∉ reps) → l.Nodup →
    firstMets [] reps l = reps ++ l := by
  intro l
  induction l with
  | nil => exact fun reps _ _ => (append_nil reps).symm
  | cons o l ih =>
    intro reps hnew hnd
    rw [nodup_cons] at hnd
    have hnone : ¬ ∃ r ∈ reps, SameRegion [] r o := by
      rintro ⟨r, hr, hrel⟩
      exact hnew o mem_cons_self (sameRegion_nil.mp hrel ▸ hr)
    rw [firstMets, if_neg hnone, ih _ ?_ hnd.2, append_assoc, singleton_append]
    intro x hx hmem
    rcases mem_append.mp hmem with hmem | hmem
    · exact hnew x (mem_cons_of_mem o hx) hmem
    · exact hnd.1 (mem_singleton.mp hmem ▸ hx)

variable (n hspecial hnodeID) in
theorem singletons_reps : (singletons n hspecial hnodeID).reps insertionOrder = List.range n :=
  firstMets_nil (List.range n) [] (fun _ _ => not_mem_nil) nodup_range

open Classical in
theorem singletons_regionSize {o : ℕ} (ho : o < n) :
    (singletons n hspecial hnodeID).regionSize o = 1 := by
  rw [Clustering.regionSize, Finset.card_eq_one]
  refine ⟨o, ?_⟩
  ext o'
  rw [Finset.mem_filter, Finset.mem_range, Finset.mem_singleton]
  constructor
  · exact fun ⟨_, hrel⟩ => (sameRegion_nil.mp hrel).symm
  · rintro rfl
    exact ⟨ho, sameRegion_nil.mpr rfl⟩

theorem singletons_layoutEnd {size : ℕ → ℕ} (hone : ∀ k < n, size k = 1) : ∀ k < n,
    (singletons n hspecial hnodeID).layoutEnd size (k + 1) = 64 * k + 1 := by
  intro k
  induction k with
  | zero =>
    intro hk
    rw [Clustering.layoutEnd, Clustering.layoutEnd, hone 0 hk]
    rfl
  | succ k ih =>
    intro hk
    rw [Clustering.layoutEnd, ih (by omega), hone (k + 1) hk]
    show (64 * k + 1 + 64 - 1) / 64 * 64 + 1 = _
    omega

/-- **A region for each of 2²⁶ + 1 objects**: the last one starts from 0 again. -/
theorem singleton_regions_clash : ¬ ∀ (c : Clustering) (order : HashOrder)
    (hclust_fast : HclustMethod → ℕ → ℕ → ℤ) (words : List ℕ → ℕ),
    ValidDendrograms c order hclust_fast →
    ∃ nodeMap, Stops (c.cluster order hclust_fast words) nodeMap ∧ Renaming c nodeMap := by
  intro hall
  have hreps := singletons_reps 67108865 (by omega) (by decide)
  have hvalid : ValidDendrograms (singletons 67108865 (by omega) (by decide)) insertionOrder
      fun _ _ => chain := by
    intro method region r hr hbig
    rw [hreps] at hr
    rw [singletons_regionSize (mem_range.mp (mem_of_getElem? hr))] at hbig
    exact absurd hbig (by decide)
  obtain ⟨nodeMap, hstops, hren⟩ := hall _ insertionOrder _ (fun _ => 0) hvalid
  obtain ⟨nodeMap', labels, hstops', hregions, hlaid⟩ := cluster_laidOut (fun _ => 0) hvalid
  refine hlaid.not_renaming hregions ?_ (hstops.unique hstops' ▸ hren)
  rw [← hregions.layoutEnd_eq _ le_rfl, hreps, length_range]
  rw [singletons_layoutEnd (k := 67108864) ?_ (by omega)]
  · decide
  · intro k hk
    rw [getD_eq_getElem _ _ (by rw [length_range]; exact hk), getElem_range]
    exact singletons_regionSize hk

end SvfClusterer
