import SvfModel.NodeIDAllocatorProofs

/-!
# Dendrograms

A clustering of `m` objects is an array of `m - 1` rows of two entries: a negative entry is a
single object, a positive one an earlier row. `traverseDendrogram` goes down from the last row
and numbers the objects as it meets them.

The heart is counting: the entries are distinct and there are as many of them as objects and
rows to refer to, so every object and every row but the last is an entry somewhere
(`ValidDendrogram.surj`). From the last row all rows are reached (`Closed.all`), and so every
object is numbered exactly once (**`traverse_order`**).
-/

namespace SvfClusterer

open SvfNodeIDAllocator List Option

/-- The node mapping and the next identifier. -/
structure Allocation where
  nodeMap : List ℕ
  allocCounter : ℕ

def Allocation.place (a : Allocation) (o : ℕ) : Allocation :=
  { nodeMap := a.nodeMap.set o a.allocCounter, allocCounter := increment a.allocCounter }

structure Traversal where
  alloc : Allocation
  visited : Finset ℕ

/-- `traverseDendrogram(nodeMap, dendrogram, numObjects, allocCounter, visited, index,
    regionNodeMap)`. The items of a dendrogram start from 1. -/
def traverseDendrogram (dendrogram : ℕ → ℤ) (numObjects : ℕ) (regionNodeMap : List ℕ) :
    ℕ → Traversal → ℕ → Option Traversal
  | 0, _, _ => none
  | fuel + 1, t, index =>
    if index ∈ t.visited then some t
    else
      let child := fun (entry : ℤ) (t : Traversal) =>
        if entry < 0 then
          (regionNodeMap[entry.natAbs - 1]?).map fun o => { t with alloc := t.alloc.place o }
        else traverseDendrogram dendrogram numObjects regionNodeMap fuel t entry.toNat
      let left := dendrogram (index - 1)
      let right := dendrogram ((numObjects - 1) + index - 1)
      (child left { t with visited := insert index t.visited }).bind (child right)

def rowEntries (dendrogram : ℕ → ℤ) (numObjects index : ℕ) : List ℤ :=
  [dendrogram (index - 1), dendrogram ((numObjects - 1) + index - 1)]

/-- What a clustering of `m` objects is, where `m` is an `int`: a row has single objects and
    earlier rows for entries, and nothing is an entry twice. -/
structure ValidDendrogram (m : ℕ) (dendrogram : ℕ → ℤ) : Prop where
  small : m < 2147483648
  entry : ∀ i, 1 ≤ i → i < m → ∀ e ∈ rowEntries dendrogram m i,
    (∃ k, 1 ≤ k ∧ k ≤ m ∧ e = -(k : ℤ)) ∨ ∃ k, 1 ≤ k ∧ k < i ∧ e = (k : ℤ)
  distinct : Set.InjOn dendrogram {j | j < 2 * (m - 1)}

variable {m : ℕ} {dendrogram : ℕ → ℤ}

/-- What an entry can be: an object, or a row that is not the last. -/
def entryValues (m : ℕ) : Finset ℤ :=
  (Finset.Icc 1 m).image (fun k : ℕ => -(k : ℤ)) ∪ (Finset.Icc 1 (m - 2)).image fun k : ℕ => (k : ℤ)

theorem card_entryValues (hm : 2 ≤ m) : (entryValues m).card = 2 * (m - 1) := by
  have hdisj : Disjoint ((Finset.Icc 1 m).image (fun k : ℕ => -(k : ℤ)))
      ((Finset.Icc 1 (m - 2)).image fun k : ℕ => (k : ℤ)) := by
    rw [Finset.disjoint_left]
    intro e hneg hpos
    obtain ⟨k, hk, rfl⟩ := Finset.mem_image.mp hneg
    obtain ⟨k', hk', heq⟩ := Finset.mem_image.mp hpos
    have := (Finset.mem_Icc.mp hk).1
    have := (Finset.mem_Icc.mp hk').1
    omega
  rw [entryValues, Finset.card_union_of_disjoint hdisj,
    Finset.card_image_of_injective _ fun a b hab => by simpa using hab,
    Finset.card_image_of_injective _ Nat.cast_injective, Nat.card_Icc, Nat.card_Icc]
  omega

theorem exists_row (hm : 2 ≤ m) {j : ℕ} (hj : j < 2 * (m - 1)) :
    ∃ i, 1 ≤ i ∧ i < m ∧ (j = i - 1 ∨ j = (m - 1) + i - 1) := by
  by_cases hlow : j < m - 1
  · exact ⟨j + 1, by omega, by omega, .inl (by omega)⟩
  · exact ⟨j - (m - 1) + 1, by omega, by omega, .inr (by omega)⟩

theorem mem_rowEntries {i : ℕ} {e : ℤ} : e ∈ rowEntries dendrogram m i ↔
    ∃ j, (j = i - 1 ∨ j = (m - 1) + i - 1) ∧ dendrogram j = e := by
  simp only [rowEntries, mem_cons, not_mem_nil, or_false, exists_eq_left, or_and_right,
    exists_or, eq_comm]

/-- **Everything is an entry**: the objects, and the rows but the last. -/
theorem ValidDendrogram.surj (h : ValidDendrogram m dendrogram) (hm : 2 ≤ m) {e : ℤ}
    (he : e ∈ entryValues m) : ∃ i, 1 ≤ i ∧ i < m ∧ e ∈ rowEntries dendrogram m i := by
  have hmaps : Set.MapsTo dendrogram (Finset.range (2 * (m - 1))) (entryValues m) := by
    intro j hj
    obtain ⟨i, hi, him, hrow⟩ := exists_row hm (Finset.mem_range.mp hj)
    rw [Finset.mem_coe, entryValues, Finset.mem_union, Finset.mem_image, Finset.mem_image]
    rcases h.entry i hi him _ (mem_rowEntries.mpr ⟨j, hrow, rfl⟩) with
      ⟨k, hk, hkm, heq⟩ | ⟨k, hk, hki, heq⟩
    · exact .inl ⟨k, Finset.mem_Icc.mpr ⟨hk, hkm⟩, heq.symm⟩
    · exact .inr ⟨k, Finset.mem_Icc.mpr ⟨hk, by omega⟩, heq.symm⟩
  have hinj : Set.InjOn dendrogram (Finset.range (2 * (m - 1))) := fun a ha b hb hab =>
    h.distinct (Finset.mem_range.mp ha) (Finset.mem_range.mp hb) hab
  have hcard : (entryValues m).card ≤ (Finset.range (2 * (m - 1))).card := by
    rw [card_entryValues hm, Finset.card_range]
  obtain ⟨j, hj, rfl⟩ := Finset.surjOn_of_injOn_of_card_le dendrogram hmaps hinj hcard he
  obtain ⟨i, hi, him, hrow⟩ := exists_row hm (Finset.mem_range.mp hj)
  exact ⟨i, hi, him, mem_rowEntries.mpr ⟨j, hrow, rfl⟩⟩

theorem ValidDendrogram.row_unique (h : ValidDendrogram m dendrogram) {i i' : ℕ} {e : ℤ}
    (hi : 1 ≤ i ∧ i < m) (hi' : 1 ≤ i' ∧ i' < m) (he : e ∈ rowEntries dendrogram m i)
    (he' : e ∈ rowEntries dendrogram m i') : i = i' := by
  obtain ⟨j, hj, rfl⟩ := mem_rowEntries.mp he
  obtain ⟨j', hj', heq⟩ := mem_rowEntries.mp he'
  have hpos : ∀ {a b : ℕ}, 1 ≤ b ∧ b < m → (a = b - 1 ∨ a = (m - 1) + b - 1) → a < 2 * (m - 1) := by
    intro a b hb hab
    omega
  have := h.distinct (hpos hi' hj') (hpos hi hj) heq
  omega

def rowLeaves (dendrogram : ℕ → ℤ) (m i : ℕ) : List ℕ :=
  (rowEntries dendrogram m i).filterMap fun e => if e < 0 then some e.natAbs else none

theorem mem_rowLeaves {i k : ℕ} : k ∈ rowLeaves dendrogram m i ↔
    1 ≤ k ∧ -(k : ℤ) ∈ rowEntries dendrogram m i := by
  simp only [rowLeaves, mem_filterMap, ite_none_right_eq_some, Option.some.injEq]
  constructor
  · rintro ⟨e, he, hneg, rfl⟩
    refine ⟨by omega, ?_⟩
    have : -(e.natAbs : ℤ) = e := by omega
    rwa [this]
  · rintro ⟨hk, he⟩
    exact ⟨_, he, by omega, by omega⟩

theorem ValidDendrogram.rowLeaves_nodup (h : ValidDendrogram m dendrogram) {i : ℕ}
    (hi : 1 ≤ i ∧ i < m) : (rowLeaves dendrogram m i).Nodup := by
  have hne : dendrogram (i - 1) ≠ dendrogram ((m - 1) + i - 1) := by
    intro heq
    have := h.distinct (show i - 1 < 2 * (m - 1) by omega)
      (show (m - 1) + i - 1 < 2 * (m - 1) by omega) heq
    omega
  refine List.Nodup.filterMap ?_ ?_
  · intro e e' k hk hk'
    rw [mem_def, ite_none_right_eq_some] at hk hk'
    have := some.inj hk.2
    have := some.inj hk'.2
    omega
  · rw [rowEntries, nodup_cons, mem_singleton]
    exact ⟨hne, nodup_singleton _⟩

theorem ValidDendrogram.mem_rowLeaves_le (h : ValidDendrogram m dendrogram) {i k : ℕ}
    (hi : 1 ≤ i ∧ i < m) (hk : k ∈ rowLeaves dendrogram m i) : 1 ≤ k ∧ k ≤ m := by
  obtain ⟨hpos, he⟩ := mem_rowLeaves.mp hk
  rcases h.entry i hi.1 hi.2 _ he with ⟨k', hk', hle, heq⟩ | ⟨k', hk', hle, heq⟩ <;> omega

-- ── What a visit does

/-- From `t` to `t'` the rows `rows` are visited, and the objects `leaves` and those of the rows
    are placed, in some order. -/
structure Visits (m : ℕ) (dendrogram : ℕ → ℤ) (regionNodeMap : List ℕ) (t t' : Traversal)
    (rows leaves : List ℕ) : Prop where
  nodup : rows.Nodup
  isRow : ∀ r ∈ rows, r ∉ t.visited ∧ 1 ≤ r ∧ r < m
  visited : t'.visited = t.visited ∪ rows.toFinset
  closed : ∀ r ∈ rows, ∀ k : ℕ, 1 ≤ k → (k : ℤ) ∈ rowEntries dendrogram m r → k ∈ t'.visited
  placed : ∃ ord : List ℕ, ord.Perm (leaves ++ rows.flatMap (rowLeaves dendrogram m)) ∧
    t'.alloc = (ord.map fun k => regionNodeMap.getD (k - 1) 0).foldl Allocation.place t.alloc

variable {objs : List ℕ} {t t' t'' : Traversal} {rows rows' leaves leaves' : List ℕ}

theorem Visits.mono (h : Visits m dendrogram objs t t' rows leaves) : t.visited ⊆ t'.visited := by
  rw [h.visited]
  exact Finset.subset_union_left

theorem Visits.trans (h : Visits m dendrogram objs t t' rows leaves)
    (h' : Visits m dendrogram objs t' t'' rows' leaves') :
    Visits m dendrogram objs t t'' (rows ++ rows') (leaves ++ leaves') where
  nodup := by
    refine nodup_append.mpr ⟨h.nodup, h'.nodup, ?_⟩
    rintro r hr r' hr' rfl
    apply (h'.isRow r hr').1
    rw [h.visited, Finset.mem_union, List.mem_toFinset]
    exact .inr hr
  isRow := by
    intro r hr
    rcases mem_append.mp hr with hr | hr
    · exact h.isRow r hr
    · exact ⟨fun hmem => (h'.isRow r hr).1 (h.mono hmem), (h'.isRow r hr).2⟩
  visited := by
    rw [h'.visited, h.visited, toFinset_append, Finset.union_assoc]
  closed := by
    intro r hr k hk he
    rcases mem_append.mp hr with hr | hr
    · exact h'.mono (h.closed r hr k hk he)
    · exact h'.closed r hr k hk he
  placed := by
    obtain ⟨ord, hord, halloc⟩ := h.placed
    obtain ⟨ord', hord', halloc'⟩ := h'.placed
    refine ⟨ord ++ ord', ?_, ?_⟩
    · refine (hord.append hord').trans ?_
      rw [flatMap_append]
      simp only [append_assoc]
      refine List.Perm.append_left _ ?_
      rw [← append_assoc, ← append_assoc]
      exact perm_append_comm.append_right _
    · rw [map_append, foldl_append, ← halloc, halloc']

theorem Visits.leaf {k o : ℕ} (ho : objs[k - 1]? = some o) :
    Visits m dendrogram objs t { t with alloc := t.alloc.place o } [] [k] where
  nodup := nodup_nil
  isRow := nofun
  visited := by rw [toFinset_nil, Finset.union_empty]
  closed := nofun
  placed := by
    refine ⟨[k], .refl _, ?_⟩
    rw [map_singleton, foldl_cons, foldl_nil, getD_eq_getElem?_getD, ho, getD_some]

theorem Visits.row {index : ℕ} (hindex : 1 ≤ index ∧ index < m) (hnew : index ∉ t.visited)
    (h : Visits m dendrogram objs { t with visited := insert index t.visited } t' rows
      (rowLeaves dendrogram m index))
    (hclosed : ∀ k : ℕ, 1 ≤ k → (k : ℤ) ∈ rowEntries dendrogram m index → k ∈ t'.visited) :
    Visits m dendrogram objs t t' (index :: rows) [] where
  nodup := by
    refine nodup_cons.mpr ⟨fun hmem => ?_, h.nodup⟩
    exact (h.isRow index hmem).1 (Finset.mem_insert_self _ _)
  isRow := by
    intro r hr
    rcases mem_cons.mp hr with rfl | hr
    · exact ⟨hnew, hindex⟩
    · exact ⟨fun hmem => (h.isRow r hr).1 (Finset.mem_insert_of_mem hmem), (h.isRow r hr).2⟩
  visited := by
    rw [h.visited, toFinset_cons, Finset.insert_union, Finset.union_insert]
  closed := by
    intro r hr k hk he
    rcases mem_cons.mp hr with rfl | hr
    · exact hclosed k hk he
    · exact h.closed r hr k hk he
  placed := by
    obtain ⟨ord, hord, halloc⟩ := h.placed
    exact ⟨ord, by rwa [nil_append, flatMap_cons], halloc⟩

-- ── The traversal

def entryLeaves (e : ℤ) : List ℕ := if e < 0 then [e.natAbs] else []

theorem rowLeaves_eq (i : ℕ) : rowLeaves dendrogram m i =
    entryLeaves (dendrogram (i - 1)) ++ entryLeaves (dendrogram ((m - 1) + i - 1)) := by
  by_cases hl : dendrogram (i - 1) < 0 <;> by_cases hr : dendrogram ((m - 1) + i - 1) < 0 <;>
    simp [rowLeaves, rowEntries, entryLeaves, hl, hr]

section

variable (h : ValidDendrogram m dendrogram)
include h

/-- From a row, that row and all below it are visited. The induction is on the row: an entry
    is an earlier one. -/
theorem traverse_visits (hobjs : objs.length = m) :
    ∀ (index : ℕ) (t : Traversal), 1 ≤ index ∧ index < m → ∃ t' rows, (∀ fuel, index < fuel →
          traverseDendrogram dendrogram m objs fuel t index = some t') ∧
        Visits m dendrogram objs t t' rows [] ∧ index ∈ t'.visited := by
  intro index
  induction index using Nat.strong_induction_on with
  | _ index ih =>
    intro t hindex
    by_cases hnew : index ∈ t.visited
    · refine ⟨t, [], fun fuel hfuel => ?_, ⟨nodup_nil, ?_, ?_, ?_, [], .refl _, rfl⟩, hnew⟩
      · obtain ⟨fuel, rfl⟩ : ∃ k, fuel = k + 1 := ⟨fuel - 1, by omega⟩
        rw [traverseDendrogram, if_pos hnew]
      · exact nofun
      · rw [toFinset_nil, Finset.union_empty]
      · exact nofun
    · have hchild : ∀ e ∈ rowEntries dendrogram m index, ∀ t : Traversal, ∃ t' rows,
          (∀ fuel, index ≤ fuel → (if e < 0 then
            (objs[e.natAbs - 1]?).map fun o => { t with alloc := t.alloc.place o }
            else traverseDendrogram dendrogram m objs fuel t e.toNat) = some t') ∧
          Visits m dendrogram objs t t' rows (entryLeaves e) ∧
          ∀ k : ℕ, 1 ≤ k → (k : ℤ) = e → k ∈ t'.visited := by
        intro e he t
        rcases h.entry index hindex.1 hindex.2 e he with ⟨k, hk, hkm, rfl⟩ | ⟨k, hk, hki, rfl⟩
        · have hneg : -(k : ℤ) < 0 := by omega
          have hlt : k - 1 < objs.length := by omega
          have hleaf : entryLeaves (-(k : ℤ)) = [k] := by
            rw [entryLeaves, if_pos hneg, Int.natAbs_neg, Int.natAbs_natCast]
          refine ⟨{ t with alloc := t.alloc.place objs[k - 1] }, [], fun fuel _ => ?_, ?_, ?_⟩
          · rw [if_pos hneg, Int.natAbs_neg, Int.natAbs_natCast, getElem?_eq_getElem hlt]
            rfl
          · rw [hleaf]
            exact Visits.leaf (getElem?_eq_getElem hlt)
          · intro k' hk' heq
            omega
        · have hneg : ¬ (k : ℤ) < 0 := by omega
          obtain ⟨t', rows, hrun, hvisits, hmem⟩ := ih k hki t ⟨hk, by omega⟩
          refine ⟨t', rows, fun fuel hfuel => ?_, ?_, ?_⟩
          · rw [if_neg hneg, Int.toNat_natCast]
            exact hrun fuel (by omega)
          · rw [entryLeaves, if_neg hneg]
            exact hvisits
          · intro k' _ heq
            rwa [Int.natCast_inj.mp heq]
      obtain ⟨t1, rows1, hrun1, hvisits1, hmem1⟩ := hchild (dendrogram (index - 1))
        mem_cons_self { t with visited := insert index t.visited }
      obtain ⟨t2, rows2, hrun2, hvisits2, hmem2⟩ :=
        hchild (dendrogram ((m - 1) + index - 1)) (by simp [rowEntries]) t1
      refine ⟨t2, index :: (rows1 ++ rows2), fun fuel hfuel => ?_, ?_, ?_⟩
      · obtain ⟨fuel, rfl⟩ : ∃ k, fuel = k + 1 := ⟨fuel - 1, by omega⟩
        rw [traverseDendrogram, if_neg hnew]
        exact bind_eq_some_iff.mpr ⟨t1, hrun1 fuel (by omega), hrun2 fuel (by omega)⟩
      · refine Visits.row hindex hnew ?_ ?_
        · rw [rowLeaves_eq]
          exact hvisits1.trans hvisits2
        · intro k hk he
          rw [rowEntries, mem_cons, mem_singleton] at he
          rcases he with he | he
          · exact hvisits2.mono (hmem1 k hk he)
          · exact hmem2 k hk he
      · exact hvisits2.mono (hvisits1.mono (Finset.mem_insert_self _ _))

theorem ValidDendrogram.all_rows (hm : 2 ≤ m) {S : Set ℕ}
    (hlast : m - 1 ∈ S)
    (hclosed : ∀ r ∈ S, ∀ k : ℕ, 1 ≤ k → (k : ℤ) ∈ rowEntries dendrogram m r → k ∈ S) :
    ∀ d r, 1 ≤ r → r + d = m - 1 → r ∈ S := by
  intro d
  induction d using Nat.strong_induction_on with
  | _ d ih =>
    intro r hr hd
    by_cases hzero : d = 0
    · have heq : r = m - 1 := by omega
      rwa [heq]
    · have hval : (r : ℤ) ∈ entryValues m := by
        rw [entryValues, Finset.mem_union, Finset.mem_image, Finset.mem_image]
        exact .inr ⟨r, Finset.mem_Icc.mpr ⟨hr, by omega⟩, rfl⟩
      obtain ⟨i, hi, him, he⟩ := h.surj hm hval
      have hlt : r < i := by
        rcases h.entry i hi him _ he with ⟨k, hk, _, heq⟩ | ⟨k, _, hki, heq⟩ <;> omega
      exact hclosed i (ih (m - 1 - i) (by omega) i hi (by omega)) r hr he

/-- **A traversal from the last row places every object once.** -/
theorem traverse_order (hm : 2 ≤ m) (hobjs : objs.length = m)
    (a : Allocation) :
    ∃ (t' : Traversal) (ord : List ℕ), ord.Perm objs ∧ t'.alloc = ord.foldl Allocation.place a ∧
      ∀ fuel, m ≤ fuel → traverseDendrogram dendrogram m objs fuel ⟨a, ∅⟩ (m - 1) = some t' := by
  obtain ⟨t', rows, hrun, hvisits, hlast⟩ :=
    traverse_visits h hobjs (m - 1) ⟨a, ∅⟩ ⟨by omega, by omega⟩
  obtain ⟨ord, hord, halloc⟩ := hvisits.placed
  have hrows : ∀ r, r ∈ t'.visited ↔ r ∈ rows := by
    intro r
    rw [hvisits.visited, Finset.empty_union, List.mem_toFinset]
  have hall : ∀ r, 1 ≤ r → r < m → r ∈ rows := by
    intro r hr hrm
    refine h.all_rows hm (S := {r | r ∈ rows}) ((hrows _).mp hlast) ?_ (m - 1 - r) r hr (by omega)
    exact fun r hr k hk he => (hrows k).mp (hvisits.closed r hr k hk he)
  -- the objects of the rows are the numbers from 1 to `m`
  have hleaves : (rows.flatMap (rowLeaves dendrogram m)).Perm ((List.range m).map (· + 1)) := by
    rw [List.perm_ext_iff_of_nodup]
    · intro k
      rw [List.mem_flatMap, List.mem_map]
      constructor
      · rintro ⟨r, hr, hk⟩
        have := h.mem_rowLeaves_le (hvisits.isRow r hr).2 hk
        exact ⟨k - 1, List.mem_range.mpr (by omega), by omega⟩
      · rintro ⟨j, hj, rfl⟩
        have hval : -((j + 1 : ℕ) : ℤ) ∈ entryValues m := by
          rw [entryValues, Finset.mem_union, Finset.mem_image, Finset.mem_image]
          have := List.mem_range.mp hj
          exact .inl ⟨j + 1, Finset.mem_Icc.mpr ⟨by omega, by omega⟩, rfl⟩
        obtain ⟨i, hi, him, he⟩ := h.surj hm hval
        exact ⟨i, hall i hi him, mem_rowLeaves.mpr ⟨by omega, he⟩⟩
    · rw [List.nodup_flatMap]
      refine ⟨fun r hr => h.rowLeaves_nodup (hvisits.isRow r hr).2, ?_⟩
      refine hvisits.nodup.imp_of_mem ?_
      intro r r' hr hr' hne
      rw [Function.onFun, List.disjoint_left]
      intro k hk hk'
      exact hne (h.row_unique (hvisits.isRow r hr).2 (hvisits.isRow r' hr').2
        (mem_rowLeaves.mp hk).2 (mem_rowLeaves.mp hk').2)
    · exact List.nodup_range.map fun a b hab => Nat.add_right_cancel hab
  refine ⟨t', ord.map fun k => objs.getD (k - 1) 0, ?_, halloc,
    fun fuel hfuel => hrun fuel (by omega)⟩
  refine ((hord.trans hleaves).map _).trans (List.Perm.of_eq ?_)
  rw [List.map_map]
  refine List.ext_getElem ?_ ?_
  · rw [List.length_map, List.length_range, hobjs]
  · intro i hi hi'
    rw [List.getElem_map, List.getElem_range, Function.comp_apply, Nat.add_sub_cancel,
      List.getD_eq_getElem _ _ hi']

end

end SvfClusterer
