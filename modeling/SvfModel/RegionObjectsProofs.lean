import SvfModel.LoopProofs
import SvfModel.DendrogramProofs

/-!
# `regionObjects`: the regions of the objects

Objects that appear in the same points-to set get the same label. The points-to sets are put in
a graph, every element next to the first one, and a breadth-first search labels what it reaches
from each node that has no label yet; an object that is in no points-to set gets a label of its
own.

A region is a class of the equivalence that the points-to sets generate (`SameRegion`). The
heart is that one search labels exactly the class of the node it starts from (`search_labels`).
The labels then count the classes in the order in which they are first met (`firstMets`), and
**`regionObjects_labels`** says so of the whole function.
-/

namespace SvfClusterer

open SvfLoop SvfNodeIDAllocator Relation List

-- ── The graph of co-pointees

/-- In which order an unordered container is gone through, given what was put in. -/
structure HashOrder where
  iterate : List ℕ → List ℕ
  mem_iterate : ∀ {l : List ℕ} {x : ℕ}, x ∈ iterate l ↔ x ∈ l

/-- `Map<NodeID, Set<NodeID>>`: what was put in the map and in the sets. -/
structure CoPointeeGraph where
  keys : List ℕ
  neighbours : ℕ → List ℕ

namespace CoPointeeGraph

section

variable (graph : CoPointeeGraph)

def touch (o : ℕ) : CoPointeeGraph :=
  { graph with keys := graph.keys ++ [o] }

def insert (o o' : ℕ) : CoPointeeGraph :=
  { keys := graph.keys ++ [o]
    neighbours := Function.update graph.neighbours o (graph.neighbours o ++ [o']) }

/-- The edges of one points-to set: from its first element to the others and back. -/
def addPointsTo (pts : List ℕ) : CoPointeeGraph :=
  let firstO := pts.head?.getD 0
  pts.foldl (fun graph o =>
    if o ≠ firstO then (graph.insert firstO o).insert o firstO else graph) (graph.touch firstO)

end

end CoPointeeGraph

def coPointeeGraph (pointsTos : List (List ℕ)) : CoPointeeGraph :=
  (pointsTos.foldl (fun (s : List (List ℕ) × CoPointeeGraph) pts =>
    if pts ∈ s.1 then s else (s.1 ++ [pts], s.2.addPointsTo pts)) ([], ⟨[], fun _ => []⟩)).2

/-- The edges that a points-to set brings. -/
def HubEdge (pts : List ℕ) (o o' : ℕ) : Prop :=
  o ≠ o' ∧ o ∈ pts ∧ o' ∈ pts ∧ (o = pts.head?.getD 0 ∨ o' = pts.head?.getD 0)

theorem head_mem {pts : List ℕ} {o : ℕ} (ho : o ∈ pts) : pts.head?.getD 0 ∈ pts := by
  cases pts with
  | nil => cases ho
  | cons a pts => exact mem_cons_self

namespace CoPointeeGraph

variable {graph : CoPointeeGraph}

theorem mem_insert_keys {o o' x : ℕ} : x ∈ (graph.insert o o').keys ↔ x ∈ graph.keys ∨ x = o := by
  rw [insert, mem_append, mem_singleton]

theorem mem_insert_neighbours {o o' x y : ℕ} : y ∈ (graph.insert o o').neighbours x ↔
    y ∈ graph.neighbours x ∨ x = o ∧ y = o' := by
  by_cases hx : x = o
  · subst hx
    simp [insert]
  · simp [insert, hx]

theorem hub_loop (firstO : ℕ) : ∀ (l : List ℕ) (graph : CoPointeeGraph) (x y : ℕ),
    let graph' := l.foldl (fun graph o =>
      if o ≠ firstO then (graph.insert firstO o).insert o firstO else graph) graph
    (firstO ∈ graph.keys → (x ∈ graph'.keys ↔ x ∈ graph.keys ∨ x ∈ l)) ∧
    (y ∈ graph'.neighbours x ↔ y ∈ graph.neighbours x ∨
      x ≠ y ∧ ((x = firstO ∧ y ∈ l) ∨ (y = firstO ∧ x ∈ l))) := by
  intro l
  induction l with
  | nil => simp
  | cons a l ih =>
    intro graph x y
    by_cases ha : a = firstO
    · subst ha
      obtain ⟨hkeys, hnbrs⟩ := ih graph x y
      simp only [foldl_cons, ne_eq, not_true_eq_false, if_false] at hkeys hnbrs ⊢
      refine ⟨fun hmem => ?_, ?_⟩
      · rw [hkeys hmem, mem_cons]
        grind
      · rw [hnbrs]
        grind
    · obtain ⟨hkeys, hnbrs⟩ := ih ((graph.insert firstO a).insert a firstO) x y
      simp only [foldl_cons, ne_eq, ha, not_false_eq_true, if_true] at hkeys hnbrs ⊢
      refine ⟨fun hmem => ?_, ?_⟩
      · rw [hkeys (mem_insert_keys.mpr (.inl (mem_insert_keys.mpr (.inl hmem)))),
          mem_insert_keys, mem_insert_keys]
        grind
      · rw [hnbrs, mem_insert_neighbours, mem_insert_neighbours]
        grind

theorem mem_addPointsTo_keys {pts : List ℕ} {x : ℕ} : x ∈ (graph.addPointsTo pts).keys ↔
    x ∈ graph.keys ∨ x = pts.head?.getD 0 ∨ x ∈ pts := by
  have hmem : pts.head?.getD 0 ∈ (graph.touch (pts.head?.getD 0)).keys := by
    rw [touch, mem_append, mem_singleton]
    exact .inr rfl
  have h := (hub_loop (pts.head?.getD 0) pts (graph.touch (pts.head?.getD 0)) x 0).1 hmem
  rw [addPointsTo, h, touch, mem_append, mem_singleton, or_assoc]

theorem mem_addPointsTo_neighbours {pts : List ℕ} {x y : ℕ} :
    y ∈ (graph.addPointsTo pts).neighbours x ↔ y ∈ graph.neighbours x ∨ HubEdge pts x y := by
  have h := (hub_loop (pts.head?.getD 0) pts (graph.touch (pts.head?.getD 0)) x y).2
  rw [addPointsTo, h, touch, HubEdge]
  have := @head_mem pts
  grind

end CoPointeeGraph

section

variable (pointsTos : List (List ℕ))

theorem coPointeeGraph_spec (x y : ℕ) :
    (x ∈ (coPointeeGraph pointsTos).keys ↔ ∃ pts ∈ pointsTos, x = pts.head?.getD 0 ∨ x ∈ pts) ∧
    (y ∈ (coPointeeGraph pointsTos).neighbours x ↔ ∃ pts ∈ pointsTos, HubEdge pts x y) := by
  -- the sets that have been seen are those whose edges are there
  suffices h : ∀ (l : List (List ℕ)) (s : List (List ℕ) × CoPointeeGraph),
      (∀ x y, (x ∈ s.2.keys ↔ ∃ pts ∈ s.1, x = pts.head?.getD 0 ∨ x ∈ pts) ∧
        (y ∈ s.2.neighbours x ↔ ∃ pts ∈ s.1, HubEdge pts x y)) →
      ∀ x y, let s' := l.foldl (fun (s : List (List ℕ) × CoPointeeGraph) pts =>
          if pts ∈ s.1 then s else (s.1 ++ [pts], s.2.addPointsTo pts)) s
        (x ∈ s'.2.keys ↔ ∃ pts, (pts ∈ s.1 ∨ pts ∈ l) ∧ (x = pts.head?.getD 0 ∨ x ∈ pts)) ∧
        (y ∈ s'.2.neighbours x ↔ ∃ pts, (pts ∈ s.1 ∨ pts ∈ l) ∧ HubEdge pts x y) by
    have := h pointsTos ([], ⟨[], fun _ => []⟩) (by simp) x y
    simpa [coPointeeGraph] using this
  intro l
  induction l with
  | nil =>
    intro s hs x y
    simpa using hs x y
  | cons pts l ih =>
    intro s hs x y
    rw [foldl_cons]
    by_cases hseen : pts ∈ s.1
    · have := ih s hs x y
      simp only [hseen, if_true] at this ⊢
      refine ⟨this.1.trans ?_, this.2.trans ?_⟩ <;> grind
    · have hs' : ∀ x y, (x ∈ (s.2.addPointsTo pts).keys ↔
          ∃ p ∈ s.1 ++ [pts], x = p.head?.getD 0 ∨ x ∈ p) ∧
          (y ∈ (s.2.addPointsTo pts).neighbours x ↔ ∃ p ∈ s.1 ++ [pts], HubEdge p x y) := by
        intro x y
        rw [CoPointeeGraph.mem_addPointsTo_keys, CoPointeeGraph.mem_addPointsTo_neighbours,
          (hs x y).1, (hs x y).2]
        grind
      have := ih (s.1 ++ [pts], s.2.addPointsTo pts) hs' x y
      simp only [hseen, if_false] at this ⊢
      refine ⟨this.1.trans ?_, this.2.trans ?_⟩ <;> grind

-- ── The regions

/-- Objects that a chain of points-to sets connects. -/
def SameRegion : ℕ → ℕ → Prop :=
  ReflTransGen fun o o' => ∃ pts ∈ pointsTos, o ∈ pts ∧ o' ∈ pts

def Adjacent (o o' : ℕ) : Prop :=
  o' ∈ (coPointeeGraph pointsTos).neighbours o

end

variable {pointsTos : List (List ℕ)}

theorem SameRegion.symm {o o' : ℕ} (h : SameRegion pointsTos o o') : SameRegion pointsTos o' o := by
  induction h with
  | refl => exact .refl
  | tail _ hstep ih =>
    obtain ⟨pts, hpts, hb, hc⟩ := hstep
    exact .head ⟨pts, hpts, hc, hb⟩ ih

theorem SameRegion.trans {o o' o'' : ℕ} (h : SameRegion pointsTos o o')
    (h' : SameRegion pointsTos o' o'') : SameRegion pointsTos o o'' := ReflTransGen.trans h h'

section

variable {o o' : ℕ}

theorem sameRegion_of_mem {pts : List ℕ} (hpts : pts ∈ pointsTos) (ho : o ∈ pts) (ho' : o' ∈ pts) :
    SameRegion pointsTos o o' := ReflTransGen.single ⟨pts, hpts, ho, ho'⟩

theorem adjacent_iff : Adjacent pointsTos o o' ↔ ∃ pts ∈ pointsTos, HubEdge pts o o' :=
  (coPointeeGraph_spec pointsTos o o').2

theorem Adjacent.sameRegion (h : Adjacent pointsTos o o') :
    SameRegion pointsTos o o' := by
  obtain ⟨pts, hpts, -, ho, ho', -⟩ := adjacent_iff.mp h
  exact sameRegion_of_mem hpts ho ho'

theorem Adjacent.mem_keys (h : Adjacent pointsTos o o') :
    o ∈ (coPointeeGraph pointsTos).keys := by
  obtain ⟨pts, hpts, -, ho, -, -⟩ := adjacent_iff.mp h
  exact (coPointeeGraph_spec pointsTos o o').1.mpr ⟨pts, hpts, .inr ho⟩

theorem sameRegion_iff :
    SameRegion pointsTos o o' ↔ ReflTransGen (Adjacent pointsTos) o o' := by
  constructor
  · intro h
    induction h with
    | refl => exact .refl
    | tail _ hstep ih =>
      obtain ⟨pts, hpts, hb, hc⟩ := hstep
      have hhub : ∀ x ∈ pts, ReflTransGen (Adjacent pointsTos) x (pts.head?.getD 0) ∧
          ReflTransGen (Adjacent pointsTos) (pts.head?.getD 0) x := by
        intro x hx
        by_cases heq : x = pts.head?.getD 0
        · rw [← heq]
          exact ⟨.refl, .refl⟩
        · have hf := head_mem hx
          exact ⟨.single (adjacent_iff.mpr ⟨pts, hpts, heq, hx, hf, .inr rfl⟩),
            .single (adjacent_iff.mpr ⟨pts, hpts, Ne.symm heq, hf, hx, .inl rfl⟩)⟩
      exact ih.trans ((hhub _ hb).1.trans (hhub _ hc).2)
  · intro h
    induction h with
    | refl => exact .refl
    | tail _ hstep ih => exact ih.trans hstep.sameRegion

theorem eq_of_not_mem_keys (hkeys : o ∉ (coPointeeGraph pointsTos).keys)
    (h : SameRegion pointsTos o o') : o = o' := by
  rcases ReflTransGen.cases_head (sameRegion_iff.mp h) with heq | ⟨x, hx, -⟩
  · exact heq
  · exact absurd hx.mem_keys hkeys

end

theorem SameRegion.lt {n o o' : ℕ} (hobj : ∀ pts ∈ pointsTos, ∀ o ∈ pts, o < n) (ho : o < n)
    (h : SameRegion pointsTos o o') : o' < n := by
  induction h with
  | refl => exact ho
  | tail _ hstep _ =>
    obtain ⟨pts, hpts, -, hc⟩ := hstep
    exact hobj pts hpts _ hc

-- ── The order in which the regions are met

open Classical in
/-- Going through a list, an object that is in the region of none before it is kept. -/
noncomputable def firstMets (pointsTos : List (List ℕ)) (reps : List ℕ) : List ℕ → List ℕ
  | [] => reps
  | o :: l => firstMets pointsTos
      (if ∃ r ∈ reps, SameRegion pointsTos r o then reps else reps ++ [o]) l

theorem firstMets_append (reps l l' : List ℕ) : firstMets pointsTos reps (l ++ l') =
    firstMets pointsTos (firstMets pointsTos reps l) l' := by
  induction l generalizing reps with
  | nil => rfl
  | cons o l ih => exact ih _

theorem subset_firstMets (reps l : List ℕ) : reps ⊆ firstMets pointsTos reps l := by
  induction l generalizing reps with
  | nil => exact .refl _
  | cons o l ih =>
    refine List.Subset.trans ?_ (ih _)
    split_ifs
    · exact .refl _
    · exact subset_append_left _ _

theorem firstMets_covers (reps l : List ℕ) : ∀ o ∈ l,
    ∃ r ∈ firstMets pointsTos reps l, SameRegion pointsTos r o := by
  induction l generalizing reps with
  | nil => exact nofun
  | cons a l ih =>
    intro o ho
    rcases mem_cons.mp ho with rfl | ho
    · rw [firstMets]
      split_ifs with h
      · obtain ⟨r, hr, hrel⟩ := h
        exact ⟨r, subset_firstMets _ _ hr, hrel⟩
      · refine ⟨o, subset_firstMets _ _ ?_, .refl⟩
        exact mem_append_right _ (mem_singleton_self o)
    · exact ih _ o ho

-- ── The labelling

structure Labelling where
  labels : List ℕ
  label : ℕ

structure Search where
  labels : List ℕ
  bfsQueue : List ℕ

/-- One round of the search; `none` where an assertion fails. -/
def visitFront (order : HashOrder) (graph : CoPointeeGraph) (label : ℕ) (s : Search) :
    Option Search :=
  match s.bfsQueue with
  | [] => none
  | o :: bfsQueue =>
    s.labels[o]?.bind fun old =>
      if old ≠ UINT_MAX then (if old = label then some { s with bfsQueue := bfsQueue } else none)
      else if o ∈ graph.keys then
        some ⟨s.labels.set o label, bfsQueue ++ order.iterate (graph.neighbours o)⟩
      else none

def labelFrom (order : HashOrder) (graph : CoPointeeGraph) (fuel : ℕ) (l : Labelling) (o : ℕ) :
    Option Labelling :=
  l.labels[o]?.bind fun old =>
    if old ≠ UINT_MAX then some l
    else
      let label := increment l.label
      (whileM (fun s => !s.bfsQueue.isEmpty) (visitFront order graph label) fuel
        ⟨l.labels, [o]⟩).map fun s => ⟨s.labels, label⟩

/-- The remaining objects have no relation with others: they get their own label. -/
def labelRemaining (l : Labelling) (o : ℕ) : Labelling :=
  if l.labels[o]? = some UINT_MAX then ⟨l.labels.set o (increment l.label), increment l.label⟩
  else l

def regionObjects (order : HashOrder) (graph : CoPointeeGraph) (numObjects fuel : ℕ) :
    Option (List ℕ × ℕ) :=
  ((order.iterate graph.keys).foldlM (labelFrom order graph fuel)
    ⟨List.replicate numObjects UINT_MAX, UINT_MAX⟩).map fun l =>
      let l := (List.range numObjects).foldl labelRemaining l
      (l.labels, increment l.label)

variable {n : ℕ} {order : HashOrder}

structure Labelled (pointsTos : List (List ℕ)) (n : ℕ) (reps : List ℕ) (l : Labelling) : Prop where
  length : l.labels.length = n
  counter : increment l.label = reps.length
  lt : ∀ r ∈ reps, r < n
  apart : reps.Pairwise fun r r' => ¬ SameRegion pointsTos r r'
  met : ∀ i r, reps[i]? = some r → ∀ o < n, SameRegion pointsTos r o → l.labels[o]? = some i
  unmet : ∀ o < n, (∀ r ∈ reps, ¬ SameRegion pointsTos r o) → l.labels[o]? = some UINT_MAX

variable {reps : List ℕ} {l : Labelling}

theorem length_le_of_apart (hlt : ∀ r ∈ reps, r < n)
    (hapart : reps.Pairwise fun r r' => ¬ SameRegion pointsTos r r') : reps.length ≤ n := by
  have hnodup : reps.Nodup := by
    refine hapart.imp ?_
    rintro r r' hne rfl
    exact hne .refl
  have hsub : reps.toFinset ⊆ Finset.range n := fun r hr =>
    Finset.mem_range.mpr (hlt r (mem_toFinset.mp hr))
  have := Finset.card_le_card hsub
  rwa [toFinset_card_of_nodup hnodup, Finset.card_range] at this

section

variable (h : Labelled pointsTos n reps l)
include h

theorem Labelled.length_le : reps.length ≤ n := length_le_of_apart h.lt h.apart

theorem Labelled.index_lt (hn : n ≤ UINT_MAX) {i r : ℕ}
    (hi : reps[i]? = some r) : i < UINT_MAX := by
  have := (List.getElem?_eq_some_iff.mp hi).1
  have := h.length_le
  omega

theorem Labelled.unmet_iff (hn : n ≤ UINT_MAX) {o : ℕ}
    (ho : o < n) : l.labels[o]? = some UINT_MAX ↔ ∀ r ∈ reps, ¬ SameRegion pointsTos r o := by
  refine ⟨fun hl r hr hrel => ?_, h.unmet o ho⟩
  obtain ⟨i, hi⟩ := mem_iff_getElem?.mp hr
  have hlt := h.index_lt hn hi
  rw [h.met i r hi o ho hrel] at hl
  have := Option.some.inj hl
  omega

theorem Labelled.snoc {o : ℕ} (ho : o < n)
    (hnew : ∀ r ∈ reps, ¬ SameRegion pointsTos r o) : (∀ r ∈ reps ++ [o], r < n) ∧
      (reps ++ [o]).Pairwise fun r r' => ¬ SameRegion pointsTos r r' := by
  constructor
  · intro r hr
    rcases mem_append.mp hr with hr | hr
    · exact h.lt r hr
    · rwa [mem_singleton.mp hr]
  · rw [pairwise_append]
    refine ⟨h.apart, pairwise_singleton _ o, fun r hr x hx => ?_⟩
    rw [mem_singleton.mp hx]
    exact hnew r hr

theorem Labelled.add (hn : n ≤ UINT_MAX) {o : ℕ} (ho : o < n)
    (hnew : ∀ r ∈ reps, ¬ SameRegion pointsTos r o) {labels : List ℕ} (hlen : labels.length = n)
    (hin : ∀ x < n, SameRegion pointsTos o x → labels[x]? = some reps.length)
    (hout : ∀ x < n, ¬ SameRegion pointsTos o x → labels[x]? = l.labels[x]?) :
    Labelled pointsTos n (reps ++ [o]) ⟨labels, increment l.label⟩ := by
  obtain ⟨hlt, hapart⟩ := h.snoc ho hnew
  refine ⟨hlen, ?_, hlt, hapart, ?_, ?_⟩
  · have hle := length_le_of_apart hlt hapart
    rw [length_append, length_singleton] at hle ⊢
    show increment (increment l.label) = reps.length + 1
    rw [h.counter, increment, Nat.mod_eq_of_lt (by omega)]
  · intro i r hi x hx hrel
    by_cases hlast : i < reps.length
    · rw [getElem?_append_left hlast] at hi
      have hne : ¬ SameRegion pointsTos o x := fun hox =>
        hnew r (mem_of_getElem? hi) (hrel.trans hox.symm)
      exact (hout x hx hne).trans (h.met i r hi x hx hrel)
    · have heq : i = reps.length := by
        have := (List.getElem?_eq_some_iff.mp hi).1
        rw [length_append, length_singleton] at this
        omega
      subst heq
      rw [getElem?_concat_length] at hi
      exact hin x hx (Option.some.inj hi ▸ hrel)
  · intro x hx hnone
    have hne : ¬ SameRegion pointsTos o x := hnone o (mem_append_right _ (mem_singleton_self o))
    exact (hout x hx hne).trans (h.unmet x hx fun r hr => hnone r (mem_append_left _ hr))

end

-- ── One search

/-- The search from `o`: only the region of `o` is touched, and what has been labelled has its
    neighbours labelled or in the queue. -/
structure Searching (pointsTos : List (List ℕ)) (n : ℕ) (before : List ℕ) (label o : ℕ)
    (s : Search) : Prop where
  length : s.labels.length = n
  queue : ∀ x ∈ s.bfsQueue, x < n ∧ SameRegion pointsTos o x
  start : o ∈ s.bfsQueue ∨ s.labels[o]? = some label
  inside : ∀ x < n, SameRegion pointsTos o x →
    s.labels[x]? = some label ∨ s.labels[x]? = some UINT_MAX
  outside : ∀ x < n, ¬ SameRegion pointsTos o x → s.labels[x]? = before[x]?
  closed : ∀ x < n, SameRegion pointsTos o x → s.labels[x]? = some label →
    ∀ y, Adjacent pointsTos x y → y ∈ s.bfsQueue ∨ s.labels[y]? = some label

variable {before : List ℕ} {label o : ℕ} {s : Search}

def searchMeasure (order : HashOrder) (graph : CoPointeeGraph) (n : ℕ) (s : Search) : ℕ :=
  (∑ x ∈ (Finset.range n).filter fun x => s.labels[x]? = some UINT_MAX,
    ((order.iterate (graph.neighbours x)).length + 1)) + s.bfsQueue.length

/-- **One round of the search.** No assertion fails. -/
theorem Searching.round (hobj : ∀ pts ∈ pointsTos, ∀ o ∈ pts, o < n) (hlabel : label < UINT_MAX)
    (ho : o ∈ (coPointeeGraph pointsTos).keys) (h : Searching pointsTos n before label o s)
    (hne : s.bfsQueue ≠ []) :
    ∃ s', visitFront order (coPointeeGraph pointsTos) label s = some s' ∧
      Searching pointsTos n before label o s' ∧
      searchMeasure order (coPointeeGraph pointsTos) n s' <
        searchMeasure order (coPointeeGraph pointsTos) n s := by
  obtain ⟨labels, bfsQueue⟩ := s
  cases bfsQueue with
  | nil => exact absurd rfl hne
  | cons x bfsQueue =>
    obtain ⟨hx, hrel⟩ := h.queue x mem_cons_self
    have hlen : labels.length = n := h.length
    rw [visitFront]
    rcases h.inside x hx hrel with hold | hold
    · -- the node has been labelled by this search
      refine ⟨⟨labels, bfsQueue⟩, ?_, ⟨hlen, ?_, ?_, h.inside, h.outside, ?_⟩, ?_⟩
      · show labels[x]?.bind _ = _
        rw [show labels[x]? = some label from hold, Option.bind_some, if_pos hlabel.ne, if_pos rfl]
      · exact (forall_mem_cons.mp h.queue).2
      · rcases h.start with hs | hs
        · rcases mem_cons.mp hs with rfl | hs
          · exact .inr hold
          · exact .inl hs
        · exact .inr hs
      · intro y hy hry hly z hz
        rcases h.closed y hy hry hly z hz with hq | hq
        · rcases mem_cons.mp hq with rfl | hq
          · exact .inr hold
          · exact .inl hq
        · exact .inr hq
      · exact Nat.add_lt_add_left (Nat.lt_succ_self bfsQueue.length) _
    · -- the node is new
      have hkeys : x ∈ (coPointeeGraph pointsTos).keys := by
        by_contra hnot
        exact hnot (eq_of_not_mem_keys hnot hrel.symm ▸ ho)
      have hset : ∀ y, (labels.set x label)[y]? =
          if y = x then some label else labels[y]? := by
        intro y
        by_cases hy : y = x
        · subst hy
          rw [if_pos rfl, getElem?_set_self (by omega)]
        · rw [if_neg hy, getElem?_set_ne (Ne.symm hy)]
      refine ⟨⟨labels.set x label,
        bfsQueue ++ order.iterate ((coPointeeGraph pointsTos).neighbours x)⟩, ?_,
        ⟨?_, ?_, ?_, ?_, ?_, ?_⟩, ?_⟩
      · show labels[x]?.bind _ = _
        rw [show labels[x]? = some UINT_MAX from hold, Option.bind_some,
          if_neg (not_not.mpr rfl), if_pos hkeys]
      · show (labels.set x label).length = n
        rw [length_set, hlen]
      · intro y hy
        rcases mem_append.mp hy with hy | hy
        · exact h.queue y (mem_cons_of_mem x hy)
        · have hadj : Adjacent pointsTos x y := order.mem_iterate.mp hy
          have hxy := hadj.sameRegion
          exact ⟨hxy.lt hobj hx, hrel.trans hxy⟩
      · show _ ∨ (labels.set x label)[o]? = _
        rw [hset]
        rcases h.start with hs | hs
        · rcases mem_cons.mp hs with rfl | hs
          · exact .inr (if_pos rfl)
          · exact .inl (mem_append_left _ hs)
        · exact .inr (by split_ifs; exacts [rfl, hs])
      · intro y hy hry
        show (labels.set x label)[y]? = _ ∨ (labels.set x label)[y]? = _
        rw [hset]
        split_ifs
        · exact .inl rfl
        · exact h.inside y hy hry
      · intro y hy hry
        show (labels.set x label)[y]? = _
        rw [hset, if_neg (by rintro rfl; exact hry hrel)]
        exact h.outside y hy hry
      · intro y hy hry hly z hz
        show _ ∨ (labels.set x label)[z]? = _
        have hly : (labels.set x label)[y]? = some label := hly
        rw [hset] at hly ⊢
        by_cases hyx : y = x
        · subst hyx
          exact .inl (mem_append_right _ (order.mem_iterate.mpr hz))
        · rw [if_neg hyx] at hly
          rcases h.closed y hy hry hly z hz with hq | hq
          · rcases mem_cons.mp hq with rfl | hq
            · exact .inr (if_pos rfl)
            · exact .inl (mem_append_left _ hq)
          · exact .inr (by split_ifs; exacts [rfl, hq])
      · have hfilter : ((Finset.range n).filter fun y => (labels.set x label)[y]? = some UINT_MAX) =
            ((Finset.range n).filter fun y => labels[y]? = some UINT_MAX).erase x := by
          ext y
          rw [Finset.mem_erase, Finset.mem_filter, Finset.mem_filter, hset]
          split_ifs with hyx
          · have : ¬ some label = some UINT_MAX := fun heq => hlabel.ne (Option.some.inj heq)
            simp [hyx, this]
          · simp [hyx]
        have hmem : x ∈ (Finset.range n).filter fun y => labels[y]? = some UINT_MAX :=
          Finset.mem_filter.mpr ⟨Finset.mem_range.mpr hx, hold⟩
        have hsum := Finset.add_sum_erase _ (fun y =>
          (order.iterate ((coPointeeGraph pointsTos).neighbours y)).length + 1) hmem
        show (∑ y ∈ (Finset.range n).filter fun y =>
            (labels.set x label)[y]? = some UINT_MAX, _) + _ < _
        rw [hfilter, searchMeasure, length_append, length_cons]
        simp only at hsum ⊢
        omega

variable (order) in
/-- **A search labels one region**: that of the node it starts from. -/
theorem search_labels (hobj : ∀ pts ∈ pointsTos, ∀ o ∈ pts, o < n) (hlabel : label < UINT_MAX)
    (ho : o ∈ (coPointeeGraph pointsTos).keys) (hon : o < n) (hlen : before.length = n)
    (hnone : ∀ x < n, SameRegion pointsTos o x → before[x]? = some UINT_MAX) :
    ∃ s, Stops (fun fuel => whileM (fun s => !s.bfsQueue.isEmpty)
        (visitFront order (coPointeeGraph pointsTos) label) fuel ⟨before, [o]⟩) s ∧
      s.labels.length = n ∧ (∀ x < n, SameRegion pointsTos o x → s.labels[x]? = some label) ∧
      ∀ x < n, ¬ SameRegion pointsTos o x → s.labels[x]? = before[x]? := by
  have hinit : Searching pointsTos n before label o ⟨before, [o]⟩ := by
    refine ⟨hlen, ?_, .inl (mem_singleton_self o), fun x hx hrel => .inr (hnone x hx hrel),
      fun _ _ _ => rfl, ?_⟩
    · intro x hx
      rw [mem_singleton.mp hx]
      exact ⟨hon, .refl⟩
    · intro x hx hrel hlx
      have := Option.mem_unique hlx (hnone x hx hrel)
      omega
  have hround : ∀ s : Search, Searching pointsTos n before label o s → (!s.bfsQueue.isEmpty) → ∃ s',
        visitFront order (coPointeeGraph pointsTos) label s = some s' ∧
        Searching pointsTos n before label o s' ∧
        searchMeasure order (coPointeeGraph pointsTos) n s' <
          searchMeasure order (coPointeeGraph pointsTos) n s :=
    fun s hs hc => hs.round hobj hlabel ho (by simpa using hc)
  obtain ⟨s, hstops, hs, hcond⟩ := whileM_total hround hinit
  have hempty : s.bfsQueue = [] := by simpa using hcond
  refine ⟨s, hstops, hs.length, ?_, hs.outside⟩
  intro x hx hrel
  -- along the edges from `o`, everything is labelled
  have hall : x < n ∧ SameRegion pointsTos o x ∧ s.labels[x]? = some label := by
    clear hx
    induction sameRegion_iff.mp hrel with
    | refl => exact ⟨hon, .refl, hs.start.resolve_left (by simp [hempty])⟩
    | tail hpath hadj ih =>
      obtain ⟨hy, hoy, hly⟩ := ih (sameRegion_iff.mpr hpath)
      refine ⟨hadj.sameRegion.lt hobj hy, hoy.trans hadj.sameRegion, ?_⟩
      exact (hs.closed _ hy hoy hly _ hadj).resolve_left (by simp [hempty])
  exact hall.2.2

-- ── The whole labelling

variable (order) in
open Classical in
theorem Labelled.labelFrom (h : Labelled pointsTos n reps l) (hn : n ≤ UINT_MAX)
    (hobj : ∀ pts ∈ pointsTos, ∀ o ∈ pts, o < n) (ho : o ∈ (coPointeeGraph pointsTos).keys)
    (hon : o < n) : ∃ l',
      Stops (fun fuel => labelFrom order (coPointeeGraph pointsTos) fuel l o) l' ∧
      Labelled pointsTos n (firstMets pointsTos reps [o]) l' := by
  have hlt : o < l.labels.length := by rw [h.length]; exact hon
  by_cases hmet : ∃ r ∈ reps, SameRegion pointsTos r o
  · refine ⟨l, ⟨0, fun fuel _ => ?_⟩, ?_⟩
    · have hne : l.labels[o] ≠ UINT_MAX := by
        intro heq
        obtain ⟨r, hr, hrel⟩ := hmet
        refine (h.unmet_iff hn hon).mp ?_ r hr hrel
        rw [getElem?_eq_getElem hlt, heq]
      show SvfClusterer.labelFrom order _ fuel l o = some l
      rw [SvfClusterer.labelFrom, getElem?_eq_getElem hlt, Option.bind_some, if_pos hne]
    · rw [firstMets, firstMets, if_pos hmet]
      exact h
  · have hnew : ∀ r ∈ reps, ¬ SameRegion pointsTos r o := fun r hr hrel => hmet ⟨r, hr, hrel⟩
    have hbound : reps.length < UINT_MAX := by
      obtain ⟨hlt', hapart⟩ := h.snoc hon hnew
      have hle := length_le_of_apart hlt' hapart
      rw [length_append, length_singleton] at hle
      omega
    have hnone : ∀ x < n, SameRegion pointsTos o x → l.labels[x]? = some UINT_MAX :=
      fun x hx hrel => h.unmet x hx fun r hr hrx => hnew r hr (hrx.trans hrel.symm)
    obtain ⟨s, hstops, hlen, hin, hout⟩ := search_labels order hobj
      (h.counter.trans_lt hbound) ho hon h.length hnone
    refine ⟨⟨s.labels, increment l.label⟩, ?_, ?_⟩
    · refine (hstops.map fun s => Labelling.mk s.labels (increment l.label)).congr
        (n := 0) fun fuel _ => ?_
      rw [SvfClusterer.labelFrom, hnone o hon .refl, Option.bind_some, if_neg (not_not.mpr rfl)]
    · rw [firstMets, firstMets, if_neg hmet]
      refine h.add hn hon hnew hlen (fun x hx hrel => ?_) hout
      rw [hin x hx hrel, h.counter]

open Classical in
theorem Labelled.labelRemaining (h : Labelled pointsTos n reps l) (hn : n ≤ UINT_MAX)
    (hkeys : ∀ o ∈ (coPointeeGraph pointsTos).keys, ∃ r ∈ reps, SameRegion pointsTos r o)
    (hon : o < n) : Labelled pointsTos n (firstMets pointsTos reps [o]) (labelRemaining l o) := by
  rw [SvfClusterer.labelRemaining, firstMets, firstMets]
  by_cases hmet : ∃ r ∈ reps, SameRegion pointsTos r o
  · rw [if_pos hmet, if_neg]
    · exact h
    · intro hl
      obtain ⟨r, hr, hrel⟩ := hmet
      exact (h.unmet_iff hn hon).mp hl r hr hrel
  · have hnew : ∀ r ∈ reps, ¬ SameRegion pointsTos r o := fun r hr hrel => hmet ⟨r, hr, hrel⟩
    have halone : ∀ x, SameRegion pointsTos o x → o = x :=
      fun x => eq_of_not_mem_keys fun hmem => hmet (hkeys o hmem)
    rw [if_neg hmet, if_pos (h.unmet o hon hnew)]
    refine h.add hn hon hnew (by rw [length_set, h.length]) ?_ ?_
    · intro x hx hrel
      have heq := halone x hrel
      subst heq
      rw [getElem?_set_self (by rw [h.length]; exact hon), h.counter]
    · intro x hx hrel
      refine getElem?_set_ne fun heq => hrel ?_
      exact heq ▸ .refl

variable (order) in
theorem Labelled.labelFroms (hn : n ≤ UINT_MAX) (hobj : ∀ pts ∈ pointsTos, ∀ o ∈ pts, o < n) :
    ∀ (keys : List ℕ) (reps : List ℕ) (l : Labelling), Labelled pointsTos n reps l →
      (∀ o ∈ keys, o ∈ (coPointeeGraph pointsTos).keys ∧ o < n) →
      ∃ l', Stops (fun fuel =>
          keys.foldlM (SvfClusterer.labelFrom order (coPointeeGraph pointsTos) fuel) l) l' ∧
        Labelled pointsTos n (firstMets pointsTos reps keys) l' := by
  intro keys
  induction keys with
  | nil => exact fun reps l h _ => ⟨l, ⟨0, fun _ _ => rfl⟩, h⟩
  | cons o keys ih =>
    intro reps l h hkeys
    obtain ⟨ho, hon⟩ := hkeys o mem_cons_self
    obtain ⟨l1, hstops1, h1⟩ := h.labelFrom order hn hobj ho hon
    obtain ⟨l2, hstops2, h2⟩ := ih _ l1 h1 (forall_mem_cons.mp hkeys).2
    refine ⟨l2, ?_, h2⟩
    exact hstops1.bind hstops2

theorem Labelled.labelRemainings (hn : n ≤ UINT_MAX) :
    ∀ (objs : List ℕ) (reps : List ℕ) (l : Labelling), Labelled pointsTos n reps l →
      (∀ o ∈ (coPointeeGraph pointsTos).keys, ∃ r ∈ reps, SameRegion pointsTos r o) →
      (∀ o ∈ objs, o < n) →
      Labelled pointsTos n (firstMets pointsTos reps objs)
        (objs.foldl SvfClusterer.labelRemaining l) := by
  intro objs
  induction objs with
  | nil => exact fun reps l h _ _ => h
  | cons o objs ih =>
    intro reps l h hkeys hobjs
    refine ih _ _ (h.labelRemaining hn hkeys (hobjs o mem_cons_self)) ?_
      (forall_mem_cons.mp hobjs).2
    intro x hx
    obtain ⟨r, hr, hrel⟩ := hkeys x hx
    exact ⟨r, subset_firstMets reps [o] hr, hrel⟩

/-- The objects whose regions the labels count. -/
noncomputable def regionReps (order : HashOrder) (pointsTos : List (List ℕ)) (n : ℕ) : List ℕ :=
  firstMets pointsTos [] (order.iterate (coPointeeGraph pointsTos).keys ++ List.range n)

variable (order) in
/-- **`regionObjects` labels the regions**, in the order in which they are met. -/
theorem regionObjects_labels (hpos : 0 < n) (hn : n ≤ UINT_MAX)
    (hobj : ∀ pts ∈ pointsTos, ∀ o ∈ pts, o < n) : ∃ l,
      Stops (regionObjects order (coPointeeGraph pointsTos) n)
        (l.labels, (regionReps order pointsTos n).length) ∧
      Labelled pointsTos n (regionReps order pointsTos n) l ∧
      ∀ o < n, ∃ r ∈ regionReps order pointsTos n, SameRegion pointsTos r o := by
  have hinit : Labelled pointsTos n [] ⟨List.replicate n UINT_MAX, UINT_MAX⟩ := by
    have hcounter : increment UINT_MAX = 0 := by decide
    refine ⟨length_replicate, hcounter, ?_, .nil, ?_, ?_⟩
    · exact nofun
    · intro i r hi
      rw [getElem?_nil] at hi
      cases hi.symm
    · intro o ho _
      rw [getElem?_replicate, if_pos ho]
  have hkeys : ∀ o ∈ order.iterate (coPointeeGraph pointsTos).keys,
      o ∈ (coPointeeGraph pointsTos).keys ∧ o < n := by
    intro o ho
    have hmem := order.mem_iterate.mp ho
    refine ⟨hmem, ?_⟩
    obtain ⟨pts, hpts, hor⟩ := (coPointeeGraph_spec pointsTos o 0).1.mp hmem
    cases pts with
    | nil =>
      rcases hor with rfl | hor
      · exact hpos
      · cases hor
    | cons a pts =>
      have hor' : o = a ∨ o ∈ a :: pts := hor
      refine hobj _ hpts o ?_
      rcases hor' with heq | hor'
      · exact heq ▸ mem_cons_self
      · exact hor'
  obtain ⟨l, hstops, hl⟩ := Labelled.labelFroms order hn hobj _ [] _ hinit hkeys
  have hrest := hl.labelRemainings hn (List.range n) _ _
    (fun o ho => firstMets_covers [] _ o (order.mem_iterate.mpr ho)) fun o => mem_range.mp
  rw [← firstMets_append] at hrest
  refine ⟨_, ?_, hrest, fun o ho => ?_⟩
  · have hmap := hstops.map fun l => (((List.range n).foldl labelRemaining l).labels,
      increment ((List.range n).foldl labelRemaining l).label)
    simp only [hrest.counter] at hmap
    exact hmap
  · exact firstMets_covers [] _ o (mem_append_right _ (mem_range.mpr ho))

variable (order) in
/-- **The labels are the components of the graph**: they are the numbers below the count, every
    object has one, and two objects have the same exactly if the graph connects them. The
    allocator counts objects from four on, and an object id is a 32-bit `NodeID`. -/
theorem regionObjects_components (hpos : 0 < n) (hn : n ≤ UINT_MAX)
    (hobj : ∀ pts ∈ pointsTos, ∀ o ∈ pts, o < n) : ∃ labels numLabels,
      Stops (regionObjects order (coPointeeGraph pointsTos) n) (labels, numLabels) ∧
      (∀ o < n, ∃ label < numLabels, labels[o]? = some label) ∧
      (∀ label < numLabels, ∃ o < n, labels[o]? = some label) ∧
      ∀ o < n, ∀ o' < n,
        labels[o]? = labels[o']? ↔ ReflTransGen (Adjacent pointsTos) o o' := by
  obtain ⟨l, hstops, hl, hcover⟩ := regionObjects_labels order hpos hn hobj
  have hlabel : ∀ o < n, ∃ i r, (regionReps order pointsTos n)[i]? = some r ∧
      SameRegion pointsTos r o ∧ l.labels[o]? = some i := by
    intro o ho
    obtain ⟨r, hr, hrel⟩ := hcover o ho
    obtain ⟨i, hi⟩ := mem_iff_getElem?.mp hr
    exact ⟨i, r, hi, hrel, hl.met i r hi o ho hrel⟩
  refine ⟨l.labels, _, hstops, fun o ho => ?_, fun label hlt => ?_, fun o ho o' ho' => ?_⟩
  · obtain ⟨i, r, hi, -, hlab⟩ := hlabel o ho
    exact ⟨i, (List.getElem?_eq_some_iff.mp hi).1, hlab⟩
  · have hi := List.getElem?_eq_getElem hlt
    have hr := hl.lt _ (getElem_mem hlt)
    exact ⟨_, hr, hl.met label _ hi _ hr .refl⟩
  · obtain ⟨i, r, hi, hrel, hlab⟩ := hlabel o ho
    rw [← sameRegion_iff]
    constructor
    · intro heq
      obtain ⟨i', r', hi', hrel', hlab'⟩ := hlabel o' ho'
      obtain rfl : i = i' := by simpa [hlab, hlab'] using heq
      obtain rfl : r = r' := Option.mem_unique hi hi'
      exact hrel.symm.trans hrel'
    · intro hsame
      rw [hlab, hl.met i r hi o' ho' (hrel.trans hsame)]

theorem regionObjects_components_chain : ∃ labels numLabels,
    Stops (regionObjects ⟨id, Iff.rfl⟩ (coPointeeGraph [[0, 2], [2, 3]]) 5) (labels, numLabels) ∧
      labels[0]? = labels[3]? := by
  have hobj : ∀ pts ∈ [[0, 2], [2, 3]], ∀ o ∈ pts, o < 5 := by decide
  obtain ⟨labels, numLabels, hstops, -, -, halike⟩ :=
    regionObjects_components ⟨id, .rfl⟩ (by decide) (by decide) hobj
  have h02 : SameRegion [[0, 2], [2, 3]] 0 2 :=
    sameRegion_of_mem mem_cons_self (by decide) (by decide)
  have h23 : SameRegion [[0, 2], [2, 3]] 2 3 :=
    sameRegion_of_mem (mem_cons_of_mem _ mem_cons_self) (by decide) (by decide)
  exact ⟨labels, numLabels, hstops,
    (halike 0 (by decide) 3 (by decide)).mpr (sameRegion_iff.mp (h02.trans h23))⟩

end SvfClusterer
