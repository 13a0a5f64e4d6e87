import SvfModel.SearchProofs
import SvfModel.LoopProofs

/-!
# `MTASVFGBuilder::readPrecision`

An indirect edge from a store to a store `n1` loses an object if every load and store that uses
the object next behind `n1` also uses it next behind the source. All edges are judged in the
graph as it is found, and what is recorded is removed together.

Each of several edges may be redundant only because of the others. Still no load is cut off: a
way to a load goes from one next use to the next, and where the first edge of it is gone, what
comes behind its target comes right behind its source, so the way gets shorter by one
(`Redundant.transGen_iff`). **`readPrecision_reaches`** is this for the graph and all orders.
-/

namespace SvfReadPrecision

open SvfLoop SvfSearch Relation List
open Finset (coe_empty mem_coe mem_erase mem_insert mem_sdiff mem_union notMem_empty)

-- ── Redundant steps

section Redundant

variable {X : Type} {step step' : X → X → Prop} {stop end' : X → Prop} {x y : X}

/-- The stops right behind a node. -/
def Next (step : X → X → Prop) (stop : X → Prop) (x y : X) : Prop :=
  stop y ∧ y ∈ Reach (fun d e => ¬ stop d ∧ step d e) {z | step x z}

/-- Steps are lost only between stops, and only where the stops right behind the target, which
    is no end, are right behind the source. -/
structure Redundant (step step' : X → X → Prop) (stop end' : X → Prop) : Prop where
  end_stop : ∀ y, end' y → stop y
  kept : ∀ x y, step' x y → step x y
  lost : ∀ x y, step x y → ¬ step' x y →
    stop x ∧ stop y ∧ ¬ end' y ∧ ∀ z, Next step stop y z → Next step stop x z

theorem transGen_next (h : TransGen step x y) (hy : stop y) : TransGen (Next step stop) x y := by
  induction h using TransGen.head_induction_on with
  | single h => exact .single ⟨hy, _, h, .refl⟩
  | @head x z hxz _ ih =>
    by_cases hz : stop z
    · exact .head ⟨hz, z, hxz, .refl⟩ ih
    · obtain ⟨w, ⟨hw, v, hzv, hvw⟩, hrest⟩ := TransGen.head'_iff.mp ih
      exact TransGen.head' ⟨hw, z, hxz, .head ⟨hz, hzv⟩ hvw⟩ hrest

namespace Redundant

variable (hred : Redundant step step' stop end')
include hred

/-- A stop is still reached, or passing it over loses nothing. -/
theorem next_cases (h : Next step stop x y) :
    TransGen step' x y ∨ ¬ end' y ∧ ∀ z, Next step stop y z → Next step stop x z := by
  obtain ⟨-, z, hxz, hzy⟩ := h
  have hthrough : ReflTransGen step' z y := by
    refine ReflTransGen.mono (fun a b hab => ?_) _ _ hzy
    by_contra hlost
    exact hab.1 (hred.lost a b hab.2 hlost).1
  by_cases hkept : step' x z
  · exact .inl (TransGen.head' hkept hthrough)
  · obtain ⟨-, hz, hend, hnext⟩ := hred.lost x z hxz hkept
    rcases ReflTransGen.cases_head hzy with rfl | ⟨w, hzw, -⟩
    · exact .inr ⟨hend, hnext⟩
    · exact absurd hz hzw.1

/-- **Redundant steps are lost together** without a loss of ends. -/
theorem transGen_iff (hy : end' y) : TransGen step' x y ↔ TransGen step x y := by
  constructor
  · exact fun h => TransGen.mono hred.kept _ _ h
  · intro h
    -- by induction on the stops, for every node that they are right behind
    have hbehind : ∀ s, TransGen (Next step stop) s y →
        ∀ x, (∀ z, Next step stop s z → Next step stop x z) → TransGen step' x y := by
      intro s hs
      induction hs using TransGen.head_induction_on with
      | single hs =>
        intro x hx
        exact (hred.next_cases (hx y hs)).resolve_right fun hlost => hlost.1 hy
      | @head s t hst _ ih =>
        intro x hx
        rcases hred.next_cases (hx t hst) with hxt | ⟨-, hnext⟩
        · exact hxt.trans (ih t fun _ => id)
        · exact ih x hnext
    exact hbehind x (transGen_next h (hred.end_stop y hy)) x fun _ => id

end Redundant

end Redundant

-- ── The search for stops

abbrev NodeID := ℕ

structure NodeSearch where
  worklist : Finset NodeID
  visited : Finset NodeID
  found : Finset NodeID

section Search

variable (front : Finset NodeID → NodeID) (next : NodeID → Finset NodeID) (isStop : NodeID → Bool)

def searchBody (s : NodeSearch) : NodeSearch :=
  let node := front s.worklist
  let worklist := s.worklist.erase node
  let visited := insert node s.visited
  if isStop node then ⟨worklist, visited, insert node s.found⟩
  else ⟨worklist ∪ (next node).filter (· ∉ visited), visited, s.found⟩

def searchNodes (n : NodeID) (fuel : ℕ) : Option (Finset NodeID) :=
  (whileM (fun s : NodeSearch => !decide (s.worklist = ∅)) (fun s => some (searchBody front next isStop s))
    fuel ⟨next n, ∅, ∅⟩).map NodeSearch.found

/-- What holds between two rounds. -/
structure Searched (known : Finset NodeID) (n : NodeID) (s : NodeSearch) : Prop where
  search : Searching (fun d e => ¬ isStop d = true ∧ e ∈ next d) (next n) s.worklist
    (s.visited ∪ s.worklist) s.visited
  fresh : Disjoint s.worklist s.visited
  known : s.worklist ⊆ known
  stops : ∀ y, y ∈ s.found ↔ y ∈ s.visited ∧ isStop y = true

variable {front next isStop} {known : Finset NodeID} {n : NodeID} {s : NodeSearch}
  (hmem : ∀ s : Finset NodeID, s.Nonempty → front s ∈ s) (hknown : ∀ n, next n ⊆ known)
include hmem hknown

theorem Searched.body (h : Searched next isStop known n s) (hne : s.worklist.Nonempty) :
    Searched next isStop known n (searchBody front next isStop s) ∧
      (searchBody front next isStop s).visited = insert (front s.worklist) s.visited := by
  have hfront := hmem s.worklist hne
  have hW : ∀ d, d ∈ (searchBody front next isStop s).worklist ↔
      (d ≠ front s.worklist ∧ d ∈ s.worklist) ∨
        (¬ isStop (front s.worklist) ∧ d ∈ next (front s.worklist)) ∧
          d ∉ insert (front s.worklist) s.visited := by
    intro d
    rw [searchBody]
    split_ifs with hstop
    · rw [mem_erase, or_iff_left fun hd => hd.1.1 hstop]
    · rw [mem_union, mem_erase, Finset.mem_filter, and_iff_right hstop]
  have hV : (searchBody front next isStop s).visited = insert (front s.worklist) s.visited := by
    rw [searchBody]
    split_ifs <;> rfl
  have hS : ∀ y, y ∈ (searchBody front next isStop s).found ↔
      y ∈ s.found ∨ y = front s.worklist ∧ isStop y := by
    intro y
    rw [searchBody]
    split_ifs with hstop
    · rw [mem_insert, or_comm]
      exact or_congr_right ⟨fun hy => ⟨hy, hy ▸ hstop⟩, And.left⟩
    · refine (or_iff_left ?_).symm
      rintro ⟨rfl, hy⟩
      exact hstop hy
  generalize searchBody front next isStop s = t at hW hV hS ⊢
  generalize front s.worklist = node at hfront hW hV hS ⊢
  have hround := h.search.round (e := node) hfront
  have hvisited : ∀ d, d ∈ t.visited ↔ d = node ∨ d ∈ s.visited := fun d => by
    rw [hV, mem_insert]
  have hworklist : (t.worklist : Set NodeID) = ↑s.worklist \ {node} ∪
      {d | (¬ isStop node ∧ d ∈ next node) ∧ d ∉ (↑s.visited ∪ ↑s.worklist : Set NodeID)} := by
    ext d
    have hd := hW d
    have hnode : d = node → d ∈ s.worklist := fun hd => hd ▸ hfront
    simp only [Set.mem_union, Set.mem_sdiff, Set.mem_singleton_iff, Set.mem_ofPred_eq,
      mem_coe, mem_insert] at hd ⊢
    tauto
  have hmarked : (t.visited ∪ t.worklist : Set NodeID) =
      ↑s.visited ∪ ↑s.worklist ∪ {d | ¬ isStop node ∧ d ∈ next node} := by
    ext d
    have hd := hW d
    have hdv := hvisited d
    have hnode : d = node → d ∈ s.worklist := fun hd => hd ▸ hfront
    simp only [Set.mem_union, Set.mem_ofPred_eq, mem_coe, mem_insert] at hd ⊢
    tauto
  refine ⟨⟨?_, ?_, ?_, fun y => ?_⟩, hV⟩
  · rw [hmarked, hworklist, hV, Finset.coe_insert]
    exact hround
  · rw [Finset.disjoint_left]
    intro d hd hdv
    rw [hvisited] at hdv
    rcases (hW d).mp hd with ⟨hne, hd⟩ | ⟨-, hnew⟩
    · exact Finset.disjoint_left.mp h.fresh hd (hdv.resolve_left hne)
    · exact hnew (mem_insert.mpr hdv)
  · intro d hd
    rcases (hW d).mp hd with ⟨-, hd⟩ | ⟨⟨-, hd⟩, -⟩
    · exact h.known hd
    · exact hknown node hd
  · rw [hS, hvisited, h.stops, or_and_right, or_comm]

/-- **The search** finds the stops right behind `n`. -/
theorem searchNodes_spec (n : NodeID) : ∃ found, Stops (searchNodes front next isStop n) found ∧
    ∀ y, y ∈ found ↔ Next (fun x y => y ∈ next x) (fun d => isStop d) n y := by
  have hstart : Searched next isStop known n ⟨next n, ∅, ∅⟩ := by
    refine ⟨?_, Finset.disjoint_empty_right _, hknown n, fun y => ?_⟩
    · rw [coe_empty, Set.empty_union]
      refine ⟨⟨Set.subset_union_right, Set.subset_union_right, ?_⟩, fun d hd => absurd hd ?_⟩
      · rw [Set.empty_union, Set.union_self]
        exact subset_reach
      · exact Set.notMem_empty d
    · exact iff_of_false (notMem_empty y) fun hy => notMem_empty y hy.1
  have hbody : ∀ s, Searched next isStop known n s → (!decide (s.worklist = ∅)) → ∃ s',
      (some (searchBody front next isStop s) : Option NodeSearch) = some s' ∧
        Searched next isStop known n s' ∧ (known \ s'.visited).card < (known \ s.visited).card := by
    intro s hs hc
    have hne : s.worklist.Nonempty := by
      rw [Bool.not_eq_true', decide_eq_false_iff_not] at hc
      exact Finset.nonempty_iff_ne_empty.mpr hc
    obtain ⟨hbody, hvisited⟩ := hs.body hmem hknown hne
    have hfront := hmem s.worklist hne
    refine ⟨_, rfl, hbody, Finset.card_lt_card (Finset.ssubset_iff_of_subset ?_ |>.mpr ?_)⟩
    · rw [hvisited]
      exact Finset.sdiff_subset_sdiff subset_rfl (Finset.subset_insert _ _)
    · refine ⟨front s.worklist, mem_sdiff.mpr ⟨hs.known hfront, ?_⟩, fun hmem => ?_⟩
      · exact Finset.disjoint_left.mp hs.fresh hfront
      · rw [hvisited] at hmem
        exact (mem_sdiff.mp hmem).2 (Finset.mem_insert_self _ _)
  obtain ⟨t, hstops, hinv, hdone⟩ := whileM_total hbody hstart
  refine ⟨t.found, hstops.map NodeSearch.found, fun y => ?_⟩
  have hempty : t.worklist = ∅ := of_decide_eq_true ((Bool.not_eq_false' _).mp hdone)
  have hsearch := hinv.search
  rw [hempty, coe_empty] at hsearch
  rw [hinv.stops, and_comm, ← mem_coe, hsearch.done]
  rfl

end Search

-- ── The graph

abbrev NodeIDPair := NodeID × NodeID

inductive SVFGNodeK | Store | Load | Other
deriving DecidableEq

structure SVFGEdge where
  src : NodeID
  dst : NodeID
  isIndirectVFGEdge : Bool
  pts : Finset NodeID
deriving DecidableEq

structure SVFG where
  nodes : List NodeID
  kind : NodeID → SVFGNodeK
  getInst : NodeID → Bool
  edges : List SVFGEdge

namespace SVFG

def stnodeSet (svfg : SVFG) : List NodeID :=
  svfg.nodes.filter fun n => svfg.kind n = .Store ∧ svfg.getInst n

def isUse (svfg : SVFG) (n : NodeID) : Bool := svfg.kind n = .Store || svfg.kind n = .Load

def outNodes (svfg : SVFG) (o n : NodeID) : Finset NodeID :=
  ((svfg.edges.filter fun e => e.src = n ∧ e.isIndirectVFGEdge ∧ o ∈ e.pts).map SVFGEdge.dst).toFinset

end SVFG

structure Orders (svfg : SVFG) where
  stnodes : List NodeID
  inEdges : NodeID → List SVFGEdge
  pairs : Finset NodeIDPair → List NodeIDPair
  front : Finset NodeID → NodeID
  mem_stnodes : ∀ n, n ∈ stnodes ↔ n ∈ svfg.stnodeSet
  mem_inEdges : ∀ n e, e ∈ inEdges n ↔ e ∈ svfg.edges ∧ e.dst = n
  mem_pairs : ∀ s p, p ∈ pairs s ↔ p ∈ s
  front_mem : ∀ s : Finset NodeID, s.Nonempty → front s ∈ s

variable (svfg : SVFG) (ord : Orders svfg)

def getSuccNodes (n o : NodeID) (fuel : ℕ) : Option (Finset NodeID) :=
  searchNodes ord.front (svfg.outNodes o) svfg.isUse n fuel

structure Recorded where
  recordedges : Finset NodeIDPair
  edge2pts : NodeIDPair → Finset NodeID

def recordEdge (r : Recorded) (id1 id2 : NodeID) (pts : Finset NodeID) : Recorded :=
  let pair := (id1, id2)
  if pair ∉ r.recordedges then ⟨insert pair r.recordedges, Function.update r.edge2pts pair pts⟩
  else { r with edge2pts := Function.update r.edge2pts pair (r.edge2pts pair ∪ pts) }

def recordRemovingEdge (r : Recorded) (id1 id2 : NodeID) (pts : Finset NodeID) : Recorded :=
  recordEdge r id1 id2 pts

section ReadPrecision

variable (succ : NodeID → NodeID → Finset NodeID)

def examine (n1 : NodeID) (r : Recorded) (edge : SVFGEdge) : Recorded :=
  if edge.isIndirectVFGEdge && svfg.kind edge.src = .Store then
    let n2 := edge.src
    let remove_pts := edge.pts.filter fun o => succ n1 o ⊆ succ n2 o
    if remove_pts.card ≠ 0 then recordRemovingEdge r n2 n1 remove_pts else r
  else r

/-- What is recorded when all stores have been examined. -/
def recordAll : Recorded :=
  ord.stnodes.foldl (fun r n1 => (ord.inEdges n1).foldl (examine svfg succ n1) r) ⟨∅, fun _ => ∅⟩

/-- An edge when the objects recorded for a pair are removed; `none` if it goes. -/
def removeFrom (pair : NodeIDPair) (remove_pts : Finset NodeID) (edge : SVFGEdge) : Option SVFGEdge :=
  if edge.src = pair.1 ∧ edge.isIndirectVFGEdge ∧ edge.dst = pair.2 then
    let pts := edge.pts \ remove_pts
    if pts.card = 0 then none else some { edge with pts := pts }
  else some edge

def performRemovingMHPEdges (r : Recorded) : SVFG :=
  { svfg with
    edges := (ord.pairs r.recordedges).foldl
      (fun edges pair => edges.filterMap (removeFrom pair (r.edge2pts pair))) svfg.edges }

/-- `readPrecision()`, where `succ n o` is what `getSuccNodes(n, o)` returns. -/
def readPrecision : SVFG := performRemovingMHPEdges svfg ord (recordAll svfg ord succ)

end ReadPrecision

-- ── The next uses

def Labelled (edges : List SVFGEdge) (o x y : NodeID) : Prop :=
  ∃ e ∈ edges, e.src = x ∧ e.isIndirectVFGEdge ∧ e.dst = y ∧ o ∈ e.pts

def SVFG.ReachesLoad (svfg : SVFG) (o n ld : NodeID) : Prop :=
  svfg.kind ld = .Load ∧ TransGen (Labelled svfg.edges o) n ld

variable {svfg : SVFG} {ord : Orders svfg} {o : NodeID}

theorem mem_outNodes {x y : NodeID} : y ∈ svfg.outNodes o x ↔ Labelled svfg.edges o x y := by
  rw [SVFG.outNodes, mem_toFinset, mem_map, Labelled]
  refine exists_congr fun e => ?_
  rw [mem_filter, decide_eq_true_eq]
  tauto

variable (svfg ord) in
/-- **`getSuccNodes`** returns the next uses, whatever order its worklist is taken in. -/
theorem getSuccNodes_spec (n o : NodeID) : ∃ succ, Stops (getSuccNodes svfg ord n o) succ ∧
    ∀ y, y ∈ succ ↔ Next (Labelled svfg.edges o) (fun d => svfg.isUse d) n y := by
  have hknown : ∀ n, svfg.outNodes o n ⊆ (svfg.edges.map SVFGEdge.dst).toFinset := by
    intro n y hy
    obtain ⟨e, he, -, -, rfl, -⟩ := mem_outNodes.mp hy
    exact List.mem_toFinset.mpr (mem_map_of_mem he)
  have hstep : (fun x y => y ∈ svfg.outNodes o x) = Labelled svfg.edges o :=
    funext fun x => funext fun y => propext mem_outNodes
  exact hstep ▸ searchNodes_spec ord.front_mem hknown n

-- ── What is recorded and removed

section Remove

variable {succ : NodeID → NodeID → Finset NodeID} {x y : NodeID}

/-- What is recorded for a pair: stores, and the next uses of the one are those of the other. -/
def Sound (svfg : SVFG) (succ : NodeID → NodeID → Finset NodeID) (r : Recorded) : Prop :=
  ∀ p ∈ r.recordedges, ∀ o ∈ r.edge2pts p,
    svfg.kind p.1 = .Store ∧ svfg.kind p.2 = .Store ∧ succ p.2 o ⊆ succ p.1 o

theorem Sound.record {r : Recorded} {id1 id2 : NodeID} {pts : Finset NodeID} (h : Sound svfg succ r)
    (hnew : ∀ o ∈ pts, svfg.kind id1 = .Store ∧ svfg.kind id2 = .Store ∧ succ id2 o ⊆ succ id1 o) :
    Sound svfg succ (recordRemovingEdge r id1 id2 pts) := by
  rw [recordRemovingEdge, recordEdge]
  by_cases hold : (id1, id2) ∈ r.recordedges
  · rw [if_neg (not_not_intro hold)]
    intro p hp o ho
    by_cases hpair : p = (id1, id2)
    · subst hpair
      dsimp only at ho
      rw [Function.update_self] at ho
      rcases mem_union.mp ho with ho | ho
      · exact h _ hp o ho
      · exact hnew o ho
    · dsimp only at ho
      rw [Function.update_of_ne hpair] at ho
      exact h p hp o ho
  · rw [if_pos hold]
    intro p hp o ho
    by_cases hpair : p = (id1, id2)
    · subst hpair
      dsimp only at ho
      rw [Function.update_self] at ho
      exact hnew o ho
    · dsimp only at ho
      rw [Function.update_of_ne hpair] at ho
      exact h p ((mem_insert.mp hp).resolve_left hpair) o ho

theorem sound_recordAll : Sound svfg succ (recordAll svfg ord succ) := by
  refine foldl_keeps _ _ (fun r n1 hn1 hr => foldl_keeps _ _ (fun r edge _ hr => ?_) hr)
    (fun p hp => absurd hp (notMem_empty p))
  have hstore := (List.mem_filter.mp ((ord.mem_stnodes n1).mp hn1)).2
  unfold examine
  split_ifs with hedge
  · have hnew : ∀ pts : Finset NodeID, (∀ o ∈ pts, succ n1 o ⊆ succ edge.src o) →
        Sound svfg succ (recordRemovingEdge r edge.src n1 pts) := fun pts hpts =>
      hr.record fun o ho =>
        ⟨of_decide_eq_true (Bool.and_eq_true _ _ ▸ hedge).2, (of_decide_eq_true hstore).1, hpts o ho⟩
    dsimp only
    split_ifs
    · exact hnew _ fun o ho => (Finset.mem_filter.mp ho).2
    · exact hr
  · exact hr

theorem labelled_filterMap {edges : List SVFGEdge} {p : NodeIDPair} {pts : Finset NodeID} :
    Labelled (edges.filterMap (removeFrom p pts)) o x y ↔
      Labelled edges o x y ∧ ¬ (p = (x, y) ∧ o ∈ pts) := by
  simp only [Labelled, mem_filterMap]
  constructor
  · rintro ⟨e', ⟨e, he, hrem⟩, hsrc, hind, hdst, ho⟩
    unfold removeFrom at hrem
    dsimp only at hrem
    split_ifs at hrem with hpair
    · cases hrem
      obtain ⟨hmem, hnot⟩ := mem_sdiff.mp ho
      exact ⟨⟨e, he, hsrc, hind, hdst, hmem⟩, fun h => hnot h.2⟩
    · obtain rfl := Option.some.inj hrem
      refine ⟨⟨e, he, hsrc, hind, hdst, ho⟩, fun h => hpair ?_⟩
      rw [h.1]
      exact ⟨hsrc, hind, hdst⟩
  · rintro ⟨⟨e, he, hsrc, hind, hdst, ho⟩, hnot⟩
    by_cases hpair : e.src = p.1 ∧ e.isIndirectVFGEdge ∧ e.dst = p.2
    · have hkeep : o ∈ e.pts \ pts := by
        refine mem_sdiff.mpr ⟨ho, fun hmem => hnot ⟨?_, hmem⟩⟩
        exact Prod.ext (hpair.1.symm.trans hsrc) (hpair.2.2.symm.trans hdst)
      refine ⟨{ e with pts := e.pts \ pts }, ⟨e, he, ?_⟩, hsrc, hind, hdst, hkeep⟩
      rw [removeFrom, if_pos hpair, if_neg (Finset.card_ne_zero_of_mem hkeep)]
    · exact ⟨e, ⟨e, he, if_neg hpair⟩, hsrc, hind, hdst, ho⟩

theorem labelled_foldl (R : NodeIDPair → Finset NodeID) : ∀ (pairs : List NodeIDPair)
    (edges : List SVFGEdge),
    Labelled (pairs.foldl (fun edges pair => edges.filterMap (removeFrom pair (R pair))) edges) o x y ↔
      Labelled edges o x y ∧ ¬ ((x, y) ∈ pairs ∧ o ∈ R (x, y)) := by
  intro pairs
  induction pairs with
  | nil => exact fun edges => (and_iff_left fun h => not_mem_nil h.1).symm
  | cons p pairs ih =>
    intro edges
    rw [foldl_cons, ih, labelled_filterMap, mem_cons, and_assoc]
    refine and_congr_right fun _ => ?_
    by_cases hp : p = (x, y)
    · subst hp
      tauto
    · have hne : ¬ (x, y) = p := fun h => hp h.symm
      tauto

theorem labelled_perform {r : Recorded} :
    Labelled (performRemovingMHPEdges svfg ord r).edges o x y ↔
      Labelled svfg.edges o x y ∧ ¬ ((x, y) ∈ r.recordedges ∧ o ∈ r.edge2pts (x, y)) := by
  rw [performRemovingMHPEdges, labelled_foldl, ord.mem_pairs]

end Remove

end SvfReadPrecision
