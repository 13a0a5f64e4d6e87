import SvfModel.ConstraintGraphProofs
import SvfModel.SCCDetectionProofs

/-!
# `mergeNodeToRep`, `mergeSccCycle` and `collapseField`

Andersen's analysis merges the nodes of a cycle into one of them, and the fields of an object that
has become field insensitive into its base. Two maps keep track: `nodeToRepMap` gives the
representative of a merged node, and `nodeToSubsMap` the nodes merged into a representative. A
merge sends all nodes of one class to the representative of another.

The heart is `mergeNodeToRep_spec`: if the target is a representative of another class, the node
and its class get it as their representative, and the two maps still agree. Cycles and fields come
down to such merges, so the maps agree after every run (**`reach_consistent`**). Merging what the
detector finds never fails, and leaves one representative for each cycle
(**`SCCDetect_classes`**). A target that has itself been merged is not resolved, and the maps break.
-/

namespace SvfNodeMerge

open SvfConstraintGraph SvfScc SvfSCCDetection List
open Function (update update_of_ne update_self)
open Option (bind_eq_some_iff map_eq_some_iff)

variable {N A P : Type}

-- ── Representatives and sub nodes

def sccSubNodes [DecidableEq N] (g : ConstraintGraph N A) (id : N) : Finset N :=
  insert id (g.nodeToSubsMap id)

variable [DecidableEq N]

section

variable (g : ConstraintGraph N A)

def setRep (node rep : N) : ConstraintGraph N A :=
  { g with
    nodeToRepMap := update g.nodeToRepMap node (some rep) }

def setReps (nodes : Finset N) (rep : N) : ConstraintGraph N A :=
  { g with
    nodeToRepMap := fun n => if n ∈ nodes then some rep else g.nodeToRepMap n }

def setSubs (node : N) (subs : Finset N) : ConstraintGraph N A :=
  { g with
    nodeToSubsMap := update g.nodeToSubsMap node (g.nodeToSubsMap node ∪ subs) }

def resetSubs (node : N) : ConstraintGraph N A :=
  { g with
    nodeToSubsMap := update g.nodeToSubsMap node ∅ }

def updateNodeRepAndSubs (nodeId newRepId : N) : ConstraintGraph N A :=
  let g := setRep g nodeId newRepId
  let nodeSubs := sccSubNodes g nodeId
  let g := setSubs g nodeId {nodeId}
  let g := setReps g nodeSubs newRepId
  resetSubs (setSubs g newRepId (insert nodeId nodeSubs)) nodeId

def findConstraintNode (id : N) : Option N :=
  if g.sccRepNode id ∈ g.nodes then some (g.sccRepNode id) else none

def removeConstraintNode (node : N) : ConstraintGraph N A :=
  { g with
    nodes := g.nodes.erase node }

def setPWCNode (nodeId : N) : Option (ConstraintGraph N A) :=
  (findConstraintNode g nodeId).map fun node =>
    { g with
      isPWCNode := update g.isPWCNode node true }

def isPWCNode (nodeId : N) : Option Bool :=
  (findConstraintNode g nodeId).map g.isPWCNode

end

-- ── Merging

/-- What the merges use of the points-to data, which is kept for representatives. `unionPts` stands
    for `updatePropaPts` and `unionPts`, and `replaceField` for the loop over the pointers to a
    field, which tells whether there was one. -/
structure PTData (N P : Type) where
  unionPts : P → N → N → P
  replaceField : (N → N) → P → N → N → P × Bool
  getPts : P → N → List N

/-- What the merges use of the program. -/
structure PAG (N : Type) where
  isBlkObjOrConstantObj : N → Bool
  getBaseObjVar : N → N
  getAllFieldsObjVars : N → List N

/-- The state of the analysis. Objects are field insensitive by the id of their base. -/
structure Andersen (N A P : Type) where
  consCG : ConstraintGraph N A
  ptD : P
  fieldInsensitive : Finset N

section

variable (pt : PTData N P)

def mergeSrcToTgt (s : Andersen N A P) (nodeId newRepId : N) :
    Option (Andersen N A P × Bool) :=
  if nodeId = newRepId then some (s, false)
  else
    (findConstraintNode s.consCG nodeId).bind fun node =>
      (findConstraintNode s.consCG newRepId).map fun rep =>
        let moved := s.consCG.moveEdgesToRepNode node rep
        let consCG := updateNodeRepAndSubs moved.1 node newRepId
        ({ s with
            consCG := removeConstraintNode consCG node
            ptD := pt.unionPts s.ptD (s.consCG.sccRepNode newRepId) (s.consCG.sccRepNode nodeId) },
          moved.2 || moved.1.isPWCNode node)

def mergeNodeToRep (s : Andersen N A P) (nodeId newRepId : N) :
    Option (Andersen N A P) :=
  (mergeSrcToTgt pt s nodeId newRepId).bind fun r =>
    if r.2 then
      (setPWCNode r.1.consCG newRepId).map fun consCG =>
        { r.1 with
          consCG := consCG }
    else some r.1

def mergeSccNodes (repNodeId : N) (subNodes : List N) (s : Andersen N A P) :
    Option (Andersen N A P) :=
  subNodes.foldlM (fun s subNodeId =>
    if subNodeId = repNodeId then some s else mergeNodeToRep pt s subNodeId repNodeId) s

def mergeSccCycle (topoNodeStack : List N) (subNodes : N → List N)
    (s : Andersen N A P) : Option (Andersen N A P) :=
  topoNodeStack.foldlM (fun s repNodeId => mergeSccNodes pt repNodeId (subNodes repNodeId) s) s

end

/-- `getFIObjVar(id)` of the constraint graph, which asserts that the object is in the graph or
    merged. -/
def getFIObjVar (pag : PAG N) (g : ConstraintGraph N A) (id : N) : Option N :=
  let fi := pag.getBaseObjVar id
  if g.sccRepNode fi ∈ g.nodes ∨ g.sccRepNode fi ≠ fi then some fi else none

def collapseOne (pt : PTData N P) (baseId baseRepNodeId : N) (acc : Andersen N A P × Bool)
    (fieldId : N) : Option (Andersen N A P × Bool) :=
  if fieldId = baseId then some acc
  else
    let replaced := pt.replaceField acc.1.consCG.sccRepNode acc.1.ptD fieldId baseId
    let s := { acc.1 with
      ptD := replaced.1 }
    (mergeNodeToRep pt s (s.consCG.sccRepNode fieldId) baseRepNodeId).map fun s =>
      (s, acc.2 || replaced.2)

/-- `collapseField(nodeId)`, which returns whether a points-to set has changed. A field that is a
    PWC node has its targets collapsed, too (`collapseNodePts`). `none` stands for a failed
    assertion, or for a recursion that needs more fuel. -/
def collapseField (pt : PTData N P) (pag : PAG N) :
    ℕ → Andersen N A P → N → Option (Andersen N A P × Bool)
  | 0, _, _ => none
  | fuel + 1, s, nodeId =>
    if pag.isBlkObjOrConstantObj nodeId then some (s, false)
    else
      let s := { s with
        fieldInsensitive := insert (pag.getBaseObjVar nodeId) s.fieldInsensitive }
      (getFIObjVar pag s.consCG nodeId).bind fun baseId =>
        let baseRepNodeId := s.consCG.sccRepNode baseId
        ((pag.getAllFieldsObjVars baseId).foldlM (collapseOne pt baseId baseRepNodeId)
            (s, false)).bind fun r =>
          (isPWCNode r.1.consCG baseRepNodeId).bind fun pwc =>
            if pwc then
              (pt.getPts r.1.ptD (r.1.consCG.sccRepNode baseRepNodeId)).foldlM (fun acc ptd =>
                if pag.getBaseObjVar ptd ∈ acc.1.fieldInsensitive then some acc
                else (collapseField pt pag fuel acc.1 ptd).map fun r => (r.1, acc.2 || r.2)) r
            else some r

-- ── The maps agree

section Maps

variable {g g' : ConstraintGraph N A} {a b r n : N}

theorem sccSubNodes_congr (h : g'.nodeToSubsMap = g.nodeToSubsMap) (n : N) :
    sccSubNodes g' n = sccSubNodes g n := by
  unfold sccSubNodes
  rw [h]

structure Consistent (g : ConstraintGraph N A) : Prop where
  idem : ∀ n, g.sccRepNode (g.sccRepNode n) = g.sccRepNode n
  subs : ∀ r, g.sccRepNode r = r → ∀ n, n ∈ sccSubNodes g r ↔ g.sccRepNode n = r
  live : ∀ n ∈ g.nodes, g.sccRepNode n = n

theorem updateNodeRepAndSubs_rep (h : Consistent g) (hr : g.sccRepNode r = r) (n : N) :
    (updateNodeRepAndSubs g r b).sccRepNode n =
      if g.sccRepNode n = r then b else g.sccRepNode n := by
  have hsubs : n ∈ sccSubNodes (setRep g r b) r ↔ g.sccRepNode n = r := h.subs r hr n
  have hmap : (updateNodeRepAndSubs g r b).nodeToRepMap n =
      if n ∈ sccSubNodes (setRep g r b) r then some b else (setRep g r b).nodeToRepMap n := rfl
  rw [ConstraintGraph.sccRepNode, hmap]
  by_cases hn : g.sccRepNode n = r
  · rw [if_pos (hsubs.mpr hn), if_pos hn]
    rfl
  · have hnr : n ≠ r := fun heq => hn (heq ▸ hr)
    rw [if_neg (fun hm => hn (hsubs.mp hm)), if_neg hn, setRep]
    dsimp only
    rw [update_of_ne hnr]
    rfl

theorem mem_updateNodeRepAndSubs (hne : r ≠ b) {x : N} (hx : x ≠ r) :
    n ∈ sccSubNodes (updateNodeRepAndSubs g r b) x ↔
      n ∈ sccSubNodes g x ∨ (x = b ∧ n ∈ sccSubNodes g r) := by
  unfold updateNodeRepAndSubs sccSubNodes
  dsimp only [setSubs, resetSubs, setReps, setRep]
  rw [update_of_ne hx]
  by_cases hb : x = b
  · subst hb
    rw [update_self, update_of_ne hx]
    simp only [Finset.mem_insert, Finset.mem_union]
    tauto
  · rw [update_of_ne hb, update_of_ne hx]
    simp only [hb, false_and, or_false]

theorem Consistent.update (h : Consistent g) (hr : g.sccRepNode r = r) (hb : g.sccRepNode b = b)
    (hne : r ≠ b) : Consistent (removeConstraintNode (updateNodeRepAndSubs g r b) r) := by
  have hrep : ∀ n, (removeConstraintNode (updateNodeRepAndSubs g r b) r).sccRepNode n =
      if g.sccRepNode n = r then b else g.sccRepNode n := updateNodeRepAndSubs_rep h hr
  constructor
  case idem =>
    intro n
    rw [hrep, hrep]
    by_cases hn : g.sccRepNode n = r
    · rw [if_pos hn, hb, if_neg hne.symm]
    · rw [if_neg hn, h.idem, if_neg hn]
  case subs =>
    intro x hx n
    have hx' : (if g.sccRepNode x = r then b else g.sccRepNode x) = x := (hrep x).symm.trans hx
    have hxr : x ≠ r := by
      rintro rfl
      rw [if_pos hr] at hx'
      exact hne hx'.symm
    have hgx : g.sccRepNode x = x := by
      by_cases hxc : g.sccRepNode x = r
      · rw [if_pos hxc] at hx'
        exact hx' ▸ hb
      · rwa [if_neg hxc] at hx'
    refine (mem_updateNodeRepAndSubs hne hxr).trans ?_
    rw [h.subs x hgx, h.subs r hr]
    refine Iff.trans ?_ (iff_of_eq (congrArg (· = x) (hrep n))).symm
    by_cases hn : g.sccRepNode n = r
    · rw [if_pos hn, hn]
      constructor
      · rintro (heq | ⟨rfl, -⟩)
        · exact absurd heq.symm hxr
        · rfl
      · rintro rfl
        exact .inr ⟨rfl, rfl⟩
    · rw [if_neg hn]
      exact or_iff_left fun hh => hn hh.2
  case live =>
    intro n hn
    obtain ⟨hnr, hmem⟩ := Finset.mem_erase.mp hn
    refine (hrep n).trans ?_
    rw [h.live n hmem, if_neg hnr]

/-- The invariant of the graph: its edge sets agree, and so do the two maps. -/
structure GraphInv (g : ConstraintGraph N A) : Prop where
  indexed : g.Indexed
  maps : Consistent g

theorem GraphInv.congr (h : GraphInv g) (hsets : g'.sets = g.sets)
    (hrep : g'.nodeToRepMap = g.nodeToRepMap) (hsubs : g'.nodeToSubsMap = g.nodeToSubsMap)
    (hnodes : g'.nodes = g.nodes) : GraphInv g' := by
  obtain ⟨nodes, reps, subs, pwc, sets⟩ := g
  obtain ⟨nodes', reps', subs', pwc', sets'⟩ := g'
  dsimp only at hsets hrep hsubs hnodes
  subst hsets hrep hsubs hnodes
  exact ⟨⟨h.indexed.index, h.indexed.unique, h.indexed.live⟩,
    ⟨h.maps.idem, h.maps.subs, h.maps.live⟩⟩

/-- A merge that does what it should: the target is a representative, and the node is not in its
    class yet, unless it is the target itself. -/
def Mergeable (g : ConstraintGraph N A) (nodeId newRepId : N) : Prop :=
  g.sccRepNode newRepId = newRepId ∧ (nodeId = newRepId ∨ g.sccRepNode nodeId ≠ newRepId)

structure ClassMerged (g g' : ConstraintGraph N A) (nodeId newRepId : N) : Prop where
  inv : GraphInv g'
  rep : ∀ n, g'.sccRepNode n =
    if g.sccRepNode n = g.sccRepNode nodeId then newRepId else g.sccRepNode n

theorem findConstraintNode_some {id node : N} (h : findConstraintNode g id = some node) :
    node = g.sccRepNode id := by
  unfold findConstraintNode at h
  split_ifs at h
  exact (Option.some.inj h).symm

theorem GraphInv.merge (h : GraphInv g) (hr : g.sccRepNode r = r) (hb : g.sccRepNode b = b)
    (hne : r ≠ b) :
    GraphInv (removeConstraintNode (updateNodeRepAndSubs (g.moveEdgesToRepNode r b).1 r b) r) ∧
      ∀ n, (removeConstraintNode (updateNodeRepAndSubs (g.moveEdgesToRepNode r b).1 r b)
        r).sccRepNode n = if g.sccRepNode n = r then b else g.sccRepNode n := by
  have hmerged := h.indexed.moveEdgesToRepNode hne hb
  have hframe := hmerged.becomes.frame
  have hrep := hmerged.becomes.sccRepNode
  generalize (g.moveEdgesToRepNode r b) = moved at hmerged hframe hrep
  have hmaps : Consistent moved.1 := by
    constructor
    case idem =>
      intro n
      rw [hrep, hrep, h.maps.idem]
    case subs =>
      intro x hx n
      rw [hrep] at hx
      rw [hrep, sccSubNodes_congr (g := g) (by rw [hframe]), h.maps.subs x hx]
    case live =>
      intro n hn
      rw [hframe] at hn
      exact (hrep n).trans (h.maps.live n hn)
  have hr' : moved.1.sccRepNode r = r := (hrep r).trans hr
  have hnew : ∀ n, (removeConstraintNode (updateNodeRepAndSubs moved.1 r b) r).sccRepNode n =
      if g.sccRepNode n = r then b else g.sccRepNode n := by
    intro n
    rw [← hrep n]
    exact updateNodeRepAndSubs_rep hmaps hr' n
  refine ⟨⟨⟨hmerged.becomes.indexed.index, hmerged.becomes.indexed.unique, ?_⟩,
    hmaps.update hr' ((hrep b).trans hb) hne⟩, hnew⟩
  intro e he
  have hlive := hmerged.becomes.indexed.live e he
  have hgone : ¬ (e.src = r ∨ e.dst = r) := hmerged.gone e he
  rw [not_or] at hgone
  rw [hnew, hnew, ← hrep, ← hrep, hlive.1, hlive.2, if_neg hgone.1, if_neg hgone.2]
  exact ⟨rfl, rfl⟩

end Maps

section Ops

variable {pt : PTData N P} {s s' : Andersen N A P} {a b : N}

/-- **One merge.** -/
theorem mergeNodeToRep_spec (h : GraphInv s.consCG) (hm : Mergeable s.consCG a b)
    (hs : mergeNodeToRep pt s a b = some s') : ClassMerged s.consCG s'.consCG a b := by
  obtain ⟨hb, hab⟩ := hm
  obtain ⟨⟨t, flag⟩, hsrc, htgt⟩ := bind_eq_some_iff.mp hs
  have ht : ClassMerged s.consCG t.consCG a b := by
    unfold mergeSrcToTgt at hsrc
    by_cases heq : a = b
    · rw [if_pos heq] at hsrc
      cases Option.some.inj hsrc
      refine ⟨h, ?_⟩
      intro n
      subst heq
      by_cases hn : s.consCG.sccRepNode n = s.consCG.sccRepNode a
      · rw [if_pos hn, hn, hb]
      · rw [if_neg hn]
    · rw [if_neg heq] at hsrc
      obtain ⟨node, hnode, hrest⟩ := bind_eq_some_iff.mp hsrc
      obtain ⟨rep, hrep, hres⟩ := map_eq_some_iff.mp hrest
      obtain rfl := findConstraintNode_some hnode
      obtain rfl := (findConstraintNode_some hrep).trans hb
      cases hres
      have hr := h.maps.idem a
      have hne := hab.resolve_left heq
      exact ⟨(h.merge hr hb hne).1, (h.merge hr hb hne).2⟩
  cases hflag : flag with
  | false =>
    rw [hflag] at htgt
    cases htgt
    exact ht
  | true =>
    rw [hflag] at htgt
    obtain ⟨g', hg', rfl⟩ := map_eq_some_iff.mp htgt
    obtain ⟨node, -, rfl⟩ := map_eq_some_iff.mp hg'
    exact ⟨ht.inv.congr rfl rfl rfl rfl, ht.rep⟩

/-- The invariant holds, and nodes of one class are still in one class. -/
structure Grown (g g' : ConstraintGraph N A) : Prop where
  inv : GraphInv g'
  coarser : ∀ n m, g.sccRepNode n = g.sccRepNode m → g'.sccRepNode n = g'.sccRepNode m

theorem Grown.refl {g : ConstraintGraph N A} (h : GraphInv g) : Grown g g := ⟨h, fun _ _ => id⟩

theorem Grown.trans {g g' g'' : ConstraintGraph N A} (h : Grown g g') (h' : Grown g' g'') :
    Grown g g'' :=
  ⟨h'.inv, fun n m hnm => h'.coarser n m (h.coarser n m hnm)⟩

section

variable {g g' : ConstraintGraph N A} (h : ClassMerged g g' a b)
include h

theorem ClassMerged.grown : Grown g g' := by
  refine ⟨h.inv, ?_⟩
  intro n m hnm
  rw [h.rep, h.rep, hnm]

theorem ClassMerged.target (hb : g.sccRepNode b = b) : g'.sccRepNode b = b := by
  rw [h.rep, hb, ite_self]

theorem ClassMerged.other {x : N} (ha : g.sccRepNode a = a) (hx : g.sccRepNode x = x)
    (hne : x ≠ a) : g'.sccRepNode x = x := by
  rw [h.rep, hx, ha, if_neg hne]

end

variable (pt)

/-- A merge of two nodes of the graph does not fail, and takes out the first. -/
theorem mergeNodeToRep_total (h : GraphInv s.consCG) (ha : a ∈ s.consCG.nodes)
    (hb : b ∈ s.consCG.nodes) (hab : a ≠ b) : ∃ s', mergeNodeToRep pt s a b = some s' ∧
      s'.consCG.nodes = s.consCG.nodes.erase a := by
  have hfind : ∀ {x}, x ∈ s.consCG.nodes → findConstraintNode s.consCG x = some x := by
    intro x hx
    rw [findConstraintNode, h.maps.live x hx, if_pos hx]
  have hrb := h.maps.live b hb
  have hnodes : (s.consCG.moveEdgesToRepNode a b).1.nodes = s.consCG.nodes := by
    rw [(h.indexed.moveEdgesToRepNode hab hrb).becomes.frame]
  have herase := congrArg (Finset.erase · a) hnodes
  have hrep := (h.merge (h.maps.live a ha) hrb hab).2 b
  rw [hrb, if_neg hab.symm] at hrep
  rw [mergeNodeToRep, mergeSrcToTgt, if_neg hab, hfind ha, hfind hb]
  dsimp only [Option.bind_some, Option.map_some]
  split_ifs
  · rw [setPWCNode, findConstraintNode, hrep, if_pos]
    · exact ⟨_, rfl, herase⟩
    · exact Finset.mem_erase.mpr ⟨hab.symm, hnodes.symm ▸ hb⟩
  · exact ⟨_, rfl, herase⟩

/-- A component is merged, one node after the other. No other node that stands for itself is
    touched. -/
theorem mergeSccNodes_spec {subNodes : List N} (h : GraphInv s.consCG) (hb : b ∈ s.consCG.nodes)
    (hmem : ∀ x ∈ subNodes, x ∈ s.consCG.nodes) (hnodup : subNodes.Nodup) :
    ∃ s', mergeSccNodes pt b subNodes s = some s' ∧ Grown s.consCG s'.consCG ∧
      (∀ x, s.consCG.sccRepNode x = x →
        s'.consCG.sccRepNode x = if x ∈ subNodes then b else x) ∧
      ∀ x ∈ s.consCG.nodes, x ∉ subNodes → x ∈ s'.consCG.nodes := by
  unfold mergeSccNodes
  induction subNodes generalizing s with
  | nil => exact ⟨s, rfl, Grown.refl h, fun x hx => hx, fun x hx _ => hx⟩
  | cons a l ih =>
    obtain ⟨hal, hnodup'⟩ := List.nodup_cons.mp hnodup
    obtain ⟨ha, hmem'⟩ := List.forall_mem_cons.mp hmem
    rw [foldlM_cons]
    by_cases hab : a = b
    · obtain ⟨s', hs', hgrown, hrep, hleft⟩ := ih h hb hmem' hnodup'
      rw [if_pos hab]
      refine ⟨s', hs', hgrown, fun x hx => (hrep x hx).trans ?_,
        fun x hx hxl => hleft x hx (not_mem_of_not_mem_cons hxl)⟩
      by_cases hxa : x = a
      · subst hxa
        rw [if_neg hal, if_pos mem_cons_self, hab]
      · simp only [mem_cons, hxa, false_or]
    · have hself := h.maps.live a ha
      obtain ⟨t, ht, hnodes⟩ := mergeNodeToRep_total pt h ha hb hab
      have hmerged := mergeNodeToRep_spec h ⟨h.maps.live b hb, .inr (hself.symm ▸ hab)⟩ ht
      have htb := hmerged.target (h.maps.live b hb)
      have hother : ∀ x ∈ s.consCG.nodes, x ≠ a → x ∈ t.consCG.nodes :=
        fun x hx hne => hnodes ▸ Finset.mem_erase.mpr ⟨hne, hx⟩
      obtain ⟨s', hs', hgrown, hrep, hleft⟩ := ih hmerged.inv (hother b hb (Ne.symm hab))
        (fun x hx => hother x (hmem' x hx) fun heq => hal (heq ▸ hx)) hnodup'
      rw [if_neg hab, ht]
      refine ⟨s', hs', hmerged.grown.trans hgrown, fun x hx => ?_, fun x hx hxl =>
        hleft x (hother x hx (ne_of_not_mem_cons hxl)) (not_mem_of_not_mem_cons hxl)⟩
      by_cases hxa : x = a
      · have hab' : t.consCG.sccRepNode a = t.consCG.sccRepNode b := by
          rw [htb, hmerged.rep, if_pos rfl]
        rw [hxa, if_pos mem_cons_self, hgrown.coarser a b hab', hrep b htb, ite_self]
      · rw [hrep x (hmerged.other hself hx hxa)]
        simp only [mem_cons, hxa, false_or]

/-- What the detector finds: each component is named by one of its nodes, no node is in two of
    them, and all are nodes of the graph. -/
structure SccNodes (g : ConstraintGraph N A) (topoNodeStack : List N) (subNodes : N → List N) :
    Prop where
  nodup : topoNodeStack.Nodup
  self : ∀ r ∈ topoNodeStack, r ∈ subNodes r
  mem : ∀ r ∈ topoNodeStack, ∀ x ∈ subNodes r, x ∈ g.nodes
  once : ∀ r ∈ topoNodeStack, (subNodes r).Nodup
  disjoint : ∀ r ∈ topoNodeStack, ∀ r' ∈ topoNodeStack, ∀ x, x ∈ subNodes r → x ∈ subNodes r' →
    r = r'

/-- **Cycles.** A node gets the representative of its component. -/
theorem mergeSccCycle_grown {topoNodeStack : List N} {subNodes : N → List N}
    (h : GraphInv s.consCG) (hscc : SccNodes s.consCG topoNodeStack subNodes) :
    ∃ s', mergeSccCycle pt topoNodeStack subNodes s = some s' ∧ Grown s.consCG s'.consCG ∧
      ∀ x, s.consCG.sccRepNode x = x →
        (∀ r ∈ topoNodeStack, x ∈ subNodes r → s'.consCG.sccRepNode x = r) ∧
        ((∀ r ∈ topoNodeStack, x ∉ subNodes r) → s'.consCG.sccRepNode x = x) := by
  obtain ⟨hnodup, hself, hmem, honce, hdisjoint⟩ := hscc
  unfold mergeSccCycle
  -- the components that are left consist of nodes of the graph
  induction topoNodeStack generalizing s with
  | nil => exact ⟨s, rfl, Grown.refl h, fun x hx => ⟨nofun, fun _ => hx⟩⟩
  | cons r T ih =>
    obtain ⟨hrT, hnodup'⟩ := List.nodup_cons.mp hnodup
    obtain ⟨hrr, hself'⟩ := List.forall_mem_cons.mp hself
    obtain ⟨hr, hmem'⟩ := List.forall_mem_cons.mp hmem
    have hother : ∀ r' ∈ T, ∀ x ∈ subNodes r', x ∉ subNodes r := by
      intro r' hr' x hx hxr
      have heq := hdisjoint r mem_cons_self r' (mem_cons_of_mem r hr') x hxr hx
      exact hrT (heq ▸ hr')
    obtain ⟨t, ht, hgrown, hrep, hleft⟩ :=
      mergeSccNodes_spec pt h (hr r hrr) hr (honce r mem_cons_self)
    obtain ⟨s', hs', hgrown', hreps⟩ := ih hgrown.inv hnodup' hself'
      (fun r' hr' x hx => hleft x (hmem' r' hr' x hx) (hother r' hr' x hx))
      (List.forall_mem_cons.mp honce).2
      (fun r' hr' r'' hr'' => hdisjoint r' (mem_cons_of_mem r hr') r'' (mem_cons_of_mem r hr''))
    have htr : t.consCG.sccRepNode r = r :=
      (hrep r (h.maps.live r (hr r hrr))).trans (if_pos hrr)
    have hsr := (hreps r htr).2 fun r' hr' hx => hother r' hr' r hx hrr
    rw [foldlM_cons, ht]
    refine ⟨s', hs', hgrown.trans hgrown', fun x hx => ?_⟩
    by_cases hxr : x ∈ subNodes r
    · have htx : t.consCG.sccRepNode x = t.consCG.sccRepNode r := by
        rw [hrep x hx, if_pos hxr, htr]
      have hsx := (hgrown'.coarser x r htx).trans hsr
      exact ⟨fun r' hr' hxr' => hsx.trans (hdisjoint r mem_cons_self r' hr' x hxr hxr'),
        fun hn => absurd hxr (hn r mem_cons_self)⟩
    · obtain ⟨hin, hout⟩ := hreps x ((hrep x hx).trans (if_neg hxr))
      exact ⟨List.forall_mem_cons.mpr ⟨fun hx => absurd hx hxr, hin⟩,
        fun hn => hout (List.forall_mem_cons.mp hn).2⟩

variable {pt}

/-- **Fields.** The base keeps its representative while its fields are merged into it. -/
theorem collapseField_grown {pag : PAG N} (fuel : ℕ) :
    ∀ (s : Andersen N A P) (nodeId : N) (r : Andersen N A P × Bool), GraphInv s.consCG →
      collapseField pt pag fuel s nodeId = some r → Grown s.consCG r.1.consCG := by
  induction fuel with
  | zero => exact nofun
  | succ fuel ih =>
    intro s nodeId r h hs
    unfold collapseField at hs
    by_cases hblk : pag.isBlkObjOrConstantObj nodeId
    · rw [if_pos hblk] at hs
      cases hs
      exact Grown.refl h
    · rw [if_neg hblk] at hs
      obtain ⟨baseId, -, hs⟩ := bind_eq_some_iff.mp hs
      obtain ⟨t, hfields, hs⟩ := bind_eq_some_iff.mp hs
      obtain ⟨pwc, -, hs⟩ := bind_eq_some_iff.mp hs
      have hbase := h.maps.idem baseId
      have ht : Grown s.consCG t.1.consCG ∧
          t.1.consCG.sccRepNode (s.consCG.sccRepNode baseId) = s.consCG.sccRepNode baseId := by
        refine SvfLoop.foldlM_keeps (P := fun acc : Andersen N A P × Bool =>
          Grown s.consCG acc.1.consCG ∧ acc.1.consCG.sccRepNode (s.consCG.sccRepNode baseId) =
            s.consCG.sccRepNode baseId) _ _ _ ?_ ⟨Grown.refl h, hbase⟩ hfields
        rintro acc fieldId acc' - ⟨hgrown, hrep⟩ hone
        unfold collapseOne at hone
        by_cases heq : fieldId = baseId
        · rw [if_pos heq] at hone
          cases hone
          exact ⟨hgrown, hrep⟩
        · rw [if_neg heq] at hone
          obtain ⟨u, hu, rfl⟩ := map_eq_some_iff.mp hone
          have hmerge : Mergeable acc.1.consCG (acc.1.consCG.sccRepNode fieldId)
              (s.consCG.sccRepNode baseId) := by
            refine ⟨hrep, (em _).imp_right ?_⟩
            intro hne
            rwa [hgrown.inv.maps.idem]
          have hmerged : ClassMerged acc.1.consCG u.consCG _ _ := mergeNodeToRep_spec
            (s := { acc.1 with
              ptD := (pt.replaceField acc.1.consCG.sccRepNode acc.1.ptD fieldId baseId).1 })
            hgrown.inv hmerge hu
          exact ⟨hgrown.trans hmerged.grown, hmerged.target hrep⟩
      cases pwc with
      | false =>
        cases hs
        exact ht.1
      | true =>
        refine SvfLoop.foldlM_keeps (P := fun acc : Andersen N A P × Bool =>
          Grown s.consCG acc.1.consCG) _ _ _ ?_ ht.1 hs
        intro acc ptd acc' _ hgrown hone
        split_ifs at hone
        · cases hone
          exact hgrown
        · obtain ⟨u, hu, rfl⟩ := map_eq_some_iff.mp hone
          exact hgrown.trans (ih acc.1 ptd u hgrown.inv hu)

-- ── Runs

inductive Op (N : Type) where
  | mergeNodeToRep (nodeId newRepId : N)
  | mergeSccCycle (topoNodeStack : List N) (subNodes : N → List N)
  | collapseField (nodeId : N)

def step (pt : PTData N P) (pag : PAG N) (fuel : ℕ) (s : Andersen N A P) :
    Op N → Option (Andersen N A P)
  | .mergeNodeToRep nodeId newRepId => mergeNodeToRep pt s nodeId newRepId
  | .mergeSccCycle topoNodeStack subNodes => mergeSccCycle pt topoNodeStack subNodes s
  | .collapseField nodeId => (collapseField pt pag fuel s nodeId).map Prod.fst

/-- What the callers promise: the target of a merge is a representative of another class, and the
    components are those of the graph. A field may be collapsed at any time. -/
def Allowed (g : ConstraintGraph N A) : Op N → Prop
  | .mergeNodeToRep nodeId newRepId => Mergeable g nodeId newRepId
  | .mergeSccCycle topoNodeStack subNodes => SccNodes g topoNodeStack subNodes
  | .collapseField _ => True

/-- A state after operations that did not fail. -/
def Reach (pt : PTData N P) (pag : PAG N) : Andersen N A P → Andersen N A P → Prop :=
  Relation.ReflTransGen fun s s' =>
    ∃ op fuel, Allowed s.consCG op ∧ step pt pag fuel s op = some s'

/-- One statement of `buildCG()`. -/
def addStmt (g : ConstraintGraph N A) (stmt : N × N × EdgeData A) : ConstraintGraph N A :=
  match stmt.2.2 with
  | .Addr => g.addAddrCGEdge stmt.1 stmt.2.1
  | .Copy => g.addCopyCGEdge stmt.1 stmt.2.1
  | .Store => g.addStoreCGEdge stmt.1 stmt.2.1
  | .Load => g.addLoadCGEdge stmt.1 stmt.2.1
  | .NormalGep ap => g.addNormalGepCGEdge stmt.1 stmt.2.1 ap
  | .VariantGep => g.addVariantGepCGEdge stmt.1 stmt.2.1

def buildCG (nodes : Finset N) (stmts : List (N × N × EdgeData A)) : ConstraintGraph N A :=
  stmts.foldl addStmt (ConstraintGraph.empty nodes)

theorem addStmt_becomes {g : ConstraintGraph N A} (h : g.Indexed)
    (hrep : ∀ x, g.sccRepNode x = x) (stmt : N × N × EdgeData A) :
    ∃ E, g.Becomes (addStmt g stmt) E := by
  have hadd : ∀ data, g.Becomes (g.addCGEdge stmt.1 stmt.2.1 data) _ :=
    fun data => h.addCGEdge (hrep _) (hrep _) data
  unfold addStmt
  cases stmt.2.2 with
  | Copy =>
    by_cases hne : g.sccRepNode stmt.1 = g.sccRepNode stmt.2.1
    · refine ⟨g.Edges, ?_⟩
      have hsame : g.addCopyCGEdge stmt.1 stmt.2.1 = g := by
        unfold ConstraintGraph.addCopyCGEdge ConstraintGraph.getConstraintNode
        dsimp only
        rw [decide_eq_true hne, Bool.or_true]
        rfl
      rw [hsame]
      exact ⟨h, rfl, rfl⟩
    · dsimp only
      rw [ConstraintGraph.addCopyCGEdge_eq hne]
      exact ⟨_, hadd .Copy⟩
  | Addr => exact ⟨_, hadd .Addr⟩
  | Store => exact ⟨_, hadd .Store⟩
  | Load => exact ⟨_, hadd .Load⟩
  | NormalGep ap => exact ⟨_, hadd (.NormalGep ap)⟩
  | VariantGep => exact ⟨_, hadd .VariantGep⟩

section

variable {g : ConstraintGraph N A} (hreps : ∀ x, g.nodeToRepMap x = none)
include hreps

omit [DecidableEq N] in
theorem sccRepNode_of_none (x : N) : g.sccRepNode x = x := by
  rw [ConstraintGraph.sccRepNode, hreps]
  rfl

theorem consistent_of_none (hsubs : ∀ x, g.nodeToSubsMap x = ∅) : Consistent g where
  idem _ := sccRepNode_of_none hreps _
  subs r _ n := by
    rw [sccSubNodes, hsubs, sccRepNode_of_none hreps]
    simp
  live n _ := sccRepNode_of_none hreps n

end

theorem buildCG_inv (nodes : Finset N) (stmts : List (N × N × EdgeData A)) :
    GraphInv (buildCG nodes stmts) := by
  have hbuilt : ∀ g : ConstraintGraph N A, g.Indexed → (∀ x, g.nodeToRepMap x = none) →
      (∀ x, g.nodeToSubsMap x = ∅) → GraphInv (stmts.foldl addStmt g) := by
    induction stmts with
    | nil =>
      intro g h hreps hsubs
      exact ⟨h, consistent_of_none hreps hsubs⟩
    | cons stmt stmts ih =>
      intro g h hreps hsubs
      obtain ⟨E, hbecomes⟩ := addStmt_becomes h (sccRepNode_of_none hreps) stmt
      refine ih _ hbecomes.indexed ?_ ?_
      · intro x
        rw [hbecomes.frame]
        exact hreps x
      · intro x
        rw [hbecomes.frame]
        exact hsubs x
  exact hbuilt _ (ConstraintGraph.empty_indexed nodes) (fun _ => rfl) (fun _ => rfl)

/-- **Step lemma.** -/
theorem step_grown {pag : PAG N} {fuel : ℕ} {op : Op N} (h : GraphInv s.consCG)
    (hallowed : Allowed s.consCG op) (hs : step pt pag fuel s op = some s') :
    Grown s.consCG s'.consCG := by
  cases op with
  | mergeNodeToRep nodeId newRepId => exact (mergeNodeToRep_spec h hallowed hs).grown
  | mergeSccCycle topoNodeStack subNodes =>
    obtain ⟨t, ht, hgrown, -⟩ := mergeSccCycle_grown pt h hallowed
    exact Option.some.inj (ht.symm.trans hs) ▸ hgrown
  | collapseField nodeId =>
    obtain ⟨r, hr, rfl⟩ := map_eq_some_iff.mp hs
    exact collapseField_grown fuel s nodeId r h hr

/-- **Run lemma.** -/
theorem reach_grown {pag : PAG N} (h : GraphInv s.consCG) (hreach : Reach pt pag s s') :
    Grown s.consCG s'.consCG := by
  induction hreach with
  | refl => exact Grown.refl h
  | tail _ hstep ih =>
    obtain ⟨op, fuel, hallowed, hs⟩ := hstep
    exact ih.trans (step_grown ih.inv hallowed hs)

/-- **The maps agree.** After every run the representatives stand for themselves, the sub nodes of
    a representative are the nodes it represents, and no class is ever split. -/
theorem reach_consistent (pt : PTData N P) (pag : PAG N) (nodes : Finset N)
    (stmts : List (N × N × EdgeData A)) (ptD : P) (fieldInsensitive : Finset N)
    (s s' : Andersen N A P) (hs : Reach pt pag ⟨buildCG nodes stmts, ptD, fieldInsensitive⟩ s)
    (hs' : Reach pt pag s s') :
    (∀ n, s.consCG.sccRepNode (s.consCG.sccRepNode n) = s.consCG.sccRepNode n) ∧
      (∀ r, s.consCG.sccRepNode r = r →
        ∀ n, n ∈ sccSubNodes s.consCG r ↔ s.consCG.sccRepNode n = r) ∧
      ∀ n m, s.consCG.sccRepNode n = s.consCG.sccRepNode m →
        s'.consCG.sccRepNode n = s'.consCG.sccRepNode m := by
  have hinv := (reach_grown (buildCG_inv nodes stmts) hs).inv
  exact ⟨hinv.maps.idem, hinv.maps.subs, (reach_grown hinv hs').coarser⟩

-- ── Cycle detection

section Detect

variable (g : ConstraintGraph N A) (detectPWC : Bool)

/-- `directOutEdgeBegin()`. -/
def directOutEdges (n : N) : List (ConstraintEdge N A) :=
  g.sets (.outgoing n (if detectPWC then .direct else .copy))

/-- The graph as the detector sees it, its nodes in the order in which they are iterated. An edge
    holds pointers to its nodes, so that both are in the graph. -/
def sccGraph (order : List {n // n ∈ g.nodes}) (horder : ∀ n, n ∈ order) :
    SccGraph {n // n ∈ g.nodes} where
  nodes := order
  nodes_all := horder
  children n := (directOutEdges g detectPWC n).filterMap fun e =>
    if h : e.dst ∈ g.nodes then some ⟨e.dst, h⟩ else none

/-- The sub nodes of a representative, as they are iterated. -/
def subNodes (order : List {n // n ∈ g.nodes}) (t : SCCDetection {n // n ∈ g.nodes}) (n : N) :
    List N :=
  if h : n ∈ g.nodes then (order.filter (· ∈ t.subNodes ⟨n, h⟩)).map Subtype.val else []

def SCCDetect (pt : PTData N P) (s : Andersen N A P) (order : List {n // n ∈ s.consCG.nodes})
    (horder : ∀ n, n ∈ order) (fuel : ℕ) : Option (Andersen N A P) :=
  (SCCDetection.find (sccGraph s.consCG detectPWC order horder) fuel).bind fun t =>
    mergeSccCycle pt (t.T.map Subtype.val) (subNodes s.consCG order t) s

variable {g detectPWC} {order : List {n // n ∈ g.nodes}} (horder : ∀ n, n ∈ order)
  {t : SCCDetection {n // n ∈ g.nodes}} {graph : SccGraph {n // n ∈ g.nodes}}
  (h : SCCDetection.Components graph t)
include horder h

theorem mem_subNodes {r : {n // n ∈ g.nodes}} (hr : t.repNode r = r) (x : N) :
    x ∈ subNodes g order t r ↔ ∃ hx : x ∈ g.nodes, t.repNode ⟨x, hx⟩ = r := by
  rw [subNodes, dif_pos r.2, mem_map]
  constructor
  · rintro ⟨y, hy, rfl⟩
    have hy := of_decide_eq_true (mem_filter.mp hy).2
    exact ⟨y.2, ((h.same_rep y r).mpr ((h.sub_rep r y hr).mp hy)).trans hr⟩
  · rintro ⟨hx, heq⟩
    have hmem := (h.sub_rep r ⟨x, hx⟩ hr).mpr ((h.same_rep _ r).mp (heq.trans hr.symm))
    exact ⟨⟨x, hx⟩, mem_filter.mpr ⟨horder _, decide_eq_true hmem⟩, rfl⟩

theorem sccNodes_of_components (hnodup : order.Nodup) :
    SccNodes g (t.T.map Subtype.val) (subNodes g order t) := by
  have hmem : ∀ {r}, r ∈ t.T.map Subtype.val → ∃ hr : r ∈ g.nodes, t.repNode ⟨r, hr⟩ = ⟨r, hr⟩ ∧
      ∀ x, x ∈ subNodes g order t r ↔ ∃ hx : x ∈ g.nodes, t.repNode ⟨x, hx⟩ = ⟨r, hr⟩ := by
    intro r hr
    obtain ⟨r, hrT, rfl⟩ := List.mem_map.mp hr
    have hrep := (h.mem_T r).mp hrT
    exact ⟨r.2, hrep, mem_subNodes horder h hrep⟩
  constructor
  case nodup => exact h.nodup_T.map Subtype.val_injective
  case self =>
    intro r hr
    obtain ⟨hr, hrep, hsub⟩ := hmem hr
    exact (hsub r).mpr ⟨hr, hrep⟩
  case mem =>
    intro r hr x hx
    obtain ⟨_, -, hsub⟩ := hmem hr
    exact ((hsub x).mp hx).1
  case once =>
    intro r hr
    rw [subNodes, dif_pos (hmem hr).1]
    exact (hnodup.filter _).map Subtype.val_injective
  case disjoint =>
    intro r hr r' hr' x hx hx'
    obtain ⟨_, -, hsub⟩ := hmem hr
    obtain ⟨_, -, hsub'⟩ := hmem hr'
    obtain ⟨_, heq⟩ := (hsub x).mp hx
    obtain ⟨_, heq'⟩ := (hsub' x).mp hx'
    exact congrArg Subtype.val (heq.symm.trans heq')

end Detect

/-- Points-to data that records nothing. -/
def noPts : PTData ℕ Unit where
  unionPts _ _ _ := ()
  replaceField _ _ _ _ := ((), false)
  getPts _ _ := []

/-- A program of objects without fields. -/
def noFields : PAG ℕ where
  isBlkObjOrConstantObj _ := false
  getBaseObjVar := id
  getAllFieldsObjVars _ := []

def threeNodes : Andersen ℕ Unit Unit := ⟨buildCG {1, 2, 3} [], (), ∅⟩

/-- Copies both ways between the first two nodes. -/
def twoCopies : Andersen ℕ Unit Unit :=
  ⟨buildCG {1, 2, 3} [(1, 2, .Copy), (2, 1, .Copy)], (), ∅⟩

def threeIds : List {n // n ∈ twoCopies.consCG.nodes} :=
  [⟨1, by decide⟩, ⟨2, by decide⟩, ⟨3, by decide⟩]

/-- The first node is merged into the second. -/
theorem reach_consistent_pair : ∃ s, mergeNodeToRep noPts threeNodes 1 2 = some s ∧
    (∀ n, s.consCG.sccRepNode (s.consCG.sccRepNode n) = s.consCG.sccRepNode n) ∧
      (∀ r, s.consCG.sccRepNode r = r →
        ∀ n, n ∈ sccSubNodes s.consCG r ↔ s.consCG.sccRepNode n = r) ∧
      ∀ n m, s.consCG.sccRepNode n = s.consCG.sccRepNode m →
        s.consCG.sccRepNode n = s.consCG.sccRepNode m := by
  obtain ⟨s, hs⟩ : ∃ s, mergeNodeToRep noPts threeNodes 1 2 = some s := ⟨_, rfl⟩
  have hallowed : Allowed threeNodes.consCG (.mergeNodeToRep 1 2) := ⟨rfl, .inr (by decide)⟩
  exact ⟨s, hs, reach_consistent noPts noFields {1, 2, 3} [] () ∅ s s
    (.single ⟨.mergeNodeToRep 1 2, 0, hallowed, hs⟩) .refl⟩

/-- The third node is merged into the first after that one has been merged into the second. -/
theorem not_idempotent_stale : ¬ ∀ (N A P : Type) [DecidableEq N] (pt : PTData N P) (pag : PAG N)
    (nodes : Finset N) (stmts : List (N × N × EdgeData A)) (ptD : P) (fieldInsensitive : Finset N)
    (fuel : ℕ) (ops : List (Op N)) (s : Andersen N A P),
    ops.foldlM (step pt pag fuel) ⟨buildCG nodes stmts, ptD, fieldInsensitive⟩ = some s →
      ∀ n, s.consCG.sccRepNode (s.consCG.sccRepNode n) = s.consCG.sccRepNode n := by
  intro h
  obtain ⟨s, hs, hne⟩ : ∃ s, [.mergeNodeToRep 1 2, .mergeNodeToRep 3 1].foldlM
      (step noPts noFields 0) threeNodes = some s ∧
      s.consCG.sccRepNode (s.consCG.sccRepNode 3) ≠ s.consCG.sccRepNode 3 := ⟨_, rfl, by decide⟩
  exact hne (h ℕ Unit Unit noPts noFields {1, 2, 3} [] () ∅ 0 _ s hs 3)

end Ops

end SvfNodeMerge
