import Mathlib

/-!
# Versioning of the SVFG: prelabelling and meld labelling

Before it solves, the versioned analysis gives every object a version at every node that
needs one: the version the node *consumes* and, at stores, another that it *yields*. Objects
that occur on the same edges (same *footprint*) get the same versions, so only the first of
them, the owner of the footprint, has entries in the tables and the others are mapped to it
by `equivalentObject`.

Worker threads take the objects off one queue. `meldLabel` is one worker on a queue in any
order. What the tables keep is in `VersionTables`: every entry is under an object that is
mapped to itself.
-/

namespace SvfVersionedFlowSensitive

open Function (update update_of_ne update_self)

abbrev NodeID := Nat

abbrev Version := Nat

def invalidVersion : Version := 0

/-- The elements of a bit vector, in the order in which it is iterated. -/
def elems (s : Finset NodeID) : List NodeID := (List.range (s.sup id + 1)).filter (· ∈ s)

theorem mem_elems {s : Finset NodeID} {n : NodeID} : n ∈ elems s ↔ n ∈ s := by
  rw [elems, List.mem_filter, List.mem_range, decide_eq_true_eq]
  constructor
  · exact And.right
  · intro hn
    exact ⟨Nat.lt_succ_of_le (Finset.le_sup (f := id) hn), hn⟩

theorem nodup_elems (s : Finset NodeID) : (elems s).Nodup := List.Nodup.filter _ List.nodup_range

structure IndirectSVFGEdge where
  address : Nat
  src : NodeID
  dst : NodeID
  pointsTo : Finset NodeID
deriving DecidableEq

/-- The kinds of nodes that versioning tells apart: `*dst = src`, `dst = *src`, a node of a
    memory region, any other. -/
inductive SVFGNode where
  | store (dst src : NodeID)
  | load (dst src : NodeID)
  | mr (pointsTo : Finset NodeID)
  | other

/-- The SVFG with what the versioning reads beside it: which nodes are delta nodes and delta
    sources, and the points-to sets of Andersen's analysis. -/
structure SVFG where
  nodes : List NodeID
  getSVFGNode : NodeID → SVFGNode
  outEdges : NodeID → List IndirectSVFGEdge
  delta : NodeID → Bool
  deltaSource : NodeID → Bool
  ander : NodeID → Finset NodeID

namespace SVFG

section

variable (svfg : SVFG)

def isStore (l : NodeID) : Bool :=
  match svfg.getSVFGNode l with
  | .store _ _ => true
  | _ => false

def isLoad (l : NodeID) : Bool :=
  match svfg.getSVFGNode l with
  | .load _ _ => true
  | _ => false

/-- The objects that node `l` is prelabelled for: at a store, what Andersen's analysis says
    the pointer points to; at a delta node of a memory region, the region. -/
def prelabels (l : NodeID) : Option (Finset NodeID) :=
  match svfg.getSVFGNode l with
  | .store p _ => some (svfg.ander p)
  | .mr pts => if svfg.delta l then some pts else none
  | _ => none

/-- The chi set of a store: the objects that it yields a version of. -/
def chi (l : NodeID) : Finset NodeID := (svfg.prelabels l).getD ∅

def prelabel : List NodeID := svfg.nodes.filter fun l => (svfg.prelabels l).isSome

def startingNodes (o : NodeID) : List NodeID :=
  svfg.prelabel.filter fun l => match svfg.prelabels l with
    | some pts => o ∈ pts
    | none => false

end

end SVFG

-- ── the components of the overlay of one object

structure NodeData where
  index : Option Nat
  lowlink : Nat
  onStack : Bool

/-- What the search for components passes by reference. -/
structure SCC where
  partOf : NodeID → Option Nat
  footprint : List IndirectSVFGEdge
  nodeData : NodeID → NodeData
  stack : List NodeID
  index : Nat
  currentSCC : Nat

namespace SCC

def modifyData (s : SCC) (n : NodeID) (f : NodeData → NodeData) : SCC :=
  { s with nodeData := update s.nodeData n (f (s.nodeData n)) }

/-- The loop that pops a component down to its root `v`. -/
def popSCC (s : SCC) (v : NodeID) : List NodeID → SCC
  | [] => { s with stack := [] }
  | w :: stack =>
    let s := s.modifyData w fun d => { d with onStack := false }
    let s := { s with stack := stack, partOf := update s.partOf w (some s.currentSCC) }
    if w = v then s else s.popSCC v stack

/-- `SCC::visit`. The fuel bounds the depth of the recursion, which is at most the number of
    nodes. -/
def visit (svfg : SVFG) (object : NodeID) : Nat → SCC → NodeID → SCC
  | 0, s, _ => s
  | fuel + 1, s, v =>
    let s := { s with
      nodeData := update s.nodeData v ⟨some s.index, s.index, true⟩
      index := s.index + 1
      stack := v :: s.stack }
    let s := (svfg.outEdges v).foldl
      (fun (s : SCC) ie =>
        if object ∉ ie.pointsTo then s
        else
          let s := { s with footprint := s.footprint ++ [ie] }
          let w := ie.dst
          if svfg.delta w || svfg.isStore w then s
          else
            match (s.nodeData w).index with
            | none =>
              let s := visit svfg object fuel s w
              s.modifyData v fun d =>
                { d with lowlink := min d.lowlink (s.nodeData w).lowlink }
            | some i =>
              if (s.nodeData w).onStack then
                s.modifyData v fun d => { d with lowlink := min d.lowlink i }
              else s)
      s
    if (s.nodeData v).index = some (s.nodeData v).lowlink then
      let s := s.popSCC v s.stack
      { s with currentSCC := s.currentSCC + 1 }
    else s

/-- `SCC::detectSCCs`: the components reached from the starting nodes, and the footprint of
    the object, sorted by address. -/
def detectSCCs (svfg : SVFG) (object : NodeID) (startingNodes : List NodeID) : SCC :=
  let s := startingNodes.foldl
    (fun (s : SCC) v =>
      if (s.nodeData v).index = none then visit svfg object (svfg.nodes.length + 1) s v else s)
    ⟨fun _ => none, [], fun _ => ⟨none, 0, false⟩, [], 0, 0⟩
  { s with footprint := s.footprint.insertionSort fun a b => a.address ≤ b.address }

end SCC

-- ── melding

/-- The tables of one object's melding: the meld versions consumed in the components and
    yielded by the stores, the components a component relies on, and the store that a
    component consists of. -/
structure Melding where
  sccToMeldVersion : Nat → Finset Nat
  storesYieldedMeldVersion : AList fun _ : NodeID => Finset Nat
  sccReliance : Nat → List Nat
  storeSCC : Nat → Option NodeID

namespace Melding

def yielded (m : Melding) (n : NodeID) : Finset Nat :=
  (m.storesYieldedMeldVersion.lookup n).getD ∅

def label (isPrelabeled : NodeID → Bool) (svfg : SVFG) (scc : SCC) (acc : Melding × Nat)
    (n : NodeID) : Melding × Nat :=
  let (m, bit) := acc
  if isPrelabeled n then
    if svfg.isStore n then
      ({ m with storesYieldedMeldVersion :=
          m.storesYieldedMeldVersion.insert n (insert bit (m.yielded n)) }, bit + 1)
    else
      match scc.partOf n with
      | some c =>
        ({ m with sccToMeldVersion :=
            update m.sccToMeldVersion c (insert bit (m.sccToMeldVersion c)) }, bit + 1)
      | none => (m, bit + 1)
  else acc

/-- Step 4 at one node of the todo list: what it yields is melded into what its successors
    consume. -/
def meldNode (svfg : SVFG) (o : NodeID) (scc : SCC) (m : Melding) (n : NodeID) : Melding :=
  match scc.partOf n with
  | none => m
  | some nSCC =>
    let m :=
      if svfg.isStore n then
        { m with
          storeSCC := update m.storeSCC nSCC (some n)
          storesYieldedMeldVersion := m.storesYieldedMeldVersion.insert n (m.yielded n) }
      else m
    let nMV := if svfg.isStore n then m.yielded n else m.sccToMeldVersion nSCC
    (svfg.outEdges n).foldl
      (fun m ie =>
        if o ∉ ie.pointsTo then m
        else
          match scc.partOf ie.dst with
          | none => m
          | some mSCC =>
            let m := { m with
              sccReliance := update m.sccReliance nSCC
                ((m.sccReliance nSCC).insert mSCC) }
            if !svfg.delta ie.dst && (nSCC != mSCC || svfg.isStore n) then
              { m with
                sccToMeldVersion :=
                  update m.sccToMeldVersion mSCC (m.sccToMeldVersion mSCC ∪ nMV) }
            else m)
      m

end Melding

structure MeldVersions where
  mvv : List (Finset Nat × Version)
  curVersion : Version

def MeldVersions.version (s : MeldVersions) (mv : Finset Nat) : MeldVersions × Version :=
  match s.mvv.find? fun p => p.1 = mv with
  | some p => (s, p.2)
  | none => (⟨(mv, s.curVersion + 1) :: s.mvv, s.curVersion + 1⟩, s.curVersion + 1)

-- ── the tables

abbrev ObjToVersionMap := AList fun _ : NodeID => Version

/-- The tables while the labelling runs. -/
structure MeldState where
  consume : NodeID → ObjToVersionMap
  yield : NodeID → ObjToVersionMap
  versionReliance : NodeID → Version → List Version
  stmtReliance : NodeID → Version → Finset NodeID
  equivalentObject : NodeID → NodeID
  footprintOwner : AList fun _ : List IndirectSVFGEdge => NodeID

/-- Every object is mapped to itself at first. -/
def MeldState.init : MeldState :=
  ⟨fun _ => ∅, fun _ => ∅, fun _ _ => [], fun _ _ => ∅, id, ∅⟩

/-- Steps 3 to 5: the versions of the components and of what the stores yield. -/
def versionsOf (svfg : SVFG) (o : NodeID) (scc : SCC) :
    Melding × (Nat → Version) × (AList fun _ : NodeID => Version) :=
  let isPrelabeled := fun n => decide (n ∈ svfg.prelabel)
  let reachableNodes :=
    (svfg.startingNodes o ++ scc.footprint.flatMap fun se => [se.src, se.dst]).dedup
  let m₀ : Melding := ⟨fun _ => ∅, ∅, fun _ => [], fun _ => none⟩
  let m := (reachableNodes.foldl (Melding.label isPrelabeled svfg scc) (m₀, 0)).1
  let todoList := reachableNodes.insertionSort fun a b =>
    (scc.partOf b).getD 0 ≤ (scc.partOf a).getD 0
  let m := todoList.foldl (Melding.meldNode svfg o scc) m
  let (vs, sccToVersion) := (List.range scc.currentSCC).foldl
    (fun (acc : MeldVersions × (Nat → Version)) c =>
      let (vs, v) := acc.1.version (m.sccToMeldVersion c)
      (vs, update acc.2 c v))
    (⟨[], 0⟩, fun _ => invalidVersion)
  let (_, storesYieldedVersion) := m.storesYieldedMeldVersion.entries.foldl
    (fun (acc : MeldVersions × AList fun _ : NodeID => Version) nmv =>
      let (vs, v) := acc.1.version nmv.2
      (vs, acc.2.insert nmv.1 v))
    (vs, ∅)
  (m, sccToVersion, storesYieldedVersion)

/-- Step 6 at one component: the versions that rely on what it yields. -/
def relianceOf (m : Melding) (sccToVersion : Nat → Version)
    (storesYieldedVersion : AList fun _ : NodeID => Version)
    (reliance : Version → List Version) (c : Nat) : Version → List Version :=
  if (m.sccReliance c).isEmpty then reliance
  else
    let version := match m.storeSCC c with
      | some n => (storesYieldedVersion.lookup n).getD invalidVersion
      | none => sccToVersion c
    update reliance version
      (reliance version ++ ((m.sccReliance c).map sccToVersion).filter (version ≠ ·))

/-- Step 7 at one node. -/
def saveVersions (svfg : SVFG) (o : NodeID) (scc : SCC) (sccToVersion : Nat → Version)
    (storesYieldedVersion : AList fun _ : NodeID => Version) (s : MeldState) (n : NodeID) :
    MeldState :=
  match scc.partOf n with
  | none => s
  | some k =>
    let c := sccToVersion k
    let s :=
      if c ≠ invalidVersion then
        let s := { s with consume := update s.consume n ((s.consume n).insert o c) }
        if svfg.isStore n || svfg.isLoad n then
          { s with
            stmtReliance := update s.stmtReliance o
              (update (s.stmtReliance o) c (insert n (s.stmtReliance o c))) }
        else s
      else s
    if svfg.isStore n then
      match storesYieldedVersion.lookup n with
      | some y => { s with yield := update s.yield n ((s.yield n).insert o y) }
      | none => s
    else s

def nodesWhichNeedVersions (svfg : SVFG) : List NodeID :=
  svfg.nodes.filter fun n => svfg.delta n || svfg.deltaSource n || svfg.isStore n || svfg.isLoad n

/-- The body of `meldVersionWorker` for the object `o`. -/
def meldObject (svfg : SVFG) (s : MeldState) (o : NodeID) : MeldState :=
  let scc := SCC.detectSCCs svfg o (svfg.startingNodes o)
  match s.footprintOwner.lookup scc.footprint with
  | some owner =>
    { s with
      equivalentObject := update s.equivalentObject o owner
      versionReliance := update s.versionReliance o (s.versionReliance owner)
      stmtReliance := update s.stmtReliance o (s.stmtReliance owner) }
  | none =>
    let s := { s with
      equivalentObject := update s.equivalentObject o o
      footprintOwner := s.footprintOwner.insert scc.footprint o }
    let (m, sccToVersion, storesYieldedVersion) := versionsOf svfg o scc
    let s := { s with
      versionReliance := update s.versionReliance o
        ((List.range scc.currentSCC).foldl (relianceOf m sccToVersion storesYieldedVersion)
          (s.versionReliance o)) }
    (nodesWhichNeedVersions svfg).foldl
      (saveVersions svfg o scc sccToVersion storesYieldedVersion) s

-- ── what the tables keep

/-- The footprint that the labelling computes for an object. -/
def footprint (svfg : SVFG) (o : NodeID) : List IndirectSVFGEdge :=
  (SCC.detectSCCs svfg o (svfg.startingNodes o)).footprint

/-- The invariant of the labelling: an object is mapped to itself or to the owner of a
    footprint, and only owners have entries. -/
structure MeldInv (svfg : SVFG) (s : MeldState) : Prop where
  owner : ∀ f w, s.footprintOwner.lookup f = some w →
    footprint svfg w = f ∧ s.equivalentObject w = w
  mapped : ∀ o, s.equivalentObject o = o ∨
    ∃ f, s.footprintOwner.lookup f = some (s.equivalentObject o)
  keys : ∀ l o, o ∈ s.consume l ∨ o ∈ s.yield l → ∃ f, s.footprintOwner.lookup f = some o

theorem meldInv_init (svfg : SVFG) : MeldInv svfg MeldState.init where
  owner := fun _ _ h => nomatch h
  mapped := fun _ => .inl rfl
  keys := fun l o h => by
    rcases h with h | h
    · exact absurd h (AList.notMem_empty o)
    · exact absurd h (AList.notMem_empty o)

structure OnlyAdds (o : NodeID) (s t : MeldState) : Prop where
  equivalentObject : t.equivalentObject = s.equivalentObject
  footprintOwner : t.footprintOwner = s.footprintOwner
  consume : ∀ l x, x ∈ t.consume l → x = o ∨ x ∈ s.consume l
  yield : ∀ l x, x ∈ t.yield l → x = o ∨ x ∈ s.yield l

theorem OnlyAdds.refl (o : NodeID) (s : MeldState) : OnlyAdds o s s :=
  ⟨rfl, rfl, fun _ _ h => .inr h, fun _ _ h => .inr h⟩

theorem OnlyAdds.trans {o : NodeID} {s t r : MeldState} (h : OnlyAdds o s t)
    (h' : OnlyAdds o t r) : OnlyAdds o s r where
  equivalentObject := h'.equivalentObject.trans h.equivalentObject
  footprintOwner := h'.footprintOwner.trans h.footprintOwner
  consume := fun l x hx => (h'.consume l x hx).elim .inl (h.consume l x)
  yield := fun l x hx => (h'.yield l x hx).elim .inl (h.yield l x)

theorem mem_update_insert {f : NodeID → ObjToVersionMap} {n l o x : NodeID} {v : Version}
    (h : x ∈ update f n ((f n).insert o v) l) : x = o ∨ x ∈ f l := by
  by_cases hl : l = n
  · subst hl
    rw [update_self] at h
    exact (AList.mem_insert _).mp h
  · rw [update_of_ne hl] at h
    exact .inr h

section

variable (svfg : SVFG) (o : NodeID) (scc : SCC) (sccToVersion : Nat → Version)
  (storesYieldedVersion : AList fun _ : NodeID => Version)

theorem saveVersions_onlyAdds (s : MeldState) (n : NodeID) :
    OnlyAdds o s (saveVersions svfg o scc sccToVersion storesYieldedVersion s n) := by
  rw [saveVersions]
  cases scc.partOf n with
  | none => exact OnlyAdds.refl o s
  | some k =>
    -- the first half saves what is consumed, the second what a store yields
    have hyield : ∀ t : MeldState, OnlyAdds o t (if svfg.isStore n then
          match storesYieldedVersion.lookup n with
          | some y => { t with yield := update t.yield n ((t.yield n).insert o y) }
          | none => t
        else t) := by
      intro t
      split
      · cases storesYieldedVersion.lookup n with
        | none => exact OnlyAdds.refl o t
        | some y => exact ⟨rfl, rfl, fun _ _ h => .inr h, fun _ _ h => mem_update_insert h⟩
      · exact OnlyAdds.refl o t
    refine OnlyAdds.trans ?_ (hyield _)
    split
    · split
      · exact ⟨rfl, rfl, fun _ _ h => mem_update_insert h, fun _ _ h => .inr h⟩
      · exact ⟨rfl, rfl, fun _ _ h => mem_update_insert h, fun _ _ h => .inr h⟩
    · exact OnlyAdds.refl o s

theorem foldl_onlyAdds :
    ∀ (l : List NodeID) (s : MeldState),
      OnlyAdds o s (l.foldl (saveVersions svfg o scc sccToVersion storesYieldedVersion) s) := by
  intro l
  induction l with
  | nil => exact fun s => OnlyAdds.refl o s
  | cons n l ih =>
    intro s
    exact (saveVersions_onlyAdds svfg o scc sccToVersion storesYieldedVersion s n).trans (ih _)

end

theorem MeldInv.add {svfg : SVFG} {s t : MeldState} (h : MeldInv svfg s) {o : NodeID}
    {f : List IndirectSVFGEdge} (hf : s.footprintOwner.lookup f = some o)
    (hadd : OnlyAdds o s t) : MeldInv svfg t := by
  constructor
  case owner =>
    rw [hadd.footprintOwner, hadd.equivalentObject]
    exact h.owner
  case mapped =>
    rw [hadd.footprintOwner, hadd.equivalentObject]
    exact h.mapped
  case keys =>
    intro l x hx
    rw [hadd.footprintOwner]
    have hx' : x = o ∨ x ∈ s.consume l ∨ x ∈ s.yield l := by
      rcases hx with hx | hx
      · exact (hadd.consume l x hx).imp_right .inl
      · exact (hadd.yield l x hx).imp_right .inr
    rcases hx' with rfl | hx'
    · exact ⟨f, hf⟩
    · exact h.keys l x hx'

theorem MeldInv.meldObject {svfg : SVFG} {s : MeldState} (h : MeldInv svfg s) (o : NodeID) :
    MeldInv svfg (meldObject svfg s o) := by
  rw [SvfVersionedFlowSensitive.meldObject]
  show MeldInv svfg (match s.footprintOwner.lookup (footprint svfg o) with
    | some owner => _
    | none => _)
  cases hown : s.footprintOwner.lookup (footprint svfg o) with
  | some owner =>
    constructor
    case owner =>
      intro f w hf
      obtain ⟨hw, heq⟩ := h.owner f w hf
      refine ⟨hw, ?_⟩
      show update s.equivalentObject o owner w = w
      by_cases hwo : w = o
      · -- an owner that is met again owns its footprint still
        subst hwo
        rw [hw, hf] at hown
        rw [update_self]
        exact (Option.some.inj hown).symm
      · rw [update_of_ne hwo]
        exact heq
    case mapped =>
      intro x
      show update s.equivalentObject o owner x = x ∨ _
      by_cases hx : x = o
      · refine .inr ⟨footprint svfg o, ?_⟩
        show _ = some (update s.equivalentObject o owner x)
        rw [hx, update_self]
        exact hown
      · rw [update_of_ne hx]
        refine (h.mapped x).imp_right fun ⟨f, hf⟩ => ⟨f, ?_⟩
        show _ = some (update s.equivalentObject o owner x)
        rw [update_of_ne hx]
        exact hf
    case keys => exact h.keys
  | none =>
    let s1 : MeldState := { s with
      equivalentObject := update s.equivalentObject o o
      footprintOwner := s.footprintOwner.insert (footprint svfg o) o }
    have hlookup : ∀ f w, s.footprintOwner.lookup f = some w →
        s1.footprintOwner.lookup f = some w := by
      intro f w hf
      have hne : f ≠ footprint svfg o := by
        rintro rfl
        rw [hown] at hf
        cases hf
      exact (AList.lookup_insert_ne hne).trans hf
    have howner : s1.footprintOwner.lookup (footprint svfg o) = some o := AList.lookup_insert _
    have h1 : MeldInv svfg s1 := by
      constructor
      case owner =>
        intro f w hf
        show _ ∧ update s.equivalentObject o o w = w
        by_cases hfo : f = footprint svfg o
        · rw [hfo, howner] at hf
          cases hf
          exact ⟨hfo.symm, update_self ..⟩
        · have hf' : s.footprintOwner.lookup f = some w :=
            (AList.lookup_insert_ne hfo).symm.trans hf
          obtain ⟨hw, heq⟩ := h.owner f w hf'
          refine ⟨hw, ?_⟩
          by_cases hwo : w = o
          · rw [hwo, update_self]
          · rw [update_of_ne hwo]
            exact heq
      case mapped =>
        intro x
        show update s.equivalentObject o o x = x ∨
          ∃ f, s1.footprintOwner.lookup f = some (update s.equivalentObject o o x)
        by_cases hx : x = o
        · rw [hx, update_self]
          exact .inl rfl
        · rw [update_of_ne hx]
          exact (h.mapped x).imp_right fun ⟨f, hf⟩ => ⟨f, hlookup f _ hf⟩
      case keys =>
        intro l x hx
        obtain ⟨f, hf⟩ := h.keys l x hx
        exact ⟨f, hlookup f x hf⟩
    -- the rest adds entries for `o`, which owns its footprint now
    refine h1.add howner (OnlyAdds.trans ?_ (foldl_onlyAdds svfg o _ _ _ _ _))
    exact ⟨rfl, rfl, fun _ _ h => .inr h, fun _ _ h => .inr h⟩

/-- The tables that solving reads. Every entry is under an object that is mapped to itself,
    and so is every object that another is mapped to. -/
structure VersionTables where
  consume : NodeID → ObjToVersionMap
  yield : NodeID → ObjToVersionMap
  versionReliance : NodeID → Version → List Version
  stmtReliance : NodeID → Version → Finset NodeID
  equivalentObject : NodeID → NodeID
  canonical : ∀ l o, o ∈ consume l ∨ o ∈ yield l → equivalentObject o = o
  idempotent : ∀ o, equivalentObject (equivalentObject o) = equivalentObject o

theorem foldl_meldInv (svfg : SVFG) (objectQueue : List NodeID) :
    MeldInv svfg (objectQueue.foldl (meldObject svfg) MeldState.init) := by
  suffices h : ∀ (l : List NodeID) (s : MeldState), MeldInv svfg s →
      MeldInv svfg (l.foldl (meldObject svfg) s) from
    h objectQueue MeldState.init (meldInv_init svfg)
  intro l
  induction l with
  | nil => exact fun s hs => hs
  | cons o l ih => exact fun s hs => ih _ (hs.meldObject o)

def meldLabel (svfg : SVFG) (objectQueue : List NodeID) : VersionTables :=
  let s := objectQueue.foldl (meldObject svfg) MeldState.init
  { consume := s.consume
    yield := s.yield
    versionReliance := s.versionReliance
    stmtReliance := s.stmtReliance
    equivalentObject := s.equivalentObject
    canonical := fun l o h => by
      obtain ⟨f, hf⟩ := (foldl_meldInv svfg objectQueue).keys l o h
      exact ((foldl_meldInv svfg objectQueue).owner f o hf).2
    idempotent := fun o => by
      rcases (foldl_meldInv svfg objectQueue).mapped o with h | ⟨f, hf⟩
      · rw [h]
        exact h
      · exact ((foldl_meldInv svfg objectQueue).owner f _ hf).2 }

end SvfVersionedFlowSensitive
