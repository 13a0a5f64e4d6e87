import SvfModel.CFLSolverProofs

/-!
# `POCRSolver`: the same closure from successor and predecessor maps

`POCRSolver` keeps, beside the graph, a map from a node and a label to the bit set of the
successors, and one to the predecessors, and joins an edge with a whole bit set at a time.
The three representations are the same set of edges after every production (`Sync`), so each
`processCFLEdge` is again one round of saturation. Where the two solvers part is
`initialize`: the self edges of the `ε`-productions are put on the keys of the successor
map, which are the nodes with an outgoing edge, and not on all nodes of the graph.
-/

namespace SvfPOCRSolver

open SvfCFGrammar SvfCflReach SvfSaturation SvfLoop SvfWorkList SvfCFLSolver List
open SvfCFGrammar.CFGrammar
open Function (Injective)
open FIFOWorkList (den_push pop_spec)

abbrev NodeBS (N : Type) := List N

/-- `DataMap`: the keys that were ever accessed, and the bit set of a key and a label. Only
    a key has elements. -/
structure DataMap (N : Type) where
  keys : List N
  data : N → Symbol → NodeBS N
  keyed : ∀ (k : N) (t : Symbol) (n : N), n ∈ data k t → k ∈ keys

variable {N : Type} [DecidableEq N]

namespace DataMap

/-- A map as its constructor makes it. -/
def empty : DataMap N where
  keys := []
  data := fun _ _ => []
  keyed := fun _ _ _ h => absurd h not_mem_nil

variable {m : DataMap N} {ty t : Symbol} {bs : NodeBS N}

def touch (m : DataMap N) (key : N) : DataMap N :=
  if key ∈ m.keys then m
  else
    { keys := m.keys ++ [key]
      data := m.data
      keyed := fun k t n h => mem_append_left [key] (m.keyed k t n h) }

theorem mem_touch_keys {key k : N} : k ∈ (m.touch key).keys ↔ k ∈ m.keys ∨ k = key := by
  rw [touch]
  by_cases h : key ∈ m.keys
  · rw [if_pos h]
    exact ⟨.inl, fun hk => hk.elim id fun he => he ▸ h⟩
  · rw [if_neg h]
    show k ∈ m.keys ++ [key] ↔ _
    rw [mem_append, mem_singleton]

section

variable (m : DataMap N)

def set (key : N) (ty : Symbol) (bs : NodeBS N) : DataMap N where
  keys := (m.touch key).keys
  data := fun k t => if k = key ∧ t = ty then bs else m.data k t
  keyed := fun k t n h => by
    by_cases hk : k = key ∧ t = ty
    · exact mem_touch_keys.mpr (Or.inr hk.1)
    · rw [if_neg hk] at h
      exact mem_touch_keys.mpr (Or.inl (m.keyed k t n h))

def testAndSet (key : N) (ty : Symbol) (n : N) : Bool × DataMap N :=
  if n ∈ m.data key ty then (false, m.touch key)
  else (true, m.set key ty (m.data key ty ++ [n]))

def unionWith (key : N) (ty : Symbol) (bs : NodeBS N) : Bool × DataMap N :=
  let new := bs.filter fun n => n ∉ m.data key ty
  (!new.isEmpty, m.set key ty (m.data key ty ++ new))

theorem touch_data (key : N) : (m.touch key).data = m.data := by
  rw [touch]
  by_cases h : key ∈ m.keys
  · rw [if_pos h]
  · rw [if_neg h]

end

theorem mem_set {key k n : N} :
    n ∈ (m.set key ty bs).data k t ↔ if k = key ∧ t = ty then n ∈ bs else n ∈ m.data k t := by
  show n ∈ (if k = key ∧ t = ty then bs else m.data k t) ↔ _
  by_cases h : k = key ∧ t = ty
  · rw [if_pos h, if_pos h]
  · rw [if_neg h, if_neg h]

theorem testAndSet_fst {key n : N} {ty : Symbol} :
    (m.testAndSet key ty n).1 ↔ n ∉ m.data key ty := by
  rw [testAndSet]
  by_cases h : n ∈ m.data key ty
  · rw [if_pos h]
    exact ⟨fun hf => (nomatch hf), fun hn => absurd h hn⟩
  · rw [if_neg h]
    exact ⟨fun _ => h, fun _ => rfl⟩

theorem mem_testAndSet {key k n x : N} :
    x ∈ (m.testAndSet key ty n).2.data k t ↔ x ∈ m.data k t ∨ (k = key ∧ t = ty ∧ x = n) := by
  rw [testAndSet]
  by_cases h : n ∈ m.data key ty
  · rw [if_pos h]
    show x ∈ (m.touch key).data k t ↔ _
    rw [touch_data]
    constructor
    · exact .inl
    · rintro (hx | ⟨rfl, rfl, rfl⟩)
      · exact hx
      · exact h
  · rw [if_neg h]
    refine mem_set.trans ?_
    by_cases hk : k = key ∧ t = ty
    · obtain ⟨rfl, rfl⟩ := hk
      rw [if_pos ⟨rfl, rfl⟩, mem_append, mem_singleton]
      simp
    · rw [if_neg hk]
      constructor
      · exact .inl
      · rintro (hx | ⟨h1, h2, -⟩)
        · exact hx
        · exact absurd ⟨h1, h2⟩ hk

theorem unionWith_fst {key : N} {ty : Symbol} :
    (m.unionWith key ty bs).1 = false ↔ ∀ n ∈ bs, n ∈ m.data key ty := by
  show (!(bs.filter fun n => n ∉ m.data key ty).isEmpty) = false ↔ _
  rw [Bool.not_eq_false', List.isEmpty_iff, List.filter_eq_nil_iff]
  simp

theorem mem_unionWith {key k x : N} : x ∈ (m.unionWith key ty bs).2.data k t ↔
      x ∈ m.data k t ∨ (k = key ∧ t = ty ∧ x ∈ bs) := by
  refine mem_set.trans ?_
  by_cases hk : k = key ∧ t = ty
  · obtain ⟨rfl, rfl⟩ := hk
    rw [if_pos ⟨rfl, rfl⟩, mem_append, mem_filter]
    by_cases hx : x ∈ m.data k t
    · simp [hx]
    · simp [hx]
  · rw [if_neg hk]
    constructor
    · exact .inl
    · rintro (hx | ⟨h1, h2, -⟩)
      · exact hx
      · exact absurd ⟨h1, h2⟩ hk

theorem testAndSet_keys (m : DataMap N) (key : N) (ty : Symbol) (n : N) :
    (m.testAndSet key ty n).2.keys = (m.touch key).keys := by
  rw [testAndSet]
  by_cases h : n ∈ m.data key ty
  · rw [if_pos h]
  · rw [if_neg h]
    rfl

end DataMap

-- ── the solver

/-- The solver's mutable state. The worklist holds pointers: `none` is the null pointer
    that `addCFLEdge` returns when the graph has the edge. -/
structure POCRSolver (N : Type) [DecidableEq N] where
  graph : CFLGraph N
  worklist : FIFOWorkList (Option (CFLEdge N))
  succMap : DataMap N
  predMap : DataMap N

namespace POCRSolver

section

variable (s : POCRSolver N)

def addPred (key src : N) (ty : Symbol) : Bool × POCRSolver N :=
  let (changed, predMap) := s.predMap.testAndSet key ty src
  (changed, { s with predMap := predMap })

def addSucc (key dst : N) (ty : Symbol) : Bool × POCRSolver N :=
  let (changed, succMap) := s.succMap.testAndSet key ty dst
  (changed, { s with succMap := succMap })

def addPreds (key : N) (data : NodeBS N) (ty : Symbol) : Bool × POCRSolver N :=
  if data.isEmpty then (false, s)
  else
    let (changed, predMap) := s.predMap.unionWith key ty data
    (changed, { s with predMap := predMap })

def addSuccs (key : N) (data : NodeBS N) (ty : Symbol) : Bool × POCRSolver N :=
  if data.isEmpty then (false, s)
  else
    let (changed, succMap) := s.succMap.unionWith key ty data
    (changed, { s with succMap := succMap })

end

def collectNew (add : POCRSolver N → N → Bool × POCRSolver N) :
    NodeBS N → POCRSolver N → NodeBS N × POCRSolver N
  | [], s => ([], s)
  | datum :: data, s =>
    let (added, s) := add s datum
    let (news, s) := collectNew add data s
    (if added then news.insert datum else news, s)

section

variable (s : POCRSolver N)

def addEdge (src dst : N) (ty : Symbol) : Bool × POCRSolver N :=
  (s.addSucc src dst ty).2.addPred dst src ty

def addEdges (src : N) (dstData : NodeBS N) (ty : Symbol) : NodeBS N × POCRSolver N :=
  let (changed, s) := s.addSuccs src dstData ty
  if changed then collectNew (fun s datum => s.addPred datum src ty) dstData s else ([], s)

def addEdgesInto (srcData : NodeBS N) (dst : N) (ty : Symbol) : NodeBS N × POCRSolver N :=
  let (changed, s) := s.addPreds dst srcData ty
  if changed then collectNew (fun s datum => s.addSucc datum dst ty) srcData s else ([], s)

def getSuccMap (key : N) : (Symbol → NodeBS N) × POCRSolver N :=
  (s.succMap.data key, { s with succMap := s.succMap.touch key })

def getPredMap (key : N) : (Symbol → NodeBS N) × POCRSolver N :=
  (s.predMap.data key, { s with predMap := s.predMap.touch key })

def hasEdge (src dst : N) (ty : Symbol) : Bool :=
  src ∈ s.succMap.keys ∧ dst ∈ s.succMap.data src ty

def pushIntoWorklist (item : Option (CFLEdge N)) : POCRSolver N :=
  { s with worklist := (s.worklist.push item).2 }

def pushNewEdge (i j : N) (X : Symbol) : POCRSolver N :=
  let (newEdge, graph) := s.graph.addCFLEdge i j X
  { s with graph := graph }.pushIntoWorklist newEdge

def addNewEdge (i j : N) (X : Symbol) : POCRSolver N :=
  let (added, s) := s.addEdge i j X
  if added then s.pushNewEdge i j X else s

def buildCFLData : POCRSolver N :=
  s.graph.cflEdgeSet.foldl (fun s edge => (s.addEdge edge.src edge.dst edge.kind).2) s

end

/-- The constructor. -/
def ofGraph (graph : CFLGraph N) : POCRSolver N :=
  buildCFLData ⟨graph, FIFOWorkList.empty, DataMap.empty, DataMap.empty⟩

/-- For each production `X → Y`: add `X(i,j)`. -/
def processSingle (grammar : CFGrammar) (Y_edge : CFLEdge N) (s : POCRSolver N) : POCRSolver N :=
  if grammar.hasProdsFromSingleRHS Y_edge.kind then
    (grammar.getProdsFromSingleRHS Y_edge.kind).foldl
      (fun s prod => s.addNewEdge Y_edge.src Y_edge.dst (getLHSSymbol prod)) s
  else s

/-- One production `X → Y Z`: all successors of `j` under `Z` at a time. -/
def joinFirst (Y_edge : CFLEdge N) (s : POCRSolver N) (prod : Production) : POCRSolver N :=
  let (succs, s) := s.getSuccMap Y_edge.dst
  let (diffDsts, s) := s.addEdges Y_edge.src (succs (getSecondRHSSymbol prod)) (getLHSSymbol prod)
  diffDsts.foldl (fun s diffDst => s.pushNewEdge Y_edge.src diffDst (getLHSSymbol prod)) s

/-- One production `X → Z Y`: all predecessors of `i` under `Z` at a time. -/
def joinSecond (Y_edge : CFLEdge N) (s : POCRSolver N) (prod : Production) : POCRSolver N :=
  let (preds, s) := s.getPredMap Y_edge.src
  let (diffSrcs, s) :=
    s.addEdgesInto (preds (getFirstRHSSymbol prod)) Y_edge.dst (getLHSSymbol prod)
  diffSrcs.foldl (fun s diffSrc => s.pushNewEdge diffSrc Y_edge.dst (getLHSSymbol prod)) s

section

variable (grammar : CFGrammar)

section

variable (Y_edge : CFLEdge N)

def processFirst (s : POCRSolver N) : POCRSolver N :=
  if grammar.hasProdsFromFirstRHS Y_edge.kind then
    (grammar.getProdsFromFirstRHS Y_edge.kind).foldl (joinFirst Y_edge) s
  else s

def processSecond (s : POCRSolver N) : POCRSolver N :=
  if grammar.hasProdsFromSecondRHS Y_edge.kind then
    (grammar.getProdsFromSecondRHS Y_edge.kind).foldl (joinSecond Y_edge) s
  else s

def processCFLEdge (s : POCRSolver N) : POCRSolver N :=
  processSecond grammar Y_edge (processFirst grammar Y_edge (processSingle grammar Y_edge s))

end

/-- `initialize`: every edge of the graph, and the self edges of the `ε`-productions on the
    keys of the successor map. -/
def initializeSolver (s : POCRSolver N) : POCRSolver N :=
  let s := s.graph.cflEdgeSet.foldl (fun s edge => s.pushIntoWorklist (some edge)) s
  grammar.getEpsilonProds.foldl
    (fun s prod => s.succMap.keys.foldl (fun s i => s.addNewEdge i i (getLHSSymbol prod)) s) s

/-- One iteration of `solve`; a null pointer is dereferenced. -/
def solveStep (s : POCRSolver N) : Option (POCRSolver N) :=
  match s.worklist.pop with
  | none => none
  | some (none, _) => none
  | some (some Y_edge, worklist) =>
    some (processCFLEdge grammar Y_edge { s with worklist := worklist })

def solve (fuel : Nat) (s : POCRSolver N) : Option (POCRSolver N) :=
  whileM (fun s => !s.worklist.isEmpty) (solveStep grammar) fuel (initializeSolver grammar s)

end

-- ── three views of one set of edges

def succEdges (s : POCRSolver N) : Set (CFLEdge N) := {e | e.dst ∈ s.succMap.data e.src e.kind}

def predEdges (s : POCRSolver N) : Set (CFLEdge N) := {e | e.src ∈ s.predMap.data e.dst e.kind}

/-- The edges that are queued. -/
def queue (s : POCRSolver N) : Set (CFLEdge N) := {e | some e ∈ s.worklist.den}

/-- The maps say what the graph says, and no null pointer is queued. -/
structure Sync (s : POCRSolver N) : Prop where
  succ : s.succEdges = s.graph.edges
  pred : s.predEdges = s.graph.edges
  nonnull : none ∉ s.worklist.den

theorem succEdges_congr {s t : POCRSolver N} (h : s.succMap = t.succMap) :
    s.succEdges = t.succEdges := by
  rw [succEdges, succEdges, h]

theorem predEdges_congr {s t : POCRSolver N} (h : s.predMap = t.predMap) :
    s.predEdges = t.predEdges := by
  rw [predEdges, predEdges, h]

theorem addPred_spec (s : POCRSolver N) (key src : N) (ty : Symbol) :
    ((s.addPred key src ty).1 ↔ ⟨src, key, ty⟩ ∉ s.predEdges) ∧
    (s.addPred key src ty).2.predEdges = s.predEdges ∪ {⟨src, key, ty⟩} := by
  refine ⟨DataMap.testAndSet_fst, ?_⟩
  ext ⟨i, j, X⟩
  refine DataMap.mem_testAndSet.trans (or_congr .rfl ?_)
  constructor
  · rintro ⟨rfl, rfl, rfl⟩
    rfl
  · intro h
    obtain ⟨⟩ := h
    exact ⟨rfl, rfl, rfl⟩

theorem addSucc_spec (s : POCRSolver N) (key dst : N) (ty : Symbol) :
    ((s.addSucc key dst ty).1 ↔ ⟨key, dst, ty⟩ ∉ s.succEdges) ∧
    (s.addSucc key dst ty).2.succEdges = s.succEdges ∪ {⟨key, dst, ty⟩} := by
  refine ⟨DataMap.testAndSet_fst, ?_⟩
  ext ⟨i, j, X⟩
  refine DataMap.mem_testAndSet.trans (or_congr .rfl ?_)
  constructor
  · rintro ⟨rfl, rfl, rfl⟩
    rfl
  · intro h
    obtain ⟨⟩ := h
    exact ⟨rfl, rfl, rfl⟩

variable {edgeOf : N → CFLEdge N} {s : POCRSolver N}

/-- A loop that adds, to one view `V`, the edge of each datum, and collects the data whose
    edge was new: it collects each once, and leaves alone whatever one addition does. -/
theorem collectNew_spec {add : POCRSolver N → N → Bool × POCRSolver N}
    {V : POCRSolver N → Set (CFLEdge N)} {Q : POCRSolver N → Prop}
    (hinj : Injective edgeOf)
    (hadd : ∀ s n, ((add s n).1 ↔ edgeOf n ∉ V s) ∧ V (add s n).2 = V s ∪ {edgeOf n})
    (hQ : ∀ s n, Q s → Q (add s n).2) :
    ∀ (data : NodeBS N) (s : POCRSolver N), Q s → Q (collectNew add data s).2 ∧
      V (collectNew add data s).2 = V s ∪ edgeOf '' {n | n ∈ data} ∧
      (collectNew add data s).1.Nodup ∧
      ∀ n, n ∈ (collectNew add data s).1 ↔ n ∈ data ∧ edgeOf n ∉ V s := by
  intro data
  induction data with
  | nil =>
    intro s hs
    refine ⟨hs, ?_, nodup_nil, fun n => ?_⟩
    · show V s = V s ∪ edgeOf '' {n | n ∈ ([] : List N)}
      simp
    · simp [collectNew]
  | cons d data ih =>
    intro s hs
    obtain ⟨hnew, hV⟩ := hadd s d
    obtain ⟨hQ', hV', hnd, hmem⟩ := ih (add s d).2 (hQ s d hs)
    refine ⟨hQ', ?_, ?_, fun n => ?_⟩
    · show V (collectNew add data (add s d).2).2 = _
      rw [hV', hV, Set.union_assoc, ← Set.image_singleton, ← Set.image_union]
      congr 2
      ext n
      simp
    · show List.Nodup (if (add s d).1 then _ else _)
      by_cases ha : (add s d).1
      · rw [if_pos ha]
        exact hnd.insert
      · rw [if_neg ha]
        exact hnd
    · show n ∈ (if (add s d).1 then _ else _) ↔ _
      have hrest : n ∈ (collectNew add data (add s d).2).1 ↔ n ∈ data ∧ edgeOf n ∉ V s ∧ n ≠ d := by
        rw [hmem, hV, Set.mem_union, Set.mem_singleton_iff, not_or, hinj.eq_iff]
      by_cases ha : (add s d).1
      · rw [if_pos ha, mem_insert_iff, hrest, mem_cons]
        have hd := hnew.mp ha
        constructor
        · rintro (rfl | ⟨h1, h2, -⟩)
          · exact ⟨.inl rfl, hd⟩
          · exact ⟨.inr h1, h2⟩
        · rintro ⟨h1, h2⟩
          by_cases hnd : n = d
          · exact .inl hnd
          · exact .inr ⟨h1.resolve_left hnd, h2, hnd⟩
      · rw [if_neg ha, hrest, mem_cons]
        have hd : edgeOf d ∈ V s := by
          by_contra hc
          exact ha (hnew.mpr hc)
        constructor
        · rintro ⟨h1, h2, -⟩
          exact ⟨.inr h1, h2⟩
        · rintro ⟨h1, h2⟩
          have hnd : n ≠ d := fun he => h2 (he ▸ hd)
          exact ⟨h1.resolve_left hnd, h2, hnd⟩

structure Added (s t : POCRSolver N) (C : Set (CFLEdge N)) : Prop where
  sync : Sync t
  edges : t.graph.edges = s.graph.edges ∪ C
  queue : t.queue = s.queue ∪ (C \ s.graph.edges)

theorem pushNewEdge_spec {e : CFLEdge N} (h : e ∉ s.graph.edges) :
    (s.pushNewEdge e.src e.dst e.kind).graph.edges = s.graph.edges ∪ {e} ∧
    (s.pushNewEdge e.src e.dst e.kind).queue = s.queue ∪ {e} ∧
    (none ∈ (s.pushNewEdge e.src e.dst e.kind).worklist.den ↔ none ∈ s.worklist.den) ∧
    (s.pushNewEdge e.src e.dst e.kind).succMap = s.succMap ∧
    (s.pushNewEdge e.src e.dst e.kind).predMap = s.predMap := by
  have hadd : s.graph.addCFLEdge e.src e.dst e.kind =
      (some e, { s.graph with cflEdgeSet := s.graph.cflEdgeSet ++ [e] }) := if_neg h
  rw [pushNewEdge, hadd]
  refine ⟨?_, ?_, ?_, rfl, rfl⟩
  · ext x
    show x ∈ s.graph.cflEdgeSet ++ [e] ↔ _
    rw [mem_append, mem_singleton]
    exact .rfl
  · ext x
    show some x ∈ (s.worklist.push (some e)).2.den ↔ _
    rw [den_push, Set.mem_insert_iff, Option.some.injEq, or_comm]
    exact .rfl
  · show none ∈ (s.worklist.push (some e)).2.den ↔ _
    rw [den_push, Set.mem_insert_iff]
    simp

theorem foldl_pushNewEdge_spec (hinj : Injective edgeOf) :
    ∀ (l : NodeBS N) (s : POCRSolver N), l.Nodup → (∀ n ∈ l, edgeOf n ∉ s.graph.edges) →
      let t := l.foldl (fun s n => s.pushNewEdge (edgeOf n).src (edgeOf n).dst (edgeOf n).kind) s
      t.graph.edges = s.graph.edges ∪ edgeOf '' {n | n ∈ l} ∧
      t.queue = s.queue ∪ edgeOf '' {n | n ∈ l} ∧
      (none ∈ t.worklist.den ↔ none ∈ s.worklist.den) ∧
      t.succMap = s.succMap ∧ t.predMap = s.predMap := by
  intro l
  induction l with
  | nil =>
    intro s _ _
    refine ⟨?_, ?_, .rfl, rfl, rfl⟩
    · simp
    · simp
  | cons a l ih =>
    intro s hnd hnew
    obtain ⟨ha, hnd'⟩ := List.nodup_cons.mp hnd
    obtain ⟨h1, h2, h3, h4, h5⟩ := pushNewEdge_spec (hnew a mem_cons_self)
    have hnew' : ∀ n ∈ l,
        edgeOf n ∉ (s.pushNewEdge (edgeOf a).src (edgeOf a).dst (edgeOf a).kind).graph.edges := by
      intro n hn
      rw [h1, Set.mem_union, Set.mem_singleton_iff, hinj.eq_iff]
      rintro (h | rfl)
      · exact hnew n (mem_cons_of_mem a hn) h
      · exact ha hn
    obtain ⟨k1, k2, k3, k4, k5⟩ := ih _ hnd' hnew'
    have himg : ({edgeOf a} : Set (CFLEdge N)) ∪ edgeOf '' {n | n ∈ l} =
        edgeOf '' {n | n ∈ a :: l} := by
      rw [← Set.image_singleton, ← Set.image_union]
      congr 1
      ext n
      simp
    refine ⟨k1.trans ?_, k2.trans ?_, k3.trans h3, k4.trans h4, k5.trans h5⟩
    · rw [h1, Set.union_assoc, himg]
    · rw [h2, Set.union_assoc, himg]

/-- Maps with a set of edges added and the new ones of them listed once: after the loop over
    the list the graph and the worklist have them too. -/
theorem added_of_collect {s t : POCRSolver N} (hs : Sync s) (hinj : Injective edgeOf)
    {data news : NodeBS N} (hgraph : t.graph = s.graph) (hwork : t.worklist = s.worklist)
    (hsucc : t.succEdges = s.graph.edges ∪ edgeOf '' {n | n ∈ data})
    (hpred : t.predEdges = s.graph.edges ∪ edgeOf '' {n | n ∈ data}) (hnd : news.Nodup)
    (hmem : ∀ n, n ∈ news ↔ n ∈ data ∧ edgeOf n ∉ s.graph.edges) :
    Added s (news.foldl (fun s n => s.pushNewEdge (edgeOf n).src (edgeOf n).dst (edgeOf n).kind) t)
      (edgeOf '' {n | n ∈ data}) := by
  have hnew : ∀ n ∈ news, edgeOf n ∉ t.graph.edges := by
    intro n hn
    rw [hgraph]
    exact ((hmem n).mp hn).2
  obtain ⟨h1, h2, h3, h4, h5⟩ := foldl_pushNewEdge_spec hinj news t hnd hnew
  -- the new edges are the added ones that were not there
  have himg : edgeOf '' {n | n ∈ news} = edgeOf '' {n | n ∈ data} \ s.graph.edges := by
    ext e
    constructor
    · rintro ⟨n, hn, rfl⟩
      exact ⟨⟨n, ((hmem n).mp hn).1, rfl⟩, ((hmem n).mp hn).2⟩
    · rintro ⟨⟨n, hn, rfl⟩, hne⟩
      exact ⟨n, (hmem n).mpr ⟨hn, hne⟩, rfl⟩
  have hedges := h1
  rw [hgraph, himg, Set.union_sdiff_self] at hedges
  refine ⟨⟨?_, ?_, ?_⟩, hedges, ?_⟩
  · rw [hedges, ← hsucc]
    exact succEdges_congr h4
  · rw [hedges, ← hpred]
    exact predEdges_congr h5
  · rw [h3, hwork]
    exact hs.nonnull
  · refine h2.trans ?_
    rw [himg, queue, hwork]
    rfl

section

variable (s : POCRSolver N)

/-- `addEdge` adds its edge to both maps, and says whether it was new to the second. -/
theorem addEdge_spec (i j : N) (X : Symbol) :
    ((s.addEdge i j X).1 ↔ ⟨i, j, X⟩ ∉ s.predEdges) ∧
    (s.addEdge i j X).2.succEdges = s.succEdges ∪ {⟨i, j, X⟩} ∧
    (s.addEdge i j X).2.predEdges = s.predEdges ∪ {⟨i, j, X⟩} := by
  obtain ⟨-, hsucc⟩ := s.addSucc_spec i j X
  obtain ⟨hnew, hpred⟩ := (s.addSucc i j X).2.addPred_spec j i X
  exact ⟨hnew, hsucc, hpred⟩

theorem addNewEdge_eq (i j : N) (X : Symbol) : s.addNewEdge i j X =
      if (s.addEdge i j X).1 then (s.addEdge i j X).2.pushNewEdge i j X
      else (s.addEdge i j X).2 := rfl

theorem addEdges_eq (src : N) (dstData : NodeBS N) (ty : Symbol) :
    s.addEdges src dstData ty =
      if (s.addSuccs src dstData ty).1 then
        collectNew (fun s datum => s.addPred datum src ty) dstData (s.addSuccs src dstData ty).2
      else ([], (s.addSuccs src dstData ty).2) := rfl

theorem addEdgesInto_eq (srcData : NodeBS N) (dst : N) (ty : Symbol) :
    s.addEdgesInto srcData dst ty =
      if (s.addPreds dst srcData ty).1 then
        collectNew (fun s datum => s.addSucc datum dst ty) srcData (s.addPreds dst srcData ty).2
      else ([], (s.addPreds dst srcData ty).2) := rfl

end

theorem addNewEdge_added (hs : Sync s) (i j : N) (X : Symbol) :
    Added s (s.addNewEdge i j X) {⟨i, j, X⟩} := by
  obtain ⟨hnew, hsucc, hpred⟩ := s.addEdge_spec i j X
  rw [hs.pred] at hnew hpred
  rw [hs.succ] at hsucc
  rw [addNewEdge_eq]
  by_cases h : (s.addEdge i j X).1
  · rw [if_pos h]
    have hn := hnew.mp h
    obtain ⟨h1, h2, h3, h4, h5⟩ := pushNewEdge_spec (s := (s.addEdge i j X).2) hn
    refine ⟨⟨?_, ?_, fun hc => hs.nonnull (h3.mp hc)⟩, h1, ?_⟩
    · exact ((succEdges_congr h4).trans hsucc).trans h1.symm
    · exact ((predEdges_congr h5).trans hpred).trans h1.symm
    · refine h2.trans ?_
      rw [sdiff_eq_left.mpr (Set.disjoint_singleton_left.mpr hn)]
      rfl
  · rw [if_neg h]
    have hold : ({⟨i, j, X⟩} : Set (CFLEdge N)) ⊆ s.graph.edges := by
      refine Set.singleton_subset_iff.mpr ?_
      by_contra hc
      exact h (hnew.mpr hc)
    have hsame := Set.union_eq_left.mpr hold
    rw [hsame] at hsucc hpred
    refine ⟨⟨hsucc, hpred, hs.nonnull⟩, hsame.symm, ?_⟩
    rw [Set.sdiff_eq_empty.mpr hold, Set.union_empty]
    rfl

/-- The second half of both `addEdges`: the first map has the edges already, and if it did
    not change the second one has them too. `Q` is what the additions leave alone. -/
theorem collect_spec (s s1 : POCRSolver N) {changed : Bool} {data : NodeBS N}
    {add : POCRSolver N → N → Bool × POCRSolver N} {V : POCRSolver N → Set (CFLEdge N)}
    {Q : POCRSolver N → Prop} (hinj : Injective edgeOf)
    (hadd : ∀ s n, ((add s n).1 ↔ edgeOf n ∉ V s) ∧ V (add s n).2 = V s ∪ {edgeOf n})
    (hQ : ∀ s n, Q s → Q (add s n).2) (hQ1 : Q s1) (hV : V s1 = s.graph.edges)
    (hold : changed = false → ∀ n ∈ data, edgeOf n ∈ s.graph.edges) :
    let r := if changed then collectNew add data s1 else ([], s1)
    Q r.2 ∧ V r.2 = s.graph.edges ∪ edgeOf '' {n | n ∈ data} ∧ r.1.Nodup ∧
      ∀ n, n ∈ r.1 ↔ n ∈ data ∧ edgeOf n ∉ s.graph.edges := by
  rw [← hV] at hold ⊢
  cases changed with
  | false =>
    have hsub : edgeOf '' {n | n ∈ data} ⊆ V s1 := by
      rintro _ ⟨n, hn, rfl⟩
      exact hold rfl n hn
    refine ⟨hQ1, (Set.union_eq_left.mpr hsub).symm, nodup_nil, fun n => ?_⟩
    exact ⟨nofun, fun h => absurd (hold rfl n h.1) h.2⟩
  | true => exact collectNew_spec hinj hadd hQ data s1 hQ1

/-- `addSuccs` adds the edges from `src` to the successor map, and says so if one was new. -/
theorem addSuccs_spec (s : POCRSolver N) (src : N) (dstData : NodeBS N) (ty : Symbol) :
    let edgeOf : N → CFLEdge N := fun n => ⟨src, n, ty⟩
    let r := s.addSuccs src dstData ty
    (r.2.graph = s.graph ∧ r.2.worklist = s.worklist ∧ r.2.predMap = s.predMap) ∧
    r.2.succEdges = s.succEdges ∪ edgeOf '' {n | n ∈ dstData} ∧
    (r.1 = false → ∀ n ∈ dstData, edgeOf n ∈ s.succEdges) := by
  intro edgeOf
  rw [addSuccs]
  by_cases hd : dstData.isEmpty
  · rw [if_pos hd]
    obtain rfl := List.isEmpty_iff.mp hd
    refine ⟨⟨rfl, rfl, rfl⟩, ?_, nofun⟩
    simp
  · rw [if_neg hd]
    refine ⟨⟨rfl, rfl, rfl⟩, ?_, DataMap.unionWith_fst.mp⟩
    ext ⟨i, j, X⟩
    refine DataMap.mem_unionWith.trans (or_congr .rfl ?_)
    constructor
    · rintro ⟨rfl, rfl, hj⟩
      exact ⟨j, hj, rfl⟩
    · rintro ⟨n, hn, he⟩
      obtain ⟨⟩ := he
      exact ⟨rfl, rfl, hn⟩

/-- `addPreds` adds the edges into `dst` to the predecessor map. -/
theorem addPreds_spec (s : POCRSolver N) (dst : N) (srcData : NodeBS N) (ty : Symbol) :
    let edgeOf : N → CFLEdge N := fun n => ⟨n, dst, ty⟩
    let r := s.addPreds dst srcData ty
    (r.2.graph = s.graph ∧ r.2.worklist = s.worklist ∧ r.2.succMap = s.succMap) ∧
    r.2.predEdges = s.predEdges ∪ edgeOf '' {n | n ∈ srcData} ∧
    (r.1 = false → ∀ n ∈ srcData, edgeOf n ∈ s.predEdges) := by
  intro edgeOf
  rw [addPreds]
  by_cases hd : srcData.isEmpty
  · rw [if_pos hd]
    obtain rfl := List.isEmpty_iff.mp hd
    refine ⟨⟨rfl, rfl, rfl⟩, ?_, nofun⟩
    simp
  · rw [if_neg hd]
    refine ⟨⟨rfl, rfl, rfl⟩, ?_, DataMap.unionWith_fst.mp⟩
    ext ⟨i, j, X⟩
    refine DataMap.mem_unionWith.trans (or_congr .rfl ?_)
    constructor
    · rintro ⟨rfl, rfl, hj⟩
      exact ⟨i, hj, rfl⟩
    · rintro ⟨n, hn, he⟩
      obtain ⟨⟩ := he
      exact ⟨rfl, rfl, hn⟩

/-- Every successor of `j` under `Z` becomes a successor of `i` under `X`, in the maps, the
    graph and the worklist. If the successor map does not change, the predecessor map need
    not be looked at: the two are in step. -/
theorem joinFirst_added (hs : Sync s) (e : CFLEdge N) (prod : Production) :
    Added s (joinFirst e s prod) {c | ∃ f ∈ s.graph.edges, f.src = e.dst ∧
      f.kind = getSecondRHSSymbol prod ∧ c = ⟨e.src, f.dst, getLHSSymbol prod⟩} := by
  let edgeOf : N → CFLEdge N := fun n => ⟨e.src, n, getLHSSymbol prod⟩
  have hinj : Injective edgeOf := fun a b h => (LabelledEdge.mk.inj h).2.1
  -- reading the map at `j` creates an entry and changes no edge
  let s0 := (s.getSuccMap e.dst).2
  let dstData := s.succMap.data e.dst (getSecondRHSSymbol prod)
  have hsucc0 : s0.succEdges = s.graph.edges := by
    rw [← hs.succ]
    show {f : CFLEdge N | f.dst ∈ (s.succMap.touch e.dst).data f.src f.kind} = s.succEdges
    rw [DataMap.touch_data]
    rfl
  obtain ⟨⟨hg, hw, hp⟩, hsucc, hold⟩ := s0.addSuccs_spec e.src dstData (getLHSSymbol prod)
  rw [hsucc0] at hsucc hold
  have hcollect := collect_spec s (s0.addSuccs e.src dstData (getLHSSymbol prod)).2
    (V := predEdges) (Q := fun t => t.graph = s.graph ∧ t.worklist = s.worklist ∧
      t.succMap = (s0.addSuccs e.src dstData (getLHSSymbol prod)).2.succMap) hinj
    (fun t n => t.addPred_spec n e.src (getLHSSymbol prod)) (fun _ _ h => h)
    ⟨hg, hw, rfl⟩ ((predEdges_congr hp).trans hs.pred) hold
  rw [← addEdges_eq] at hcollect
  obtain ⟨⟨hg', hw', hs'⟩, hpred, hnd, hmem⟩ := hcollect
  have hadded := added_of_collect hs hinj hg' hw' ((succEdges_congr hs').trans hsucc) hpred hnd hmem
  have hC : edgeOf '' {n | n ∈ dstData} = {c | ∃ f ∈ s.graph.edges, f.src = e.dst ∧
      f.kind = getSecondRHSSymbol prod ∧ c = ⟨e.src, f.dst, getLHSSymbol prod⟩} := by
    rw [← hs.succ]
    ext c
    constructor
    · rintro ⟨n, hn, rfl⟩
      exact ⟨⟨e.dst, n, getSecondRHSSymbol prod⟩, hn, rfl, rfl, rfl⟩
    · rintro ⟨⟨i, n, Z⟩, hf, rfl, rfl, rfl⟩
      exact ⟨n, hf, rfl⟩
  rw [← hC]
  exact hadded

/-- The mirror image of `joinFirst_added`. -/
theorem joinSecond_added (hs : Sync s) (e : CFLEdge N) (prod : Production) :
    Added s (joinSecond e s prod) {c | ∃ f ∈ s.graph.edges, f.dst = e.src ∧
      f.kind = getFirstRHSSymbol prod ∧ c = ⟨f.src, e.dst, getLHSSymbol prod⟩} := by
  let edgeOf : N → CFLEdge N := fun n => ⟨n, e.dst, getLHSSymbol prod⟩
  have hinj : Injective edgeOf := fun a b h => (LabelledEdge.mk.inj h).1
  let s0 := (s.getPredMap e.src).2
  let srcData := s.predMap.data e.src (getFirstRHSSymbol prod)
  have hpred0 : s0.predEdges = s.graph.edges := by
    rw [← hs.pred]
    show {f : CFLEdge N | f.src ∈ (s.predMap.touch e.src).data f.dst f.kind} = s.predEdges
    rw [DataMap.touch_data]
    rfl
  obtain ⟨⟨hg, hw, hp⟩, hpred, hold⟩ := s0.addPreds_spec e.dst srcData (getLHSSymbol prod)
  rw [hpred0] at hpred hold
  have hcollect := collect_spec s (s0.addPreds e.dst srcData (getLHSSymbol prod)).2
    (V := succEdges) (Q := fun t => t.graph = s.graph ∧ t.worklist = s.worklist ∧
      t.predMap = (s0.addPreds e.dst srcData (getLHSSymbol prod)).2.predMap) hinj
    (fun t n => t.addSucc_spec n e.dst (getLHSSymbol prod)) (fun _ _ h => h)
    ⟨hg, hw, rfl⟩ ((succEdges_congr hp).trans hs.succ) hold
  rw [← addEdgesInto_eq] at hcollect
  obtain ⟨⟨hg', hw', hs'⟩, hsucc, hnd, hmem⟩ := hcollect
  have hadded := added_of_collect hs hinj hg' hw' hsucc ((predEdges_congr hs').trans hpred) hnd hmem
  have hC : edgeOf '' {n | n ∈ srcData} = {c | ∃ f ∈ s.graph.edges, f.dst = e.src ∧
      f.kind = getFirstRHSSymbol prod ∧ c = ⟨f.src, e.dst, getLHSSymbol prod⟩} := by
    rw [← hs.pred]
    ext c
    constructor
    · rintro ⟨n, hn, rfl⟩
      exact ⟨⟨n, e.src, getFirstRHSSymbol prod⟩, hn, rfl, rfl, rfl⟩
    · rintro ⟨⟨n, j, Z⟩, hf, rfl, rfl, rfl⟩
      exact ⟨n, hf, rfl⟩
  rw [← hC]
  exact hadded

-- ── one round

variable {grammar : CFGrammar} {R : Symbol → List Symbol → Prop} {e : CFLEdge N}
  {E₀ W₀ : Set (CFLEdge N)}

/-- The solver is in the middle of the round of `e` under the productions `R`, its views in
    step. -/
structure InRound (R : Symbol → List Symbol → Prop) (e : CFLEdge N) (E₀ W₀ : Set (CFLEdge N))
    (s : POCRSolver N) : Prop where
  firing : Firing (edgeRules R) e E₀ W₀ s.graph.edges s.queue
  sync : Sync s

/-- Adding conclusions of the round stays in the round, keeps what was there and has the
    conclusions. -/
theorem Added.inRound {s t : POCRSolver N} {C : Set (CFLEdge N)} (ht : Added s t C)
    (he : e ∈ E₀) (h : InRound R e E₀ W₀ s)
    (hC : ∀ c ∈ C, Concludes (edgeRules R) e s.graph.edges c) :
    InRound R e E₀ W₀ t ∧ s.graph.edges ⊆ t.graph.edges ∧ C ⊆ t.graph.edges := by
  refine ⟨⟨h.firing.add he hC ht.edges ht.queue, ht.sync⟩, ?_, ?_⟩
  · rw [ht.edges]
    exact Set.subset_union_left
  · rw [ht.edges]
    exact Set.subset_union_right

theorem processSingle_inRound (hR : ∀ X, R X [e.kind] ↔ grammar.Rule X [e.kind]) (he : e ∈ E₀)
    (h : InRound R e E₀ W₀ s) :
    InRound R e E₀ W₀ (processSingle grammar e s) ∧
      s.graph.edges ⊆ (processSingle grammar e s).graph.edges ∧
      ∀ c, (edgeRules R).unary e c → c ∈ (processSingle grammar e s).graph.edges := by
  rw [processSingle, hasProdsFromSingleRHS, getProdsFromSingleRHS, foldl_guard]
  have hprods := foldl_grows (P := InRound R e E₀ W₀) (E := fun s => s.graph.edges)
    (f := fun s prod => s.addNewEdge e.src e.dst (getLHSSymbol prod))
    (C := fun prod => {⟨e.src, e.dst, getLHSSymbol prod⟩})
    (grammar.getProdsFromSingleRHS e.kind) s (fun s prod hprod hs => by
      refine (addNewEdge_added hs.sync _ _ _).inRound he hs ?_
      rintro c rfl
      have hX : R (getLHSSymbol prod) [e.kind] := (hR _).mpr (rule_single.mpr ⟨prod, hprod, rfl⟩)
      exact .inl ⟨rfl, rfl, hX⟩) h
  obtain ⟨h1, h2, h3⟩ := hprods
  refine ⟨h1, h2, ?_⟩
  rintro ⟨i, j, X⟩ ⟨rfl, rfl, hX⟩
  obtain ⟨prod, hprod, rfl⟩ := rule_single.mp ((hR X).mp hX)
  exact h3 prod hprod (Set.mem_singleton _)

/-- The share of a production `X → Y Z` in the round of a `Y`: its conclusions with the edges
    the round began with. -/
def firstShare (e : CFLEdge N) (E₀ : Set (CFLEdge N)) (prod : Production) : Set (CFLEdge N) :=
  {c | ∃ f ∈ E₀, f.src = e.dst ∧ f.kind = getSecondRHSSymbol prod ∧
    c = ⟨e.src, f.dst, getLHSSymbol prod⟩}

/-- The share of a production `X → Z Y` in the round of a `Y`. -/
def secondShare (e : CFLEdge N) (E₀ : Set (CFLEdge N)) (prod : Production) : Set (CFLEdge N) :=
  {c | ∃ f ∈ E₀, f.dst = e.src ∧ f.kind = getFirstRHSSymbol prod ∧
    c = ⟨f.src, e.dst, getLHSSymbol prod⟩}

section

variable (he : e ∈ E₀)
include he

/-- A production `X → Y Z` joined with a popped `Y`: the step of the second loop. -/
theorem joinFirst_inRound (hs : InRound R e E₀ W₀ s) {prod : Production}
    (hX : R (getLHSSymbol prod) [e.kind, getSecondRHSSymbol prod]) :
    InRound R e E₀ W₀ (joinFirst e s prod) ∧ s.graph.edges ⊆ (joinFirst e s prod).graph.edges ∧
      firstShare e E₀ prod ⊆ (joinFirst e s prod).graph.edges := by
  obtain ⟨h1, h2, h3⟩ := (joinFirst_added hs.sync e prod).inRound he hs (by
    rintro c ⟨f, hf, hsrc, hkind, rfl⟩
    rw [← hkind] at hX
    exact .inr (.inl ⟨f, hf, hsrc.symm, rfl, rfl, hX⟩))
  refine ⟨h1, h2, ?_⟩
  rintro c ⟨f, hf, hc⟩
  exact h3 ⟨f, hs.firing.grow hf, hc⟩

/-- A production `X → Z Y` joined with a popped `Y`: the step of the third loop. -/
theorem joinSecond_inRound (hs : InRound R e E₀ W₀ s) {prod : Production}
    (hX : R (getLHSSymbol prod) [getFirstRHSSymbol prod, e.kind]) :
    InRound R e E₀ W₀ (joinSecond e s prod) ∧ s.graph.edges ⊆ (joinSecond e s prod).graph.edges ∧
      secondShare e E₀ prod ⊆ (joinSecond e s prod).graph.edges := by
  obtain ⟨h1, h2, h3⟩ := (joinSecond_added hs.sync e prod).inRound he hs (by
    rintro c ⟨f, hf, hdst, hkind, rfl⟩
    rw [← hkind] at hX
    exact .inr (.inr ⟨f, hf, hdst, rfl, rfl, hX⟩))
  refine ⟨h1, h2, ?_⟩
  rintro c ⟨f, hf, hc⟩
  exact h3 ⟨f, hs.firing.grow hf, hc⟩

theorem processFirst_inRound (h : InRound grammar.Rule e E₀ W₀ s) :
    InRound grammar.Rule e E₀ W₀ (processFirst grammar e s) ∧
      s.graph.edges ⊆ (processFirst grammar e s).graph.edges ∧
      ∀ f c, f ∈ E₀ → (edgeRules grammar.Rule).binary e f c →
        c ∈ (processFirst grammar e s).graph.edges := by
  rw [processFirst, hasProdsFromFirstRHS, getProdsFromFirstRHS, foldl_guard]
  obtain ⟨h1, h2, h3⟩ := foldl_grows (P := InRound grammar.Rule e E₀ W₀) (f := joinFirst e)
    (E := fun s => s.graph.edges) _ s
    (fun _ prod hprod hs => joinFirst_inRound he hs (rule_first.mpr ⟨prod, hprod, rfl, rfl⟩)) h
  refine ⟨h1, h2, ?_⟩
  rintro f ⟨i, k, X⟩ hf ⟨hm, rfl, rfl, hX⟩
  obtain ⟨prod, hprod, rfl, hZ⟩ := rule_first.mp hX
  exact h3 prod hprod ⟨f, hf, hm.symm, hZ.symm, rfl⟩

theorem processSecond_inRound (h : InRound grammar.Rule e E₀ W₀ s) :
    InRound grammar.Rule e E₀ W₀ (processSecond grammar e s) ∧
      s.graph.edges ⊆ (processSecond grammar e s).graph.edges ∧
      ∀ f c, f ∈ E₀ → (edgeRules grammar.Rule).binary f e c →
        c ∈ (processSecond grammar e s).graph.edges := by
  rw [processSecond, hasProdsFromSecondRHS, getProdsFromSecondRHS, foldl_guard]
  obtain ⟨h1, h2, h3⟩ := foldl_grows (P := InRound grammar.Rule e E₀ W₀) (f := joinSecond e)
    (E := fun s => s.graph.edges) _ s
    (fun _ prod hprod hs => joinSecond_inRound he hs (rule_second.mpr ⟨prod, hprod, rfl, rfl⟩)) h
  refine ⟨h1, h2, ?_⟩
  rintro f ⟨i, k, X⟩ hf ⟨hm, rfl, rfl, hX⟩
  obtain ⟨prod, hprod, rfl, hZ⟩ := rule_second.mp hX
  exact h3 prod hprod ⟨f, hf, hm, hZ.symm, rfl⟩

end

/-- **One `processCFLEdge` is one round of saturation.** -/
theorem processCFLEdge_fired (hs : Sync s) (he : e ∈ s.graph.edges) :
    Sync (processCFLEdge grammar e s) ∧
    Fired (edgeRules grammar.Rule) e s.graph.edges s.queue
      (processCFLEdge grammar e s).graph.edges (processCFLEdge grammar e s).queue := by
  have h0 : InRound grammar.Rule e s.graph.edges s.queue s := ⟨Firing.start _ _ _, hs⟩
  obtain ⟨h1, -, hu⟩ := processSingle_inRound (fun _ => .rfl) he h0
  obtain ⟨h2, hsub2, hl⟩ := processFirst_inRound he h1
  obtain ⟨h3, hsub3, hr⟩ := processSecond_inRound he h2
  refine ⟨h3.sync, h3.firing, ?_⟩
  rintro c (hc | ⟨f, hf, hc⟩ | ⟨f, hf, hc⟩)
  · exact hsub3 (hsub2 (hu c hc))
  · exact hsub3 (hl f c hf hc)
  · exact hr f c hf hc

-- ── the beginning

theorem addEdge_keys (s : POCRSolver N) (i j : N) (X : Symbol) :
    (s.addEdge i j X).2.succMap.keys = (s.succMap.touch i).keys :=
  DataMap.testAndSet_keys s.succMap i X j

theorem addNewEdge_keys (s : POCRSolver N) (i j : N) (X : Symbol) :
    (s.addNewEdge i j X).succMap.keys = (s.succMap.touch i).keys := by
  rw [addNewEdge_eq, ← addEdge_keys s i j X]
  by_cases h : (s.addEdge i j X).1
  · rw [if_pos h]
    rfl
  · rw [if_neg h]

/-- A loop of `addEdge`s adds its edges to both maps, and their sources to the keys. -/
theorem foldl_addEdge_spec (l : List (CFLEdge N)) (s : POCRSolver N) :
    let t := l.foldl (fun s edge => (s.addEdge edge.src edge.dst edge.kind).2) s
    t.graph = s.graph ∧ t.worklist = s.worklist ∧
    t.succEdges = s.succEdges ∪ {e | e ∈ l} ∧ t.predEdges = s.predEdges ∪ {e | e ∈ l} ∧
    ∀ k, k ∈ t.succMap.keys ↔ k ∈ s.succMap.keys ∨ ∃ e ∈ l, e.src = k := by
  induction l generalizing s with
  | nil =>
    refine ⟨rfl, rfl, ?_, ?_, fun k => ?_⟩
    · simp
    · simp
    · simp
  | cons a l ih =>
    obtain ⟨h1, h2, h3, h4, h5⟩ := ih (s.addEdge a.src a.dst a.kind).2
    obtain ⟨-, hsucc, hpred⟩ := s.addEdge_spec a.src a.dst a.kind
    have hcons : ({a} : Set (CFLEdge N)) ∪ {e | e ∈ l} = {e | e ∈ a :: l} := by
      ext e
      simp
    refine ⟨h1, h2, h3.trans ?_, h4.trans ?_, fun k => (h5 k).trans ?_⟩
    · rw [hsucc, Set.union_assoc, hcons]
    · rw [hpred, Set.union_assoc, hcons]
    · rw [addEdge_keys, DataMap.mem_touch_keys]
      rw [exists_mem_cons_iff, or_assoc, eq_comm (a := a.src)]

/-- After the constructor the maps have the graph's edges, and the keys of the successor map
    are the nodes with an outgoing edge. -/
theorem ofGraph_spec (graph : CFLGraph N) :
    (ofGraph graph).graph = graph ∧ Sync (ofGraph graph) ∧ (ofGraph graph).queue = ∅ ∧
    ∀ k, k ∈ (ofGraph graph).succMap.keys ↔ ∃ e ∈ graph.cflEdgeSet, e.src = k := by
  obtain ⟨h1, h2, h3, h4, h5⟩ := foldl_addEdge_spec graph.cflEdgeSet
    (⟨graph, FIFOWorkList.empty, DataMap.empty, DataMap.empty⟩ : POCRSolver N)
  have hwork : (ofGraph graph).worklist.den = ∅ :=
    (congrArg FIFOWorkList.den h2).trans FIFOWorkList.den_empty
  have hgraph : (ofGraph graph).graph.edges = {e | e ∈ graph.cflEdgeSet} :=
    congrArg CFLGraph.edges h1
  refine ⟨h1, ⟨?_, ?_, ?_⟩, ?_, fun k => (h5 k).trans ?_⟩
  · rw [hgraph]
    refine h3.trans ?_
    simp [succEdges, DataMap.empty]
  · rw [hgraph]
    refine h4.trans ?_
    simp [predEdges, DataMap.empty]
  · rw [hwork]
    exact Set.notMem_empty _
  · rw [queue, hwork]
    rfl
  · simp [DataMap.empty]

theorem foldl_push_spec (l : List (CFLEdge N)) (s : POCRSolver N) :
    let t := l.foldl (fun s edge => s.pushIntoWorklist (some edge)) s
    t.graph = s.graph ∧ t.succMap = s.succMap ∧ t.predMap = s.predMap ∧
    t.queue = s.queue ∪ {e | e ∈ l} ∧ (none ∈ t.worklist.den ↔ none ∈ s.worklist.den) := by
  induction l generalizing s with
  | nil =>
    refine ⟨rfl, rfl, rfl, ?_, .rfl⟩
    simp
  | cons a l ih =>
    obtain ⟨h1, h2, h3, h4, h5⟩ := ih (s.pushIntoWorklist (some a))
    refine ⟨h1, h2, h3, h4.trans ?_, h5.trans ?_⟩
    · ext e
      show some e ∈ (s.worklist.push (some a)).2.den ∨ e ∈ l ↔ some e ∈ s.worklist.den ∨ e ∈ a :: l
      rw [den_push, Set.mem_insert_iff, Option.some.injEq, mem_cons]
      tauto
    · show none ∈ (s.worklist.push (some a)).2.den ↔ _
      rw [den_push, Set.mem_insert_iff]
      simp

/-- The nodes with an outgoing edge. -/
def sources (graph : CFLGraph N) : Set N := {i | ∃ e ∈ graph.cflEdgeSet, e.src = i}

/-- After `initialize` the graph is the input with the self edges of the `ε`-productions on
    the nodes with an outgoing edge, and all of it is queued. -/
theorem initializeSolver_spec (grammar : CFGrammar) (graph : CFLGraph N) :
    let t := initializeSolver grammar (ofGraph graph)
    Sync t ∧ t.queue = t.graph.edges ∧
    t.graph.edges = graph.edges ∪ selfEdges grammar.Rule (sources graph) := by
  obtain ⟨hg, hsync, hq, hkeys⟩ := ofGraph_spec graph
  obtain ⟨h1, h2, h3, h4, h5⟩ := foldl_push_spec (ofGraph graph).graph.cflEdgeSet (ofGraph graph)
  generalize hs1 : (ofGraph graph).graph.cflEdgeSet.foldl
    (fun s edge => s.pushIntoWorklist (some edge)) (ofGraph graph) = s1 at h1 h2 h3 h4 h5
  -- the keys do not change while they are iterated over
  let P : POCRSolver N → Prop := fun s => Sync s ∧ s.queue = s.graph.edges ∧
    s.graph.edges ⊆ graph.edges ∪ selfEdges grammar.Rule (sources graph) ∧
    s.succMap.keys = s1.succMap.keys
  have hP1 : P s1 := by
    refine ⟨⟨?_, ?_, fun hc => hsync.nonnull (h5.mp hc)⟩, ?_, ?_, rfl⟩
    · rw [succEdges_congr h2, hsync.succ, h1]
    · rw [predEdges_congr h3, hsync.pred, h1]
    · rw [h4, hq, Set.empty_union, h1]
      rfl
    · rw [h1, hg]
      exact Set.subset_union_left
  have hself : ∀ i ∈ s1.succMap.keys, ∀ prod ∈ grammar.getEpsilonProds,
      (⟨i, i, getLHSSymbol prod⟩ : CFLEdge N) ∈ selfEdges grammar.Rule (sources graph) := by
    intro i hi prod hprod
    rw [h2] at hi
    exact ⟨rfl, (hkeys i).mp hi, rule_nil.mpr ⟨prod, hprod, rfl⟩⟩
  have hloop := foldl_grows (f := fun (s : POCRSolver N) prod =>
      s.succMap.keys.foldl (fun s i => s.addNewEdge i i (getLHSSymbol prod)) s)
    (P := P) (E := fun s => s.graph.edges)
    (C := fun prod => {e | e.src = e.dst ∧ e.src ∈ sources graph ∧ e.kind = getLHSSymbol prod})
    grammar.getEpsilonProds s1 ?_ hP1
  · obtain ⟨⟨hsync', hq', hsub, -⟩, hstart, hall⟩ := hloop
    have hinit : initializeSolver grammar (ofGraph graph) = grammar.getEpsilonProds.foldl
        (fun s prod => s.succMap.keys.foldl
          (fun s i => s.addNewEdge i i (getLHSSymbol prod)) s) s1 := by
      rw [initializeSolver, hs1]
    rw [hinit]
    refine ⟨hsync', hq', hsub.antisymm (Set.union_subset ?_ ?_)⟩
    · refine Set.Subset.trans ?_ hstart
      show graph.edges ⊆ s1.graph.edges
      rw [h1, hg]
    · rintro e ⟨heq, hV, hX⟩
      obtain ⟨prod, hprod, hL⟩ := rule_nil.mp hX
      exact hall prod hprod ⟨heq, hV, hL.symm⟩
  · intro s prod hprod hs
    have hnodes := foldl_grows
      (f := fun (s : POCRSolver N) i => s.addNewEdge i i (getLHSSymbol prod))
      (P := P) (E := fun s => s.graph.edges) (C := fun i => {⟨i, i, getLHSSymbol prod⟩})
      s.succMap.keys s ?_ hs
    · obtain ⟨k1, k2, k3⟩ := hnodes
      refine ⟨k1, k2, ?_⟩
      rintro ⟨i, j, X⟩ ⟨hij, hV, hX⟩
      obtain rfl : i = j := hij
      obtain rfl : X = getLHSSymbol prod := hX
      have hi : i ∈ s.succMap.keys := by
        rw [hs.2.2.2, h2]
        exact (hkeys i).mpr hV
      exact k3 i hi (Set.mem_singleton _)
    · rintro t i hi ⟨hsync', hq', hsub, hk⟩
      have hadd := addNewEdge_added hsync' i i (getLHSSymbol prod)
      have hi1 : i ∈ s1.succMap.keys := hs.2.2.2 ▸ hi
      refine ⟨⟨hadd.sync, ?_, ?_, ?_⟩, ?_, ?_⟩
      · rw [hadd.queue, hadd.edges, hq', Set.union_sdiff_self]
      · rw [hadd.edges]
        exact Set.union_subset hsub (Set.singleton_subset_iff.mpr (.inr (hself i hi1 prod hprod)))
      · rw [addNewEdge_keys, DataMap.touch, if_pos (hk ▸ hi1), hk]
      · rw [hadd.edges]
        exact Set.subset_union_left
      · rw [hadd.edges]
        exact Set.subset_union_right

theorem sync_pop (hs : Sync s) {w : FIFOWorkList (Option (CFLEdge N))} {e : CFLEdge N}
    (hw : w.den = s.worklist.den \ {some e}) :
    Sync { s with worklist := w } ∧
      ({ s with worklist := w } : POCRSolver N).queue = s.queue \ {e} := by
  constructor
  · refine ⟨hs.succ, hs.pred, fun hn => hs.nonnull ?_⟩
    rw [hw] at hn
    exact hn.1
  · ext f
    show some f ∈ w.den ↔ some f ∈ s.worklist.den ∧ f ∉ ({e} : Set (CFLEdge N))
    rw [hw, Set.mem_sdiff, Set.mem_singleton_iff, Set.mem_singleton_iff, Option.some.injEq]

/-- A loop that processes the queued edges under the productions `R`, and begins where
    `initialize` ends, computes the closure. -/
theorem whileM_closure {σ : Type} (solver : σ → POCRSolver N) (step : σ → Option σ)
    (graph : CFLGraph N) {t : σ} (hstart : solver t = initializeSolver grammar (ofGraph graph))
    (hnil : ∀ X, R X [] ↔ grammar.Rule X [])
    (hstep : ∀ s e w, (solver s).worklist.pop = some (some e, w) →
      Sync { solver s with worklist := w } → e ∈ (solver s).graph.edges →
      ∃ t, step s = some t ∧ Sync (solver t) ∧ Fired (edgeRules R) e (solver s).graph.edges
        ({ solver s with worklist := w } : POCRSolver N).queue (solver t).graph.edges
        (solver t).queue) :
    ∃ u, Stops (fun fuel => whileM (fun s => !(solver s).worklist.isEmpty) step fuel t) u ∧
      ∀ e, e ∈ (solver u).graph.edges ↔ Closure (edgeRules R)
        (graph.edges ∪ selfEdges R (sources graph)) e := by
  have : Finite N := Finite.of_surjective (fun i : Fin graph.nodes.length => graph.nodes.get i)
    fun n => get_of_mem (graph.nodes_all n)
  obtain ⟨hsync, hW, hE⟩ := initializeSolver_spec grammar graph
  have hself : (selfEdges grammar.Rule (sources graph) : Set (CFLEdge N)) =
      selfEdges R (sources graph) := by
    ext e
    exact and_congr_right fun _ => and_congr_right fun _ => (hnil _).symm
  rw [← hstart] at hsync hW hE
  have hsat : Saturating (edgeRules R) (graph.edges ∪ selfEdges R (sources graph))
      (solver t).graph.edges (solver t).queue := by
    rw [hW, hE, hself]
    exact Saturating.init _ _
  obtain ⟨u, hrun, -, hu⟩ := saturate_total (J := fun s => Sync (solver s))
    (W := fun s => (solver s).queue) (fun s => !(solver s).worklist.isEmpty) step (fun s hs => by
      have hempty := FIFOWorkList.den_of_isEmpty (w := (solver s).worklist) (by simpa using hs)
      rw [queue, hempty]
      rfl) (fun s hs hsub hc => by
    obtain ⟨p, w, hpop, hp, hw⟩ := pop_spec (w := (solver s).worklist) (by simpa using hc)
    cases p with
    | none => exact absurd hp hs.nonnull
    | some e =>
      obtain ⟨hs', hrest⟩ := sync_pop hs hw
      obtain ⟨t, ht, hsync', hfired⟩ := hstep s e w hpop hs' (hsub hp)
      exact ⟨t, e, ht, hsync', hp, hrest ▸ hfired⟩) hsync hsat
  exact ⟨u, hrun, hu⟩

/-- The solver computes the closure of what its `initialize` left, under the productions. -/
theorem solve_closure (grammar : CFGrammar) (graph : CFLGraph N) :
    ∃ t, Stops (fun fuel => solve grammar fuel (ofGraph graph)) t ∧
      ∀ e, e ∈ t.graph.edges ↔ Closure (edgeRules grammar.Rule)
        (graph.edges ∪ selfEdges grammar.Rule (sources graph)) e := by
  refine whileM_closure id _ graph rfl (fun _ => .rfl) fun s e w hpop hs he => ?_
  have hpop : s.worklist.pop = some (some e, w) := hpop
  refine ⟨processCFLEdge grammar e { s with worklist := w }, ?_, processCFLEdge_fired hs he⟩
  rw [solveStep, hpop]

-- ── the two solvers

/-- Both solvers stop on the input, with graphs that have the same edges. -/
def AgreesWithCFLSolver (grammar : CFGrammar) (graph : CFLGraph N) : Prop :=
  ∃ t u, Stops (fun fuel => CFLSolver.solve grammar fuel (CFLSolver.ofGraph graph)) t ∧
    Stops (fun fuel => solve grammar fuel (ofGraph graph)) u ∧
    ∀ e, e ∈ u.graph.cflEdgeSet ↔ e ∈ t.graph.cflEdgeSet

section

variable {R : Symbol → List Symbol → Prop} {graph : CFLGraph N}

omit [DecidableEq N] in
theorem closure_sources {e : CFLEdge N}
    (h : Closure (edgeRules R) (graph.edges ∪ selfEdges R (sources graph)) e) :
    e.src ∈ sources graph := by
  induction h with
  | base h =>
    rcases h with h | ⟨_, hV, _⟩
    · exact ⟨_, h, rfl⟩
    · exact hV
  | unary _ h ih =>
    rw [h.1]
    exact ih
  | binary _ _ h ihf _ =>
    rw [h.2.1]
    exact ihf

omit [DecidableEq N] in
/-- Without `ε`-productions, or with an outgoing edge at every node, the self edges of the
    nodes with an outgoing edge are all the self edges. -/
theorem selfEdges_sources (hR : ∀ X, R X [] ↔ grammar.Rule X [])
    (hcase : grammar.getEpsilonProds = [] ∨ ∀ i : N, ∃ e ∈ graph.cflEdgeSet, e.src = i) :
    (selfEdges R (sources graph) : Set (CFLEdge N)) = selfEdges R Set.univ := by
  ext e
  constructor
  · rintro ⟨heq, -, hX⟩
    exact ⟨heq, Set.mem_univ _, hX⟩
  · rintro ⟨heq, -, hX⟩
    refine ⟨heq, ?_, hX⟩
    rcases hcase with hnil | hall
    · obtain ⟨prod, hprod, -⟩ := rule_nil.mp ((hR _).mp hX)
      rw [hnil] at hprod
      cases hprod
    · exact hall e.src

end

/-- **When `POCRSolver` agrees with `CFLSolver`.** The two solvers leave the same edges
    exactly when the grammar has no `ε`-production or every node of the graph has an outgoing
    edge: a node without one is no key of the successor map, so `initialize` gives it no
    self edge, and no later round can. -/
theorem pocr_agreesWithCFLSolver_iff (grammar : CFGrammar) (graph : CFLGraph N) :
    AgreesWithCFLSolver grammar graph ↔
      grammar.getEpsilonProds = [] ∨ ∀ i : N, ∃ e ∈ graph.cflEdgeSet, e.src = i := by
  obtain ⟨t, ht, htE⟩ := CFLSolver.solve_closure grammar graph
  obtain ⟨u, hu, huE⟩ := solve_closure grammar graph
  constructor
  · rintro ⟨t', u', ht', hu', hagree⟩
    obtain rfl := ht.unique ht'
    obtain rfl := hu.unique hu'
    by_contra hc
    rw [not_or, not_forall] at hc
    obtain ⟨hprods, i, hi⟩ := hc
    obtain ⟨e, hsrc, hself⟩ := CFLSolver.exists_selfEdge hprods i
    have hmem := (hagree e).mpr ((htE e).mpr (.base (.inr hself)))
    exact hi (hsrc ▸ closure_sources ((huE e).mp hmem))
  · intro hcase
    refine ⟨t, u, ht, hu, fun e => ?_⟩
    rw [selfEdges_sources (fun _ => .rfl) hcase] at huE
    exact (huE e).trans (htE e).symm

def epsilonGrammar : CFGrammar :=
  let base : GrammarBase := ⟨[("epsilon", 0), ("a", 1)], [("X", 2)], [], [], 3⟩
  (insertAll base [[Symbol.ofU32 2, Symbol.ofU32 0]]).getD (ofBase base)

def oneEdgeGraph : CFLGraph (Fin 2) := ⟨[0, 1], by decide, [⟨0, 1, Symbol.ofU32 1⟩]⟩

/-- `CFLSolver` puts the edge `1 –X→ 1`, `POCRSolver` does not. -/
theorem not_agreesWithCFLSolver_oneEdgeGraph :
    ¬ AgreesWithCFLSolver epsilonGrammar oneEdgeGraph := by
  rintro ⟨t, u, ⟨m, hm⟩, ⟨n, hn⟩, hagree⟩
  have ht : ((CFLSolver.solve epsilonGrammar 5 (CFLSolver.ofGraph oneEdgeGraph)).map
      fun t => decide (⟨1, 1, Symbol.ofU32 2⟩ ∈ t.graph.cflEdgeSet)) = some true := by decide
  have hu : ((solve epsilonGrammar 5 (ofGraph oneEdgeGraph)).map
      fun u => decide (⟨1, 1, Symbol.ofU32 2⟩ ∈ u.graph.cflEdgeSet)) = some false := by decide
  obtain ⟨t₁, ht₁, htmem⟩ := Option.map_eq_some_iff.mp ht
  obtain ⟨u₁, hu₁, humem⟩ := Option.map_eq_some_iff.mp hu
  obtain rfl := Stops.unique ⟨m, hm⟩ (stops_of_whileM ht₁)
  obtain rfl := Stops.unique ⟨n, hn⟩ (stops_of_whileM hu₁)
  exact of_decide_eq_false humem ((hagree _).mpr (of_decide_eq_true htmem))

end POCRSolver

end SvfPOCRSolver
