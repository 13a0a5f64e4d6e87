import SvfModel.WorkListProofs
import SvfModel.CflReachProofs
import SvfModel.CFGrammarProofs

/-!
# `CFLSolver`: context-free reachability by a worklist

The graph is mutated while it is joined: an edge is popped, joined with the edges at both of
its ends for every production its label occurs in, and each new edge goes into the graph and
to the back of the worklist. Two edges that form the right-hand side of a production may be
found in either order; the later one of the two to be popped sees the other in the graph.
That is the saturation invariant, and this module's work is to show that one
`processCFLEdge` is one round of it.
-/

namespace SvfCFLSolver

open SvfCFGrammar SvfCfg SvfCflReach SvfSaturation SvfLoop SvfWorkList Set
open SvfCFGrammar.CFGrammar

abbrev CFLEdge (N : Type) := LabelledEdge N Symbol

/-- `CFLGraph`. `N` is the type of the graph's nodes, so the node map lists all of it and no
    edge can leave the graph. -/
structure CFLGraph (N : Type) where
  nodes : List N
  nodes_all : ∀ n : N, n ∈ nodes
  cflEdgeSet : List (CFLEdge N)

variable {N : Type} [DecidableEq N]

namespace CFLGraph

section

variable (graph : CFLGraph N)

def getOutEdges (n : N) : List (CFLEdge N) :=
  graph.cflEdgeSet.filter fun e => e.src = n

def getOutEdgeWithTy (n : N) (s : Symbol) : List (CFLEdge N) :=
  graph.cflEdgeSet.filter fun e => e.src = n ∧ e.kind = s

def getInEdgeWithTy (n : N) (s : Symbol) : List (CFLEdge N) :=
  graph.cflEdgeSet.filter fun e => e.dst = n ∧ e.kind = s

def addCFLEdge (src dst : N) (label : Symbol) : Option (CFLEdge N) × CFLGraph N :=
  if ⟨src, dst, label⟩ ∈ graph.cflEdgeSet then (none, graph)
  else (some ⟨src, dst, label⟩, { graph with cflEdgeSet := graph.cflEdgeSet ++ [⟨src, dst, label⟩] })

def hasEdge (src dst : N) (label : Symbol) : Bool := ⟨src, dst, label⟩ ∈ graph.cflEdgeSet

def edges : Set (CFLEdge N) := {e | e ∈ graph.cflEdgeSet}

end

section

variable {graph : CFLGraph N} {n : N} {e : CFLEdge N}

theorem mem_getOutEdges :
    e ∈ graph.getOutEdges n ↔ e ∈ graph.edges ∧ e.src = n := by
  simp [getOutEdges, edges]

theorem mem_getOutEdgeWithTy {s : Symbol} :
    e ∈ graph.getOutEdgeWithTy n s ↔ e ∈ graph.edges ∧ e.src = n ∧ e.kind = s := by
  simp [getOutEdgeWithTy, edges]

theorem mem_getInEdgeWithTy {s : Symbol} :
    e ∈ graph.getInEdgeWithTy n s ↔ e ∈ graph.edges ∧ e.dst = n ∧ e.kind = s := by
  simp [getInEdgeWithTy, edges]

end

end CFLGraph

-- ── the solver

/-- The solver's mutable state. -/
structure CFLSolver (N : Type) [DecidableEq N] where
  graph : CFLGraph N
  worklist : FIFOWorkList (CFLEdge N)

namespace CFLSolver

def pushIntoWorklist (s : CFLSolver N) (item : CFLEdge N) : CFLSolver N :=
  { s with worklist := (s.worklist.push item).2 }

def addNewEdge (s : CFLSolver N) (i j : N) (X : Symbol) : CFLSolver N :=
  match s.graph.addCFLEdge i j X with
  | (none, graph) => { s with graph := graph }
  | (some edge, graph) => { s with graph := graph }.pushIntoWorklist edge

section

variable (grammar : CFGrammar)

def initializeSolver (s : CFLSolver N) : CFLSolver N :=
  let s := s.graph.nodes.foldl
    (fun s n => (s.graph.getOutEdges n).foldl pushIntoWorklist s) s
  grammar.getEpsilonProds.foldl
    (fun s prod => s.graph.nodes.foldl (fun s i => s.addNewEdge i i (getLHSSymbol prod)) s) s

section

variable (Y_edge : CFLEdge N)

/-- For each production `X → Y`: add `X(i,j)`. -/
def processSingle (s : CFLSolver N) : CFLSolver N :=
  if grammar.hasProdsFromSingleRHS Y_edge.kind then
    (grammar.getProdsFromSingleRHS Y_edge.kind).foldl
      (fun s prod => s.addNewEdge Y_edge.src Y_edge.dst (getLHSSymbol prod)) s
  else s

/-- For each production `X → Y Z`, for each outgoing edge `Z(j,k)`: add `X(i,k)`. -/
def processFirst (s : CFLSolver N) : CFLSolver N :=
  if grammar.hasProdsFromFirstRHS Y_edge.kind then
    (grammar.getProdsFromFirstRHS Y_edge.kind).foldl
      (fun s prod =>
        (s.graph.getOutEdgeWithTy Y_edge.dst (getSecondRHSSymbol prod)).foldl
          (fun s Z_edge => s.addNewEdge Y_edge.src Z_edge.dst (getLHSSymbol prod)) s) s
  else s

/-- For each production `X → Z Y`, for each incoming edge `Z(k,i)`: add `X(k,j)`. -/
def processSecond (s : CFLSolver N) : CFLSolver N :=
  if grammar.hasProdsFromSecondRHS Y_edge.kind then
    (grammar.getProdsFromSecondRHS Y_edge.kind).foldl
      (fun s prod =>
        (s.graph.getInEdgeWithTy Y_edge.src (getFirstRHSSymbol prod)).foldl
          (fun s Z_edge => s.addNewEdge Z_edge.src Y_edge.dst (getLHSSymbol prod)) s) s
  else s

def processCFLEdge (s : CFLSolver N) : CFLSolver N :=
  processSecond grammar Y_edge (processFirst grammar Y_edge (processSingle grammar Y_edge s))

end

/-- One iteration of the loop of `solve`: select and remove an edge, process it. -/
def solveStep (s : CFLSolver N) : Option (CFLSolver N) :=
  s.worklist.pop.map fun (Y_edge, worklist) =>
    processCFLEdge grammar Y_edge { s with worklist := worklist }

def solve (fuel : Nat) (s : CFLSolver N) : Option (CFLSolver N) :=
  whileM (fun s => !s.worklist.isEmpty) (solveStep grammar) fuel (initializeSolver grammar s)

end

def ofGraph (graph : CFLGraph N) : CFLSolver N := ⟨graph, FIFOWorkList.empty⟩

-- ── one edge

theorem addNewEdge_spec (s : CFLSolver N) (i j : N) (X : Symbol) :
    (s.addNewEdge i j X).graph.edges = s.graph.edges ∪ {⟨i, j, X⟩} ∧
    (s.addNewEdge i j X).worklist.den = s.worklist.den ∪ ({⟨i, j, X⟩} \ s.graph.edges) := by
  rw [addNewEdge, CFLGraph.addCFLEdge]
  by_cases h : (⟨i, j, X⟩ : CFLEdge N) ∈ s.graph.cflEdgeSet
  · rw [if_pos h]
    have hsub : ({⟨i, j, X⟩} : Set (CFLEdge N)) ⊆ s.graph.edges := singleton_subset_iff.mpr h
    refine ⟨(union_eq_left.mpr hsub).symm, ?_⟩
    rw [sdiff_eq_empty.mpr hsub, union_empty]
  · rw [if_neg h]
    refine ⟨?_, ?_⟩
    · ext e
      show e ∈ s.graph.cflEdgeSet ++ [⟨i, j, X⟩] ↔ _
      rw [List.mem_append, List.mem_singleton]
      exact .rfl
    · show (s.worklist.push ⟨i, j, X⟩).2.den = _
      rw [FIFOWorkList.den_push, insert_eq, union_comm]
      congr 1
      ext e
      rw [mem_sdiff, mem_singleton_iff]
      exact ⟨fun he => ⟨he, fun hm => h (he ▸ hm)⟩, And.left⟩

variable {grammar : CFGrammar} {e : CFLEdge N} {E₀ W₀ : Set (CFLEdge N)}

def InRound (grammar : CFGrammar) (e : CFLEdge N) (E₀ W₀ : Set (CFLEdge N))
    (s : CFLSolver N) : Prop :=
  Firing (edgeRules grammar.Rule) e E₀ W₀ s.graph.edges s.worklist.den

section

variable (he : e ∈ E₀)
include he

section

variable {s : CFLSolver N} (h : InRound grammar e E₀ W₀ s)
include h

/-- Adding a conclusion of the round stays in the round, keeps what was there and has the
    conclusion. -/
theorem addNewEdge_inRound (i j : N) (X : Symbol)
    (hc : Concludes (edgeRules grammar.Rule) e s.graph.edges ⟨i, j, X⟩) :
    InRound grammar e E₀ W₀ (s.addNewEdge i j X) ∧
      s.graph.edges ⊆ (s.addNewEdge i j X).graph.edges ∧
      {⟨i, j, X⟩} ⊆ (s.addNewEdge i j X).graph.edges := by
  obtain ⟨hE, hW⟩ := s.addNewEdge_spec i j X
  refine ⟨h.add he (fun c hmem => ?_) hE hW, ?_, ?_⟩
  · rw [mem_singleton_iff.mp hmem]
    exact hc
  · rw [hE]
    exact subset_union_left
  · rw [hE]
    exact subset_union_right

theorem processSingle_inRound :
    InRound grammar e E₀ W₀ (processSingle grammar e s) ∧
      s.graph.edges ⊆ (processSingle grammar e s).graph.edges ∧
      ∀ c, (edgeRules grammar.Rule).unary e c → c ∈ (processSingle grammar e s).graph.edges := by
  rw [processSingle, hasProdsFromSingleRHS, getProdsFromSingleRHS, foldl_guard]
  have hprods := foldl_grows (P := InRound grammar e E₀ W₀) (E := fun s => s.graph.edges)
    (f := fun s prod => s.addNewEdge e.src e.dst (getLHSSymbol prod))
    (C := fun prod => {⟨e.src, e.dst, getLHSSymbol prod⟩})
    (grammar.getProdsFromSingleRHS e.kind) s (fun s prod hprod hs => by
      have hX : grammar.Rule (getLHSSymbol prod) [e.kind] := rule_single.mpr ⟨prod, hprod, rfl⟩
      exact addNewEdge_inRound he hs _ _ _ (.inl ⟨rfl, rfl, hX⟩)) h
  obtain ⟨h1, h2, h3⟩ := hprods
  refine ⟨h1, h2, ?_⟩
  rintro ⟨i, j, X⟩ ⟨rfl, rfl, hX⟩
  obtain ⟨prod, hprod, rfl⟩ := rule_single.mp hX
  exact h3 prod hprod (mem_singleton _)

theorem processFirst_inRound :
    InRound grammar e E₀ W₀ (processFirst grammar e s) ∧
      s.graph.edges ⊆ (processFirst grammar e s).graph.edges ∧
      ∀ f c, f ∈ E₀ → (edgeRules grammar.Rule).binary e f c →
        c ∈ (processFirst grammar e s).graph.edges := by
  rw [processFirst, hasProdsFromFirstRHS, getProdsFromFirstRHS, foldl_guard]
  -- the share of a production: its conclusions with the edges the round began with
  have hprods := foldl_grows (P := InRound grammar e E₀ W₀) (E := fun s => s.graph.edges)
    (f := fun s prod => (s.graph.getOutEdgeWithTy e.dst (getSecondRHSSymbol prod)).foldl
      (fun s Z_edge => s.addNewEdge e.src Z_edge.dst (getLHSSymbol prod)) s)
    (C := fun prod => {c | ∃ f ∈ E₀, f.src = e.dst ∧ f.kind = getSecondRHSSymbol prod ∧
      c = ⟨e.src, f.dst, getLHSSymbol prod⟩})
    (grammar.getProdsFromFirstRHS e.kind) s ?_ h
  · obtain ⟨h1, h2, h3⟩ := hprods
    refine ⟨h1, h2, ?_⟩
    rintro f ⟨i, k, X⟩ hf ⟨hm, rfl, rfl, hX⟩
    obtain ⟨prod, hprod, rfl, hZ⟩ := rule_first.mp hX
    exact h3 prod hprod ⟨f, hf, hm.symm, hZ.symm, rfl⟩
  · intro s prod hprod hs
    -- the edges are read off the graph once; what is added meanwhile only adds edges
    have hedges := foldl_grows
      (P := fun t => InRound grammar e E₀ W₀ t ∧ s.graph.edges ⊆ t.graph.edges)
      (E := fun s => s.graph.edges)
      (C := fun Z_edge => {⟨e.src, Z_edge.dst, getLHSSymbol prod⟩})
      (s.graph.getOutEdgeWithTy e.dst (getSecondRHSSymbol prod)) s
      (fun t Z_edge hZ ht => by
        obtain ⟨hZE, hZs, hZk⟩ := CFLGraph.mem_getOutEdgeWithTy.mp hZ
        have hX : grammar.Rule (getLHSSymbol prod) [e.kind, Z_edge.kind] :=
          rule_first.mpr ⟨prod, hprod, rfl, hZk.symm⟩
        obtain ⟨h1, h2, h3⟩ := addNewEdge_inRound he ht.1
          e.src Z_edge.dst (getLHSSymbol prod) (.inr (.inl ⟨Z_edge, ht.2 hZE, hZs.symm, rfl, rfl, hX⟩))
        exact ⟨⟨h1, ht.2.trans h2⟩, h2, h3⟩) ⟨hs, subset_rfl⟩
    obtain ⟨h1, h2, h3⟩ := hedges
    refine ⟨h1.1, h2, ?_⟩
    rintro c ⟨f, hf, hsrc, hkind, rfl⟩
    exact h3 f (CFLGraph.mem_getOutEdgeWithTy.mpr ⟨hs.grow hf, hsrc, hkind⟩) (mem_singleton _)

theorem processSecond_inRound :
    InRound grammar e E₀ W₀ (processSecond grammar e s) ∧
      s.graph.edges ⊆ (processSecond grammar e s).graph.edges ∧
      ∀ f c, f ∈ E₀ → (edgeRules grammar.Rule).binary f e c →
        c ∈ (processSecond grammar e s).graph.edges := by
  rw [processSecond, hasProdsFromSecondRHS, getProdsFromSecondRHS, foldl_guard]
  have hprods := foldl_grows (P := InRound grammar e E₀ W₀) (E := fun s => s.graph.edges)
    (f := fun s prod => (s.graph.getInEdgeWithTy e.src (getFirstRHSSymbol prod)).foldl
      (fun s Z_edge => s.addNewEdge Z_edge.src e.dst (getLHSSymbol prod)) s)
    (C := fun prod => {c | ∃ f ∈ E₀, f.dst = e.src ∧ f.kind = getFirstRHSSymbol prod ∧
      c = ⟨f.src, e.dst, getLHSSymbol prod⟩})
    (grammar.getProdsFromSecondRHS e.kind) s ?_ h
  · obtain ⟨h1, h2, h3⟩ := hprods
    refine ⟨h1, h2, ?_⟩
    rintro f ⟨i, k, X⟩ hf ⟨hm, rfl, rfl, hX⟩
    obtain ⟨prod, hprod, rfl, hZ⟩ := rule_second.mp hX
    exact h3 prod hprod ⟨f, hf, hm, hZ.symm, rfl⟩
  · intro s prod hprod hs
    have hedges := foldl_grows
      (P := fun t => InRound grammar e E₀ W₀ t ∧ s.graph.edges ⊆ t.graph.edges)
      (E := fun s => s.graph.edges)
      (C := fun Z_edge => {⟨Z_edge.src, e.dst, getLHSSymbol prod⟩})
      (s.graph.getInEdgeWithTy e.src (getFirstRHSSymbol prod)) s
      (fun t Z_edge hZ ht => by
        obtain ⟨hZE, hZd, hZk⟩ := CFLGraph.mem_getInEdgeWithTy.mp hZ
        have hX : grammar.Rule (getLHSSymbol prod) [Z_edge.kind, e.kind] :=
          rule_second.mpr ⟨prod, hprod, rfl, hZk.symm⟩
        obtain ⟨h1, h2, h3⟩ := addNewEdge_inRound he ht.1
          Z_edge.src e.dst (getLHSSymbol prod) (.inr (.inr ⟨Z_edge, ht.2 hZE, hZd, rfl, rfl, hX⟩))
        exact ⟨⟨h1, ht.2.trans h2⟩, h2, h3⟩) ⟨hs, subset_rfl⟩
    obtain ⟨h1, h2, h3⟩ := hedges
    refine ⟨h1.1, h2, ?_⟩
    rintro c ⟨f, hf, hdst, hkind, rfl⟩
    exact h3 f (CFLGraph.mem_getInEdgeWithTy.mpr ⟨hs.grow hf, hdst, hkind⟩) (mem_singleton _)

end

end

/-- **One `processCFLEdge` is one round of saturation.** -/
theorem processCFLEdge_fired {s : CFLSolver N} (he : e ∈ s.graph.edges) :
    Fired (edgeRules grammar.Rule) e s.graph.edges s.worklist.den
      (processCFLEdge grammar e s).graph.edges (processCFLEdge grammar e s).worklist.den := by
  have h0 : InRound grammar e s.graph.edges s.worklist.den s := Firing.start _ _ _
  obtain ⟨h1, -, hu⟩ := processSingle_inRound he h0
  obtain ⟨h2, hsub2, hl⟩ := processFirst_inRound he h1
  obtain ⟨h3, hsub3, hr⟩ := processSecond_inRound he h2
  refine ⟨h3, ?_⟩
  rintro c (hc | ⟨f, hf, hc⟩ | ⟨f, hf, hc⟩)
  · exact hsub3 (hsub2 (hu c hc))
  · exact hsub3 (hl f c hf hc)
  · exact hr f c hf hc

theorem foldl_push_spec (l : List (CFLEdge N)) (s : CFLSolver N) :
    (l.foldl pushIntoWorklist s).graph = s.graph ∧
    (l.foldl pushIntoWorklist s).worklist.den = s.worklist.den ∪ {e | e ∈ l} := by
  induction l generalizing s with
  | nil =>
    refine ⟨rfl, ?_⟩
    show s.worklist.den = s.worklist.den ∪ {e | e ∈ ([] : List (CFLEdge N))}
    simp
  | cons a l ih =>
    obtain ⟨h1, h2⟩ := ih (s.pushIntoWorklist a)
    refine ⟨h1, ?_⟩
    rw [List.foldl_cons, h2, pushIntoWorklist, FIFOWorkList.den_push]
    ext e
    simp only [mem_union, mem_insert_iff, mem_ofPred_eq, List.mem_cons]
    tauto

theorem pushAll_spec (s : CFLSolver N) (hs : s.worklist.den ⊆ s.graph.edges) :
    (s.graph.nodes.foldl (fun s n => (s.graph.getOutEdges n).foldl pushIntoWorklist s) s).graph =
      s.graph ∧
    (s.graph.nodes.foldl (fun s n => (s.graph.getOutEdges n).foldl pushIntoWorklist s)
      s).worklist.den = s.graph.edges := by
  have hloop := foldl_grows
    (f := fun (s : CFLSolver N) n => (s.graph.getOutEdges n).foldl pushIntoWorklist s)
    (P := fun t => t.graph = s.graph ∧ t.worklist.den ⊆ s.graph.edges)
    (E := fun s => s.worklist.den) (C := fun n => {e | e ∈ s.graph.edges ∧ e.src = n})
    s.graph.nodes s ?_ ⟨rfl, hs⟩
  · obtain ⟨⟨hg, hsub⟩, -, hall⟩ := hloop
    refine ⟨hg, hsub.antisymm ?_⟩
    exact fun e he => hall e.src (s.graph.nodes_all e.src) ⟨he, rfl⟩
  · rintro t n - ⟨hg, hsub⟩
    obtain ⟨h1, h2⟩ := foldl_push_spec (t.graph.getOutEdges n) t
    rw [h2, h1, hg]
    refine ⟨⟨rfl, union_subset hsub ?_⟩, subset_union_left, fun e he => ?_⟩
    · exact fun e he => (CFLGraph.mem_getOutEdges.mp he).1
    · exact .inr (CFLGraph.mem_getOutEdges.mpr he)

section

variable (grammar : CFGrammar)

/-- The second loop of `initialize`, begun with every edge queued, adds exactly the self
    edges and leaves every edge queued. -/
theorem addSelfEdges_spec (s : CFLSolver N) {G : Set (CFLEdge N)}
    (hG : s.graph.edges = G) (hq : s.worklist.den = s.graph.edges) :
    let t := grammar.getEpsilonProds.foldl
      (fun s prod => s.graph.nodes.foldl (fun s i => s.addNewEdge i i (getLHSSymbol prod)) s) s
    t.graph.edges = G ∪ selfEdges grammar.Rule Set.univ ∧ t.worklist.den = t.graph.edges := by
  let P : CFLSolver N → Prop := fun s =>
    s.worklist.den = s.graph.edges ∧ s.graph.edges ⊆ G ∪ selfEdges grammar.Rule Set.univ
  have hloop := foldl_grows (f := fun (s : CFLSolver N) prod =>
      s.graph.nodes.foldl (fun s i => s.addNewEdge i i (getLHSSymbol prod)) s)
    (P := P) (E := fun s => s.graph.edges)
    (C := fun prod => {e | e.src = e.dst ∧ e.kind = getLHSSymbol prod})
    grammar.getEpsilonProds s ?_ ⟨hq, hG ▸ subset_union_left⟩
  · obtain ⟨⟨hq', hsub⟩, hstart, hall⟩ := hloop
    refine ⟨hsub.antisymm (union_subset (hG ▸ hstart) ?_), hq'⟩
    rintro e ⟨heq, -, hX⟩
    obtain ⟨prod, hprod, hL⟩ := rule_nil.mp hX
    exact hall prod hprod ⟨heq, hL.symm⟩
  · intro s prod hprod hs
    have hnodes := foldl_grows
      (f := fun (s : CFLSolver N) i => s.addNewEdge i i (getLHSSymbol prod))
      (P := P) (E := fun s => s.graph.edges) (C := fun i => {⟨i, i, getLHSSymbol prod⟩})
      s.graph.nodes s ?_ hs
    · obtain ⟨h1, h2, h3⟩ := hnodes
      refine ⟨h1, h2, ?_⟩
      rintro ⟨i, j, X⟩ ⟨hij, hX⟩
      obtain rfl : i = j := hij
      obtain rfl : X = getLHSSymbol prod := hX
      exact h3 i (s.graph.nodes_all i) (mem_singleton _)
    · rintro s i - ⟨hq, hsub⟩
      obtain ⟨hE, hW⟩ := s.addNewEdge_spec i i (getLHSSymbol prod)
      have hself : (⟨i, i, getLHSSymbol prod⟩ : CFLEdge N) ∈ selfEdges grammar.Rule Set.univ :=
        ⟨rfl, mem_univ i, rule_nil.mpr ⟨prod, hprod, rfl⟩⟩
      refine ⟨⟨?_, ?_⟩, ?_, ?_⟩
      · rw [hW, hE, hq, union_sdiff_self]
      · rw [hE]
        exact union_subset hsub (singleton_subset_iff.mpr (.inr hself))
      · rw [hE]
        exact subset_union_left
      · rw [hE]
        exact subset_union_right

/-- After `initialize` the graph is the input with the self edges of the `ε`-productions,
    and all of it is queued. -/
theorem initializeSolver_spec (s : CFLSolver N) (hs : s.worklist.den ⊆ s.graph.edges) :
    (initializeSolver grammar s).graph.edges =
      s.graph.edges ∪ selfEdges grammar.Rule Set.univ ∧
    (initializeSolver grammar s).worklist.den = (initializeSolver grammar s).graph.edges := by
  obtain ⟨hg, hw⟩ := pushAll_spec s hs
  refine addSelfEdges_spec grammar _ (congrArg CFLGraph.edges hg) (hw.trans ?_)
  exact (congrArg CFLGraph.edges hg).symm

/-- The solver computes the closure of what `initialize` left, under the productions. -/
theorem solve_spec (s : CFLSolver N) (hs : s.worklist.den ⊆ s.graph.edges) :
    ∃ t, Stops (fun fuel => solve grammar fuel s) t ∧ ∀ e, e ∈ t.graph.edges ↔
        Closure (edgeRules grammar.Rule) (s.graph.edges ∪ selfEdges grammar.Rule Set.univ) e := by
  have : Finite N := Finite.of_surjective (fun i : Fin s.graph.nodes.length => s.graph.nodes.get i)
    fun n => List.get_of_mem (s.graph.nodes_all n)
  obtain ⟨hE, hW⟩ := initializeSolver_spec grammar s hs
  have hsat : Saturating (edgeRules grammar.Rule) (s.graph.edges ∪ selfEdges grammar.Rule Set.univ)
      (initializeSolver grammar s).graph.edges
      (initializeSolver grammar s).worklist.den := by
    rw [hW, hE]
    exact Saturating.init _ _
  have hround : ∀ s : CFLSolver N, True → s.worklist.den ⊆ s.graph.edges →
      (!s.worklist.isEmpty) → ∃ s' e, solveStep grammar s = some s' ∧ True ∧
        e ∈ s.worklist.den ∧ Fired (edgeRules grammar.Rule) e s.graph.edges
          (s.worklist.den \ {e}) s'.graph.edges s'.worklist.den := by
    intro s _ hsub hs
    obtain ⟨e, w, hpop, he, hw⟩ := FIFOWorkList.pop_spec (w := s.worklist) (by simpa using hs)
    refine ⟨processCFLEdge grammar e { s with worklist := w }, e, ?_, trivial, he, ?_⟩
    · rw [solveStep, hpop]
      rfl
    · rw [← hw]
      exact processCFLEdge_fired (s := { s with worklist := w }) (hsub he)
  obtain ⟨t, hrun, -, ht⟩ := saturate_total _ _
    (fun s hs => FIFOWorkList.den_of_isEmpty (by simpa using hs)) hround trivial hsat
  exact ⟨t, hrun, ht⟩

theorem solve_closure (graph : CFLGraph N) :
    ∃ t, Stops (fun fuel => solve grammar fuel (ofGraph graph)) t ∧ ∀ e, e ∈ t.graph.edges ↔
        Closure (edgeRules grammar.Rule) (graph.edges ∪ selfEdges grammar.Rule Set.univ) e :=
  solve_spec grammar (ofGraph graph) (FIFOWorkList.den_empty.trans_subset (empty_subset _))

end

omit [DecidableEq N] in
/-- A grammar with an `ε`-production puts a self edge on every node. -/
theorem exists_selfEdge {grammar : CFGrammar} (h : grammar.getEpsilonProds ≠ []) (i : N) :
    ∃ e : CFLEdge N, e.src = i ∧ e ∈ selfEdges grammar.Rule Set.univ := by
  obtain ⟨prod, hprod⟩ := List.exists_mem_of_ne_nil _ h
  exact ⟨⟨i, i, getLHSSymbol prod⟩, rfl, rfl, mem_univ i, rule_nil.mpr ⟨prod, hprod, rfl⟩⟩

/-- **`CFLSolver` computes context-free language reachability.** For every finite labelled
    graph and every normalised grammar `solve` terminates, and its graph has an edge
    `i –X→ j` exactly when the input has it or `X` derives the labels of a path from `i` to
    `j` in the input. -/
theorem solve_iff_cflReachable (grammar : CFGrammar) (graph : CFLGraph N) :
    ∃ t, Stops (fun fuel => solve grammar fuel (ofGraph graph)) t ∧
      ∀ i X j, ⟨i, j, X⟩ ∈ t.graph.cflEdgeSet ↔
        ⟨i, j, X⟩ ∈ graph.cflEdgeSet ∨
          ∃ w, Path graph.edges i w j ∧ Derives grammar.Rule [X] w := by
  obtain ⟨t, hrun, ht⟩ := solve_closure grammar graph
  refine ⟨t, hrun, fun i X j => ?_⟩
  have hclos := (ht ⟨i, j, X⟩).trans (closure_iff_path fun _ _ h => rule_length h)
  refine hclos.trans ⟨.inr, ?_⟩
  rintro (h | h)
  · exact ⟨[X], .cons h (.nil j), .refl⟩
  · exact h

end CFLSolver

end SvfCFLSolver
