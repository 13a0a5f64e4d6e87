import SvfModel.POCRSolverProofs

/-!
# `POCRHybridSolver`: spanning trees for a transitive label

For a production `F → F F` the hybrid solver does not join: it calls `addArc`, which is to
splice spanning trees, `tree(x)` holding the nodes that `x` reaches by `F`. `addArc` returns
at once when the successor map has the edge. But the edge it is called with was popped from
the worklist, and everything in the worklist is in the successor map. So the guard always
fires, the trees stay as `initialize` made them, and the production `F → F F` is never
applied to a popped `F` (`addArc_of_mem`). The solver computes the closure of the *other*
productions, on the base that `POCRSolver` starts from, and it agrees with `CFLSolver`
exactly where that happens to be the same.
-/

namespace SvfPOCRHybridSolver

open SvfCFGrammar SvfCfg SvfCflReach SvfSaturation SvfLoop SvfCFLSolver
open SvfPOCRSolver
open SvfCFGrammar.CFGrammar

structure TreeNode (N : Type) where
  root : N
  id : N
deriving DecidableEq

/-- The solver's mutable state: `indMap v` lists, under `u`, the pointer to `v` in `tree(u)`;
    `children` is the tree nodes' member. -/
structure POCRHybridSolver (N : Type) [DecidableEq N] extends POCRSolver N where
  indMap : N → List (N × Option (TreeNode N))
  children : TreeNode N → List (TreeNode N)

variable {N : Type} [DecidableEq N]

namespace POCRHybridSolver

section

variable (s : POCRHybridSolver N)

def addInd_h (src dst : N) : Option (TreeNode N) × POCRHybridSolver N :=
  if ((s.indMap dst).lookup src).isSome then (none, s)
  else
    (some ⟨src, dst⟩,
      { s with
        indMap := Function.update s.indMap dst (s.indMap dst ++ [(src, some ⟨src, dst⟩)])
        children := Function.update s.children ⟨src, dst⟩ [] })

def getNode_h (src dst : N) : Option (TreeNode N) × POCRHybridSolver N :=
  match (s.indMap dst).lookup src with
  | some node => (node, s)
  | none =>
    (none, { s with indMap := Function.update s.indMap dst (s.indMap dst ++ [(src, none)]) })

def insertEdge_h (u v : TreeNode N) : POCRHybridSolver N :=
  { s with children := Function.update s.children u ((s.children u).insert v) }

end

/-- `meld_h`: copy the subtree of `vNode` under `uNode` in `tree(x)`, as far as `tree(x)` has
    not got its nodes; at most `depth` levels down. -/
def meld_h : Nat → POCRHybridSolver N → N → TreeNode N → TreeNode N → Option (POCRHybridSolver N)
  | 0, _, _, _, _ => none
  | depth + 1, s, x, uNode, vNode =>
    match s.addInd_h x vNode.id with
    | (none, s) => some s
    | (some newVNode, s) =>
      let s := s.insertEdge_h uNode newVNode
      (s.children vNode).foldlM (fun s vChild => meld_h depth s x newVNode vChild) s

def meld (depth : Nat) (s : POCRHybridSolver N) (x : N) (uNode vNode : TreeNode N) :
    Option (POCRHybridSolver N) :=
  match s.addInd_h x vNode.id with
  | (none, s) => some s
  | (some newVNode, s) =>
    let s := s.insertEdge_h uNode newVNode
    (s.children vNode).foldlM (fun s vChild => meld_h depth s x newVNode vChild) s

section

variable (grammar : CFGrammar)

/-- `addArc`: nothing when there is an `F` edge; otherwise `tree(dst)` is copied below `src`
    in every tree that has `src`. A null pointer is dereferenced. -/
def addArc (depth : Nat) (s : POCRHybridSolver N) (src dst : N) : Option (POCRHybridSolver N) :=
  (grammar.strToSymbol "F").bind fun F =>
    if s.hasEdge src dst F then some s
    else
      (s.indMap src).foldlM
        (fun s iter =>
          let (uNode, s) := s.getNode_h iter.1 src
          let (vNode, s) := s.getNode_h dst dst
          match uNode, vNode with
          | some uNode, some vNode => meld depth s iter.1 uNode vNode
          | _, _ => none) s

def joinFirst (depth : Nat) (Y_edge : CFLEdge N)
    (s : POCRHybridSolver N) (prod : Production) : Option (POCRHybridSolver N) :=
  (grammar.strToSymbol "F").bind fun F =>
    if getLHSSymbol prod = F ∧ Y_edge.kind = F ∧ getSecondRHSSymbol prod = F then
      s.addArc grammar depth Y_edge.src Y_edge.dst
    else some { s with toPOCRSolver := POCRSolver.joinFirst Y_edge s.toPOCRSolver prod }

def joinSecond (depth : Nat) (Y_edge : CFLEdge N)
    (s : POCRHybridSolver N) (prod : Production) : Option (POCRHybridSolver N) :=
  (grammar.strToSymbol "F").bind fun F =>
    if getLHSSymbol prod = F ∧ Y_edge.kind = F ∧ getFirstRHSSymbol prod = F then
      s.addArc grammar depth Y_edge.src Y_edge.dst
    else some { s with toPOCRSolver := POCRSolver.joinSecond Y_edge s.toPOCRSolver prod }

def processFirst (depth : Nat) (Y_edge : CFLEdge N)
    (s : POCRHybridSolver N) : Option (POCRHybridSolver N) :=
  if grammar.hasProdsFromFirstRHS Y_edge.kind then
    (grammar.getProdsFromFirstRHS Y_edge.kind).foldlM (joinFirst grammar depth Y_edge) s
  else some s

def processSecond (depth : Nat) (Y_edge : CFLEdge N)
    (s : POCRHybridSolver N) : Option (POCRHybridSolver N) :=
  if grammar.hasProdsFromSecondRHS Y_edge.kind then
    (grammar.getProdsFromSecondRHS Y_edge.kind).foldlM (joinSecond grammar depth Y_edge) s
  else some s

def processCFLEdge (depth : Nat) (Y_edge : CFLEdge N)
    (s : POCRHybridSolver N) : Option (POCRHybridSolver N) :=
  let s := { s with toPOCRSolver := POCRSolver.processSingle grammar Y_edge s.toPOCRSolver }
  (processFirst grammar depth Y_edge s).bind (processSecond grammar depth Y_edge)

/-- `initialize`: as for `POCRSolver`, with a tree of one node for each node of the graph in
    between. -/
def initializeSolver (s : POCRHybridSolver N) : POCRHybridSolver N :=
  let s := { s with
    toPOCRSolver := s.graph.cflEdgeSet.foldl
      (fun s edge => s.pushIntoWorklist (some edge)) s.toPOCRSolver }
  let s := s.graph.nodes.foldl (fun s nId => (s.addInd_h nId nId).2) s
  { s with
    toPOCRSolver := grammar.getEpsilonProds.foldl
      (fun s prod => s.succMap.keys.foldl
        (fun s i => s.addNewEdge i i (getLHSSymbol prod)) s) s.toPOCRSolver }

/-- One iteration of `solve`; a null pointer is dereferenced. -/
def solveStep (depth : Nat) (s : POCRHybridSolver N) : Option (POCRHybridSolver N) :=
  match s.worklist.pop with
  | none => none
  | some (none, _) => none
  | some (some Y_edge, worklist) =>
    processCFLEdge grammar depth Y_edge
      { s with toPOCRSolver := { s.toPOCRSolver with worklist := worklist } }

/-- `solve`, with fuel for its loop and a bound on the depth of the recursion of `meld_h`. -/
def solve (depth fuel : Nat) (s : POCRHybridSolver N) : Option (POCRHybridSolver N) :=
  whileM (fun s => !s.worklist.isEmpty) (solveStep grammar depth) fuel
    (initializeSolver grammar s)

end

/-- The constructor. -/
def ofGraph (graph : CFLGraph N) : POCRHybridSolver N where
  toPOCRSolver := POCRSolver.ofGraph graph
  indMap := fun _ => []
  children := fun _ => []

-- ── what the hybrid solver closes under

def RuleWithout (grammar : CFGrammar) (F X : Symbol) (rhs : List Symbol) : Prop :=
  grammar.Rule X rhs ∧ ¬ (X = F ∧ rhs = [F, F])

variable {grammar : CFGrammar} {F : Symbol} (depth : Nat) {e : CFLEdge N}
  {E₀ W₀ : Set (CFLEdge N)}

theorem ruleWithout_nil {X : Symbol} : RuleWithout grammar F X [] ↔ grammar.Rule X [] :=
  ⟨And.left, fun h => ⟨h, fun hc => nomatch hc.2⟩⟩

theorem ruleWithout_single {X Y : Symbol} : RuleWithout grammar F X [Y] ↔ grammar.Rule X [Y] :=
  ⟨And.left, fun h => ⟨h, fun hc => nomatch (List.cons.inj hc.2).2⟩⟩

variable {s : POCRHybridSolver N}

section

variable (hF : grammar.strToSymbol "F" = some F)
include hF

section

variable (he : e ∈ E₀) (hs : POCRSolver.InRound (RuleWithout grammar F) e E₀ W₀ s.toPOCRSolver)
include he hs

/-- **The guard of `addArc` always fires**: an `F` edge of the graph changes nothing. -/
theorem addArc_of_mem (hkind : e.kind = F) :
    s.addArc grammar depth e.src e.dst = some s := by
  have hmem : e ∈ s.succEdges := by
    rw [hs.sync.succ]
    exact hs.firing.grow he
  have hedge : s.hasEdge e.src e.dst F :=
    decide_eq_true ⟨s.succMap.keyed _ _ _ hmem, hkind ▸ hmem⟩
  rw [addArc, hF]
  exact if_pos hedge

/-- The step of the second loop: a round under the productions without `F → F F`. -/
theorem joinFirst_inRound {prod : Production} (hprod : prod ∈ grammar.getProdsFromFirstRHS e.kind) :
    ∃ s', joinFirst grammar depth e s prod = some s' ∧
      POCRSolver.InRound (RuleWithout grammar F) e E₀ W₀ s'.toPOCRSolver ∧
      s.graph.edges ⊆ s'.graph.edges ∧
      {c | c ∈ POCRSolver.firstShare e E₀ prod ∧
        ¬ (c.kind = F ∧ e.kind = F ∧ getSecondRHSSymbol prod = F)} ⊆ s'.graph.edges := by
  rw [joinFirst, hF]
  by_cases hcase : getLHSSymbol prod = F ∧ e.kind = F ∧ getSecondRHSSymbol prod = F
  · refine ⟨s, ?_, hs, subset_rfl, ?_⟩
    · exact (if_pos hcase).trans (addArc_of_mem depth hF he hs hcase.2.1)
    · rintro c ⟨⟨f, _, _, _, rfl⟩, hn⟩
      exact absurd hcase hn
  · have hX : RuleWithout grammar F (getLHSSymbol prod) [e.kind, getSecondRHSSymbol prod] := by
      refine ⟨rule_first.mpr ⟨prod, hprod, rfl, rfl⟩, ?_⟩
      rintro ⟨hL, hR⟩
      obtain ⟨hY, hZ⟩ := List.cons.inj hR
      exact hcase ⟨hL, hY, (List.cons.inj hZ).1⟩
    obtain ⟨h1, h2, h3⟩ := POCRSolver.joinFirst_inRound he hs hX
    exact ⟨_, if_neg hcase, h1, h2, fun c hc => h3 hc.1⟩

theorem joinSecond_inRound {prod : Production}
    (hprod : prod ∈ grammar.getProdsFromSecondRHS e.kind) :
    ∃ s', joinSecond grammar depth e s prod = some s' ∧
      POCRSolver.InRound (RuleWithout grammar F) e E₀ W₀ s'.toPOCRSolver ∧
      s.graph.edges ⊆ s'.graph.edges ∧
      {c | c ∈ POCRSolver.secondShare e E₀ prod ∧
        ¬ (c.kind = F ∧ e.kind = F ∧ getFirstRHSSymbol prod = F)} ⊆ s'.graph.edges := by
  rw [joinSecond, hF]
  by_cases hcase : getLHSSymbol prod = F ∧ e.kind = F ∧ getFirstRHSSymbol prod = F
  · refine ⟨s, ?_, hs, subset_rfl, ?_⟩
    · exact (if_pos hcase).trans (addArc_of_mem depth hF he hs hcase.2.1)
    · rintro c ⟨⟨f, _, _, _, rfl⟩, hn⟩
      exact absurd hcase hn
  · have hX : RuleWithout grammar F (getLHSSymbol prod) [getFirstRHSSymbol prod, e.kind] := by
      refine ⟨rule_second.mpr ⟨prod, hprod, rfl, rfl⟩, ?_⟩
      rintro ⟨hL, hR⟩
      obtain ⟨hZ, hY⟩ := List.cons.inj hR
      exact hcase ⟨hL, (List.cons.inj hY).1, hZ⟩
    obtain ⟨h1, h2, h3⟩ := POCRSolver.joinSecond_inRound he hs hX
    exact ⟨_, if_neg hcase, h1, h2, fun c hc => h3 hc.1⟩

end

end

/-- A guarded loop in `Option` is the loop. -/
theorem foldlM_guard {σ : Type} (m : ProductionMap) (sym : Symbol)
    (f : σ → Production → Option σ) (s : σ) :
    (if (m.lookup sym).isSome then (m.get sym).foldlM f s else some s) =
      (m.get sym).foldlM f s := by
  rw [ProductionMap.get]
  cases h : m.lookup sym with
  | none => rfl
  | some ps => rfl

section

variable (hF : grammar.strToSymbol "F" = some F)
include hF

section

variable (he : e ∈ E₀) (h : POCRSolver.InRound (RuleWithout grammar F) e E₀ W₀ s.toPOCRSolver)
include he h

theorem processFirst_inRound :
    ∃ s', processFirst grammar depth e s = some s' ∧
      POCRSolver.InRound (RuleWithout grammar F) e E₀ W₀ s'.toPOCRSolver ∧
      s.graph.edges ⊆ s'.graph.edges ∧
      ∀ f c, f ∈ E₀ → (edgeRules (RuleWithout grammar F)).binary e f c → c ∈ s'.graph.edges := by
  rw [processFirst, hasProdsFromFirstRHS, getProdsFromFirstRHS, foldlM_guard]
  obtain ⟨t, ht, h1, h2, h3⟩ := foldlM_grows
    (P := fun s : POCRHybridSolver N => POCRSolver.InRound (RuleWithout grammar F) e E₀ W₀ s.toPOCRSolver)
    (E := fun s => s.graph.edges) (f := joinFirst grammar depth e)
    (C := fun prod => {c | c ∈ POCRSolver.firstShare e E₀ prod ∧
      ¬ (c.kind = F ∧ e.kind = F ∧ getSecondRHSSymbol prod = F)})
    (grammar.getProdsFromFirstRHS e.kind) s
    (fun s prod hprod hs => joinFirst_inRound depth hF he hs hprod) h
  refine ⟨t, ht, h1, h2, ?_⟩
  rintro f ⟨i, k, X⟩ hf ⟨hm, rfl, rfl, hX, hn⟩
  obtain ⟨prod, hprod, rfl, hZ⟩ := rule_first.mp hX
  refine h3 prod hprod ⟨⟨f, hf, hm.symm, hZ.symm, rfl⟩, ?_⟩
  rintro ⟨hL, hY, hZF⟩
  rw [hZ] at hZF
  exact hn ⟨hL, by rw [hY, hZF]⟩

theorem processSecond_inRound :
    ∃ s', processSecond grammar depth e s = some s' ∧
      POCRSolver.InRound (RuleWithout grammar F) e E₀ W₀ s'.toPOCRSolver ∧
      s.graph.edges ⊆ s'.graph.edges ∧
      ∀ f c, f ∈ E₀ → (edgeRules (RuleWithout grammar F)).binary f e c → c ∈ s'.graph.edges := by
  rw [processSecond, hasProdsFromSecondRHS, getProdsFromSecondRHS, foldlM_guard]
  obtain ⟨t, ht, h1, h2, h3⟩ := foldlM_grows
    (P := fun s : POCRHybridSolver N => POCRSolver.InRound (RuleWithout grammar F) e E₀ W₀ s.toPOCRSolver)
    (E := fun s => s.graph.edges) (f := joinSecond grammar depth e)
    (C := fun prod => {c | c ∈ POCRSolver.secondShare e E₀ prod ∧
      ¬ (c.kind = F ∧ e.kind = F ∧ getFirstRHSSymbol prod = F)})
    (grammar.getProdsFromSecondRHS e.kind) s
    (fun s prod hprod hs => joinSecond_inRound depth hF he hs hprod) h
  refine ⟨t, ht, h1, h2, ?_⟩
  rintro f ⟨i, k, X⟩ hf ⟨hm, rfl, rfl, hX, hn⟩
  obtain ⟨prod, hprod, rfl, hZ⟩ := rule_second.mp hX
  refine h3 prod hprod ⟨⟨f, hf, hm, hZ.symm, rfl⟩, ?_⟩
  rintro ⟨hL, hY, hZF⟩
  rw [hZ] at hZF
  exact hn ⟨hL, by rw [hY, hZF]⟩

end

/-- **One `processCFLEdge` is one round under the productions without `F → F F`.** -/
theorem processCFLEdge_fired (hs : POCRSolver.Sync s.toPOCRSolver) (he : e ∈ s.graph.edges) :
    ∃ s', processCFLEdge grammar depth e s = some s' ∧ POCRSolver.Sync s'.toPOCRSolver ∧
      Fired (edgeRules (RuleWithout grammar F)) e s.graph.edges s.queue s'.graph.edges
        s'.queue := by
  have h0 : POCRSolver.InRound (RuleWithout grammar F) e s.graph.edges s.queue s.toPOCRSolver :=
    ⟨Firing.start _ _ _, hs⟩
  obtain ⟨h1, -, hu⟩ := POCRSolver.processSingle_inRound (fun _ => ruleWithout_single) he h0
  obtain ⟨s2, hs2, h2, hsub2, hl⟩ := processFirst_inRound depth hF he
    (s := { s with toPOCRSolver := POCRSolver.processSingle grammar e s.toPOCRSolver }) h1
  obtain ⟨s3, hs3, h3, hsub3, hr⟩ := processSecond_inRound depth hF he h2
  refine ⟨s3, ?_, h3.sync, h3.firing, ?_⟩
  · show (processFirst grammar depth e _).bind _ = some s3
    rw [hs2]
    exact hs3
  · rintro c (hc | ⟨f, hf, hc⟩ | ⟨f, hf, hc⟩)
    · exact hsub3 (hsub2 (hu c hc))
    · exact hsub3 (hl f c hf hc)
    · exact hr f c hf hc

end

-- ── a whole run

/-- Building the trees of one node changes nothing of what `POCRSolver` has. -/
theorem foldl_addInd_h (l : List N) (s : POCRHybridSolver N) :
    (l.foldl (fun s nId => (s.addInd_h nId nId).2) s).toPOCRSolver = s.toPOCRSolver := by
  induction l generalizing s with
  | nil => rfl
  | cons n l ih =>
    refine (ih (s.addInd_h n n).2).trans ?_
    rw [addInd_h]
    by_cases h : ((s.indMap n).lookup n).isSome
    · rw [if_pos h]
    · rw [if_neg h]

/-- Apart from the trees, `initialize` is that of `POCRSolver`. -/
theorem initializeSolver_toPOCRSolver (grammar : CFGrammar) (graph : CFLGraph N) :
    (initializeSolver grammar (ofGraph graph)).toPOCRSolver =
      POCRSolver.initializeSolver grammar (POCRSolver.ofGraph graph) := by
  rw [initializeSolver, POCRSolver.initializeSolver]
  simp only [foldl_addInd_h]
  rfl

/-- The solver computes the closure, under the productions without `F → F F`, of what
    `POCRSolver` starts from. -/
theorem solve_closure (hF : grammar.strToSymbol "F" = some F) (graph : CFLGraph N) :
    ∃ t, Stops (fun fuel => solve grammar depth fuel (ofGraph graph)) t ∧
      ∀ e, e ∈ t.graph.edges ↔ Closure (edgeRules (RuleWithout grammar F))
        (graph.edges ∪ selfEdges (RuleWithout grammar F) (POCRSolver.sources graph)) e := by
  refine POCRSolver.whileM_closure toPOCRSolver _ graph
    (initializeSolver_toPOCRSolver grammar graph) (fun _ => ruleWithout_nil)
    fun s e w hpop hs he => ?_
  obtain ⟨t, ht, hsync, hfired⟩ := processCFLEdge_fired depth hF
    (s := { s with toPOCRSolver := { s.toPOCRSolver with worklist := w } }) hs he
  refine ⟨t, ?_, hsync, hfired⟩
  rw [solveStep, hpop]
  exact ht

-- ── the hybrid solver and `CFLSolver`

/-- Both solvers stop on the input, with graphs that have the same edges. -/
def AgreesWithCFLSolver (grammar : CFGrammar) (depth : Nat) (graph : CFLGraph N) : Prop :=
  ∃ t u, Stops (fun fuel => CFLSolver.solve grammar fuel (CFLSolver.ofGraph graph)) t ∧
    Stops (fun fuel => solve grammar depth fuel (ofGraph graph)) u ∧
    ∀ e, e ∈ u.graph.cflEdgeSet ↔ e ∈ t.graph.cflEdgeSet

def FlowsWithout (grammar : CFGrammar) (F : Symbol) (graph : CFLGraph N) (i j : N) : Prop :=
  ∃ w, Path graph.edges i w j ∧ Derives (RuleWithout grammar F) [F] w

omit [DecidableEq N] in
/-- Closing under the other productions is closing under all of them exactly when the `F`
    edges of the smaller closure are transitive already. -/
theorem closure_without_iff (hFF : grammar.Rule F [F, F]) (E : Set (CFLEdge N)) :
    (∀ e, Closure (edgeRules (RuleWithout grammar F))
        (E ∪ selfEdges (RuleWithout grammar F) Set.univ) e ↔
      Closure (edgeRules grammar.Rule) (E ∪ selfEdges grammar.Rule Set.univ) e) ↔
    ∀ i j k, (∃ w, Path E i w j ∧ Derives (RuleWithout grammar F) [F] w) →
      (∃ w, Path E j w k ∧ Derives (RuleWithout grammar F) [F] w) →
      ∃ w, Path E i w k ∧ Derives (RuleWithout grammar F) [F] w := by
  have hpath : ∀ i j, (∃ w, Path E i w j ∧ Derives (RuleWithout grammar F) [F] w) ↔
      Closure (edgeRules (RuleWithout grammar F))
        (E ∪ selfEdges (RuleWithout grammar F) Set.univ) ⟨i, j, F⟩ :=
    fun i j => (closure_iff_path fun _ _ h => rule_length h.1).symm
  constructor
  · intro hall i j k hij hjk
    rw [hpath, hall] at hij hjk ⊢
    exact .binary hij hjk ⟨rfl, rfl, rfl, hFF⟩
  · intro htrans e
    constructor
    · refine Closure.least (P := {e | Closure _ _ e}) ⟨?_, ?_⟩ ?_
      · exact fun f c hf hr => .unary hf ⟨hr.1, hr.2.1, hr.2.2.1⟩
      · exact fun f g c hf hg hr => .binary hf hg ⟨hr.1, hr.2.1, hr.2.2.1, hr.2.2.2.1⟩
      · rintro f (hf | ⟨heq, hV, hX⟩)
        · exact .base (.inl hf)
        · exact .base (.inr ⟨heq, hV, hX.1⟩)
    · refine Closure.least (P := {e | Closure _ _ e}) ⟨?_, ?_⟩ ?_
      · exact fun f c hf hr => .unary hf ⟨hr.1, hr.2.1, ruleWithout_single.mpr hr.2.2⟩
      · -- only `F → F F` itself is missing, and the `F` edges are transitive
        rintro ⟨i, j, Y⟩ ⟨j', k, Z⟩ ⟨i', k', X⟩ hf hg ⟨rfl, rfl, rfl, hX⟩
        by_cases hcase : X = F ∧ [Y, Z] = [F, F]
        · obtain ⟨rfl, hYZ⟩ := hcase
          obtain ⟨rfl, hZ⟩ := List.cons.inj hYZ
          obtain rfl := (List.cons.inj hZ).1
          exact (hpath _ _).mp (htrans _ _ _ ((hpath _ _).mpr hf) ((hpath _ _).mpr hg))
        · exact .binary hf hg ⟨rfl, rfl, rfl, hX, hcase⟩
      · rintro f (hf | ⟨heq, hV, hX⟩)
        · exact .base (.inl hf)
        · exact .base (.inr ⟨heq, hV, ruleWithout_nil.mpr hX⟩)

/-- **When `POCRHybridSolver` agrees with `CFLSolver`.** On a grammar with `F → F F` the two
    solvers leave the same edges exactly when the grammar has no `ε`-production or every node
    has an outgoing edge, and moreover the `F` paths found without `F → F F` are transitive
    by themselves. -/
theorem pocrHybrid_agreesWithCFLSolver_iff (hF : grammar.strToSymbol "F" = some F)
    (hFF : grammar.Rule F [F, F]) (graph : CFLGraph N) :
    AgreesWithCFLSolver grammar depth graph ↔
      (grammar.getEpsilonProds = [] ∨ ∀ i : N, ∃ e ∈ graph.cflEdgeSet, e.src = i) ∧
      ∀ i j k, FlowsWithout grammar F graph i j → FlowsWithout grammar F graph j k →
        FlowsWithout grammar F graph i k := by
  obtain ⟨t, ht, htE⟩ := CFLSolver.solve_closure grammar graph
  obtain ⟨u, hu, huE⟩ := solve_closure depth hF graph
  have hagree : AgreesWithCFLSolver grammar depth graph ↔
      ∀ e, e ∈ u.graph.edges ↔ e ∈ t.graph.edges := by
    constructor
    · rintro ⟨t', u', ht', hu', h⟩
      obtain rfl := ht.unique ht'
      obtain rfl := hu.unique hu'
      exact h
    · exact fun h => ⟨t, u, ht, hu, h⟩
  have heps : (∀ e, e ∈ u.graph.edges ↔ e ∈ t.graph.edges) →
      grammar.getEpsilonProds = [] ∨ ∀ i : N, ∃ e ∈ graph.cflEdgeSet, e.src = i := by
    intro hall
    by_contra hc
    rw [not_or, not_forall] at hc
    obtain ⟨hprods, i, hi⟩ := hc
    obtain ⟨e, hsrc, hmem⟩ := CFLSolver.exists_selfEdge hprods i
    have hsub := (hall e).mpr ((htE e).mpr (.base (.inr hmem)))
    exact hi (hsrc ▸ POCRSolver.closure_sources ((huE e).mp hsub))
  have hbase : grammar.getEpsilonProds = [] ∨ (∀ i : N, ∃ e ∈ graph.cflEdgeSet, e.src = i) →
      (selfEdges (RuleWithout grammar F) (POCRSolver.sources graph) : Set (CFLEdge N)) =
        selfEdges (RuleWithout grammar F) Set.univ :=
    fun hcase => POCRSolver.selfEdges_sources (fun _ => ruleWithout_nil) hcase
  rw [hagree]
  constructor
  · intro hall
    refine ⟨heps hall, ?_⟩
    rw [hbase (heps hall)] at huE
    exact (closure_without_iff hFF graph.edges).mp
      fun e => ((huE e).symm.trans (hall e)).trans (htE e)
  · rintro ⟨hcase, htrans⟩ e
    rw [hbase hcase] at huE
    exact ((huE e).trans ((closure_without_iff hFF graph.edges).mpr htrans e)).trans (htE e).symm

def transitiveGrammar : CFGrammar :=
  let base : GrammarBase := ⟨[("epsilon", 0)], [("F", 1)], [], [], 2⟩
  (insertAll base [[Symbol.ofU32 1, Symbol.ofU32 1, Symbol.ofU32 1]]).getD (ofBase base)

/-- `0 –F→ 1 –F→ 2`. -/
def chainGraph : CFLGraph (Fin 3) :=
  ⟨[0, 1, 2], by decide, [⟨0, 1, Symbol.ofU32 1⟩, ⟨1, 2, Symbol.ofU32 1⟩]⟩

theorem pocrHybrid_agreesWithCFLSolver_iff_chainGraph :
    AgreesWithCFLSolver transitiveGrammar 3 chainGraph ↔
      (transitiveGrammar.getEpsilonProds = [] ∨
        ∀ i : Fin 3, ∃ e ∈ chainGraph.cflEdgeSet, e.src = i) ∧
      ∀ i j k, FlowsWithout transitiveGrammar (Symbol.ofU32 1) chainGraph i j →
        FlowsWithout transitiveGrammar (Symbol.ofU32 1) chainGraph j k →
        FlowsWithout transitiveGrammar (Symbol.ofU32 1) chainGraph i k :=
  pocrHybrid_agreesWithCFLSolver_iff 3 (by decide)
    (rule_first.mpr ⟨[Symbol.ofU32 1, Symbol.ofU32 1, Symbol.ofU32 1], by decide, rfl, rfl⟩)
    chainGraph

/-- `CFLSolver` puts the edge `0 –F→ 2`, `POCRHybridSolver` does not. -/
theorem not_agreesWithCFLSolver_chainGraph :
    ¬ AgreesWithCFLSolver transitiveGrammar 3 chainGraph := by
  rintro ⟨t, u, ht, hu, hagree⟩
  have htmem : ((CFLSolver.solve transitiveGrammar 5 (CFLSolver.ofGraph chainGraph)).map
      fun t => decide (⟨0, 2, Symbol.ofU32 1⟩ ∈ t.graph.cflEdgeSet)) = some true := by decide
  have humem : ((solve transitiveGrammar 3 5 (ofGraph chainGraph)).map
      fun u => decide (⟨0, 2, Symbol.ofU32 1⟩ ∈ u.graph.cflEdgeSet)) = some false := by decide
  obtain ⟨t₁, ht₁, htmem⟩ := Option.map_eq_some_iff.mp htmem
  obtain ⟨u₁, hu₁, humem⟩ := Option.map_eq_some_iff.mp humem
  obtain rfl := ht.unique (stops_of_whileM ht₁)
  obtain rfl := hu.unique (stops_of_whileM hu₁)
  exact of_decide_eq_false humem ((hagree _).mpr (of_decide_eq_true htmem))

end POCRHybridSolver

end SvfPOCRHybridSolver
