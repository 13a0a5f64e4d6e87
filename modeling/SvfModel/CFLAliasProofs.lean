import SvfModel.CFLSolverProofs

/-!
# `CFLAlias`: reachability while the call graph grows

`CFLAlias::solve` runs the solver, joins the parameters of the indirect calls that the result
resolves by copy edges, and runs the solver again on the grown graph. Whatever is joined, and
whenever the solver runs in between, the graph never has more than follows from the input with
the copies (`Runs.sound`), and each run of the solver brings it to exactly that
(**`solve_afterCopies`**).
-/

namespace SvfCFLAlias

open SvfCFGrammar SvfCfg SvfCflReach SvfSaturation SvfLoop SvfCFLSolver SvfWorkList CFLSolver Set

variable {N : Type} [DecidableEq N]

/-- `addCopyEdge`. None where one of the two edges is there already: `addCFLEdge` returns null for
    it, and that is queued. -/
def addCopyEdge (grammar : CFGrammar) (s : CFLSolver N) (src dst : N) :
    Option (Bool × CFLSolver N) :=
  if s.graph.hasEdge src dst (Symbol.ofU32 1) then some (false, s)
  else do
    let copyKind ← grammar.strToKind "copy"
    let copybarKind ← grammar.strToKind "copybar"
    let t := s.addNewEdge src dst (Symbol.ofU32 copyKind)
    if s.graph.hasEdge src dst (Symbol.ofU32 copyKind) ∨
        t.graph.hasEdge dst src (Symbol.ofU32 copybarKind) then none
    else some (true, t.addNewEdge dst src (Symbol.ofU32 copybarKind))

/-- What `solve` and `updateCallGraph` do to the solver, in any order, and the edges that have been
    added by copies. -/
inductive Runs (grammar : CFGrammar) (graph : CFLGraph N) : Set (CFLEdge N) → CFLSolver N → Prop
  | init : Runs grammar graph ∅ (ofGraph graph)
  | solve {added : Set (CFLEdge N)} {s t : CFLSolver N} (hr : Runs grammar graph added s)
      (hrun : Stops (fun fuel => CFLSolver.solve grammar fuel s) t) : Runs grammar graph added t
  | copy {added : Set (CFLEdge N)} {s t : CFLSolver N} {src dst : N} {b : Bool}
      (hr : Runs grammar graph added s) (hadd : addCopyEdge grammar s src dst = some (b, t)) :
      Runs grammar graph (added ∪ (t.graph.edges \ s.graph.edges)) t

variable {grammar : CFGrammar} {graph : CFLGraph N} {added : Set (CFLEdge N)} {s : CFLSolver N}

theorem addNewEdge_keeps (h : s.worklist.den ⊆ s.graph.edges) (i j : N) (X : Symbol) :
    (s.addNewEdge i j X).worklist.den ⊆ (s.addNewEdge i j X).graph.edges ∧
      s.graph.edges ⊆ (s.addNewEdge i j X).graph.edges := by
  obtain ⟨hE, hW⟩ := s.addNewEdge_spec i j X
  rw [hE, hW]
  exact ⟨union_subset_union h sdiff_subset, subset_union_left⟩

theorem addCopyEdge_keeps {src dst : N} {b : Bool} {t : CFLSolver N}
    (h : s.worklist.den ⊆ s.graph.edges) (hadd : addCopyEdge grammar s src dst = some (b, t)) :
    t.worklist.den ⊆ t.graph.edges ∧ s.graph.edges ⊆ t.graph.edges := by
  rw [addCopyEdge] at hadd
  split at hadd
  case isTrue =>
    cases hadd
    exact ⟨h, subset_rfl⟩
  case isFalse =>
    obtain ⟨copyKind, -, hadd⟩ := Option.bind_eq_some_iff.mp hadd
    obtain ⟨copybarKind, -, hadd⟩ := Option.bind_eq_some_iff.mp hadd
    obtain ⟨-, hadd⟩ := Option.ite_none_left_eq_some.mp hadd
    cases hadd
    obtain ⟨h1, hsub1⟩ := addNewEdge_keeps h src dst (Symbol.ofU32 copyKind)
    obtain ⟨h2, hsub2⟩ := addNewEdge_keeps h1 dst src (Symbol.ofU32 copybarKind)
    exact ⟨h2, hsub1.trans hsub2⟩

/-- What follows from the input and the copies. -/
abbrev Follows (grammar : CFGrammar) (graph : CFLGraph N) (added : Set (CFLEdge N)) :
    CFLEdge N → Prop :=
  Closure (edgeRules grammar.Rule) (graph.edges ∪ added ∪ selfEdges grammar.Rule univ)

theorem Runs.sound (h : Runs grammar graph added s) : s.worklist.den ⊆ s.graph.edges ∧
    graph.edges ∪ added ⊆ s.graph.edges ∧ ∀ e ∈ s.graph.edges, Follows grammar graph added e := by
  induction h with
  | init =>
    refine ⟨?_, (union_empty _).subset, fun e he => .base (.inl (.inl he))⟩
    exact FIFOWorkList.den_empty.trans_subset (empty_subset _)
  | @solve added s t _ hrun ih =>
    obtain ⟨hW, hsub, hE⟩ := ih
    obtain ⟨t', hrun', ht⟩ := solve_spec grammar s hW
    obtain rfl := hrun.unique hrun'
    refine ⟨?_, hsub.trans fun e he => (ht e).mpr (.base (.inl he)), fun e he => ?_⟩
    · rw [FIFOWorkList.den_of_isEmpty (by simpa using Stops.cond_false hrun)]
      exact empty_subset _
    · refine Closure.least closed_closure (union_subset hE ?_) ((ht e).mp he)
      exact fun e he => .base (.inr he)
  | @copy added s t src dst b _ hadd ih =>
    obtain ⟨hW, hsub, hE⟩ := ih
    obtain ⟨hW', hgrow⟩ := addCopyEdge_keeps hW hadd
    refine ⟨hW', ?_, fun e he => ?_⟩
    · rw [← union_assoc]
      exact union_subset (hsub.trans hgrow) sdiff_subset
    · by_cases hs : e ∈ s.graph.edges
      · refine Closure.least closed_closure (fun e he => .base ?_) (hE e hs)
        exact he.imp_left (Or.imp_right .inl)
      · exact .base (.inl (.inr (.inr ⟨he, hs⟩)))

/-- **Solving again is solving at once.** However copies and runs of the solver have been mixed,
    the next run stops, and its graph has the edges that context-free reachability has in the
    input with all the copies. -/
theorem solve_afterCopies (h : Runs grammar graph added s) :
    ∃ t, Stops (fun fuel => CFLSolver.solve grammar fuel s) t ∧ ∀ i X j,
      ⟨i, j, X⟩ ∈ t.graph.cflEdgeSet ↔
        ∃ w, Path (graph.edges ∪ added) i w j ∧ Derives grammar.Rule [X] w := by
  obtain ⟨hW, hsub, hE⟩ := h.sound
  obtain ⟨t, hrun, ht⟩ := solve_spec grammar s hW
  refine ⟨t, hrun, fun i X j => ?_⟩
  rw [← closure_iff_path fun _ _ h => CFGrammar.rule_length h]
  refine (ht ⟨i, j, X⟩).trans ⟨?_, ?_⟩
  · exact Closure.least closed_closure (union_subset hE fun e he => .base (.inr he))
  · exact Closure.least closed_closure fun e he => .base (he.imp_left (hsub ·))

/-- The symbols that `solve` names. -/
def copyGrammar : CFGrammar :=
  .ofBase ⟨[("addr", 0), ("copy", 1), ("copybar", 7)], [], [], [], 8⟩

theorem mem_twoNodes : ∀ n, n ∈ [false, true] := by simp

def twoNodes : CFLGraph Bool := ⟨[false, true], mem_twoNodes, []⟩

/-- A copy between two nodes without edges. -/
theorem solve_afterCopies_one :
    ∃ s, addCopyEdge copyGrammar (ofGraph twoNodes) false true = some (true, s) ∧
    ∃ t, Stops (fun fuel => CFLSolver.solve copyGrammar fuel s) t ∧ ∀ i X j,
      ⟨i, j, X⟩ ∈ t.graph.cflEdgeSet ↔
        ∃ w, Path (twoNodes.edges ∪ (∅ ∪ (s.graph.edges \ twoNodes.edges))) i w j ∧
          Derives copyGrammar.Rule [X] w := by
  have hadd : addCopyEdge copyGrammar (ofGraph twoNodes) false true =
    some (true, ((ofGraph twoNodes).addNewEdge _ _ (.ofU32 1)).addNewEdge _ _ (.ofU32 7)) := rfl
  exact ⟨_, hadd, solve_afterCopies (.copy .init hadd)⟩

end SvfCFLAlias
