import SvfModel.SaturationProofs
import SvfModel.WorkListProofs
import SvfModel.SCCDetectionProofs

/-!
# The thread call graph

The call graph of a program with threads: calls, forks and parallel loops are all edges, each
with the call sites it stands for. `TCT` asks it three questions, every one answered by a
worklist that goes from a function to its callers:

* `markRelProcs` — which functions matter (`markRelProcs_total`): those that reach a fork or a
  join site, and the start routines of threads, which need not reach one;
* `isInLoopInstruction` — is the instruction, or a call site on a way to it, in a loop;
* `isInRecursion` — is a function on a way to the instruction on a cycle of the graph.
-/

namespace SvfThreadCallGraph

open SvfScc SvfLoop SvfWorkList SvfSaturation SvfSCCDetection List Set
open FIFOWorkList (pushNew pushNew_foldl)
open Relation (ReflTransGen TransGen reflTransGen_swap)
open FIFOWorkList (den_of_isEmpty den_push den_singleton pop_spec)

inductive CEDGEK | CallRetEdge | TDForkEdge | TDJoinEdge | HareParForEdge
deriving DecidableEq

structure PTACallGraphEdge (N I : Type) where
  srcID : N
  dstID : N
  edgeKind : CEDGEK
  directCalls : List I
  indirectCalls : List I

/-- The call sites of an edge: the loops over an edge take the direct ones first. -/
def PTACallGraphEdge.calls {N I : Type} (e : PTACallGraphEdge N I) : List I :=
  e.directCalls ++ e.indirectCalls

/-- The thread call graph over functions `N` and instructions `I`, with what is asked about
    instructions: their function and whether their block is in a loop. `calls_in` is the
    assertion of the methods that add an edge. -/
structure ThreadCallGraph (N I : Type) where
  nodes : List N
  nodes_all : ∀ n : N, n ∈ nodes
  insts : List I
  insts_all : ∀ i : I, i ∈ insts
  edges : List (PTACallGraphEdge N I)
  getFunction : I → N
  hasLoopInfo : I → Bool
  isExtCall : N → Bool
  forksites : List I
  joinsites : List I
  calls_in : ∀ e ∈ edges, ∀ cs ∈ e.calls, getFunction cs = e.srcID

variable {N I : Type} [DecidableEq N] [DecidableEq I]

namespace ThreadCallGraph

variable (G : ThreadCallGraph N I)

def inEdges (n : N) : List (PTACallGraphEdge N I) := G.edges.filter fun e => e.dstID = n

def outEdges (n : N) : List (PTACallGraphEdge N I) := G.edges.filter fun e => e.srcID = n

def hasIncomingEdge (n : N) : Bool := !(G.inEdges n).isEmpty

def forkEdges (cs : I) : List (PTACallGraphEdge N I) :=
  G.edges.filter fun e => e.edgeKind = .TDForkEdge ∧ cs ∈ e.calls

/-- The graph that the component search sees. -/
def scc : SccGraph N where
  nodes := G.nodes
  nodes_all := G.nodes_all
  children := fun n => (G.outEdges n).map (·.dstID)

abbrev Edge (f g : N) : Prop := SCCDetection.Edge G.scc f g

omit [DecidableEq I] in
theorem edge_iff {f g : N} : G.Edge f g ↔ ∃ e ∈ G.edges, e.srcID = f ∧ e.dstID = g := by
  show g ∈ (G.outEdges f).map (·.dstID) ↔ _
  simp only [outEdges, mem_map, mem_filter, decide_eq_true_eq]
  constructor
  · rintro ⟨e, ⟨he, hsrc⟩, hdst⟩
    exact ⟨e, he, hsrc, hdst⟩
  · rintro ⟨e, he, hsrc, hdst⟩
    exact ⟨e, ⟨he, hsrc⟩, hdst⟩

def callSites (f : N) : List I := (G.inEdges f).flatMap (·.calls)

section

omit [DecidableEq I]

theorem mem_callSites {f : N} {cs : I} :
    cs ∈ G.callSites f ↔ ∃ e ∈ G.edges, e.dstID = f ∧ cs ∈ e.calls := by
  simp only [callSites, inEdges, mem_flatMap, mem_filter, decide_eq_true_eq, and_assoc]

theorem edge_of_callSite {f : N} {cs : I} (h : cs ∈ G.callSites f) :
    G.Edge (G.getFunction cs) f := by
  obtain ⟨e, he, hdst, hcs⟩ := G.mem_callSites.mp h
  exact G.edge_iff.mpr ⟨e, he, (G.calls_in e he cs hcs).symm, hdst⟩

theorem not_mutual_of_root {f g : N} (hroot : G.hasIncomingEdge f = false) (hedge : G.Edge f g) :
    ¬ Mutual G.Edge f g := by
  have hinto : ∀ h, ¬ G.Edge h f := by
    intro h hh
    obtain ⟨e, he, -, hdst⟩ := G.edge_iff.mp hh
    have hmem : e ∈ G.inEdges f := List.mem_filter.mpr ⟨he, decide_eq_true hdst⟩
    rw [hasIncomingEdge, Bool.not_eq_false', List.isEmpty_iff] at hroot
    rw [hroot] at hmem
    exact not_mem_nil hmem
  intro hm
  rcases ReflTransGen.cases_tail hm.2 with heq | ⟨h, -, hh⟩
  · rw [← heq] at hedge
    exact hinto _ hedge
  · exact hinto h hh

end

-- ── The functions that matter

/-- The search of `markRelProcs(svffun)`: the worklist with its `visited`, and
    `candidateFuncSet`. -/
abbrev RelSearch (N : Type) [DecidableEq N] := (FIFOWorkList N × Finset N) × Finset N

/-- One iteration of `markRelProcs(svffun)`. -/
def relStep (s : RelSearch N) : Option (RelSearch N) :=
  match s.1.1.pop with
  | none => none
  | some (node, worklist) =>
    some ((G.inEdges node).foldl (fun s e => pushNew s e.srcID) (worklist, s.1.2),
      insert node s.2)

def markRelProcsFrom (fuel : Nat) (candidateFuncSet : Finset N) (svffun : N) : Option (Finset N) :=
  (whileM (fun s : RelSearch N => !s.1.1.isEmpty) G.relStep fuel
    (((FIFOWorkList.empty.push svffun).2, {svffun}), candidateFuncSet)).map fun s => s.2

def markRelProcs (fuel : Nat) : Option (Finset N) :=
  (G.forksites.foldlM
    (fun candidateFuncSet cs =>
      (G.markRelProcsFrom fuel candidateFuncSet (G.getFunction cs)).map fun candidateFuncSet =>
        (G.forkEdges cs).foldl (fun c e => insert e.dstID c) candidateFuncSet) ∅).bind
    fun candidateFuncSet =>
      G.joinsites.foldlM
        (fun candidateFuncSet cs =>
          G.markRelProcsFrom fuel candidateFuncSet (G.getFunction cs)) candidateFuncSet

def collectEntryFunInCallGraph : List N :=
  G.nodes.filter fun f => !G.isExtCall f && !G.hasIncomingEdge f

-- ── Loops and recursion

def loopStep (s : FIFOWorkList I × Finset I) : Option (FIFOWorkList I × Finset I) :=
  match s.1.pop with
  | none => none
  | some (inst, worklist) =>
    some ((G.inEdges (G.getFunction inst)).foldl
      (fun s e => e.indirectCalls.foldl pushNew (e.directCalls.foldl pushNew s))
      (worklist, insert inst s.2))

def isInLoopInstruction (inst : I) (fuel : Nat) : Option Bool :=
  (whileM (fun s : FIFOWorkList I × Finset I => !s.1.isEmpty) G.loopStep fuel
    ((FIFOWorkList.empty.push inst).2, ∅)).map fun s =>
      decide (∃ i ∈ s.2, G.hasLoopInfo i = true)

/-- The search of `isInRecursion(inst)`; `ret` is set where it returns from the loop. -/
structure RecSearch (N : Type) [DecidableEq N] where
  worklist : FIFOWorkList N
  visits : Finset N
  ret : Bool

def pushCaller (visits : Finset N) (worklist : FIFOWorkList N) (cs : I) : FIFOWorkList N :=
  if G.getFunction cs ∈ visits then worklist else (worklist.push (G.getFunction cs)).2

/-- One iteration of `isInRecursion(inst)`. -/
def recStep (tcgSCC : SCCDetection N) (s : RecSearch N) : Option (RecSearch N) :=
  match s.worklist.pop with
  | none => none
  | some (svffun, worklist) =>
    let visits := insert svffun s.visits
    if SCCDetection.isInCycle G.scc tcgSCC svffun then
      some { worklist := worklist, visits := visits, ret := true }
    else
      some { s with
        visits := visits
        worklist := (G.inEdges svffun).foldl
          (fun w e => e.indirectCalls.foldl (G.pushCaller visits)
            (e.directCalls.foldl (G.pushCaller visits) w)) worklist }

def isInRecursion (tcgSCC : SCCDetection N) (inst : I) (fuel : Nat) : Option Bool :=
  (whileM (fun s : RecSearch N => !s.ret && !s.worklist.isEmpty) (G.recStep tcgSCC) fuel
    { worklist := (FIFOWorkList.empty.push (G.getFunction inst)).2
      visits := ∅
      ret := false }).map fun s => s.ret

-- ── The searches stop

section

omit [DecidableEq I]

theorem foldl_callSites {σ : Type} (g : σ → I → σ) (f : N) (s : σ) :
    (G.inEdges f).foldl (fun s e => e.indirectCalls.foldl g (e.directCalls.foldl g s)) s =
      (G.callSites f).foldl g s := by
  rw [callSites, foldl_flatMap]
  simp only [PTACallGraphEdge.calls, foldl_append]

theorem relStep_spec {s : RelSearch N} (hs : s.1.1.isEmpty = false) :
    ∃ node s', G.relStep s = some s' ∧ node ∈ s.1.1.den ∧
      (∀ f, f ∈ s'.1.2 ↔ f ∈ s.1.2 ∨ G.Edge f node) ∧
      s'.1.1.den = (s.1.1.den \ {node}) ∪ {f | G.Edge f node ∧ f ∉ s.1.2} ∧
      s'.2 = insert node s.2 := by
  obtain ⟨node, worklist, hpop, hmem, hden⟩ := pop_spec hs
  obtain ⟨hvis, hden'⟩ := pushNew_foldl ((G.inEdges node).map (·.srcID)) (worklist, s.1.2)
  have hsrc : ∀ f, f ∈ (G.inEdges node).map (·.srcID) ↔ G.Edge f node := by
    intro f
    rw [G.edge_iff]
    simp only [inEdges, mem_map, mem_filter, decide_eq_true_eq]
    constructor
    · rintro ⟨e, ⟨he, hdst⟩, hsrc⟩
      exact ⟨e, he, hsrc, hdst⟩
    · rintro ⟨e, he, hsrc, hdst⟩
      exact ⟨e, ⟨he, hdst⟩, hsrc⟩
  rw [foldl_map] at hvis hden'
  refine ⟨node, _, by rw [relStep, hpop], hmem, fun f => ?_, ?_, rfl⟩
  · rw [hvis, hsrc]
  · rw [hden', hden]
    simp only [hsrc]

/-- `markRelProcs(svffun)` adds what reaches `svffun`. -/
theorem markRelProcsFrom_total (candidateFuncSet : Finset N) (svffun : N) :
    ∃ t, Stops (fun fuel => G.markRelProcsFrom fuel candidateFuncSet svffun) t ∧
      ∀ f, f ∈ t ↔ f ∈ candidateFuncSet ∨ Reach G.Edge f svffun := by
  have hfin : Finite N := finite_univ_iff.mp
    ((finite_toSet G.nodes).subset fun n _ => G.nodes_all n)
  let back : N → N → Prop := fun g f => G.Edge f g
  let E : RelSearch N → Set N := fun s => {f | f ∈ s.1.2}
  let W : RelSearch N → Set N := fun s => s.1.1.den
  -- what has been found and taken out of the queue has become a candidate
  let J : RelSearch N → Prop := fun s =>
    ∀ f, f ∈ s.2 ↔ f ∈ candidateFuncSet ∨ (f ∈ s.1.2 ∧ f ∉ s.1.1.den)
  let start : RelSearch N := (((FIFOWorkList.empty.push svffun).2, {svffun}), candidateFuncSet)
  have hround : ∀ s, J s → W s ⊆ E s → (!s.1.1.isEmpty) →
      ∃ s' e, G.relStep s = some s' ∧ J s' ∧ e ∈ W s ∧
        Fired (Rules.ofEdges back) e (E s) (W s \ {e}) (E s') (W s') := by
    intro s hJ hWE hc
    obtain ⟨node, s', hstep, hmem, hvis, hden, hcand⟩ := G.relStep_spec (by simpa using hc)
    refine ⟨s', node, hstep, fun f => ?_, hmem, fired_ofEdges (hWE hmem) ?_ ?_⟩
    · have hf : f ∈ s.1.1.den → f ∈ s.1.2 := fun h => hWE h
      rw [hcand, hden, Finset.mem_insert, hJ, hvis]
      simp only [mem_union, mem_sdiff, mem_singleton_iff, mem_ofPred_eq]
      by_cases hfn : f = node
      · subst hfn
        have := hf hmem
        tauto
      · tauto
    · ext f
      exact hvis f
    · exact hden
  have hden : (FIFOWorkList.empty.push svffun).2.den = {svffun} := den_singleton svffun
  have hstart : Saturating (Rules.ofEdges back) {svffun} (E start) (W start) := by
    have hE : E start = {svffun} := by
      ext f
      exact Finset.mem_singleton
    rw [hE, show W start = {svffun} from hden]
    exact Saturating.init _ _
  have hJ : J start := by
    intro f
    show f ∈ candidateFuncSet ↔ f ∈ candidateFuncSet ∨
      (f ∈ ({svffun} : Finset N) ∧ f ∉ (FIFOWorkList.empty.push svffun).2.den)
    rw [hden, Finset.mem_singleton, mem_singleton_iff]
    tauto
  have hcond : ∀ s : RelSearch N, (!s.1.1.isEmpty) = false → W s = ∅ :=
    fun s hc => den_of_isEmpty (by simpa using hc)
  obtain ⟨t, hrun, hJt, hreached⟩ := saturate_total _ _ hcond hround hJ hstart
  have hW : t.1.1.den = ∅ := hcond t hrun.cond_false
  refine ⟨t.2, hrun.map _, fun f => ?_⟩
  have hreach : f ∈ t.1.2 ↔ Reach G.Edge f svffun := by
    refine (hreached f).trans (closure_ofEdges.trans ?_)
    simp only [mem_singleton_iff, exists_eq_left]
    exact reflTransGen_swap
  rw [hJt, hreach, hW]
  exact or_congr_right (and_iff_left (notMem_empty f))

end

/-- Candidates: what reaches a fork or join site, and the start routines. -/
def Relevant (f : N) : Prop :=
  (∃ cs, (cs ∈ G.forksites ∨ cs ∈ G.joinsites) ∧ Reach G.Edge f (G.getFunction cs)) ∨
  ∃ cs ∈ G.forksites, ∃ e ∈ G.forkEdges cs, e.dstID = f

/-- One fork site of `markRelProcs()`. -/
def AtFork (cs : I) (f : N) : Prop :=
  Reach G.Edge f (G.getFunction cs) ∨ ∃ e ∈ G.forkEdges cs, e.dstID = f

theorem mem_foldl_insert {A D : Type} [DecidableEq D] (g : A → D) (l : List A) :
    ∀ (s : Finset D) (d : D), d ∈ l.foldl (fun c e => insert (g e) c) s ↔ d ∈ s ∨ ∃ e ∈ l, g e = d := by
  induction l with
  | nil =>
    intro s d
    simp
  | cons e l ih =>
    intro s d
    rw [foldl_cons, ih, Finset.mem_insert]
    simp only [mem_cons, exists_eq_or_imp]
    tauto

omit [DecidableEq N] in
theorem stops_collect {A : Type} {f : Nat → Finset N → A → Option (Finset N)}
    {P : A → N → Prop} (l : List A)
    (hf : ∀ s a, a ∈ l → ∃ t, Stops (fun fuel => f fuel s a) t ∧ ∀ n, n ∈ t ↔ n ∈ s ∨ P a n) :
    ∀ s, ∃ t, Stops (fun fuel => l.foldlM (f fuel) s) t ∧ ∀ n, n ∈ t ↔ n ∈ s ∨ ∃ a ∈ l, P a n := by
  induction l with
  | nil =>
    intro s
    refine ⟨s, ⟨0, fun _ _ => rfl⟩, fun n => ?_⟩
    simp
  | cons a l ih =>
    intro s
    obtain ⟨t, ht, hmem⟩ := hf s a mem_cons_self
    obtain ⟨u, hu, hmem'⟩ := ih (fun s b hb => hf s b (mem_cons_of_mem a hb)) t
    refine ⟨u, Stops.bind ht hu, fun n => ?_⟩
    rw [hmem', hmem]
    simp only [mem_cons, exists_eq_or_imp]
    tauto

/-- **`markRelProcs()`** stops with the candidates. -/
theorem markRelProcs_total : ∃ t, Stops G.markRelProcs t ∧ ∀ f, f ∈ t ↔ G.Relevant f := by
  have hfork : ∀ s cs, cs ∈ G.forksites → ∃ t,
      Stops (fun fuel => (G.markRelProcsFrom fuel s (G.getFunction cs)).map fun c =>
        (G.forkEdges cs).foldl (fun c e => insert e.dstID c) c) t ∧
      ∀ f, f ∈ t ↔ f ∈ s ∨ G.AtFork cs f := by
    intro s cs _
    obtain ⟨t, ht, hmem⟩ := G.markRelProcsFrom_total s (G.getFunction cs)
    refine ⟨_, ht.map _, fun f => ?_⟩
    rw [mem_foldl_insert, hmem, or_assoc]
    exact .rfl
  obtain ⟨t, ht, hmem⟩ := stops_collect G.forksites hfork ∅
  obtain ⟨u, hu, hmem'⟩ := stops_collect G.joinsites
    (fun s cs _ => G.markRelProcsFrom_total s (G.getFunction cs)) t
  refine ⟨u, Stops.bind ht hu, fun f => ?_⟩
  rw [hmem', hmem]
  constructor
  · rintro ((h | ⟨cs, hcs, h | h⟩) | ⟨cs, hcs, h⟩)
    · exact absurd h (Finset.notMem_empty f)
    · exact .inl ⟨cs, .inl hcs, h⟩
    · exact .inr ⟨cs, hcs, h⟩
    · exact .inl ⟨cs, .inr hcs, h⟩
  · rintro (⟨cs, hcs | hcs, h⟩ | ⟨cs, hcs, h⟩)
    · exact .inl (.inr ⟨cs, hcs, .inl h⟩)
    · exact .inr ⟨cs, hcs, h⟩
    · exact .inl (.inr ⟨cs, hcs, .inr h⟩)

-- ── Loops and recursion, specified

def Calls (i c : I) : Prop := c ∈ G.callSites (G.getFunction i)

/-- The instruction, or a call site on a way to it, is in a loop. -/
def InLoop (inst : I) : Prop :=
  ∃ c, ReflTransGen G.Calls inst c ∧ G.hasLoopInfo c = true

def CalledFrom (f g : N) : Prop := ∃ cs ∈ G.callSites f, G.getFunction cs = g

/-- The function of the instruction, or one on a way to it, is on a cycle. -/
def InRecursion (inst : I) : Prop :=
  ∃ f, ReflTransGen G.CalledFrom (G.getFunction inst) f ∧
    TransGen G.Edge f f

/-- One iteration of `isInLoopInstruction`: the callers of what was popped are found. -/
theorem loopStep_spec {s : FIFOWorkList I × Finset I} (hs : s.1.isEmpty = false) :
    ∃ e s', G.loopStep s = some s' ∧ e ∈ s.1.den ∧
      (∀ c, c ∈ s'.2 ↔ (c = e ∨ c ∈ s.2) ∨ G.Calls e c) ∧
      s'.1.den = (s.1.den \ {e}) ∪ {c | G.Calls e c ∧ c ∉ insert e s.2} := by
  obtain ⟨e, worklist, hpop, hmem, hden⟩ := pop_spec hs
  obtain ⟨hvis, hden'⟩ := pushNew_foldl (G.callSites (G.getFunction e)) (worklist, insert e s.2)
  rw [← G.foldl_callSites] at hvis hden'
  refine ⟨e, _, by rw [loopStep, hpop], hmem, fun c => ?_, ?_⟩
  · rw [hvis, Finset.mem_insert]
    exact .rfl
  · rw [hden', hden]
    rfl

/-- **`isInLoopInstruction`** stops with the right answer. -/
theorem isInLoopInstruction_total (inst : I) :
    ∃ b, Stops (G.isInLoopInstruction inst) b ∧ (b ↔ G.InLoop inst) := by
  have hfin : Finite I := finite_univ_iff.mp
    ((finite_toSet G.insts).subset fun i _ => G.insts_all i)
  let V : FIFOWorkList I × Finset I → Set I := fun s => {i | i ∈ s.2}
  let W : FIFOWorkList I × Finset I → Set I := fun s => s.1.den
  have hcond : ∀ s : FIFOWorkList I × Finset I, (!s.1.isEmpty) = false → W s = ∅ :=
    fun s hc => den_of_isEmpty (by simpa using hc)
  have hround : ∀ s : FIFOWorkList I × Finset I, True → W s ⊆ V s ∪ W s →
      (!s.1.isEmpty) → ∃ s' e, G.loopStep s = some s' ∧ True ∧ e ∈ W s ∧
        Fired (Rules.ofEdges G.Calls) e (V s ∪ W s) (W s \ {e}) (V s' ∪ W s') (W s') := by
    intro s _ _ hc
    obtain ⟨e, s', hstep, hmem, hvis, hden⟩ := G.loopStep_spec (s := s) (by simpa using hc)
    refine ⟨s', e, hstep, trivial, hmem, fired_visits hmem ?_ ?_⟩
    · show s'.1.den = _
      rw [hden]
      ext c
      simp only [mem_union, mem_ofPred_eq, Finset.mem_insert, mem_insert_iff]
      exact .rfl
    · ext c
      show c ∈ s'.2 ∨ c ∈ s'.1.den ↔ _
      rw [hvis, hden]
      simp only [mem_union, mem_sdiff, mem_singleton_iff, mem_ofPred_eq, Finset.mem_insert]
      have hce : c = e → c ∈ W s := fun h => h ▸ hmem
      have hVs : c ∈ V s ↔ c ∈ s.2 := .rfl
      have hWs : c ∈ W s ↔ c ∈ s.1.den := .rfl
      tauto
  have hstart : Saturating (Rules.ofEdges G.Calls) {inst}
      (V ((FIFOWorkList.empty.push inst).2, ∅) ∪ W ((FIFOWorkList.empty.push inst).2, ∅))
      (W ((FIFOWorkList.empty.push inst).2, ∅)) := by
    have hV : V ((FIFOWorkList.empty.push inst).2, ∅) = ∅ := by
      ext i
      exact iff_of_false (Finset.notMem_empty i) (notMem_empty i)
    rw [hV, empty_union, show W _ = {inst} from den_singleton inst]
    exact Saturating.init _ _
  obtain ⟨t, hrun, -, hreached⟩ := saturate_total (J := fun _ => True)
    (fun s : FIFOWorkList I × Finset I => !s.1.isEmpty) G.loopStep hcond hround trivial hstart
  refine ⟨_, hrun.map _, ?_⟩
  have hW : W t = ∅ := hcond t hrun.cond_false
  have hmem : ∀ i, i ∈ t.2 ↔ ReflTransGen G.Calls inst i := by
    intro i
    have hi := hreached i
    rw [hW, union_empty, closure_ofEdges] at hi
    simp only [mem_singleton_iff, exists_eq_left] at hi
    exact hi
  rw [decide_eq_true_eq, InLoop]
  simp only [hmem]

section

variable {tcgSCC : SCCDetection N} (hscc : SCCDetection.Components G.scc tcgSCC)
include hscc

omit [DecidableEq I] in
/-- One iteration of `isInRecursion`: what was popped is on a cycle and the loop is left, or
    its callers are queued. -/
theorem recStep_spec {s : RecSearch N} (hs : s.worklist.isEmpty = false) :
    ∃ f s', G.recStep tcgSCC s = some s' ∧ f ∈ s.worklist.den ∧ ((TransGen G.Edge f f ∧ s'.ret) ∨
       (¬ TransGen G.Edge f f ∧ s'.ret = s.ret ∧ s'.visits = insert f s.visits ∧
        s'.worklist.den = (s.worklist.den \ {f}) ∪ {g | G.CalledFrom f g ∧ g ∉ s'.visits})) := by
  obtain ⟨f, worklist, hpop, hmem, hden⟩ := pop_spec hs
  have hcycle := hscc.isInCycle_iff f
  rw [recStep, hpop]
  by_cases hc : SCCDetection.isInCycle G.scc tcgSCC f
  · exact ⟨f, _, if_pos hc, hmem, .inl ⟨hcycle.mp hc, rfl⟩⟩
  · refine ⟨f, _, if_neg hc, hmem, .inr ⟨mt hcycle.mpr hc, rfl, rfl, ?_⟩⟩
    show FIFOWorkList.den _ = _
    rw [G.foldl_callSites, ← hden]
    -- the loop over the call sites
    have hloop : ∀ (l : List I) (w : FIFOWorkList N) (visits : Finset N),
        (l.foldl (G.pushCaller visits) w).den =
          w.den ∪ {g | (∃ cs ∈ l, G.getFunction cs = g) ∧ g ∉ visits} := by
      intro l
      induction l with
      | nil =>
        intro w visits
        ext g
        simp
      | cons cs l ih =>
        intro w visits
        rw [foldl_cons, ih, pushCaller]
        ext g
        by_cases hv : G.getFunction cs ∈ visits
        · rw [if_pos hv]
          simp only [mem_union, mem_ofPred_eq, mem_cons, exists_eq_or_imp]
          have : G.getFunction cs = g → g ∈ visits := fun h => h ▸ hv
          tauto
        · rw [if_neg hv, den_push]
          simp only [mem_union, mem_ofPred_eq, mem_cons, exists_eq_or_imp, mem_insert_iff]
          have : g = G.getFunction cs → g ∉ visits := fun h => h ▸ hv
          have hcomm : g = G.getFunction cs ↔ G.getFunction cs = g := eq_comm
          tauto
    exact hloop _ _ _

omit [DecidableEq I] in
/-- **`isInRecursion`** stops with the right answer. -/
theorem isInRecursion_total (inst : I) :
    ∃ b, Stops (G.isInRecursion tcgSCC inst) b ∧ (b ↔ G.InRecursion inst) := by
  have hfin : Finite N := finite_univ_iff.mp
    ((finite_toSet G.nodes).subset fun n _ => G.nodes_all n)
  let V : RecSearch N → Set N := fun s => {f | f ∈ s.visits}
  let W : RecSearch N → Set N := fun s => s.worklist.den
  let cond : RecSearch N → Bool := fun s => !s.ret && !s.worklist.isEmpty
  let start : RecSearch N :=
    { worklist := (FIFOWorkList.empty.push (G.getFunction inst)).2, visits := ∅, ret := false }
  -- nothing that is marked is on a cycle
  let J : RecSearch N → Prop := fun s => s.ret = false ∧ ∀ f ∈ s.visits, ¬ TransGen G.Edge f f
  let Out : RecSearch N → Prop := fun s => s.ret ∧ G.InRecursion inst
  have hclosure : ∀ f, Closure (Rules.ofEdges G.CalledFrom) {G.getFunction inst} f ↔
      ReflTransGen G.CalledFrom (G.getFunction inst) f := by
    intro f
    rw [closure_ofEdges]
    simp only [mem_singleton_iff, exists_eq_left]
  have hround : ∀ s, J s →
      Saturating (Rules.ofEdges G.CalledFrom) {G.getFunction inst} (V s ∪ W s) (W s) →
      cond s → ∃ s', G.recStep tcgSCC s = some s' ∧
        ((J s' ∧ ∃ e ∈ W s, Fired (Rules.ofEdges G.CalledFrom) e (V s ∪ W s) (W s \ {e})
            (V s' ∪ W s') (W s')) ∨ (cond s' = false ∧ Out s')) := by
    intro s hJ hs hc
    have hne : s.worklist.isEmpty = false := by
      have := (Bool.and_eq_true _ _ ▸ hc : _ ∧ _).2
      simpa using this
    obtain ⟨f, s', hstep, hmem, ⟨hcycle, hret⟩ | ⟨hacyclic, hret, hvisits, hden⟩⟩ :=
      G.recStep_spec hscc hne
    · have hreach := (hclosure f).mp (hs.sound f (.inr hmem))
      refine ⟨s', hstep, .inr ⟨?_, hret, f, hreach, hcycle⟩⟩
      simp [cond, hret]
    · refine ⟨s', hstep, .inl ⟨⟨hret.trans hJ.1, ?_⟩, f, hmem, fired_visits hmem ?_ ?_⟩⟩
      · intro g hg
        rw [hvisits] at hg
        rcases Finset.mem_insert.mp hg with rfl | hg
        · exact hacyclic
        · exact hJ.2 g hg
      · show s'.worklist.den = _
        rw [hden, hvisits]
        ext g
        simp only [mem_union, mem_ofPred_eq, Finset.mem_insert, mem_insert_iff]
        exact .rfl
      · ext g
        show g ∈ s'.visits ∨ g ∈ s'.worklist.den ↔ _
        rw [hden, hvisits]
        simp only [mem_union, mem_sdiff, mem_singleton_iff, mem_ofPred_eq, Finset.mem_insert]
        have hgf : g = f → g ∈ W s := fun h => h ▸ hmem
        have hVs : g ∈ V s ↔ g ∈ s.visits := .rfl
        have hWs : g ∈ W s ↔ g ∈ s.worklist.den := .rfl
        tauto
  have hstart : Saturating (Rules.ofEdges G.CalledFrom) {G.getFunction inst}
      (V start ∪ W start) (W start) := by
    have hV : V start = ∅ := by
      ext f
      exact iff_of_false (Finset.notMem_empty f) (notMem_empty f)
    rw [hV, empty_union, show W start = {G.getFunction inst} from FIFOWorkList.den_singleton _]
    exact Saturating.init _ _
  have hJ : J start := ⟨rfl, fun f hf => absurd hf (Finset.notMem_empty f)⟩
  obtain ⟨t, hrun, hct, ⟨hJt, hsat⟩ | hout⟩ := saturate_until cond _ hround hJ hstart
  · refine ⟨t.ret, hrun.map _, ?_⟩
    rw [hJt.1]
    refine iff_of_false (by decide) ?_
    rintro ⟨f, hreach, hcycle⟩
    have hW : W t = ∅ := by
      refine FIFOWorkList.den_of_isEmpty ?_
      simpa [cond, hJt.1] using hct
    rw [hW, union_empty] at hsat
    exact hJt.2 f ((hsat.done f).mpr ((hclosure f).mpr hreach)) hcycle
  · refine ⟨t.ret, hrun.map _, ?_⟩
    rw [hout.1]
    exact iff_of_true rfl hout.2

end

-- ── More fuel changes no answer

omit [DecidableEq I] in
theorem markRelProcsFrom_keeps (candidateFuncSet : Finset N) (svffun : N) :
    Keeps fun fuel => G.markRelProcsFrom fuel candidateFuncSet svffun :=
  (Keeps.whileM (fun s => Keeps.const (G.relStep s)) _).map _

theorem markRelProcs_keeps : Keeps G.markRelProcs :=
  (Keeps.foldlM (fun c cs => (G.markRelProcsFrom_keeps c (G.getFunction cs)).map _) _ _).bind
    fun c => Keeps.foldlM (fun c cs => G.markRelProcsFrom_keeps c (G.getFunction cs)) _ c

theorem isInLoopInstruction_keeps (inst : I) : Keeps (G.isInLoopInstruction inst) :=
  (Keeps.whileM (fun s => Keeps.const (G.loopStep s)) _).map _

omit [DecidableEq I] in
theorem isInRecursion_keeps (tcgSCC : SCCDetection N) (inst : I) :
    Keeps (G.isInRecursion tcgSCC inst) :=
  (Keeps.whileM (fun s => Keeps.const (G.recStep tcgSCC s)) _).map _

end ThreadCallGraph

/-- A program as the analyses over its instructions see it: the call graph, the first
    instruction of a function that has a body, the successors of an instruction in its
    function, and what kind of instruction it is. Every edge of the call graph has a call
    site, and none is a join edge. -/
structure ThreadProgram (N I : Type) extends ThreadCallGraph N I where
  entryInst : N → Option I
  succInsts : I → List I
  isCallSite : I → Bool
  isRetInst : I → Bool
  isExtCallInst : I → Bool
  entry_in : ∀ f i, entryInst f = some i → getFunction i = f
  succ_in : ∀ i, ∀ j ∈ succInsts i, getFunction j = getFunction i
  calls_ne : ∀ e ∈ edges, e.calls ≠ []
  join_out : ∀ e ∈ edges, e.edgeKind ≠ .TDJoinEdge

end SvfThreadCallGraph
