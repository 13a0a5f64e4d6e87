import SvfModel.LoopProofs
import SvfModel.WorkListProofs
import SvfModel.Z3ExprProofs

/-!
# SABER's path conditions: `ProgSlice::AllPathReachableSolve`

From the source of a slice the solver propagates conditions along the value-flow edges: what is
stored for a node, and the guard of an edge, and not the invalid branches at the node. A node whose
condition has changed is pushed on a worklist. What a node should get is `Reached`: some path
from the source all of whose edges hold.

The heart is `propagateEdge_spec`: an edge never takes anything away, and what it changes it
pushes. So a node that is not waiting has passed its condition on (`Inv`), and the solver always
stops, as a push makes a condition true for one more assignment (`room`). That conditions are no
larger than they should be needs exact operations: **`AllPathReachableSolve_least`** is what holds
if no expression of the run exceeds the size limit, and `diamond_cut` a run in which one does.
-/

set_option linter.unusedSectionVars false

namespace SvfSaber

open SvfLoop SvfWorkList Z3Expr Z3Context List Option
open Function (update update_of_ne update_self)

-- ── Slices

inductive EdgeKind (BB : Type) where
  | intra
  | call (callBB : BB)
  | ret (retBB : BB)

structure SVFGEdge (Node BB : Type) where
  dstNode : Node
  kind : EdgeKind BB

/-- A slice, with the guards of value-flows between blocks: these depend on the node that is
    evaluated. `nodeBB` is `nullptr` where a node is in no block. -/
structure ProgSlice (Node BB V : Type) where
  root : Node
  backwardslice : Finset Node
  sinks : List Node
  outEdges : Node → List (SVFGEdge Node BB)
  nodeBB : Node → Option BB
  removedSUVFEdges : Node → List Node
  ComputeIntraVFGGuard : Node → Option BB → Option BB → Z3Expr V
  ComputeInterCallVFGGuard : Node → Option BB → Option BB → BB → Z3Expr V
  ComputeInterRetVFGGuard : Node → Option BB → Option BB → BB → Z3Expr V

/-- The conditions computed so far, and the nodes to visit. -/
structure SliceState (Node V : Type) [DecidableEq Node] where
  svfgNodeToCondMap : Node → Option (Z3Expr V)
  worklist : FIFOWorkList Node

section Solver

variable {Node BB V : Type} [DecidableEq Node] [DecidableEq BB] [DecidableEq V] [Fintype V]

def getVFCond (s : SliceState Node V) (node : Node) : Z3Expr V :=
  (s.svfgNodeToCondMap node).getD getFalseCond

def setVFCond (s : SliceState Node V) (node : Node) (cond : Z3Expr V) : Bool × SliceState Node V :=
  let set := { s with svfgNodeToCondMap := update s.svfgNodeToCondMap node (some cond) }
  match s.svfgNodeToCondMap node with
  | some old => if isEquivalentBranchCond old cond then (false, s) else (true, set)
  | none => (true, set)

namespace ProgSlice

variable (P : ProgSlice Node BB V) (z : Z3Context V)

def edgeGuard (node : Node) (edge : SVFGEdge Node BB) : Z3Expr V :=
  let nodeBB := P.nodeBB node
  let succBB := P.nodeBB edge.dstNode
  match edge.kind with
  | .call callBB => P.ComputeInterCallVFGGuard node nodeBB succBB callBB
  | .ret retBB => P.ComputeInterRetVFGGuard node nodeBB succBB retBB
  | .intra => P.ComputeIntraVFGGuard node nodeBB succBB

/-- The blocks of the valid successors. -/
def validOutBBs (cur : Node) : List (Option BB) :=
  ((P.outEdges cur).filter fun edge => edge.dstNode ∈ P.backwardslice).map fun edge =>
    P.nodeBB edge.dstNode

/-- One round of the loop of `computeInvalidCondFromRemovedSUVFEdge`. -/
def addInvalid (cur : Node) (invalidCond : Z3Expr V) (succ : Node) : Z3Expr V :=
  if P.nodeBB succ ∈ P.validOutBBs cur then invalidCond
  else z.OR invalidCond (P.ComputeIntraVFGGuard cur (P.nodeBB cur) (P.nodeBB succ))

def computeInvalidCondFromRemovedSUVFEdge (cur : Node) : Z3Expr V :=
  (P.removedSUVFEdges cur).foldl (P.addInvalid z cur) getFalseCond

/-- One round of the loop over the out edges of `node`. -/
def propagateEdge (node : Node) (invalidCond cond : Z3Expr V) (s : SliceState Node V)
    (edge : SVFGEdge Node BB) : SliceState Node V :=
  let succ := edge.dstNode
  if succ ∈ P.backwardslice then
    let vfCond := z.AND (P.edgeGuard node edge) (z.NEG invalidCond)
    let succPathCond := z.AND cond vfCond
    let (changed, s) := setVFCond s succ (z.OR (getVFCond s succ) succPathCond)
    if changed then { s with worklist := (s.worklist.push succ).2 } else s
  else s

def visitNode (s : SliceState Node V) (node : Node) : SliceState Node V :=
  (P.outEdges node).foldl
    (P.propagateEdge z node (P.computeInvalidCondFromRemovedSUVFEdge z node) (getVFCond s node)) s

def solveBody (s : SliceState Node V) : Option (SliceState Node V) :=
  s.worklist.pop.map fun r => P.visitNode z { s with worklist := r.2 } r.1

/-- The source with the condition true, and nothing else. -/
def start : SliceState Node V where
  svfgNodeToCondMap := update (fun _ => none) P.root (some getTrueCond)
  worklist := (FIFOWorkList.empty.push P.root).2

def finalCond (s : SliceState Node V) : Z3Expr V :=
  P.sinks.foldl (fun guard sink => z.OR guard (getVFCond s sink)) getFalseCond

/-- `isSatisfiableForAll`, which returns `isAllPathReachable` of the final condition. -/
def isSatisfiableForAll (s : SliceState Node V) : Bool :=
  isEquivalentBranchCond (P.finalCond z s) getTrueCond

def AllPathReachableSolve (fuel : ℕ) : Option (Bool × SliceState Node V) :=
  (whileM (fun s => !s.worklist.isEmpty) (P.solveBody z) fuel P.start).map fun s =>
    (P.isSatisfiableForAll z s, s)

-- ── What a node should get

/-- The value-flow paths of the slice from its source, as the edges taken. -/
inductive VFPath : Node → List (Node × SVFGEdge Node BB) → Prop
  | source : VFPath P.root []
  | step {n : Node} {path : List (Node × SVFGEdge Node BB)} {edge : SVFGEdge Node BB}
      (hp : VFPath n path) (he : edge ∈ P.outEdges n) (hs : edge.dstNode ∈ P.backwardslice) :
      VFPath edge.dstNode (path ++ [(n, edge)])

/-- The invalid condition of a node: the guard of a removed edge into a block that no valid
    successor is in. -/
def Invalid (node : Node) (m : V → Bool) : Prop :=
  ∃ succ ∈ P.removedSUVFEdges node, P.nodeBB succ ∉ P.validOutBBs node ∧
    (P.ComputeIntraVFGGuard node (P.nodeBB node) (P.nodeBB succ)).eval m = true

def Holds (m : V → Bool) (step : Node × SVFGEdge Node BB) : Prop :=
  (P.edgeGuard step.1 step.2).eval m = true ∧ ¬ P.Invalid step.1 m

def AllPaths (node : Node) (m : V → Bool) : Prop :=
  ∃ path, P.VFPath node path ∧ ∀ step ∈ path, P.Holds m step

variable {P} {z} {m : V → Bool}

theorem AllPaths.source (m : V → Bool) : P.AllPaths P.root m := ⟨[], .source, nofun⟩

theorem AllPaths.step {n : Node} {edge : SVFGEdge Node BB} (h : P.AllPaths n m)
    (he : edge ∈ P.outEdges n) (hs : edge.dstNode ∈ P.backwardslice) (hh : P.Holds m (n, edge)) :
    P.AllPaths edge.dstNode m := by
  obtain ⟨path, hp, hall⟩ := h
  refine ⟨path ++ [(n, edge)], hp.step he hs, fun step hstep => ?_⟩
  rcases mem_append.mp hstep with hold | hnew
  · exact hall step hold
  · rw [mem_singleton.mp hnew]
    exact hh

theorem AllPaths.ind {R : Node → Prop} (hroot : R P.root)
    (hstep : ∀ n edge, R n → edge ∈ P.outEdges n → edge.dstNode ∈ P.backwardslice →
      P.Holds m (n, edge) → R edge.dstNode) {n : Node} (h : P.AllPaths n m) : R n := by
  obtain ⟨path, hp, hall⟩ := h
  induction hp with
  | source => exact hroot
  | step hp he hs ih =>
    refine hstep _ _ (ih fun step hm => hall step (mem_append_left _ hm)) he hs ?_
    exact hall _ (mem_append_right _ (mem_singleton_self _))

-- ── One edge

omit [DecidableEq Node] [DecidableEq BB] in
theorem getVFCond_of_some [DecidableEq Node] {s : SliceState Node V} {n : Node} {c : Z3Expr V}
    (h : s.svfgNodeToCondMap n = some c) : getVFCond s n = c := by
  rw [getVFCond, h, getD_some]

/-- For how many assignments a condition is not true yet, and one more when there is none. -/
def room : Option (Z3Expr V) → ℕ
  | some cond => (Finset.univ.filter fun m => cond.eval m = false).card
  | none => Fintype.card (V → Bool) + 1

/-- Setting a condition that is no less than the one there: the node has it, or an equivalent one,
    and a change makes it true for more. -/
theorem setVFCond_spec (s : SliceState Node V) (node : Node) (cond : Z3Expr V)
    (hge : ∀ m, (getVFCond s node).eval m → cond.eval m) :
    (∀ m, (getVFCond (setVFCond s node cond).2 node).eval m = cond.eval m) ∧
    ((setVFCond s node cond).1 = false → (setVFCond s node cond).2 = s) ∧
    ((setVFCond s node cond).1 → (setVFCond s node cond).2.worklist = s.worklist ∧
      (∀ n, n ≠ node → (setVFCond s node cond).2.svfgNodeToCondMap n = s.svfgNodeToCondMap n) ∧
      room ((setVFCond s node cond).2.svfgNodeToCondMap node) <
        room (s.svfgNodeToCondMap node)) := by
  have hset : getVFCond { s with
      svfgNodeToCondMap := update s.svfgNodeToCondMap node (some cond) } node = cond :=
    getVFCond_of_some (update_self node _ _)
  rw [setVFCond]
  cases hold : s.svfgNodeToCondMap node with
  | none =>
    refine ⟨fun m => by rw [hset], nofun, fun _ => ?_⟩
    refine ⟨rfl, fun n hn => update_of_ne hn _ _, ?_⟩
    show room (update s.svfgNodeToCondMap node (some cond) node) < _
    rw [update_self]
    exact Nat.lt_succ_of_le (Finset.card_le_univ _)
  | some old =>
    have hget := getVFCond_of_some hold
    dsimp only
    cases heq : isEquivalentBranchCond old cond with
    | true =>
      refine ⟨fun m => ?_, fun _ => rfl, nofun⟩
      show (getVFCond s node).eval m = _
      rw [hget]
      exact isEquivalentBranchCond_iff.mp heq m
    | false =>
      refine ⟨fun m => by simp only [Bool.false_eq_true, if_false, hset], nofun, fun _ => ?_⟩
      refine ⟨rfl, fun n hn => update_of_ne hn _ _, ?_⟩
      show room (update s.svfgNodeToCondMap node (some cond) node) < _
      rw [update_self]
      -- an assignment at which the two differ is one that is new
      have hne : ¬ ∀ m, old.eval m = cond.eval m := of_decide_eq_false heq
      obtain ⟨m, hm⟩ := not_forall.mp hne
      have hge' : ∀ m, old.eval m → cond.eval m := hget ▸ hge
      have hold' : old.eval m = false := by
        cases ho : old.eval m with
        | false => rfl
        | true => exact absurd (ho.trans (hge' m ho).symm) hm
      refine Finset.card_lt_card (Finset.ssubset_iff_of_subset ?_ |>.mpr ⟨m, ?_, ?_⟩)
      · intro m' hm'
        have hc := (Finset.mem_filter.mp hm').2
        refine Finset.mem_filter.mpr ⟨Finset.mem_univ _, ?_⟩
        cases ho : old.eval m' with
        | false => rfl
        | true => exact absurd ((hge' m' ho).symm.trans hc) (Bool.false_ne_true ∘ Eq.symm)
      · exact Finset.mem_filter.mpr ⟨Finset.mem_univ _, hold'⟩
      · intro hmem
        exact hm (hold'.trans (Finset.mem_filter.mp hmem).2.symm)

/-- The waiting nodes, and what the conditions may still become. -/
def measure (P : ProgSlice Node BB V) (s : SliceState Node V) : ℕ :=
  s.worklist.dataList.length +
    ∑ n ∈ insert P.root P.backwardslice, room (s.svfgNodeToCondMap n)

/-- What propagating does: no condition becomes less, and a node whose condition is another waits. -/
structure Passed (P : ProgSlice Node BB V) (s s' : SliceState Node V) : Prop where
  mono : ∀ n m, (getVFCond s n).eval m = true → (getVFCond s' n).eval m = true
  waits : s.worklist.den ⊆ s'.worklist.den
  same : ∀ n, n ∉ s'.worklist.den → getVFCond s' n = getVFCond s n
  measure : measure P s' ≤ measure P s

theorem Passed.refl (s : SliceState Node V) : Passed P s s :=
  ⟨fun _ _ h => h, subset_rfl, fun _ _ => rfl, le_rfl⟩

theorem Passed.trans {s t u : SliceState Node V} (h : Passed P s t) (h' : Passed P t u) :
    Passed P s u where
  mono n m hm := h'.mono n m (h.mono n m hm)
  waits := h.waits.trans h'.waits
  same n hn := (h'.same n hn).trans (h.same n fun hw => hn (h'.waits hw))
  measure := h'.measure.trans h.measure

/-- **One edge**: its target gets at least what holds at the node and along the edge. -/
theorem propagateEdge_spec (node : Node) (invalidCond cond : Z3Expr V) (s : SliceState Node V)
    (edge : SVFGEdge Node BB) :
    Passed P s (P.propagateEdge z node invalidCond cond s edge) ∧
    (edge.dstNode ∈ P.backwardslice → ∀ m, cond.eval m →
      (P.edgeGuard node edge).eval m → invalidCond.eval m = false →
      (getVFCond (P.propagateEdge z node invalidCond cond s edge) edge.dstNode).eval m) := by
  rw [propagateEdge]
  by_cases hin : edge.dstNode ∈ P.backwardslice
  · rw [if_pos hin]
    dsimp only
    generalize hpath : z.AND cond (z.AND (P.edgeGuard node edge) (z.NEG invalidCond)) = pathCond
    have hsucc : ∀ m, cond.eval m → (P.edgeGuard node edge).eval m → invalidCond.eval m = false →
        (z.OR (getVFCond s edge.dstNode) pathCond).eval m := by
      intro m hc hg hi
      refine OR_of_eval (.inr ?_)
      rw [← hpath]
      refine AND_of_eval hc (AND_of_eval hg ?_)
      rw [eval_NEG, hi]
      rfl
    obtain ⟨hcond, hkept, hchanged⟩ := setVFCond_spec s edge.dstNode
      (z.OR (getVFCond s edge.dstNode) pathCond) fun m hm => OR_of_eval (.inl hm)
    generalize setVFCond s edge.dstNode (z.OR (getVFCond s edge.dstNode) pathCond) = r at *
    obtain ⟨changed, t⟩ := r
    cases changed with
    | false =>
      obtain rfl := hkept rfl
      exact ⟨Passed.refl _, fun _ m hc hg hi => (hcond m).trans (hsucc m hc hg hi)⟩
    | true =>
      obtain ⟨hwork, hrest, hroom⟩ := hchanged rfl
      dsimp only at hwork hrest hroom hcond
      refine ⟨⟨fun n m hm => ?_, ?_, fun n hn => ?_, ?_⟩,
        fun _ m hc hg hi => (hcond m).trans (hsucc m hc hg hi)⟩
      · by_cases hn : n = edge.dstNode
        · subst hn
          exact (hcond m).trans (OR_of_eval (.inl hm))
        · show ((t.svfgNodeToCondMap n).getD getFalseCond).eval m
          rw [hrest n hn]
          exact hm
      · show s.worklist.den ⊆ (t.worklist.push edge.dstNode).2.den
        rw [FIFOWorkList.den_push, hwork]
        exact Set.subset_insert _ _
      · have hne : n ≠ edge.dstNode := by
          rintro rfl
          refine hn ?_
          show _ ∈ (t.worklist.push _).2.den
          rw [FIFOWorkList.den_push]
          exact Set.mem_insert _ _
        show (t.svfgNodeToCondMap n).getD getFalseCond = _
        rw [hrest n hne]
        rfl
      · have hsum : ∑ n ∈ insert P.root P.backwardslice, room (t.svfgNodeToCondMap n) <
            ∑ n ∈ insert P.root P.backwardslice, room (s.svfgNodeToCondMap n) := by
          refine Finset.sum_lt_sum (fun n _ => ?_) ⟨_, Finset.mem_insert_of_mem hin, hroom⟩
          by_cases hn : n = edge.dstNode
          · rw [hn]
            exact hroom.le
          · rw [hrest n hn]
        have hlen := FIFOWorkList.length_push_le t.worklist edge.dstNode
        rw [hwork] at hlen
        show (t.worklist.push edge.dstNode).2.dataList.length +
          ∑ n ∈ insert P.root P.backwardslice, room (t.svfgNodeToCondMap n) ≤ _
        rw [hwork]
        unfold ProgSlice.measure
        omega
  · rw [if_neg hin]
    exact ⟨Passed.refl s, fun h => absurd h hin⟩

-- ── One node

def PassedOn (P : ProgSlice Node BB V) (z : Z3Context V) (s : SliceState Node V)
    (node : Node) : Prop :=
  ∀ edge ∈ P.outEdges node, edge.dstNode ∈ P.backwardslice → ∀ m,
    (getVFCond s node).eval m = true → (P.edgeGuard node edge).eval m = true →
    (P.computeInvalidCondFromRemovedSUVFEdge z node).eval m = false →
    (getVFCond s edge.dstNode).eval m = true

theorem visitEdges_spec (node : Node) (invalidCond cond : Z3Expr V) :
    ∀ (edges : List (SVFGEdge Node BB)) (s : SliceState Node V),
      Passed P s (edges.foldl (P.propagateEdge z node invalidCond cond) s) ∧
      ∀ edge ∈ edges, edge.dstNode ∈ P.backwardslice → ∀ m, cond.eval m →
        (P.edgeGuard node edge).eval m → invalidCond.eval m = false →
        (getVFCond (edges.foldl (P.propagateEdge z node invalidCond cond) s)
          edge.dstNode).eval m := by
  intro edges
  induction edges with
  | nil => exact fun s => ⟨Passed.refl s, nofun⟩
  | cons e edges ih =>
    intro s
    obtain ⟨hfirst, hdst⟩ := propagateEdge_spec (P := P) (z := z) node invalidCond cond s e
    obtain ⟨hrest, hall⟩ := ih (P.propagateEdge z node invalidCond cond s e)
    refine ⟨hfirst.trans hrest, fun edge he hin m hc hg hi => ?_⟩
    rcases mem_cons.mp he with rfl | he
    · exact hrest.mono _ m (hdst hin m hc hg hi)
    · exact hall edge he hin m hc hg hi

structure Inv (P : ProgSlice Node BB V) (z : Z3Context V) (s : SliceState Node V) : Prop where
  root : ∀ m, (getVFCond s P.root).eval m = true
  passed : ∀ n, n ∉ s.worklist.den → P.PassedOn z s n

theorem getVFCond_start (P : ProgSlice Node BB V) (n : Node) :
    getVFCond P.start n = if n = P.root then getTrueCond else getFalseCond := by
  show (update (fun _ => none) P.root (some getTrueCond) n).getD getFalseCond = _
  by_cases hn : n = P.root
  · rw [hn, update_self, if_pos rfl, getD_some]
  · rw [update_of_ne hn, if_neg hn, getD_none]

theorem inv_start : Inv P z P.start := by
  constructor
  case root =>
    intro m
    rw [getVFCond_start, if_pos rfl]
    rfl
  case passed =>
    intro n hn edge _ _ m hm
    have hne : n ≠ P.root := by
      rintro rfl
      refine hn ?_
      show _ ∈ (FIFOWorkList.empty.push P.root).2.den
      rw [FIFOWorkList.den_singleton]
      exact Set.mem_singleton _
    rw [getVFCond_start, if_neg hne] at hm
    cases hm

/-- **Step lemma**: the body of the loop keeps the invariant and decreases the measure. -/
theorem solveBody_spec {s : SliceState Node V} (h : Inv P z s) (hcond : (!s.worklist.isEmpty)) :
    ∃ s', P.solveBody z s = some s' ∧ Inv P z s' ∧ measure P s' < measure P s := by
  obtain ⟨node, w, hpop, hmem, hden⟩ := FIFOWorkList.pop_spec (Bool.not_eq_true' _ ▸ hcond)
  obtain ⟨hpassed, hall⟩ := visitEdges_spec (P := P) (z := z) node
    (P.computeInvalidCondFromRemovedSUVFEdge z node) (getVFCond s node) (P.outEdges node)
    { s with worklist := w }
  refine ⟨P.visitNode z { s with worklist := w } node, ?_, ⟨?_, ?_⟩, ?_⟩
  · rw [solveBody, hpop]
    rfl
  · exact fun m => hpassed.mono P.root m (h.root m)
  · intro n hn edge he hin m hm hg hi
    have hsame : getVFCond (P.visitNode z { s with worklist := w } node) n = getVFCond s n :=
      hpassed.same n hn
    rw [hsame] at hm
    by_cases heq : n = node
    · subst heq
      exact hall edge he hin m hm hg hi
    · -- the node was not waiting before either
      have hnot : n ∉ s.worklist.den := by
        intro hw
        refine hn (hpassed.waits ?_)
        show n ∈ w.den
        rw [hden]
        exact ⟨hw, heq⟩
      exact hpassed.mono _ m (h.passed n hnot edge he hin m hm hg hi)
  · have hlen : s.worklist.dataList.length = w.dataList.length + 1 := by
      rw [FIFOWorkList.dataList_pop hpop, length_cons]
    have hle := hpassed.measure
    have hpopped : measure P { s with worklist := w } < measure P s := by
      have hlt : w.dataList.length < s.worklist.dataList.length := by omega
      exact Nat.add_lt_add_right hlt _
    exact lt_of_le_of_lt hle hpopped

-- ── Runs without a cut

/-- The states the solver goes through. -/
inductive Reached (P : ProgSlice Node BB V) (z : Z3Context V) : SliceState Node V → Prop
  | start : Reached P z P.start
  | step {s s' : SliceState Node V} (h : Reached P z s) (hs : P.solveBody z s = some s') :
      Reached P z s'

section

variable (P : ProgSlice Node BB V)

section

variable (z : Z3Context V)

def InvalidFits (node : Node) : Prop :=
  FoldMeets
    (fun invalidCond succ => P.nodeBB succ ∉ P.validOutBBs node →
      z.OrFits invalidCond (P.ComputeIntraVFGGuard node (P.nodeBB node) (P.nodeBB succ)))
    (fun invalidCond succ => some (P.addInvalid z node invalidCond succ)) getFalseCond
    (P.removedSUVFEdges node)

def EdgeFits (node : Node)
    (invalidCond cond : Z3Expr V) (s : SliceState Node V) (edge : SVFGEdge Node BB) : Prop :=
  edge.dstNode ∈ P.backwardslice →
    z.AndFits (P.edgeGuard node edge) (z.NEG invalidCond) ∧
    z.AndFits cond (z.AND (P.edgeGuard node edge) (z.NEG invalidCond)) ∧
    z.OrFits (getVFCond s edge.dstNode)
      (z.AND cond (z.AND (P.edgeGuard node edge) (z.NEG invalidCond)))

/-- No operation for the node that is popped builds an expression that is too large. -/
def StepFits (s : SliceState Node V) : Prop :=
  ∀ node w, s.worklist.pop = some (node, w) → P.InvalidFits z node ∧
    FoldMeets
      (P.EdgeFits z node (P.computeInvalidCondFromRemovedSUVFEdge z node) (getVFCond s node))
      (fun t edge => some (P.propagateEdge z node (P.computeInvalidCondFromRemovedSUVFEdge z node)
        (getVFCond s node) t edge))
      { s with worklist := w } (P.outEdges node)

/-- No disjunction for the final condition does. -/
def SinksFit (s : SliceState Node V) : Prop :=
  FoldMeets (fun guard sink => z.OrFits guard (getVFCond s sink))
    (fun guard sink => some (z.OR guard (getVFCond s sink))) getFalseCond P.sinks

end

end

theorem invalidCond_iff {node : Node} (hfit : P.InvalidFits z node) (m : V → Bool) :
    (P.computeInvalidCondFromRemovedSUVFEdge z node).eval m ↔ P.Invalid node m := by
  have hloop := foldl_meets (f := P.addInvalid z node)
    (I := fun l (c : Z3Expr V) => (c.eval m ∨ ∃ succ ∈ l, P.nodeBB succ ∉ P.validOutBBs node ∧
        (P.ComputeIntraVFGGuard node (P.nodeBB node) (P.nodeBB succ)).eval m) ↔
      P.Invalid node m) ?_ (P.removedSUVFEdges node) getFalseCond ?_ hfit
  · rw [computeInvalidCondFromRemovedSUVFEdge, ← hloop]
    simp
  · intro succ l c hI hfits
    rw [← hI, addInvalid]
    by_cases hin : P.nodeBB succ ∈ P.validOutBBs node
    · rw [if_pos hin]
      simp [hin]
    · rw [if_neg hin, eval_OR (hfits hin), Bool.or_eq_true]
      simp only [mem_cons, exists_eq_or_imp, hin, not_false_eq_true, true_and]
      tauto
  · simp [Invalid, getFalseCond, eval]

/-- What is stored is the disjunction over some paths, and a node that is done had no cut. -/
structure Exact (P : ProgSlice Node BB V) (z : Z3Context V) (s : SliceState Node V) : Prop where
  sound : ∀ n m, (getVFCond s n).eval m = true → P.AllPaths n m
  fits : ∀ n, n ∉ s.worklist.den → (∀ m, (getVFCond s n).eval m = false) ∨ P.InvalidFits z n

theorem exact_start : Exact P z P.start := by
  constructor
  case sound =>
    intro n m hm
    rw [getVFCond_start] at hm
    by_cases hn : n = P.root
    · exact hn ▸ AllPaths.source m
    · rw [if_neg hn] at hm
      cases hm
  case fits =>
    intro n hn
    left
    intro m
    have hne : n ≠ P.root := by
      rintro rfl
      refine hn ?_
      show _ ∈ (FIFOWorkList.empty.push P.root).2.den
      rw [FIFOWorkList.den_singleton]
      exact Set.mem_singleton _
    rw [getVFCond_start, if_neg hne]
    rfl

theorem propagateEdge_sound {node : Node} {cond : Z3Expr V} {s : SliceState Node V}
    {edge : SVFGEdge Node BB} (hinv : P.InvalidFits z node)
    (hfit : P.EdgeFits z node (P.computeInvalidCondFromRemovedSUVFEdge z node) cond s edge)
    (he : edge ∈ P.outEdges node) (hcond : ∀ m, cond.eval m → P.AllPaths node m)
    (hs : ∀ n m, (getVFCond s n).eval m → P.AllPaths n m) (n : Node) (m : V → Bool)
    (hm : (getVFCond (P.propagateEdge z node (P.computeInvalidCondFromRemovedSUVFEdge z node)
      cond s edge) n).eval m) : P.AllPaths n m := by
  rw [propagateEdge] at hm
  by_cases hin : edge.dstNode ∈ P.backwardslice
  · obtain ⟨hneg, hand, hor⟩ := hfit hin
    rw [if_pos hin] at hm
    dsimp only at hm
    -- the condition that is set is true where there is a path
    have hset : ∀ m, (z.OR (getVFCond s edge.dstNode) (z.AND cond (z.AND (P.edgeGuard node edge)
        (z.NEG (P.computeInvalidCondFromRemovedSUVFEdge z node))))).eval m →
        P.AllPaths edge.dstNode m := by
      intro m hm
      rw [eval_OR hor, eval_AND hand, eval_AND hneg, eval_NEG, Bool.or_eq_true, Bool.and_eq_true,
        Bool.and_eq_true, Bool.not_eq_true', ← Bool.not_eq_true, invalidCond_iff hinv] at hm
      rcases hm with hold | ⟨hc, hg, hi⟩
      · exact hs _ m hold
      · exact (hcond m hc).step he hin ⟨hg, hi⟩
    have hweaker : ∀ m, (getVFCond s edge.dstNode).eval m →
        (z.OR (getVFCond s edge.dstNode) (z.AND cond (z.AND (P.edgeGuard node edge)
          (z.NEG (P.computeInvalidCondFromRemovedSUVFEdge z node))))).eval m :=
      fun m hm => OR_of_eval (.inl hm)
    obtain ⟨hget, hkept, hchanged⟩ := setVFCond_spec s edge.dstNode _ hweaker
    generalize setVFCond s edge.dstNode _ = r at *
    obtain ⟨changed, t⟩ := r
    cases changed with
    | false =>
      obtain rfl := hkept rfl
      exact hs n m hm
    | true =>
      obtain ⟨-, hrest, -⟩ := hchanged rfl
      have hm : ((t.svfgNodeToCondMap n).getD getFalseCond).eval m := hm
      by_cases hn : n = edge.dstNode
      · subst hn
        exact hset m ((hget m).symm.trans hm)
      · rw [hrest n hn] at hm
        exact hs n m hm
  · rw [if_neg hin] at hm
    exact hs n m hm

/-- **Step lemma**: without a cut, what is stored stays exact. -/
theorem solveBody_exact {s s' : SliceState Node V} (h : Exact P z s) (hfit : P.StepFits z s)
    (hs : P.solveBody z s = some s') : Exact P z s' := by
  obtain ⟨⟨node, w⟩, hpop, rfl⟩ := map_eq_some_iff.mp hs
  obtain ⟨hinv, hedges⟩ := hfit node w hpop
  obtain ⟨-, hden⟩ := FIFOWorkList.pop_some hpop
  obtain ⟨hpassed, -⟩ := visitEdges_spec (P := P) (z := z) node
    (P.computeInvalidCondFromRemovedSUVFEdge z node) (getVFCond s node) (P.outEdges node)
    { s with worklist := w }
  constructor
  case sound =>
    refine (foldl_meets (I := fun l t => (∀ edge ∈ l, edge ∈ P.outEdges node) ∧
      ∀ n m, (getVFCond t n).eval m → P.AllPaths n m) ?_ (P.outEdges node)
      { s with worklist := w } ⟨fun _ he => he, h.sound⟩ hedges).2
    rintro edge l t ⟨hl, ht⟩ hfits
    exact ⟨(forall_mem_cons.mp hl).2,
      fun n m hm => propagateEdge_sound hinv hfits (hl edge mem_cons_self) (h.sound node) ht n m hm⟩
  case fits =>
    intro n hn
    have hsame : getVFCond (P.visitNode z { s with worklist := w } node) n = getVFCond s n :=
      hpassed.same n hn
    rw [hsame]
    by_cases heq : n = node
    · exact .inr (heq ▸ hinv)
    · refine h.fits n fun hw => hn (hpassed.waits ?_)
      show n ∈ w.den
      rw [hden]
      exact ⟨hw, heq⟩

/-- **Run lemma.** -/
theorem Reached.exact (hfit : ∀ s, Reached P z s → P.StepFits z s) {s : SliceState Node V}
    (h : Reached P z s) : Exact P z s := by
  induction h with
  | start => exact exact_start
  | step h hs ih => exact solveBody_exact ih (hfit _ h) hs

theorem finalCond_iff {s : SliceState Node V} (hfit : P.SinksFit z s) (m : V → Bool) :
    (P.finalCond z s).eval m ↔ ∃ sink ∈ P.sinks, (getVFCond s sink).eval m := by
  have hloop := foldl_meets (f := fun guard sink => z.OR guard (getVFCond s sink))
    (I := fun l (c : Z3Expr V) => (c.eval m ∨ ∃ sink ∈ l,
      (getVFCond s sink).eval m) ↔ ∃ sink ∈ P.sinks, (getVFCond s sink).eval m)
    ?_ P.sinks getFalseCond ?_ hfit
  · rw [finalCond, ← hloop]
    simp
  · intro sink l c hI hfits
    rw [← hI, eval_OR hfits, Bool.or_eq_true]
    simp only [mem_cons, exists_eq_or_imp]
    tauto
  · simp [getFalseCond, eval]

theorem solve_total (P : ProgSlice Node BB V) (z : Z3Context V) :
    ∃ s, Stops (fun fuel => whileM (fun s => !s.worklist.isEmpty) (P.solveBody z) fuel P.start) s ∧
      Inv P z s ∧ Reached P z s ∧ ∀ n, n ∉ s.worklist.den := by
  have hbody : ∀ s : SliceState Node V, Inv P z s ∧ Reached P z s →
      (!s.worklist.isEmpty) → ∃ s', P.solveBody z s = some s' ∧
        (Inv P z s' ∧ Reached P z s') ∧ measure P s' < measure P s := by
    rintro s ⟨hinv, hreached⟩ hc
    obtain ⟨s', hs', hinv', hlt⟩ := solveBody_spec hinv hc
    exact ⟨s', hs', ⟨hinv', hreached.step hs'⟩, hlt⟩
  obtain ⟨s, hstops, ⟨hinv, hreached⟩, hcond⟩ := whileM_total hbody ⟨inv_start, .start⟩
  refine ⟨s, hstops, hinv, hreached, fun n => ?_⟩
  rw [FIFOWorkList.den_of_isEmpty (Bool.not_eq_false' _ ▸ hcond)]
  exact Set.notMem_empty n

/-- **The path conditions are the least solution.** The solver stops for every slice. If no
    operation builds an expression that is too large, what it has stored for a node is the
    disjunction over all paths from the source, and it answers whether the disjunction over the
    sinks is a tautology. -/
theorem AllPathReachableSolve_least (P : ProgSlice Node BB V) (z : Z3Context V) :
    ∃ verdict s, Stops (P.AllPathReachableSolve z) (verdict, s) ∧
      ((∀ t, Reached P z t → P.StepFits z t) →
        (∀ n m, (getVFCond s n).eval m = true ↔ P.AllPaths n m) ∧
        (P.SinksFit z s → (verdict = true ↔ ∀ m, ∃ sink ∈ P.sinks, P.AllPaths sink m))) := by
  obtain ⟨s, hstops, hinv, hreached, hdone⟩ := solve_total P z
  refine ⟨_, s, hstops.map fun s => (P.isSatisfiableForAll z s, s), fun hfit => ?_⟩
  have hexact := hreached.exact hfit
  have hstored : ∀ n m, (getVFCond s n).eval m ↔ P.AllPaths n m := by
    intro n m
    constructor
    · exact hexact.sound n m
    · refine AllPaths.ind (R := fun n => (getVFCond s n).eval m) (hinv.root m) ?_
      rintro k edge hk he hs ⟨hguard, hvalid⟩
      refine hinv.passed k (hdone k) edge he hs m hk hguard ?_
      rcases hexact.fits k (hdone k) with hfalse | hfits
      · cases (hfalse m).symm.trans hk
      · rw [← Bool.not_eq_true, invalidCond_iff hfits]
        exact hvalid
  refine ⟨hstored, fun hsinks => ?_⟩
  rw [isSatisfiableForAll, isEquivalentBranchCond_iff]
  have hfinal : ∀ m, (P.finalCond z s).eval m = getTrueCond.eval m ↔
      ∃ sink ∈ P.sinks, P.AllPaths sink m := by
    intro m
    refine (finalCond_iff hsinks m).trans ?_
    simp only [hstored]
  exact forall_congr' hfinal

end ProgSlice

end Solver

-- ── A run without a cut, and one with

/-- Two nodes on a cycle, entered under the one branch variable. -/
def cycle : ProgSlice ℕ ℕ Unit where
  root := 0
  backwardslice := {0, 1}
  sinks := [1]
  outEdges node := [⟨1 - node, .intra⟩]
  nodeBB node := some node
  removedSUVFEdges _ := []
  ComputeIntraVFGGuard node _ _ := if node = 0 then .boolConst () else getTrueCond
  ComputeInterCallVFGGuard _ _ _ _ := getTrueCond
  ComputeInterRetVFGGuard _ _ _ _ := getTrueCond

theorem not_tooLarge_oneVar (e : Z3Expr Unit) :
    oneVarContext.tooLarge (oneVarContext.simplify e) = false := by
  refine decide_eq_false (Nat.not_lt.mpr ?_)
  exact (getExprSize_normalOne e).trans (by decide)

/-- The theorem at a cycle: with one branch variable no expression is too large. -/
theorem least_cycle : ∃ verdict s, Stops (cycle.AllPathReachableSolve oneVarContext) (verdict, s) ∧
      (∀ n m, (getVFCond s n).eval m = true ↔ cycle.AllPaths n m) ∧
      (verdict = true ↔ ∀ m, ∃ sink ∈ cycle.sinks, cycle.AllPaths sink m) := by
  have hand : ∀ lhs rhs, oneVarContext.AndFits lhs rhs := fun lhs rhs =>
    .inr (.inr (.inr (.inr (not_tooLarge_oneVar _))))
  have hor : ∀ lhs rhs, oneVarContext.OrFits lhs rhs := fun lhs rhs =>
    .inr (.inr (.inr (.inr (not_tooLarge_oneVar _))))
  obtain ⟨verdict, s, hstops, hleast⟩ := ProgSlice.AllPathReachableSolve_least cycle oneVarContext
  obtain ⟨hstored, hverdict⟩ := hleast fun t _ node w _ =>
    ⟨foldMeets_of_forall (fun _ _ _ => hor _ _) _ _,
      foldMeets_of_forall (fun _ _ _ => ⟨hand _ _, hand _ _, hor _ _⟩) _ _⟩
  exact ⟨verdict, s, hstops, hstored, hverdict (foldMeets_of_forall (fun _ _ => hor _ _) _ _)⟩

/-- From node 0 to node 2, at once under one branch variable and by node 1 under another. -/
def diamond : ProgSlice ℕ ℕ Bool where
  root := 0
  backwardslice := {0, 1, 2}
  sinks := [2]
  outEdges node :=
    match node with
    | 0 => [⟨1, .intra⟩, ⟨2, .intra⟩]
    | 1 => [⟨2, .intra⟩]
    | _ => []
  nodeBB node := some node
  removedSUVFEdges _ := []
  ComputeIntraVFGGuard node _ dst :=
    match node, dst with
    | 0, some 1 => .boolConst true
    | 0, _ => .boolConst false
    | _, _ => getTrueCond
  ComputeInterCallVFGGuard _ _ _ _ := getTrueCond
  ComputeInterRetVFGGuard _ _ _ _ := getTrueCond

/-- **A cut.** With `max-z3-size` 2 the disjunction of the two variables becomes true: the sink is
    taken to be reached on all paths, and on none of them if both variables are false. -/
theorem diamond_cut : ∃ s, Stops (diamond.AllPathReachableSolve (constContext Bool 2)) (true, s) ∧
      (getVFCond s 2).eval (fun _ => false) = true ∧
      ¬ diamond.AllPaths 2 fun _ => false := by
  have hrun : ((diamond.AllPathReachableSolve (constContext Bool 2) 5).map fun r =>
      (r.1, getVFCond r.2 2)) = some (true, getTrueCond) := by decide
  obtain ⟨⟨verdict, s⟩, hr, hs⟩ := map_eq_some_iff.mp hrun
  obtain ⟨rfl, hcond⟩ := Prod.mk.inj hs
  refine ⟨s, ?_, ?_, fun hpath => ?_⟩
  · obtain ⟨t, ht, hres⟩ := map_eq_some_iff.mp hr
    rw [← hres]
    exact (stops_of_whileM ht).map _
  · rw [hcond]
    rfl
  · -- no edge leaves the source
    have hroot : (2 : ℕ) = 0 := by
      refine ProgSlice.AllPaths.ind (R := fun n => n = 0) rfl ?_ hpath
      rintro n edge rfl he - ⟨hguard, -⟩
      rcases mem_cons.mp he with rfl | he
      · cases hguard
      · rw [mem_singleton.mp he] at hguard
        cases hguard
    cases hroot

end SvfSaber
