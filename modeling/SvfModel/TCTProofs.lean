import SvfModel.ThreadCallGraphProofs

/-!
# `TCT`: the thread creation tree

Threads are identified by a fork site and a calling context. `build` walks the call graph from
the entry functions with triples (thread, context, function); at a fork it finds or makes the
node of the spawned thread and hangs it under the spawner, and at the end a breadth-first walk
from node 0 marks the threads that may have several instances.

A context is extended only by a call that leaves a component of the call graph, and components
are never entered again (**`CxtOf`**): so the callers in a context are distinct, contexts are
finitely many, and the walk stops. The route: `CxtOf.nodup`; the invariant `Inv` of the walk
with `handleCallRelation_spec` (one call site) and `processCTP_spec` (one triple);
`collect_total` for the marking. The one place where a node could get a second parent is a fork
with several callees, and `Inv.parent_of_new` says why it does not.
-/

namespace SvfTCT

open SvfScc SvfLoop SvfWorkList SvfSCCDetection SvfThreadCallGraph List Option Nat
open Function (update update_of_ne update_self)
open Relation (ReflTransGen)
open Finset (card_insert_of_notMem mem_insert mem_insert_of_mem mem_insert_self notMem_empty)

abbrev CallSiteID (N I : Type) := I × N

abbrev CallStrCxt (N I : Type) := List (CallSiteID N I)

/-- A context-sensitive thread; the fork site of the main thread is `nullptr`. -/
structure CxtThread (N I : Type) where
  cxt : CallStrCxt N I
  forksite : Option I
deriving DecidableEq

/-- A thread, a context and a function. -/
structure CxtThreadProc (N I : Type) where
  tid : ℕ
  cxt : CallStrCxt N I
  proc : N
deriving DecidableEq

/-- A node of the tree; its number is its place in the list of nodes. -/
structure TCTNode (N I : Type) where
  ctx : CxtThread N I
  inloop : Bool
  incycle : Bool
  multiforked : Bool

/-- The tree with its maps and the worklist of the walk. -/
structure TCT (N I : Type) [DecidableEq N] [DecidableEq I] where
  nodes : List (TCTNode N I)
  edges : List (ℕ × ℕ)
  ctpToNodeMap : CxtThread N I → Option ℕ
  ctToForkCxtMap : CxtThread N I → Option (CallStrCxt N I)
  ctToRoutineFunMap : CxtThread N I → Option N
  ctpList : FIFOWorkList (CxtThreadProc N I)
  visitedCTPs : Finset (CxtThreadProc N I)
  inRecurJoinSites : Finset I

variable {N I : Type} [DecidableEq N] [DecidableEq I]

namespace TCT

/-- Before the walk of `build()`. -/
def init (inRecurJoinSites : Finset I) : TCT N I where
  nodes := []
  edges := []
  ctpToNodeMap := fun _ => none
  ctToForkCxtMap := fun _ => none
  ctToRoutineFunMap := fun _ => none
  ctpList := FIFOWorkList.empty
  visitedCTPs := ∅
  inRecurJoinSites := inRecurJoinSites

def addTCTNode (s : TCT N I) (ct : CxtThread N I) (inloop incycle : Bool) : Option (ℕ × TCT N I) :=
  if s.ctpToNodeMap ct = none then
    let id := s.nodes.length
    some (id, { s with
      nodes := s.nodes ++ [⟨ct, inloop, incycle, false⟩]
      ctpToNodeMap := update s.ctpToNodeMap ct (some id) })
  else none

def addTCTEdge (s : TCT N I) (src dst : ℕ) : TCT N I :=
  if (src, dst) ∈ s.edges then s else { s with edges := s.edges ++ [(src, dst)] }

def pushToCTPWorkList (s : TCT N I) (ctp : CxtThreadProc N I) : Bool × TCT N I :=
  if ctp ∈ s.visitedCTPs then (false, s)
  else
    let (pushed, ctpList) := s.ctpList.push ctp
    (pushed, { s with visitedCTPs := insert ctp s.visitedCTPs, ctpList := ctpList })

section Build

variable (G : ThreadCallGraph N I) (tcgSCC : SCCDetection N) (candidateFuncSet : Finset N)

def inSameCallGraphSCC (src dst : N) : Bool := decide (tcgSCC.repNode src = tcgSCC.repNode dst)

def pushCxt (cxt : CallStrCxt N I) (call : I) (callee : N) : CallStrCxt N I :=
  let caller := G.getFunction call
  if caller ∉ candidateFuncSet then cxt
  else if inSameCallGraphSCC tcgSCC caller callee = false then cxt ++ [(call, callee)]
  else cxt

def matchCxt (cxt : CallStrCxt N I) (call : I) (callee : N) : Option (CallStrCxt N I) :=
  let caller := G.getFunction call
  if caller ∉ candidateFuncSet then some cxt
  else if cxt = [] then some cxt -- partial match
  else if inSameCallGraphSCC tcgSCC caller callee = false then
    if cxt.getLast? = some (call, callee) then some cxt.dropLast else none
  else some cxt

/-- `setMultiForkedAttrs(ct)`: whether the fork site is in a loop and in recursion; neither
    for the main thread. -/
def setMultiForkedAttrs (fuel : Nat) : Option I → Option (Bool × Bool)
  | none => some (false, false)
  | some svfInst =>
    (G.isInLoopInstruction svfInst fuel).bind fun inloop =>
      (G.isInRecursion tcgSCC svfInst fuel).map fun incycle => (inloop, incycle)

section

variable (attrs : Option I → Option (Bool × Bool))

def getOrCreateTCTNode (s : TCT N I)
    (cxt : CallStrCxt N I) (fork : Option I) (oldCxt : CallStrCxt N I) (routine : N) :
    Option (ℕ × TCT N I) :=
  let ct : CxtThread N I := ⟨cxt, fork⟩
  match s.ctpToNodeMap ct with
  | some id => some (id, s)
  | none =>
    let s := { s with
      ctToForkCxtMap := update s.ctToForkCxtMap ct (some oldCxt)
      ctToRoutineFunMap := update s.ctToRoutineFunMap ct (some routine) }
    (attrs fork).bind fun (inloop, incycle) => s.addTCTNode ct inloop incycle

def handleCallRelation (ctp : CxtThreadProc N I)
    (cgEdge : PTACallGraphEdge N I) (s : TCT N I) (cs : I) : Option (TCT N I) :=
  let callee := cgEdge.dstID
  let oldCxt := ctp.cxt
  let cxt := pushCxt G tcgSCC candidateFuncSet oldCxt cs callee
  match cgEdge.edgeKind with
  | .CallRetEdge => some (s.pushToCTPWorkList ⟨ctp.tid, cxt, callee⟩).2
  | .TDForkEdge =>
    (getOrCreateTCTNode attrs s cxt (some cs) oldCxt callee).map fun (spawnee, s) =>
      let (pushed, s) := s.pushToCTPWorkList ⟨spawnee, cxt, callee⟩
      if pushed then s.addTCTEdge ctp.tid spawnee else s
  | _ => some s

/-- One iteration of the loop of `build()`. -/
def processCTP (s : TCT N I) : Option (TCT N I) :=
  match s.ctpList.pop with
  | none => none
  | some (ctp, ctpList) =>
    let s := { s with ctpList := ctpList }
    if ctp.proc ∉ candidateFuncSet then some s
    else
      (G.outEdges ctp.proc).foldlM
        (fun s cgEdge =>
          (cgEdge.directCalls.foldlM
            (handleCallRelation G tcgSCC candidateFuncSet attrs ctp cgEdge) s).bind
            (cgEdge.indirectCalls.foldlM
              (handleCallRelation G tcgSCC candidateFuncSet attrs ctp cgEdge))) s

/-- The loop of `build()` over the entry functions. -/
def pushEntry (s : TCT N I) (entry : N) : Option (TCT N I) :=
  if entry ∉ candidateFuncSet then some s
  else
    (getOrCreateTCTNode attrs s [] none [] entry).map fun (main, s) =>
      (s.pushToCTPWorkList ⟨main, [], entry⟩).2

end

def isMultiforked (nodes : List (TCTNode N I)) (id : ℕ) : Bool :=
  (nodes[id]?.map (·.multiforked)).getD false

def setMultiforked (nodes : List (TCTNode N I)) (id : ℕ) : List (TCTNode N I) :=
  nodes.modify id fun node => { node with multiforked := true }

def multiForkStep (edges : List (ℕ × ℕ)) (s : FIFOWorkList ℕ × List (TCTNode N I)) :
    Option (FIFOWorkList ℕ × List (TCTNode N I)) :=
  match s.1.pop with
  | none => none
  | some (id, worklist) =>
    (s.2[id]?).map fun node =>
      let nodes :=
        if node.incycle || node.inloop then setMultiforked s.2 id
        else (edges.filter fun e => e.2 = id).foldl
          (fun nodes e => if isMultiforked nodes e.1 then setMultiforked nodes id else nodes) s.2
      ((edges.filter fun e => e.1 = id).foldl (fun w e => (w.push e.2).2) worklist, nodes)

def collectMultiForkedThreads (s : TCT N I) (fuel : Nat) : Option (TCT N I) :=
  if s.nodes.length = 0 then some s
  else
    (whileM (fun s : FIFOWorkList ℕ × List (TCTNode N I) => !s.1.isEmpty)
      (multiForkStep s.edges) fuel ((FIFOWorkList.empty.push 0).2, s.nodes)).map fun r =>
        { s with nodes := r.2 }

def collectLoopInfoForJoin (fuel : Nat) : Option (Finset I) :=
  G.joinsites.foldlM
    (fun sites join => (G.isInRecursion tcgSCC join fuel).map fun inRecursion =>
      if inRecursion then insert join sites else sites) ∅

def walk (attrs : Option I → Option (Bool × Bool)) (s : TCT N I) (fuel : Nat) : Option (TCT N I) :=
  (G.collectEntryFunInCallGraph.foldlM (pushEntry candidateFuncSet attrs) s).bind
    (whileM (fun s => !s.ctpList.isEmpty) (processCTP G tcgSCC candidateFuncSet attrs) fuel)

end Build

/-- `build()`, after the component search of the constructor. -/
def build (G : ThreadCallGraph N I) (fuel : Nat) : Option (TCT N I) :=
  (SCCDetection.find G.scc fuel).bind fun tcgSCC =>
    (G.markRelProcs fuel).bind fun candidateFuncSet =>
      (collectLoopInfoForJoin G tcgSCC fuel).bind fun inRecurJoinSites =>
        (walk G tcgSCC candidateFuncSet (setMultiForkedAttrs G tcgSCC fuel)
          (init inRecurJoinSites) fuel).bind fun s => s.collectMultiForkedThreads fuel

-- ── Contexts

variable (G : ThreadCallGraph N I) (tcgSCC : SCCDetection N) (candidateFuncSet : Finset N)

/-- A context in which `x` is reached: it is extended by calls that leave a component, and
    between them the call graph is walked. -/
inductive CxtOf : CallStrCxt N I → N → Prop
  | nil (x : N) : CxtOf [] x
  | snoc {cxt : CallStrCxt N I} {cs : I} {h x : N} (hcxt : CxtOf cxt (G.getFunction cs))
      (hcall : cs ∈ G.callSites h) (hleave : ¬ Mutual G.Edge (G.getFunction cs) h)
      (hreach : Reach G.Edge h x) : CxtOf (cxt ++ [(cs, h)]) x

variable {G}

variable {cxt : CallStrCxt N I} {x : N} {cs : I} {s : TCT N I} {p : CxtThreadProc N I}
  {e : PTACallGraphEdge N I} {b : ℕ} {attrs : ℕ → Option I → Option (Bool × Bool)}

section

omit [DecidableEq I]

theorem CxtOf.reach {x y : N} (h : CxtOf G cxt x) (hxy : Reach G.Edge x y) : CxtOf G cxt y := by
  cases h with
  | nil => exact .nil y
  | snoc hcxt hcall hleave hreach => exact .snoc hcxt hcall hleave (hreach.trans hxy)

theorem CxtOf.left (h : CxtOf G cxt x) : ∀ p ∈ cxt, ¬ Reach G.Edge x (G.getFunction p.1) := by
  induction h with
  | nil => exact nofun
  | @snoc cxt cs h x hcxt hcall hleave hreach ih =>
    have hedge : Reach G.Edge (G.getFunction cs) h := .single (G.edge_of_callSite hcall)
    intro p hp hback
    rcases mem_append.mp hp with hp | hp
    · exact ih p hp ((hedge.trans hreach).trans hback)
    · rw [mem_singleton] at hp
      subst hp
      exact hleave ⟨hedge, hreach.trans hback⟩

/-- **The callers in a context are distinct.** -/
theorem CxtOf.nodup (h : CxtOf G cxt x) : (cxt.map fun p => G.getFunction p.1).Nodup := by
  induction h with
  | nil => exact nodup_nil
  | @snoc cxt cs h x hcxt hcall hleave hreach ih =>
    rw [map_append, map_singleton]
    refine nodup_append.mpr ⟨ih, nodup_singleton _, ?_⟩
    intro f hf g hg heq
    rw [mem_singleton] at hg
    obtain ⟨p, hp, rfl⟩ := mem_map.mp hf
    exact hcxt.left p hp (by rw [heq, hg])

end

variable {tcgSCC candidateFuncSet}

section

omit [DecidableEq I]

section

variable (hscc : SCCDetection.Components G.scc tcgSCC)
include hscc

/-- What `pushCxt` does at a call site of a candidate. -/
theorem pushCxt_of_mem (cxt : CallStrCxt N I)
    {call : I} (callee : N) (hcand : G.getFunction call ∈ candidateFuncSet) :
    (Mutual G.Edge (G.getFunction call) callee ∧
      pushCxt G tcgSCC candidateFuncSet cxt call callee = cxt) ∨
    (¬ Mutual G.Edge (G.getFunction call) callee ∧
      pushCxt G tcgSCC candidateFuncSet cxt call callee = cxt ++ [(call, callee)]) := by
  have hsame : inSameCallGraphSCC tcgSCC (G.getFunction call) callee ↔
      Mutual G.Edge (G.getFunction call) callee := by
    rw [inSameCallGraphSCC, decide_eq_true_eq]
    exact hscc.same_rep _ _
  simp only [pushCxt, if_neg (not_not_intro hcand)]
  by_cases hm : Mutual G.Edge (G.getFunction call) callee
  · exact .inl ⟨hm, if_neg (by rw [hsame.mpr hm]; decide)⟩
  · exact .inr ⟨hm, if_pos (by simpa using mt hsame.mp hm)⟩

theorem CxtOf.push {h : N}
    (hcxt : CxtOf G cxt (G.getFunction cs)) (hcall : cs ∈ G.callSites h)
    (hcand : G.getFunction cs ∈ candidateFuncSet) :
    CxtOf G (pushCxt G tcgSCC candidateFuncSet cxt cs h) h := by
  rcases pushCxt_of_mem hscc cxt h hcand with ⟨-, heq⟩ | ⟨hleave, heq⟩
  · rw [heq]
    exact hcxt.reach (.single (G.edge_of_callSite hcall))
  · rw [heq]
    exact .snoc hcxt hcall hleave .refl

/-- Two calls at one call site that lead to one context start from one context, and either
    stay in the component or have one callee. -/
theorem pushCxt_inj {c c' : CallStrCxt N I} {h h' : N}
    (hc : CxtOf G c (G.getFunction cs)) (hc' : CxtOf G c' (G.getFunction cs))
    (hcand : G.getFunction cs ∈ candidateFuncSet) (heq : pushCxt G tcgSCC candidateFuncSet c cs h =
      pushCxt G tcgSCC candidateFuncSet c' cs h') :
    c = c' ∧ ((Mutual G.Edge (G.getFunction cs) h ∧ Mutual G.Edge (G.getFunction cs) h') ∨
      h = h') := by
  -- a context at the fork site does not have the fork site itself in it
  have hnot : ∀ {d : CallStrCxt N I} {g : N}, CxtOf G d (G.getFunction cs) → (cs, g) ∉ d :=
    fun hd hm => hd.left _ hm .refl
  rcases pushCxt_of_mem hscc c h hcand with ⟨hm, he⟩ | ⟨hm, he⟩ <;>
    rcases pushCxt_of_mem hscc c' h' hcand with ⟨hm', he'⟩ | ⟨hm', he'⟩
  · rw [he, he'] at heq
    exact ⟨heq, .inl ⟨hm, hm'⟩⟩
  · rw [he, he'] at heq
    exact absurd (heq ▸ mem_append_right _ mem_cons_self) (hnot hc)
  · rw [he, he'] at heq
    exact absurd (heq ▸ mem_append_right _ mem_cons_self) (hnot hc')
  · rw [he, he'] at heq
    obtain ⟨hcc, hlast⟩ := append_inj' heq rfl
    exact ⟨hcc, .inr (Prod.mk.inj (List.cons.inj hlast).1).2⟩

end

end

-- ── The walk: what one operation does

/-- What has been found stays, what has been popped stays popped, and what has newly been
    visited has been queued. -/
structure Grows (s s' : TCT N I) : Prop where
  visited : s.visitedCTPs ⊆ s'.visitedCTPs
  map : ∀ ct b, s.ctpToNodeMap ct = some b → s'.ctpToNodeMap ct = some b
  popped : ∀ p ∈ s.visitedCTPs, p ∉ s.ctpList.den → p ∉ s'.ctpList.den
  balance : s'.visitedCTPs.card + s.ctpList.dataList.length =
    s.visitedCTPs.card + s'.ctpList.dataList.length

theorem Grows.refl (s : TCT N I) : Grows s s := ⟨subset_rfl, fun _ _ h => h, fun _ _ h => h, rfl⟩

theorem Grows.trans {s t u : TCT N I} (h : Grows s t) (h' : Grows t u) : Grows s u :=
  ⟨h.visited.trans h'.visited, fun ct b hb => h'.map ct b (h.map ct b hb),
    fun p hp hn => h'.popped p (h.visited hp) (h.popped p hp hn), by
      have := h.balance
      have := h'.balance
      omega⟩

theorem pushToCTPWorkList_new {q : CxtThreadProc N I}
    (hqueue : s.ctpList.den ⊆ {p | p ∈ s.visitedCTPs}) (hq : q ∉ s.visitedCTPs) :
    s.pushToCTPWorkList q =
      (true, { s with visitedCTPs := insert q s.visitedCTPs, ctpList := (s.ctpList.push q).2 }) ∧
    (s.ctpList.push q).2.den = insert q s.ctpList.den ∧
    (s.ctpList.push q).2.dataList.length = s.ctpList.dataList.length + 1 := by
  have hnot : q ∉ s.ctpList.dataList := fun hm => hq (hqueue hm)
  have hfind : ¬ s.ctpList.find q := fun hf => hnot ((s.ctpList.agree q).mp (of_decide_eq_true hf))
  refine ⟨?_, FIFOWorkList.den_push _ _, ?_⟩
  · rw [pushToCTPWorkList, if_neg hq]
    have hfst : (s.ctpList.push q).1 := by rw [FIFOWorkList.push, dif_neg hfind]
    rw [← hfst]
  · rw [FIFOWorkList.dataList_push hnot, length_append, length_singleton]

-- ── The invariant of the walk

variable (G tcgSCC candidateFuncSet)

/-- The context that a call of a triple leads to. -/
abbrev calleeCxt (p : CxtThreadProc N I) (cs : I) (h : N) : CallStrCxt N I :=
  pushCxt G tcgSCC candidateFuncSet p.cxt cs h

structure Walked (s : TCT N I) (c : CallStrCxt N I) (x : N) : Prop where
  cxtOf : CxtOf G c x
  prefixes : ∀ c' cs h z, c = c' ++ (cs, h) :: z → ∃ t, ⟨t, c', G.getFunction cs⟩ ∈ s.visitedCTPs
  root : c = [] → G.hasIncomingEdge x = false ∧ x ∈ candidateFuncSet

/-- A call of a triple has been followed. -/
structure Done (s : TCT N I) (p : CxtThreadProc N I) (e : PTACallGraphEdge N I) (cs : I) :
    Prop where
  call : e.edgeKind = .CallRetEdge →
    ⟨p.tid, calleeCxt G tcgSCC candidateFuncSet p cs e.dstID, e.dstID⟩ ∈ s.visitedCTPs
  fork : e.edgeKind = .TDForkEdge → ∃ b,
    s.ctpToNodeMap ⟨calleeCxt G tcgSCC candidateFuncSet p cs e.dstID, some cs⟩ = some b ∧
    ⟨b, calleeCxt G tcgSCC candidateFuncSet p cs e.dstID, e.dstID⟩ ∈ s.visitedCTPs

/-- All calls of a triple have been followed. -/
def Handled (s : TCT N I) (p : CxtThreadProc N I) : Prop :=
  p.proc ∈ candidateFuncSet → ∀ e ∈ G.outEdges p.proc, ∀ cs ∈ e.calls,
    Done G tcgSCC candidateFuncSet s p e cs

def Forks (s : TCT N I) (p : CxtThreadProc N I) (b : ℕ) : Prop :=
  p.proc ∈ candidateFuncSet ∧ ∃ e ∈ G.outEdges p.proc, e.edgeKind = .TDForkEdge ∧
    ∃ cs ∈ e.calls,
      s.ctpToNodeMap ⟨calleeCxt G tcgSCC candidateFuncSet p cs e.dstID, some cs⟩ = some b

/-- The invariant of the walk; `cur` is the triple that is being handled. `attr` is what
    `setMultiForkedAttrs` answers. -/
structure Inv (attr : Option I → Bool × Bool) (cur : Option (CxtThreadProc N I))
    (s : TCT N I) : Prop where
  queue : s.ctpList.den ⊆ {p | p ∈ s.visitedCTPs}
  walked : ∀ p ∈ s.visitedCTPs, Walked G candidateFuncSet s p.cxt p.proc
  tid : ∀ p ∈ s.visitedCTPs, p.tid < s.nodes.length
  map_iff : ∀ ct b, s.ctpToNodeMap ct = some b ↔ ∃ node, s.nodes[b]? = some node ∧ node.ctx = ct
  attrs : ∀ (b : ℕ) (node : TCTNode N I), s.nodes[b]? = some node →
    (node.inloop, node.incycle) = attr node.ctx.forksite ∧ node.multiforked = false
  start : ∀ (b : ℕ) (node : TCTNode N I), s.nodes[b]? = some node → ∃ h, ⟨b, node.ctx.cxt, h⟩ ∈ s.visitedCTPs
  root : ∀ (b : ℕ) (node : TCTNode N I), s.nodes[b]? = some node → (node.ctx.forksite = none ↔ b = 0)
  rootCxt : ∀ (b : ℕ) (node : TCTNode N I), s.nodes[b]? = some node → node.ctx.forksite = none →
    node.ctx.cxt = []
  edge : ∀ a b, (a, b) ∈ s.edges → a < b ∧ b < s.nodes.length
  forker : ∀ a b, (a, b) ∈ s.edges → ∃ p ∈ s.visitedCTPs, p ∉ s.ctpList.den ∧ p.tid = a ∧
    Forks G tcgSCC candidateFuncSet s p b
  parent : ∀ b, 0 < b → b < s.nodes.length → ∃ a, (a, b) ∈ s.edges
  unique : ∀ a a' b, (a, b) ∈ s.edges → (a', b) ∈ s.edges → a = a'
  forkCxt : ∀ ct cxt, s.ctToForkCxtMap ct = some cxt → (ct.forksite = none → cxt = []) ∧
    ∀ i, ct.forksite = some i → ∃ t, ⟨t, cxt, G.getFunction i⟩ ∈ s.visitedCTPs
  routine : ∀ ct r, s.ctToRoutineFunMap ct = some r →
    ∃ b, s.ctpToNodeMap ct = some b ∧ ⟨b, ct.cxt, r⟩ ∈ s.visitedCTPs
  handled : ∀ p ∈ s.visitedCTPs, p ∉ s.ctpList.den → some p ≠ cur →
    Handled G tcgSCC candidateFuncSet s p

variable {G tcgSCC candidateFuncSet}

section

variable {s s' : TCT N I} (hg : Grows s s')
include hg

theorem Done.mono (h : Done G tcgSCC candidateFuncSet s p e cs) :
    Done G tcgSCC candidateFuncSet s' p e cs := by
  refine ⟨fun hk => hg.visited (h.call hk), fun hk => ?_⟩
  obtain ⟨b, hb, hv⟩ := h.fork hk
  exact ⟨b, hg.map _ b hb, hg.visited hv⟩

theorem Handled.mono (h : Handled G tcgSCC candidateFuncSet s p) :
    Handled G tcgSCC candidateFuncSet s' p :=
  fun hc e he cs hcs => (h hc e he cs hcs).mono hg

theorem Walked.mono {c : CallStrCxt N I} (h : Walked G candidateFuncSet s c x) :
    Walked G candidateFuncSet s' c x := by
  refine ⟨h.cxtOf, fun c' cs h' z heq => ?_, h.root⟩
  obtain ⟨t, ht⟩ := h.prefixes c' cs h' z heq
  exact ⟨t, hg.visited ht⟩

end

theorem Walked.callee (hscc : SCCDetection.Components G.scc tcgSCC)
    (h : Walked G candidateFuncSet s p.cxt p.proc) (hp : p ∈ s.visitedCTPs)
    (hcand : p.proc ∈ candidateFuncSet) {g : N} (hcaller : G.getFunction cs = p.proc)
    (hcall : cs ∈ G.callSites g) :
    Walked G candidateFuncSet s (calleeCxt G tcgSCC candidateFuncSet p cs g) g := by
  refine ⟨CxtOf.push hscc (hcaller.symm ▸ h.cxtOf) hcall (hcaller.symm ▸ hcand), ?_, ?_⟩
  · intro c' cs' h' z heq
    rcases pushCxt_of_mem hscc p.cxt g (hcaller.symm ▸ hcand) with ⟨-, hc⟩ | ⟨-, hc⟩
    · exact h.prefixes c' cs' h' z (hc.symm.trans heq)
    · rw [calleeCxt, hc] at heq
      -- the last call is the one at hand, the others are in the caller's context
      rcases eq_nil_or_concat z with rfl | ⟨z, q, rfl⟩
      · obtain ⟨hcc, hlast⟩ := append_inj' heq rfl
        obtain ⟨rfl, -⟩ := Prod.mk.inj (List.cons.inj hlast).1
        exact ⟨p.tid, hcc ▸ hcaller.symm ▸ hp⟩
      · rw [concat_eq_append, ← cons_append, ← append_assoc] at heq
        exact h.prefixes c' cs' h' z (append_inj' heq rfl).1
  · intro hnil
    rcases pushCxt_of_mem hscc p.cxt g (hcaller.symm ▸ hcand) with ⟨hm, hc⟩ | ⟨-, hc⟩
    · have hedge := G.edge_of_callSite hcall
      rw [hcaller] at hedge hm
      exact absurd hm (G.not_mutual_of_root (h.root (hc.symm.trans hnil)).1 hedge)
    · rw [calleeCxt, hc] at hnil
      exact absurd hnil (append_ne_nil_of_right_ne_nil _ (cons_ne_nil _ _))

theorem Forks.mono {s s' : TCT N I} (hg : Grows s s') (h : Forks G tcgSCC candidateFuncSet s p b)
    : Forks G tcgSCC candidateFuncSet s' p b := by
  obtain ⟨hc, e, he, hk, cs, hcs, hb⟩ := h
  exact ⟨hc, e, he, hk, cs, hcs, hg.map _ b hb⟩

variable {attr : Option I → Bool × Bool} {cur : Option (CxtThreadProc N I)}

section

variable (h : Inv G tcgSCC candidateFuncSet attr cur s)
include h

theorem Inv.fork_mem {node : TCTNode N I} {i : I}
    (hnode : s.nodes[b]? = some node) (hfork : node.ctx.forksite = some i)
    : G.getFunction i ∈ candidateFuncSet := by
  have hpos : 0 < b := by
    refine pos_of_ne_zero fun h0 => ?_
    have hnone := (h.root b node hnode).mpr h0
    rw [hfork] at hnone
    cases hnone
  obtain ⟨a, hab⟩ := h.parent b hpos (List.getElem?_eq_some_iff.mp hnode).1
  obtain ⟨p, -, -, -, hcand, e, he, -, cs, hcs, hb⟩ := h.forker a b hab
  obtain ⟨node', hnode', hctx⟩ := (h.map_iff _ b).mp hb
  obtain rfl : node = node' := mem_unique hnode hnode'
  rw [hctx] at hfork
  obtain rfl : cs = i := some.inj hfork
  obtain ⟨hmem, hsrc⟩ := mem_filter.mp he
  rw [G.calls_in e hmem cs hcs, of_decide_eq_true hsrc]
  exact hcand

theorem Inv.map_inj {ct ct' : CxtThread N I}
    (hb : s.ctpToNodeMap ct = some b) (hb' : s.ctpToNodeMap ct' = some b) : ct = ct' := by
  obtain ⟨node, hnode, rfl⟩ := (h.map_iff ct b).mp hb
  obtain ⟨node', hnode', rfl⟩ := (h.map_iff ct' b).mp hb'
  rw [mem_unique hnode hnode']

theorem Inv.map_lt {ct : CxtThread N I} (hb : s.ctpToNodeMap ct = some b) : b < s.nodes.length := by
  obtain ⟨node, hnode, -⟩ := (h.map_iff ct b).mp hb
  exact (List.getElem?_eq_some_iff.mp hnode).1

theorem Inv.push {q : CxtThreadProc N I}
    (hq : q ∉ s.visitedCTPs) (hcxt : Walked G candidateFuncSet s q.cxt q.proc)
    (htid : q.tid < s.nodes.length) :
    Inv G tcgSCC candidateFuncSet attr cur (s.pushToCTPWorkList q).2 ∧
      Grows s (s.pushToCTPWorkList q).2 := by
  obtain ⟨heq, hden, hlength⟩ := pushToCTPWorkList_new h.queue hq
  rw [heq]
  have hpopped : ∀ p ∈ s.visitedCTPs, p ∉ s.ctpList.den → p ∉ (s.ctpList.push q).2.den := by
    intro p hp hn
    rw [hden, Set.mem_insert_iff, not_or]
    exact ⟨fun he => hq (he ▸ hp), hn⟩
  have hg : Grows s { s with visitedCTPs := insert q s.visitedCTPs, ctpList := (s.ctpList.push q).2 } :=
    ⟨Finset.subset_insert _ _, fun _ _ hb => hb, hpopped, by
      rw [card_insert_of_notMem hq, hlength]
      omega⟩
  have hold : ∀ p ∈ insert q s.visitedCTPs, p ∉ (s.ctpList.push q).2.den →
      p ∈ s.visitedCTPs ∧ p ∉ s.ctpList.den := by
    intro p hp hn
    rw [hden, Set.mem_insert_iff, not_or] at hn
    exact ⟨(mem_insert.mp hp).resolve_left hn.1, hn.2⟩
  refine ⟨?_, hg⟩
  constructor
  case queue =>
    show (s.ctpList.push q).2.den ⊆ _
    rw [hden]
    rintro p (rfl | hp)
    · exact mem_insert_self _ _
    · exact mem_insert_of_mem (h.queue hp)
  case walked =>
    intro p hp
    rcases mem_insert.mp hp with rfl | hp
    · exact hcxt.mono hg
    · exact (h.walked p hp).mono hg
  case tid =>
    intro p hp
    rcases mem_insert.mp hp with rfl | hp
    · exact htid
    · exact h.tid p hp
  case map_iff => exact h.map_iff
  case attrs => exact h.attrs
  case start =>
    intro b node hb
    obtain ⟨g, hg⟩ := h.start b node hb
    exact ⟨g, mem_insert_of_mem hg⟩
  case root => exact h.root
  case rootCxt => exact h.rootCxt
  case edge => exact h.edge
  case forker =>
    intro a b hab
    obtain ⟨p, hp, hn, ht, hf⟩ := h.forker a b hab
    exact ⟨p, hg.visited hp, hpopped p hp hn, ht, hf.mono hg⟩
  case parent => exact h.parent
  case unique => exact h.unique
  case forkCxt =>
    intro ct cxt hc
    refine ⟨(h.forkCxt ct cxt hc).1, fun i hi => ?_⟩
    obtain ⟨t, ht⟩ := (h.forkCxt ct cxt hc).2 i hi
    exact ⟨t, hg.visited ht⟩
  case routine =>
    intro ct r hr
    obtain ⟨b, hb, hv⟩ := h.routine ct r hr
    exact ⟨b, hb, hg.visited hv⟩
  case handled =>
    intro p hp hn hcur
    obtain ⟨hp, hn⟩ := hold p hp hn
    exact (h.handled p hp hn hcur).mono hg

end

/-- The state after a new node has been made for `ct`, its first triple pushed and, if it has
    a parent, hung under it. -/
def withNode (s : TCT N I) (ct : CxtThread N I) (a : Bool × Bool) (oldCxt : CallStrCxt N I)
    (h : N) (parent : Option ℕ) : TCT N I :=
  let id := s.nodes.length
  { s with
    nodes := s.nodes ++ [⟨ct, a.1, a.2, false⟩]
    edges := s.edges ++ parent.toList.map fun p => (p, id)
    ctpToNodeMap := update s.ctpToNodeMap ct (some id)
    ctToForkCxtMap := update s.ctToForkCxtMap ct (some oldCxt)
    ctToRoutineFunMap := update s.ctToRoutineFunMap ct (some h)
    ctpList := (s.ctpList.push ⟨id, ct.cxt, h⟩).2
    visitedCTPs := insert ⟨id, ct.cxt, h⟩ s.visitedCTPs }

/-- A node is made. -/
theorem Inv.withNode (hs : Inv G tcgSCC candidateFuncSet attr cur s) (ct : CxtThread N I)
    (oldCxt : CallStrCxt N I) (h : N) (parent : Option ℕ) (hnew : s.ctpToNodeMap ct = none)
    (hold : (ct.forksite = none → oldCxt = []) ∧
      ∀ i, ct.forksite = some i → ∃ t, ⟨t, oldCxt, G.getFunction i⟩ ∈ s.visitedCTPs)
    (hcxt : Walked G candidateFuncSet s ct.cxt h) (hroot : ct.forksite = none ↔ s.nodes.length = 0)
    (hrootCxt : ct.forksite = none → ct.cxt = []) (hparent : 0 < s.nodes.length → parent ≠ none)
    (hforker : ∀ a, parent = some a → ∃ p ∈ s.visitedCTPs, p ∉ s.ctpList.den ∧ p.tid = a ∧
      p.proc ∈ candidateFuncSet ∧ ∃ e ∈ G.outEdges p.proc, e.edgeKind = .TDForkEdge ∧
        ∃ cs ∈ e.calls, ⟨calleeCxt G tcgSCC candidateFuncSet p cs e.dstID, some cs⟩ = ct) :
    Inv G tcgSCC candidateFuncSet attr cur (s.withNode ct (attr ct.forksite) oldCxt h parent) ∧
      Grows s (s.withNode ct (attr ct.forksite) oldCxt h parent) := by
  have hq : (⟨s.nodes.length, ct.cxt, h⟩ : CxtThreadProc N I) ∉ s.visitedCTPs :=
    fun hm => lt_irrefl _ (hs.tid _ hm)
  obtain ⟨-, hden, hlength⟩ := pushToCTPWorkList_new hs.queue hq
  let t := s.withNode ct (attr ct.forksite) oldCxt h parent
  have hmap : ∀ ct' b, s.ctpToNodeMap ct' = some b → t.ctpToNodeMap ct' = some b := by
    intro ct' b hb
    have hne : ct' ≠ ct := by
      rintro rfl
      cases hb.symm.trans hnew
    exact (update_of_ne hne _ _).trans hb
  have hpopped : ∀ p ∈ s.visitedCTPs, p ∉ s.ctpList.den → p ∉ t.ctpList.den := by
    intro p hp hn
    show p ∉ (s.ctpList.push _).2.den
    rw [hden, Set.mem_insert_iff, not_or]
    exact ⟨fun he => hq (he ▸ hp), hn⟩
  have hg : Grows s t := by
    refine ⟨Finset.subset_insert _ _, hmap, hpopped, ?_⟩
    show (insert _ _ : Finset _).card + _ = _ + (s.ctpList.push _).2.dataList.length
    rw [card_insert_of_notMem hq, hlength]
    omega
  -- a node of the new list is an old one, or the new one
  have hnodes : ∀ b (node : TCTNode N I), t.nodes[b]? = some node ↔ s.nodes[b]? = some node ∨
      (b = s.nodes.length ∧ node = ⟨ct, (attr ct.forksite).1, (attr ct.forksite).2, false⟩) := by
    intro b node
    show (s.nodes ++ [_])[b]? = some node ↔ _
    rcases lt_trichotomy b s.nodes.length with hb | hb | hb
    · rw [getElem?_append_left hb]
      exact ⟨.inl, fun h => h.resolve_right fun h => Nat.ne_of_lt hb h.1⟩
    · subst hb
      rw [getElem?_append_right le_rfl, Nat.sub_self, getElem?_eq_none le_rfl]
      simp [eq_comm]
    · rw [getElem?_eq_none (by rw [length_append]; exact hb), getElem?_eq_none (le_of_lt hb)]
      simp only [reduceCtorEq, false_or, false_iff, not_and]
      exact fun he => absurd he (ne_of_gt hb)
  have hedges : ∀ a b, (a, b) ∈ t.edges ↔
      (a, b) ∈ s.edges ∨ (parent = some a ∧ b = s.nodes.length) := by
    intro a b
    show (a, b) ∈ s.edges ++ parent.toList.map _ ↔ _
    cases parent <;> simp [eq_comm]
  have hlen : t.nodes.length = s.nodes.length + 1 := by
    show (s.nodes ++ [_]).length = _
    rw [length_append, length_singleton]
  have hvis : ∀ p, p ∈ t.visitedCTPs ↔ p = ⟨s.nodes.length, ct.cxt, h⟩ ∨ p ∈ s.visitedCTPs :=
    fun p => mem_insert
  refine ⟨?_, hg⟩
  constructor
  case queue =>
    show (s.ctpList.push _).2.den ⊆ _
    rw [hden]
    rintro p (rfl | hp)
    · exact mem_insert_self _ _
    · exact mem_insert_of_mem (hs.queue hp)
  case walked =>
    intro p hp
    rcases (hvis p).mp hp with rfl | hp
    · exact hcxt.mono hg
    · exact (hs.walked p hp).mono hg
  case tid =>
    intro p hp
    rw [hlen]
    rcases (hvis p).mp hp with rfl | hp
    · exact lt_succ_self _
    · exact lt_succ_of_lt (hs.tid p hp)
  case map_iff =>
    intro ct' b
    by_cases hct : ct' = ct
    · subst hct
      have hb : t.ctpToNodeMap ct' = some s.nodes.length := update_self ..
      rw [hb, Option.some.injEq]
      constructor
      · rintro rfl
        exact ⟨_, (hnodes _ _).mpr (.inr ⟨rfl, rfl⟩), rfl⟩
      · rintro ⟨node, hnode, hctx⟩
        rcases (hnodes _ _).mp hnode with hnode | ⟨hb, -⟩
        · exact absurd ((hs.map_iff ct' b).mpr ⟨node, hnode, hctx⟩) (by rw [hnew]; exact nofun)
        · exact hb.symm
    · rw [show t.ctpToNodeMap ct' = s.ctpToNodeMap ct' from update_of_ne hct _ _, hs.map_iff]
      constructor
      · rintro ⟨node, hnode, hctx⟩
        exact ⟨node, (hnodes _ _).mpr (.inl hnode), hctx⟩
      · rintro ⟨node, hnode, hctx⟩
        rcases (hnodes _ _).mp hnode with hnode | ⟨-, rfl⟩
        · exact ⟨node, hnode, hctx⟩
        · exact absurd hctx.symm hct
  case attrs =>
    intro b node hnode
    rcases (hnodes _ _).mp hnode with hnode | ⟨-, rfl⟩
    · exact hs.attrs b node hnode
    · exact ⟨rfl, rfl⟩
  case start =>
    intro b node hnode
    rcases (hnodes _ _).mp hnode with hnode | ⟨rfl, rfl⟩
    · obtain ⟨g, hg⟩ := hs.start b node hnode
      exact ⟨g, (hvis _).mpr (.inr hg)⟩
    · exact ⟨h, (hvis _).mpr (.inl rfl)⟩
  case root =>
    intro b node hnode
    rcases (hnodes _ _).mp hnode with hnode | ⟨rfl, rfl⟩
    · exact hs.root b node hnode
    · exact hroot
  case rootCxt =>
    intro b node hnode
    rcases (hnodes _ _).mp hnode with hnode | ⟨rfl, rfl⟩
    · exact hs.rootCxt b node hnode
    · exact hrootCxt
  case edge =>
    intro a b hab
    rw [hlen]
    rcases (hedges a b).mp hab with hab | ⟨ha, rfl⟩
    · have := hs.edge a b hab
      omega
    · obtain ⟨p, hp, -, rfl, -⟩ := hforker a ha
      exact ⟨hs.tid p hp, lt_succ_self _⟩
  case forker =>
    intro a b hab
    rcases (hedges a b).mp hab with hab | ⟨ha, rfl⟩
    · obtain ⟨p, hp, hn, ht, hf⟩ := hs.forker a b hab
      exact ⟨p, hg.visited hp, hpopped p hp hn, ht, hf.mono hg⟩
    · obtain ⟨p, hp, hn, ht, hc, e, he, hk, cs, hcs, heq⟩ := hforker a ha
      refine ⟨p, hg.visited hp, hpopped p hp hn, ht, hc, e, he, hk, cs, hcs, ?_⟩
      rw [heq]
      exact update_self ..
  case parent =>
    intro b hpos hb
    rw [hlen] at hb
    rcases Nat.lt_succ_iff_lt_or_eq.mp hb with hb | rfl
    · obtain ⟨a, ha⟩ := hs.parent b hpos hb
      exact ⟨a, (hedges a b).mpr (.inl ha)⟩
    · obtain ⟨a, ha⟩ := ne_none_iff_exists'.mp (hparent hpos)
      exact ⟨a, (hedges a _).mpr (.inr ⟨ha, rfl⟩)⟩
  case unique =>
    intro a a' b hab hab'
    rcases (hedges a b).mp hab with hab | ⟨ha, hb⟩ <;>
      rcases (hedges a' b).mp hab' with hab' | ⟨ha', hb'⟩
    · exact hs.unique a a' b hab hab'
    · exact absurd (hs.edge a b hab).2 (by omega)
    · exact absurd (hs.edge a' b hab').2 (by omega)
    · exact mem_unique ha ha'
  case forkCxt =>
    intro ct' cxt hc
    by_cases hct : ct' = ct
    · subst hct
      have hupd : t.ctToForkCxtMap ct' = some oldCxt := update_self ..
      obtain rfl : oldCxt = cxt := mem_unique hupd hc
      refine ⟨hold.1, fun i hi => ?_⟩
      obtain ⟨t, ht⟩ := hold.2 i hi
      exact ⟨t, hg.visited ht⟩
    · have hupd : t.ctToForkCxtMap ct' = s.ctToForkCxtMap ct' := update_of_ne hct _ _
      obtain ⟨hnone, hsome⟩ := hs.forkCxt ct' cxt (hupd.symm.trans hc)
      refine ⟨hnone, fun i hi => ?_⟩
      obtain ⟨t, ht⟩ := hsome i hi
      exact ⟨t, hg.visited ht⟩
  case routine =>
    intro ct' r hr
    by_cases hct : ct' = ct
    · subst hct
      have hupd : t.ctToRoutineFunMap ct' = some h := update_self ..
      obtain rfl : h = r := mem_unique hupd hr
      exact ⟨_, update_self .., (hvis _).mpr (.inl rfl)⟩
    · have hupd : t.ctToRoutineFunMap ct' = s.ctToRoutineFunMap ct' := update_of_ne hct _ _
      obtain ⟨b, hb, hv⟩ := hs.routine ct' r (hupd.symm.trans hr)
      exact ⟨b, hmap ct' b hb, hg.visited hv⟩
  case handled =>
    intro p hp hn hcur
    have hn' : p ∉ insert (⟨s.nodes.length, ct.cxt, h⟩ : CxtThreadProc N I) s.ctpList.den :=
      hden ▸ hn
    rw [Set.mem_insert_iff, not_or] at hn'
    exact (hs.handled p (((hvis p).mp hp).resolve_left hn'.1) hn'.2 hcur).mono hg

-- ── One call site

/-- A fork that finds its node made, but not with this callee: the node hangs under the
    thread of the triple at hand already. The node was made by a triple of the same fork site
    that had another callee, so both callees are in the component of the caller and the two
    triples have one context; the other one, had it been popped before, would have visited
    this callee too. -/
theorem Inv.parent_of_new (hscc : SCCDetection.Components G.scc tcgSCC)
    (hs : Inv G tcgSCC candidateFuncSet attr (some p) s) (hp : p ∈ s.visitedCTPs)
    (hcand : p.proc ∈ candidateFuncSet) (he : e ∈ G.outEdges p.proc) (hk : e.edgeKind = .TDForkEdge)
    (hcs : cs ∈ e.calls)
    (hb : s.ctpToNodeMap ⟨calleeCxt G tcgSCC candidateFuncSet p cs e.dstID, some cs⟩ = some b)
    (hnew : ⟨b, calleeCxt G tcgSCC candidateFuncSet p cs e.dstID, e.dstID⟩ ∉ s.visitedCTPs) :
    (p.tid, b) ∈ s.edges := by
  have hproc : ∀ {q : N} {e : PTACallGraphEdge N I}, e ∈ G.outEdges q → ∀ cs ∈ e.calls,
      G.getFunction cs = q := by
    intro q e he cs hcs
    obtain ⟨hmem, hsrc⟩ := mem_filter.mp he
    exact (G.calls_in e hmem cs hcs).trans (of_decide_eq_true hsrc)
  have hpos : 0 < b := by
    obtain ⟨node, hnode, hctx⟩ := (hs.map_iff _ b).mp hb
    refine pos_of_ne_zero fun h0 => ?_
    have hnone := (hs.root b node hnode).mpr h0
    rw [hctx] at hnone
    cases hnone
  obtain ⟨a, hab⟩ := hs.parent b hpos (hs.map_lt hb)
  obtain ⟨q, hq, hqn, rfl, hqc, e', he', hk', cs', hcs', hb'⟩ := hs.forker a b hab
  by_cases hqp : q = p
  · exact hqp ▸ hab
  · -- the triple `q` has been handled; it has the fork site and the context of `p`
    obtain ⟨hcxt, hsite⟩ := CxtThread.mk.inj (hs.map_inj hb hb')
    obtain rfl : cs = cs' := some.inj hsite
    have hpq : p.proc = q.proc := (hproc he cs hcs).symm.trans (hproc he' cs hcs')
    have hp' : CxtOf G p.cxt (G.getFunction cs) := (hproc he cs hcs) ▸ (hs.walked p hp).cxtOf
    have hq' : CxtOf G q.cxt (G.getFunction cs) := (hproc he' cs hcs') ▸ (hs.walked q hq).cxtOf
    obtain ⟨hsame, -⟩ := pushCxt_inj hscc hp' hq' ((hproc he cs hcs).symm ▸ hcand) hcxt
    have hdone := hs.handled q hq hqn (fun heq => hqp (some.inj heq)) hqc e (hpq ▸ he) cs hcs
    obtain ⟨b2, hb2, hv⟩ := hdone.fork hk
    have hcc : calleeCxt G tcgSCC candidateFuncSet q cs e.dstID =
        calleeCxt G tcgSCC candidateFuncSet p cs e.dstID := by rw [calleeCxt, calleeCxt, hsame]
    rw [hcc] at hb2 hv
    obtain rfl : b = b2 := mem_unique hb hb2
    exact absurd hv hnew

structure Round (G : ThreadCallGraph N I) (tcgSCC : SCCDetection N) (candidateFuncSet : Finset N)
    (attr : Option I → Bool × Bool) (p : CxtThreadProc N I) (s : TCT N I) : Prop where
  inv : Inv G tcgSCC candidateFuncSet attr (some p) s
  mem : p ∈ s.visitedCTPs
  popped : p ∉ s.ctpList.den

theorem Round.grows {s s' : TCT N I} (h : Round G tcgSCC candidateFuncSet attr p s)
    (hinv : Inv G tcgSCC candidateFuncSet attr (some p) s') (hg : Grows s s') :
    Round G tcgSCC candidateFuncSet attr p s' :=
  ⟨hinv, hg.visited h.mem, hg.popped p h.mem h.popped⟩

section

variable (hscc : SCCDetection.Components G.scc tcgSCC)
include hscc

/-- **One call site.** The call is followed. -/
theorem handleCallRelation_spec
    (hcand : p.proc ∈ candidateFuncSet) (he : e ∈ G.outEdges p.proc) (hcs : cs ∈ e.calls)
    (hs : Round G tcgSCC candidateFuncSet attr p s) :
    ∃ s', handleCallRelation G tcgSCC candidateFuncSet (fun f => some (attr f)) p e s cs = some s' ∧
      Round G tcgSCC candidateFuncSet attr p s' ∧ Grows s s' ∧
      Done G tcgSCC candidateFuncSet s' p e cs := by
  obtain ⟨hmem, hsrc⟩ := mem_filter.mp he
  have hcaller : G.getFunction cs = p.proc := (G.calls_in e hmem cs hcs).trans (of_decide_eq_true hsrc)
  have hcall : cs ∈ G.callSites e.dstID := G.mem_callSites.mpr ⟨e, hmem, rfl, hcs⟩
  -- the context of the callee
  let c := calleeCxt G tcgSCC candidateFuncSet p cs e.dstID
  have hcxt : Walked G candidateFuncSet s c e.dstID :=
    (hs.inv.walked p hs.mem).callee hscc hs.mem hcand hcaller hcall
  cases hkind : e.edgeKind with
  | CallRetEdge =>
    refine ⟨(s.pushToCTPWorkList ⟨p.tid, c, e.dstID⟩).2, ?_, ?_⟩
    · rw [handleCallRelation, hkind]
    · by_cases hv : (⟨p.tid, c, e.dstID⟩ : CxtThreadProc N I) ∈ s.visitedCTPs
      · rw [pushToCTPWorkList, if_pos hv]
        exact ⟨hs, Grows.refl s, fun _ => hv, fun h => nomatch hkind.symm.trans h⟩
      · obtain ⟨hinv, hg⟩ := hs.inv.push hv hcxt (hs.inv.tid p hs.mem)
        refine ⟨hs.grows hinv hg, hg, fun _ => ?_, fun h => nomatch hkind.symm.trans h⟩
        rw [(pushToCTPWorkList_new hs.inv.queue hv).1]
        exact mem_insert_self _ _
  | TDForkEdge =>
    have hret : ¬ e.edgeKind = .CallRetEdge := fun h => nomatch hkind.symm.trans h
    cases hmap : s.ctpToNodeMap ⟨c, some cs⟩ with
    | some b =>
      have hget : getOrCreateTCTNode (fun f => some (attr f)) s c (some cs) p.cxt e.dstID =
          some (b, s) := by
        rw [getOrCreateTCTNode]
        simp only [hmap]
      by_cases hv : (⟨b, c, e.dstID⟩ : CxtThreadProc N I) ∈ s.visitedCTPs
      · refine ⟨s, ?_, hs, Grows.refl s, fun h => absurd h hret, fun _ => ⟨b, hmap, hv⟩⟩
        rw [handleCallRelation, hkind]
        simp only
        rw [hget]
        simp [pushToCTPWorkList, hv, c]
      · obtain ⟨hinv, hg⟩ := hs.inv.push hv hcxt (hs.inv.map_lt hmap)
        obtain ⟨hpush, -⟩ := pushToCTPWorkList_new hs.inv.queue hv
        have hedge := hs.inv.parent_of_new hscc hs.mem hcand he hkind hcs hmap hv
        refine ⟨_, ?_, hs.grows hinv hg, hg, fun h => absurd h hret,
          fun _ => ⟨b, hg.map _ b hmap, ?_⟩⟩
        · rw [handleCallRelation, hkind]
          simp only
          rw [hget]
          show some (if (s.pushToCTPWorkList ⟨b, c, e.dstID⟩).1 then
            (s.pushToCTPWorkList ⟨b, c, e.dstID⟩).2.addTCTEdge p.tid b else _) = _
          rw [hpush, if_pos rfl, addTCTEdge, if_pos hedge]
        · rw [hpush]
          exact mem_insert_self _ _
    | none =>
      have hlen : p.tid < s.nodes.length := hs.inv.tid p hs.mem
      obtain ⟨hinv, hg⟩ := hs.inv.withNode ⟨c, some cs⟩ p.cxt e.dstID (some p.tid) hmap
        ⟨nofun, fun i hi => ⟨p.tid, some.inj hi ▸ hcaller.symm ▸ hs.mem⟩⟩ hcxt
        (iff_of_false nofun (by omega)) nofun (fun _ => some_ne_none _)
        (fun a ha => ⟨p, hs.mem, hs.popped, some.inj ha, hcand, e, he, hkind, cs, hcs, rfl⟩)
      have hnew : (⟨s.nodes.length, c, e.dstID⟩ : CxtThreadProc N I) ∉ s.visitedCTPs :=
        fun hm => lt_irrefl _ (hs.inv.tid _ hm)
      have hfresh : (p.tid, s.nodes.length) ∉ s.edges :=
        fun hm => lt_irrefl _ (hs.inv.edge _ _ hm).2
      refine ⟨_, ?_, hs.grows hinv hg, hg, fun h => absurd h hret, fun _ =>
        ⟨s.nodes.length, update_self .., mem_insert_self _ _⟩⟩
      have hfst : ∀ w : FIFOWorkList (CxtThreadProc N I), w = s.ctpList →
          (w.push ⟨s.nodes.length, c, e.dstID⟩).1 := by
        rintro w rfl
        have := (pushToCTPWorkList_new hs.inv.queue hnew).1
        rw [pushToCTPWorkList, if_neg hnew] at this
        exact (Prod.mk.inj this).1
      rw [handleCallRelation, hkind]
      simp only
      rw [getOrCreateTCTNode]
      simp only [show s.ctpToNodeMap ⟨pushCxt G tcgSCC candidateFuncSet p.cxt cs e.dstID,
        some cs⟩ = none from hmap, addTCTNode, bind_some, if_true, map_some,
        pushToCTPWorkList]
      rw [if_neg hnew]
      simp only [addTCTEdge, if_neg hfresh]
      exact congrArg some (if_pos (hfst s.ctpList rfl))
  | TDJoinEdge =>
    refine ⟨s, ?_, hs, Grows.refl s, ⟨fun h => ?_, fun h => ?_⟩⟩
    · rw [handleCallRelation, hkind]
    · cases hkind.symm.trans h
    · cases hkind.symm.trans h
  | HareParForEdge =>
    refine ⟨s, ?_, hs, Grows.refl s, ⟨fun h => ?_, fun h => ?_⟩⟩
    · rw [handleCallRelation, hkind]
    · cases hkind.symm.trans h
    · cases hkind.symm.trans h

-- ── One triple, and the whole walk

theorem followAll_spec
    (hcand : p.proc ∈ candidateFuncSet) (hs : Round G tcgSCC candidateFuncSet attr p s) :
    ∃ s', (G.outEdges p.proc).foldlM (fun s e => (e.directCalls.foldlM
          (handleCallRelation G tcgSCC candidateFuncSet (fun f => some (attr f)) p e) s).bind
          (e.indirectCalls.foldlM
            (handleCallRelation G tcgSCC candidateFuncSet (fun f => some (attr f)) p e))) s = some s' ∧
      Round G tcgSCC candidateFuncSet attr p s' ∧ Grows s s' ∧
      Handled G tcgSCC candidateFuncSet s' p := by
  -- a state shows the calls that have been followed
  let E : TCT N I → Set (PTACallGraphEdge N I × I) :=
    fun t => {r | Done G tcgSCC candidateFuncSet t p r.1 r.2}
  let P : TCT N I → Prop := fun t => Round G tcgSCC candidateFuncSet attr p t ∧ Grows s t
  have hcalls : ∀ t e, e ∈ G.outEdges p.proc → P t → ∃ t', (e.directCalls.foldlM
        (handleCallRelation G tcgSCC candidateFuncSet (fun f => some (attr f)) p e) t).bind
        (e.indirectCalls.foldlM
          (handleCallRelation G tcgSCC candidateFuncSet (fun f => some (attr f)) p e)) = some t' ∧
      P t' ∧ E t ⊆ E t' ∧ {r | r.1 = e ∧ r.2 ∈ e.calls} ⊆ E t' := by
    intro t e he ht
    have hstep : ∀ t cs, cs ∈ e.calls → P t → ∃ t',
        handleCallRelation G tcgSCC candidateFuncSet (fun f => some (attr f)) p e t cs = some t' ∧
          P t' ∧ E t ⊆ E t' ∧ {(e, cs)} ⊆ E t' := by
      intro t cs hcs ht
      obtain ⟨t', heq, hround, hg, hdone⟩ := handleCallRelation_spec hscc hcand he hcs ht.1
      exact ⟨t', heq, ⟨hround, ht.2.trans hg⟩, fun r hr => Done.mono hg hr,
        Set.singleton_subset_iff.mpr hdone⟩
    obtain ⟨t', hfold, ht', hE, hC⟩ := foldlM_grows e.calls t hstep ht
    refine ⟨t', ?_, ht', hE, ?_⟩
    · rw [PTACallGraphEdge.calls, foldlM_append] at hfold
      exact hfold
    · rintro ⟨e', cs⟩ ⟨rfl, hcs⟩
      exact hC cs hcs rfl
  obtain ⟨s', hfold, hs', -, hC⟩ := foldlM_grows (G.outEdges p.proc) s hcalls ⟨hs, Grows.refl s⟩
  refine ⟨s', hfold, hs'.1, hs'.2, fun _ e he cs hcs => ?_⟩
  have hdone : (e, cs) ∈ E s' := hC e he ⟨rfl, hcs⟩
  exact hdone

/-- **One triple.** It is popped and its calls are followed. -/
theorem processCTP_spec
    (hs : Inv G tcgSCC candidateFuncSet attr none s) (hne : s.ctpList.isEmpty = false) :
    ∃ s', processCTP G tcgSCC candidateFuncSet (fun f => some (attr f)) s = some s' ∧
      Inv G tcgSCC candidateFuncSet attr none s' ∧ s.visitedCTPs ⊆ s'.visitedCTPs ∧
      s'.visitedCTPs.card + s.ctpList.dataList.length =
        s.visitedCTPs.card + s'.ctpList.dataList.length + 1 := by
  obtain ⟨p, rest, hlist⟩ := exists_cons_of_ne_nil (l := s.ctpList.dataList)
    (fun h => by simp [FIFOWorkList.isEmpty, h] at hne)
  obtain ⟨w, hpop, hw⟩ := FIFOWorkList.pop_cons hlist
  have hnd : (p :: rest).Nodup := hlist ▸ s.ctpList.nodup
  have hmem : p ∈ s.ctpList.den := by
    show p ∈ s.ctpList.dataList
    rw [hlist]
    exact mem_cons_self
  have hden : ∀ q, q ∈ s.ctpList.den ↔ q = p ∨ q ∈ w.den := by
    intro q
    show q ∈ s.ctpList.dataList ↔ q = p ∨ q ∈ w.dataList
    rw [hlist, hw, mem_cons]
  have hpw : p ∉ w.den := by
    show p ∉ w.dataList
    rw [hw]
    exact (nodup_cons.mp hnd).1
  -- with `p` popped, the others are handled as before
  have hround : Round G tcgSCC candidateFuncSet attr p { s with ctpList := w } := by
    refine ⟨?_, hs.queue hmem, hpw⟩
    exact { hs with
      queue := fun q hq => hs.queue ((hden q).mpr (.inr hq))
      walked := fun q hq => ⟨(hs.walked q hq).cxtOf, (hs.walked q hq).prefixes, (hs.walked q hq).root⟩
      forker := fun a b hab => by
        obtain ⟨q, hq, hn, ht, hf⟩ := hs.forker a b hab
        exact ⟨q, hq, fun h => hn ((hden q).mpr (.inr h)), ht, hf⟩
      handled := fun q hq hn hcur => by
        have hqp : q ≠ p := fun h => hcur (h ▸ rfl)
        have hq' : Handled G tcgSCC candidateFuncSet s q :=
          hs.handled q hq (fun h => hn (((hden q).mp h).resolve_left hqp)) nofun
        exact fun hc e he cs hcs => ⟨(hq' hc e he cs hcs).call, (hq' hc e he cs hcs).fork⟩ }
  have hlength : s.ctpList.dataList.length = w.dataList.length + 1 := by
    rw [hlist, hw, length_cons]
  -- when nothing is left to do for `p`, nothing is left for any popped triple
  have hclose : ∀ {t : TCT N I}, Inv G tcgSCC candidateFuncSet attr (some p) t →
      Handled G tcgSCC candidateFuncSet t p → Inv G tcgSCC candidateFuncSet attr none t := by
    intro t ht hp
    refine { ht with handled := fun q hq hn _ => ?_ }
    by_cases hqp : q = p
    · exact hqp ▸ hp
    · exact ht.handled q hq hn (fun h => hqp (some.inj h))
  rw [processCTP, hpop]
  by_cases hcand : p.proc ∈ candidateFuncSet
  · obtain ⟨s', hfold, hs', hg, hdone⟩ := followAll_spec hscc hcand hround
    refine ⟨s', (if_neg (not_not_intro hcand)).trans hfold, hclose hs'.inv hdone, hg.visited, ?_⟩
    have hbal : s'.visitedCTPs.card + w.dataList.length =
      s.visitedCTPs.card + s'.ctpList.dataList.length := hg.balance
    omega
  · refine ⟨{ s with ctpList := w }, if_pos hcand, hclose hround.inv (fun hc => absurd hc hcand),
      subset_rfl, ?_⟩
    show s.visitedCTPs.card + _ = s.visitedCTPs.card + w.dataList.length + 1
    omega

end

theorem pushEntry_spec (hs : Inv G tcgSCC candidateFuncSet attr none s) {entry : N}
    (hentry : entry ∈ G.collectEntryFunInCallGraph) :
    ∃ s', pushEntry candidateFuncSet (fun f => some (attr f)) s entry = some s' ∧
      Inv G tcgSCC candidateFuncSet attr none s' ∧ s.visitedCTPs ⊆ s'.visitedCTPs ∧
      (entry ∈ candidateFuncSet → ⟨0, [], entry⟩ ∈ s'.visitedCTPs) := by
  rw [pushEntry]
  by_cases hcand : entry ∈ candidateFuncSet
  · have hwalked : Walked G candidateFuncSet s [] entry := by
      refine ⟨.nil entry, fun c' cs h z heq => ?_, fun _ => ⟨?_, hcand⟩⟩
      · exact absurd heq.symm (append_ne_nil_of_right_ne_nil _ (cons_ne_nil _ _))
      · have hfilter := (mem_filter.mp hentry).2
        rw [Bool.and_eq_true, Bool.not_eq_true'] at hfilter
        simpa using hfilter.2
    rw [if_neg (not_not_intro hcand)]
    cases hmap : s.ctpToNodeMap ⟨[], none⟩ with
    | some b =>
      obtain ⟨node, hnode, hctx⟩ := (hs.map_iff _ b).mp hmap
      obtain rfl : b = 0 := (hs.root b node hnode).mp (by rw [hctx])
      refine ⟨(s.pushToCTPWorkList ⟨0, [], entry⟩).2, ?_, ?_⟩
      · rw [getOrCreateTCTNode]
        simp only [hmap, map_some]
      · by_cases hv : (⟨0, [], entry⟩ : CxtThreadProc N I) ∈ s.visitedCTPs
        · rw [pushToCTPWorkList, if_pos hv]
          exact ⟨hs, subset_rfl, fun _ => hv⟩
        · obtain ⟨hinv, hg⟩ := hs.push hv hwalked (hs.map_lt hmap)
          refine ⟨hinv, hg.visited, fun _ => ?_⟩
          rw [(pushToCTPWorkList_new hs.queue hv).1]
          exact mem_insert_self _ _
    | none =>
      -- node 0 would be the node of this thread
      have hzero : s.nodes.length = 0 := by
        by_contra hpos
        have hlt : 0 < s.nodes.length := pos_of_ne_zero hpos
        have hnode : s.nodes[0]? = some s.nodes[0] := getElem?_eq_getElem hlt
        have hfork := (hs.root 0 _ hnode).mpr rfl
        have hcxt := hs.rootCxt 0 _ hnode hfork
        have hctx : (s.nodes[0]).ctx = ⟨[], none⟩ := by
          rw [← hcxt, ← hfork]
        exact absurd ((hs.map_iff _ 0).mpr ⟨_, hnode, hctx⟩) (by rw [hmap]; exact nofun)
      obtain ⟨hinv, hg⟩ := hs.withNode ⟨[], none⟩ [] entry none hmap ⟨fun _ => rfl, nofun⟩
        hwalked (iff_of_true rfl hzero) (fun _ => rfl)
        (fun hpos => absurd hzero (ne_of_gt hpos)) nofun
      refine ⟨_, ?_, hinv, hg.visited, fun _ => ?_⟩
      · have hnew : (⟨s.nodes.length, [], entry⟩ : CxtThreadProc N I) ∉ s.visitedCTPs :=
          fun hm => lt_irrefl _ (hs.tid _ hm)
        rw [getOrCreateTCTNode]
        simp only [hmap, addTCTNode, bind_some, if_true, map_some, pushToCTPWorkList]
        rw [if_neg hnew]
        simp [TCT.withNode]
      · have hroot : (⟨0, [], entry⟩ : CxtThreadProc N I) = ⟨s.nodes.length, [], entry⟩ := by
          rw [hzero]
        rw [hroot]
        exact mem_insert_self _ _
  · exact ⟨s, if_pos hcand, hs, subset_rfl, fun hc => absurd hc hcand⟩

omit [DecidableEq N] [DecidableEq I] in
theorem finite_nodup [Finite N] [Finite I] : Finite {c : CallStrCxt N I // c.Nodup} := by
  classical
  have : Fintype (CallSiteID N I) := Fintype.ofFinite _
  exact Finite.of_fintype _

variable (G tcgSCC candidateFuncSet attr) in
theorem Inv.bounded [Finite N] [Finite I] :
    ∃ B, ∀ s : TCT N I, Inv G tcgSCC candidateFuncSet attr none s → s.visitedCTPs.card ≤ B := by
  have hnodup := finite_nodup (N := N) (I := I)
  let threads : Set (CxtThread N I) := {ct | ct.cxt.Nodup}
  have hthreads : threads.Finite := by
    refine (Set.finite_range fun r : {c : CallStrCxt N I // c.Nodup} × Option I =>
      (⟨r.1.1, r.2⟩ : CxtThread N I)).subset ?_
    rintro ⟨c, f⟩ hc
    exact ⟨(⟨c, hc⟩, f), rfl⟩
  let procs : Set (CxtThreadProc N I) := {p | p.tid < threads.ncard ∧ p.cxt.Nodup}
  have hprocs : procs.Finite := by
    refine (Set.finite_range fun r : Fin threads.ncard × {c : CallStrCxt N I // c.Nodup} × N =>
      (⟨r.1, r.2.1.1, r.2.2⟩ : CxtThreadProc N I)).subset ?_
    rintro ⟨t, c, f⟩ ⟨ht, hc⟩
    exact ⟨(⟨t, ht⟩, ⟨c, hc⟩, f), rfl⟩
  refine ⟨procs.ncard, fun s hs => ?_⟩
  have hcxt : ∀ p ∈ s.visitedCTPs, p.cxt.Nodup := fun p hp => (hs.walked p hp).cxtOf.nodup.of_map
  -- distinct nodes are distinct threads
  have hnd : (s.nodes.map (·.ctx)).Nodup := by
    rw [nodup_iff_injective_getElem]
    rintro ⟨a, ha⟩ ⟨b, hb⟩ heq
    rw [length_map] at ha hb
    simp only [getElem_map] at heq
    have hma := (hs.map_iff (s.nodes[a]).ctx a).mpr ⟨_, getElem?_eq_getElem ha, rfl⟩
    have hmb := (hs.map_iff (s.nodes[a]).ctx b).mpr ⟨_, getElem?_eq_getElem hb, heq.symm⟩
    exact Fin.ext (mem_unique hma hmb)
  have hlen : s.nodes.length ≤ threads.ncard := by
    rw [← length_map (·.ctx), ← toFinset_card_of_nodup hnd, ← Set.ncard_coe_finset]
    refine Set.ncard_le_ncard ?_ hthreads
    intro ct hct
    obtain ⟨node, hnode, rfl⟩ := mem_map.mp (mem_toFinset.mp hct)
    obtain ⟨b, hb⟩ := mem_iff_getElem?.mp hnode
    obtain ⟨h, hv⟩ := hs.start b node hb
    exact hcxt _ hv
  rw [← Set.ncard_coe_finset]
  refine Set.ncard_le_ncard ?_ hprocs
  exact fun p hp => ⟨lt_of_lt_of_le (hs.tid p hp) hlen, hcxt p hp⟩

variable (candidateFuncSet attr) in
/-- **The walk stops**, with the invariant and everything handled. -/
theorem walk_total (hscc : SCCDetection.Components G.scc tcgSCC) (sites : Finset I) :
    ∃ t, Stops (walk G tcgSCC candidateFuncSet (fun f => some (attr f)) (init sites)) t ∧
      Inv G tcgSCC candidateFuncSet attr none t ∧
      (∀ p ∈ t.visitedCTPs, Handled G tcgSCC candidateFuncSet t p) ∧
      (∀ f ∈ G.collectEntryFunInCallGraph, f ∈ candidateFuncSet → ⟨0, [], f⟩ ∈ t.visitedCTPs) := by
  have hfinN : Finite N := Set.finite_univ_iff.mp
    ((finite_toSet G.nodes).subset fun n _ => G.nodes_all n)
  have hfinI : Finite I := Set.finite_univ_iff.mp
    ((finite_toSet G.insts).subset fun i _ => G.insts_all i)
  have hinit : Inv G tcgSCC candidateFuncSet attr none (init sites) := by
    constructor
    all_goals simp [init]
  let E : TCT N I → Set (CxtThreadProc N I) := fun s => {p | p ∈ s.visitedCTPs}
  have hentry : ∀ s f, f ∈ G.collectEntryFunInCallGraph →
      Inv G tcgSCC candidateFuncSet attr none s → ∃ s',
        pushEntry candidateFuncSet (fun f => some (attr f)) s f = some s' ∧
        Inv G tcgSCC candidateFuncSet attr none s' ∧ E s ⊆ E s' ∧
        {p | p = ⟨0, [], f⟩ ∧ f ∈ candidateFuncSet} ⊆ E s' := by
    intro s f hf hs
    obtain ⟨s', heq, hs', hsub, hv⟩ := pushEntry_spec hs hf
    refine ⟨s', heq, hs', hsub, ?_⟩
    rintro p ⟨rfl, hc⟩
    exact hv hc
  obtain ⟨s0, hfold, hs0, -, hC⟩ := foldlM_grows _ (init sites) hentry hinit
  obtain ⟨B, hB⟩ := Inv.bounded G tcgSCC candidateFuncSet attr
  let K : TCT N I → Prop := fun s =>
    Inv G tcgSCC candidateFuncSet attr none s ∧ s0.visitedCTPs ⊆ s.visitedCTPs
  have hbody : ∀ s, K s → (!s.ctpList.isEmpty) → ∃ s',
      processCTP G tcgSCC candidateFuncSet (fun f => some (attr f)) s = some s' ∧ K s' ∧
      B + s'.ctpList.dataList.length - s'.visitedCTPs.card <
        B + s.ctpList.dataList.length - s.visitedCTPs.card := by
    intro s hs hc
    obtain ⟨s', heq, hs', hsub, hbal⟩ := processCTP_spec hscc hs.1 (by simpa using hc)
    refine ⟨s', heq, ⟨hs', hs.2.trans hsub⟩, ?_⟩
    have hle := hB s' hs'
    have hle' := hB s hs.1
    omega
  obtain ⟨t, hrun, hK, hempty⟩ := whileM_total hbody ⟨hs0, subset_rfl⟩
  have hden : t.ctpList.den = ∅ := FIFOWorkList.den_of_isEmpty (by simpa using hempty)
  refine ⟨t, ?_, hK.1, fun p hp => hK.1.handled p hp ?_ nofun, fun f hf hc => hK.2 ?_⟩
  · exact hrun.congr (n := 0) fun fuel _ => by rw [walk, hfold, bind_some]
  · rw [hden]
    exact Set.notMem_empty p
  · have hin : {p | p = ⟨0, [], f⟩ ∧ f ∈ candidateFuncSet} ⊆ E s0 := hC f hf
    exact hin ⟨rfl, hc⟩

-- ── Marking

def Parent (s : TCT N I) (a b : ℕ) : Prop := (a, b) ∈ s.edges

/-- The fork site of node `b` is in a loop or in recursion. -/
def OwnMulti (s : TCT N I) (b : ℕ) : Prop :=
  ∃ node, s.nodes[b]? = some node ∧ (node.incycle || node.inloop) = true

/-- It, or the one of an ancestor, is. -/
def Multi (s : TCT N I) (b : ℕ) : Prop :=
  ∃ a, ReflTransGen s.Parent a b ∧ s.OwnMulti a

theorem multi_iff : s.Multi b ↔ s.OwnMulti b ∨ ∃ a, s.Parent a b ∧ s.Multi a := by
  constructor
  · rintro ⟨a, hwalk, ha⟩
    rcases ReflTransGen.cases_tail hwalk with rfl | ⟨c, hac, hcb⟩
    · exact .inl ha
    · exact .inr ⟨c, hcb, a, hac, ha⟩
  · rintro (hb | ⟨a, hab, c, hwalk, hc⟩)
    · exact ⟨b, .refl, hb⟩
    · exact ⟨c, hwalk.tail hab, hc⟩

omit [DecidableEq N] [DecidableEq I] in
theorem getElem?_setMultiforked (nodes : List (TCTNode N I)) (id b : ℕ) :
    (setMultiforked nodes id)[b]? =
      if b = id then nodes[b]?.map fun node => { node with multiforked := true } else nodes[b]? := by
  rw [setMultiforked, getElem?_modify]
  by_cases h : b = id
  · subst h
    simp
  · rw [if_neg h]
    simp [Ne.symm h]

omit [DecidableEq N] [DecidableEq I] in
theorem markFromParents_spec (id : ℕ) (l : List (ℕ × ℕ)) : ∀ nodes : List (TCTNode N I),
      l.foldl (fun nodes e => if isMultiforked nodes e.1 then setMultiforked nodes id else nodes)
          nodes =
        (if ∃ e ∈ l, isMultiforked nodes e.1 = true then setMultiforked nodes id else nodes) := by
  induction l with
  | nil =>
    intro nodes
    simp
  | cons e l ih =>
    intro nodes
    rw [foldl_cons]
    by_cases hm : isMultiforked nodes e.1
    · have htwice : setMultiforked (setMultiforked nodes id) id = setMultiforked nodes id := by
        refine ext_getElem? fun b => ?_
        rw [getElem?_setMultiforked, getElem?_setMultiforked]
        by_cases hb : b = id
        · rw [if_pos hb, if_pos hb, Option.map_map]
          rfl
        · rw [if_neg hb, if_neg hb]
      rw [if_pos hm, ih, htwice, ite_self, if_pos ⟨e, mem_cons_self, hm⟩]
    · rw [if_neg hm, ih]
      have hiff : (∃ e' ∈ e :: l, isMultiforked nodes e'.1) ↔
          ∃ e' ∈ l, isMultiforked nodes e'.1 := by
        simp [hm]
      simp only [hiff]

structure Marking (s : TCT N I) (P : Finset ℕ) (r : FIFOWorkList ℕ × List (TCTNode N I)) :
    Prop where
  nodes : ∀ b : ℕ, r.2[b]? = s.nodes[b]?.map fun node : TCTNode N I =>
    ({ node with multiforked := isMultiforked r.2 b } : TCTNode N I)
  inTree : ∀ b ∈ P, b < s.nodes.length
  queue : ∀ b, b ∈ r.1.den ↔
    b < s.nodes.length ∧ b ∉ P ∧ (b = 0 ∨ ∃ a ∈ P, s.Parent a b)
  above : ∀ a b, b ∈ P → s.Parent a b → a ∈ P
  marked : ∀ b, isMultiforked r.2 b = true ↔ b ∈ P ∧ s.Multi b

omit [DecidableEq N] [DecidableEq I] in
theorem isMultiforked_set {nodes : List (TCTNode N I)} {id : ℕ} (hid : id < nodes.length)
    (b : ℕ) : isMultiforked (setMultiforked nodes id) b ↔ b = id ∨ isMultiforked nodes b := by
  rw [isMultiforked, getElem?_setMultiforked]
  by_cases hb : b = id
  · subst hb
    rw [if_pos rfl, getElem?_eq_getElem hid]
    simp
  · rw [if_neg hb]
    simp [hb, isMultiforked]

section

variable (hs : Inv G tcgSCC candidateFuncSet attr none s)
include hs

/-- One iteration of `collectMultiForkedThreads`. -/
theorem multiForkStep_spec {P : Finset ℕ}
    {r : FIFOWorkList ℕ × List (TCTNode N I)} (h : Marking s P r) (hne : r.1.isEmpty = false) :
    ∃ r' id, multiForkStep s.edges r = some r' ∧ id ∉ P ∧ Marking s (insert id P) r' := by
  obtain ⟨id, worklist, hpop, hmem, hden⟩ := FIFOWorkList.pop_spec hne
  obtain ⟨hid, hidP, hidQ⟩ := (h.queue id).mp hmem
  -- the parents of what is popped have been popped
  have habove : ∀ a, s.Parent a id → a ∈ P := by
    intro a ha
    rcases hidQ with rfl | ⟨c, hc, hcid⟩
    · exact absurd (hs.edge a 0 ha).1 (not_lt_zero a)
    · exact hs.unique c a id hcid ha ▸ hc
  have hnode : s.nodes[id]? = some s.nodes[id] := getElem?_eq_getElem hid
  have hnode' := h.nodes id
  rw [hnode, Option.map_some] at hnode'
  have hlen : id < r.2.length := (List.getElem?_eq_some_iff.mp hnode').1
  have hparents : ∀ e : ℕ × ℕ, e ∈ s.edges.filter (fun e => e.2 = id) ↔ s.Parent e.1 id ∧ e.2 = id := by
    rintro ⟨a, b⟩
    simp only [List.mem_filter, decide_eq_true_eq, Parent]
    constructor
    · rintro ⟨hab, rfl⟩
      exact ⟨hab, rfl⟩
    · rintro ⟨hab, rfl⟩
      exact ⟨hab, rfl⟩
  -- the node is marked if it has to be
  let marks : Prop := s.Multi id
  have hmarks : ∃ nodes, (if (s.nodes[id]).incycle || (s.nodes[id]).inloop then setMultiforked r.2 id
      else (s.edges.filter fun e => e.2 = id).foldl
        (fun nodes e => if isMultiforked nodes e.1 then setMultiforked nodes id else nodes) r.2) =
          nodes ∧
      ((marks ∧ nodes = setMultiforked r.2 id) ∨ (¬ marks ∧ nodes = r.2)) := by
    refine ⟨_, rfl, ?_⟩
    by_cases hown : ((s.nodes[id]).incycle || (s.nodes[id]).inloop)
    · rw [if_pos hown]
      exact .inl ⟨multi_iff.mpr (.inl ⟨_, hnode, hown⟩), rfl⟩
    · have hnot : ¬ s.OwnMulti id := by
        rintro ⟨node, hn, ho⟩
        rw [hnode] at hn
        exact hown (Option.some.inj hn ▸ ho)
      rw [if_neg hown, markFromParents_spec]
      by_cases hex : ∃ e ∈ s.edges.filter (fun e => e.2 = id), isMultiforked r.2 e.1
      · obtain ⟨e, he, hm⟩ := hex
        rw [if_pos ⟨e, he, hm⟩]
        exact .inl ⟨multi_iff.mpr (.inr ⟨e.1, ((hparents e).mp he).1, ((h.marked _).mp hm).2⟩), rfl⟩
      · rw [if_neg hex]
        refine .inr ⟨fun hmulti => ?_, rfl⟩
        rcases multi_iff.mp hmulti with hown' | ⟨a, ha, hm⟩
        · exact hnot hown'
        · exact hex ⟨(a, id), (hparents _).mpr ⟨ha, rfl⟩, (h.marked a).mpr ⟨habove a ha, hm⟩⟩
  obtain ⟨nodes, hnodes, hcases⟩ := hmarks
  have hmarked : ∀ b, isMultiforked nodes b ↔ (b = id ∧ marks) ∨ isMultiforked r.2 b := by
    intro b
    rcases hcases with ⟨hm, rfl⟩ | ⟨hm, rfl⟩
    · rw [isMultiforked_set hlen]
      exact or_congr_left (and_iff_left hm).symm
    · exact ⟨.inr, fun h => h.resolve_left fun h => hm h.2⟩
  have hsame : ∀ b : ℕ, nodes[b]? = s.nodes[b]?.map fun node : TCTNode N I =>
      ({ node with multiforked := isMultiforked nodes b } : TCTNode N I) := by
    intro b
    rcases hcases with ⟨-, rfl⟩ | ⟨-, rfl⟩
    · by_cases hb : b = id
      · have hset : isMultiforked (setMultiforked r.2 id) b :=
          (isMultiforked_set hlen b).mpr (.inl hb)
        rw [hset, getElem?_setMultiforked, if_pos hb, h.nodes, Option.map_map]
        rfl
      · have hset : isMultiforked (setMultiforked r.2 id) b = isMultiforked r.2 b := by
          rw [Bool.eq_iff_iff, isMultiforked_set hlen]
          exact or_iff_right hb
        rw [hset, getElem?_setMultiforked, if_neg hb, h.nodes]
    · exact h.nodes b
  have hchildren : ((s.edges.filter fun e => e.1 = id).foldl (fun w e => (w.push e.2).2)
      worklist).den = (r.1.den \ {id}) ∪ {b | s.Parent id b} := by
    have hpush := FIFOWorkList.den_pushAll ((s.edges.filter fun e => e.1 = id).map (·.2)) worklist
    rw [List.foldl_map] at hpush
    rw [hpush, hden]
    congr 1
    ext b
    simp only [List.mem_map, List.mem_filter, decide_eq_true_eq, Set.mem_ofPred_eq, Parent]
    constructor
    · rintro ⟨⟨a, b'⟩, ⟨hab, rfl⟩, rfl⟩
      exact hab
    · exact fun hb => ⟨(id, b), ⟨hb, rfl⟩, rfl⟩
  refine ⟨((s.edges.filter fun e => e.1 = id).foldl (fun w e => (w.push e.2).2) worklist, nodes),
    id, ?_, hidP, ?_⟩
  · rw [multiForkStep, hpop]
    simp only
    rw [hnode', Option.map_some]
    exact congrArg (fun n => some (_, n)) hnodes
  · constructor
    case nodes => exact hsame
    case inTree =>
      intro b hb
      rcases mem_insert.mp hb with rfl | hb
      · exact hid
      · exact h.inTree b hb
    case queue =>
      intro b
      show b ∈ FIFOWorkList.den _ ↔ _
      rw [hchildren]
      simp only [Set.mem_union, Set.mem_sdiff, Set.mem_singleton_iff, Set.mem_ofPred_eq, h.queue,
        mem_insert, not_or, exists_eq_or_imp]
      constructor
      · rintro (⟨⟨hb, hbP, hq⟩, hne⟩ | hb)
        · exact ⟨hb, ⟨hne, hbP⟩, hq.imp (fun h0 => h0) .inr⟩
        · have hlt := hs.edge id b hb
          exact ⟨hlt.2, ⟨ne_of_gt hlt.1, fun hbP => hidP (h.above id b hbP hb)⟩, .inr (.inl hb)⟩
      · rintro ⟨hb, ⟨hne, hbP⟩, h0 | hb' | hq⟩
        · exact .inl ⟨⟨hb, hbP, .inl h0⟩, hne⟩
        · exact .inr hb'
        · exact .inl ⟨⟨hb, hbP, .inr hq⟩, hne⟩
    case above =>
      intro a b hb hab
      rcases mem_insert.mp hb with rfl | hb
      · exact mem_insert_of_mem (habove a hab)
      · exact mem_insert_of_mem (h.above a b hb hab)
    case marked =>
      intro b
      refine (hmarked b).trans ?_
      rw [h.marked, mem_insert]
      constructor
      · rintro (⟨rfl, hm⟩ | ⟨hb, hm⟩)
        · exact ⟨.inl rfl, hm⟩
        · exact ⟨.inr hb, hm⟩
      · rintro ⟨rfl | hb, hm⟩
        · exact .inl ⟨rfl, hm⟩
        · exact .inr ⟨hb, hm⟩

theorem Inv.below_root (b : ℕ) (hb : b < s.nodes.length) : ReflTransGen s.Parent 0 b := by
  induction b using Nat.strong_induction_on with
  | _ b ih =>
    by_cases hpos : 0 < b
    · obtain ⟨a, hab⟩ := hs.parent b hpos hb
      have hlt := (hs.edge a b hab).1
      exact (ih a hlt (by omega)).tail hab
    · obtain rfl : b = 0 := by omega
      exact .refl

/-- **The marking stops**, and changes nothing but the marks, which are right. -/
theorem collect_total : ∃ t, Stops s.collectMultiForkedThreads t ∧
      t = { s with nodes := t.nodes } ∧ ∀ b : ℕ, ∀ node, t.nodes[b]? = some node ↔
        ∃ old, s.nodes[b]? = some old ∧ node = { old with multiforked := node.multiforked } ∧
          (node.multiforked ↔ s.Multi b) := by
  by_cases hzero : s.nodes.length = 0
  · refine ⟨s, ⟨0, fun fuel _ => if_pos hzero⟩, rfl, fun b node => ?_⟩
    rw [length_eq_zero_iff.mp hzero]
    simp
  · let start : FIFOWorkList ℕ × List (TCTNode N I) := ((FIFOWorkList.empty.push 0).2, s.nodes)
    have hflag : ∀ b, isMultiforked s.nodes b = false := by
      intro b
      rw [isMultiforked]
      cases hb : s.nodes[b]? with
      | none => rfl
      | some node => exact (hs.attrs b node hb).2
    have hstart : Marking s ∅ start := by
      constructor
      case nodes =>
        intro b
        show s.nodes[b]? = s.nodes[b]?.map fun node : TCTNode N I =>
          ({ node with multiforked := isMultiforked s.nodes b } : TCTNode N I)
        rw [hflag]
        cases hb : s.nodes[b]? with
        | none => rfl
        | some node =>
          rw [map_some, ← (hs.attrs b node hb).2]
      case inTree => exact fun b hb => absurd hb (notMem_empty b)
      case queue =>
        intro b
        show b ∈ (FIFOWorkList.empty.push 0).2.den ↔ _
        rw [FIFOWorkList.den_singleton, Set.mem_singleton_iff]
        constructor
        · rintro rfl
          exact ⟨pos_of_ne_zero hzero, notMem_empty 0, .inl rfl⟩
        · rintro ⟨-, -, h0 | ⟨a, ha, -⟩⟩
          · exact h0
          · exact absurd ha (notMem_empty a)
      case above => exact fun a b hb => absurd hb (notMem_empty b)
      case marked =>
        intro b
        show isMultiforked s.nodes b ↔ _
        rw [hflag]
        exact iff_of_false (by decide) fun h => absurd h.1 (notMem_empty b)
    have hsub : ∀ {P : Finset ℕ} {r}, Marking s P r → P ⊆ Finset.range s.nodes.length :=
      fun h b hb => Finset.mem_range.mpr (h.inTree b hb)
    have hbody : ∀ (P : Finset ℕ) r, Marking s P r → (!r.1.isEmpty) →
        ∃ r' P', multiForkStep s.edges r = some r' ∧ Marking s P' r' ∧
          s.nodes.length - P'.card < s.nodes.length - P.card := by
      intro P r h hc
      obtain ⟨r', id, hstep, hid, h'⟩ := multiForkStep_spec hs h (by simpa using hc)
      refine ⟨r', insert id P, hstep, h', ?_⟩
      have hcard := Finset.card_le_card (hsub h')
      rw [card_insert_of_notMem hid, Finset.card_range] at hcard
      rw [card_insert_of_notMem hid]
      omega
    obtain ⟨r, P, hrun, h, hempty⟩ :=
      whileM_ghost (μ := fun P _ => s.nodes.length - P.card) hbody hstart
    refine ⟨{ s with nodes := r.2 }, ?_, rfl, ?_⟩
    · exact (hrun.map _).congr (n := 0) fun fuel _ => if_neg hzero
    · -- with nothing queued, everything has been popped
      have hnone : r.1.den = ∅ := FIFOWorkList.den_of_isEmpty (by simpa using hempty)
      have hzeroP : 0 ∈ P := by
        by_contra h0
        have : 0 ∈ r.1.den := (h.queue 0).mpr ⟨pos_of_ne_zero hzero, h0, .inl rfl⟩
        rw [hnone] at this
        exact this
      have hall : ∀ b, b < s.nodes.length → b ∈ P := by
        intro b hb
        refine Reach.mem_of_closed (S := {b | b ∈ P}) ?_ (hs.below_root b hb) hzeroP
        intro x y hx hxy
        by_contra hy
        have : y ∈ r.1.den := (h.queue y).mpr ⟨(hs.edge x y hxy).2, hy, .inr ⟨x, hx, hxy⟩⟩
        rw [hnone] at this
        exact this
      intro b node
      show r.2[b]? = some node ↔ _
      have hflags : r.2[b]? = some node → node.multiforked = isMultiforked r.2 b := by
        intro hb
        rw [isMultiforked, hb]
        rfl
      constructor
      · intro hb
        have hb' := h.nodes b
        rw [hb] at hb'
        obtain ⟨old, hold, hnode⟩ := map_eq_some_iff.mp hb'.symm
        refine ⟨old, hold, ?_, ?_⟩
        · rw [hflags hb]
          exact hnode.symm
        · rw [hflags hb, h.marked]
          exact and_iff_right (hall b (List.getElem?_eq_some_iff.mp hold).1)
      · rintro ⟨old, hold, hnode, hmulti⟩
        rw [h.nodes, hold, map_some, hnode]
        have hlt := (List.getElem?_eq_some_iff.mp hold).1
        have heq : isMultiforked r.2 b = node.multiforked := by
          rw [Bool.eq_iff_iff, h.marked, hmulti]
          exact and_iff_right (hall b hlt)
        rw [heq]

end

-- ── The whole construction

/-- With enough fuel, `setMultiForkedAttrs` answers what it should for every fork site. -/
theorem setMultiForkedAttrs_total (hscc : SCCDetection.Components G.scc tcgSCC) :
    ∃ (attr : Option I → Bool × Bool) (n : ℕ),
      (∀ fuel, n < fuel → setMultiForkedAttrs G tcgSCC fuel = fun fork => some (attr fork)) ∧
      attr none = (false, false) ∧
      ∀ i, ((attr (some i)).1 ↔ G.InLoop i) ∧ ((attr (some i)).2 ↔ G.InRecursion i) := by
  choose inloop hloop hloopIff using G.isInLoopInstruction_total
  choose incycle hcycle hcycleIff using G.isInRecursion_total hscc
  obtain ⟨m, hm⟩ := stops_forall (f := inloop) G.insts fun i _ => hloop i
  obtain ⟨n, hn⟩ := stops_forall (f := incycle) G.insts fun i _ => hcycle i
  refine ⟨fun fork => match fork with
    | none => (false, false)
    | some i => (inloop i, incycle i), m + n, fun fuel hf => ?_, rfl,
    fun i => ⟨hloopIff i, hcycleIff i⟩⟩
  funext fork
  cases fork with
  | none => rfl
  | some i =>
    rw [setMultiForkedAttrs, hm fuel (by omega) i (G.insts_all i), bind_some,
      hn fuel (by omega) i (G.insts_all i)]
    rfl

omit [DecidableEq N] in
/-- `collectLoopInfoForJoin()` stops. -/
theorem collectLoopInfoForJoin_total [DecidableEq N] (hscc : SCCDetection.Components G.scc tcgSCC) :
    ∃ sites, Stops (collectLoopInfoForJoin G tcgSCC) sites ∧
      ∀ i, i ∈ sites ↔ i ∈ G.joinsites ∧ G.InRecursion i := by
  have hsite : ∀ (s : Finset I) join, join ∈ G.joinsites → ∃ t,
      Stops (fun fuel => (G.isInRecursion tcgSCC join fuel).map fun inRecursion =>
        if inRecursion then insert join s else s) t ∧
      ∀ i, i ∈ t ↔ i ∈ s ∨ (i = join ∧ G.InRecursion join) := by
    intro s join _
    obtain ⟨b, hb, hiff⟩ := G.isInRecursion_total hscc join
    refine ⟨_, hb.map _, fun i => ?_⟩
    by_cases hc : b
    · rw [if_pos hc, mem_insert, or_comm]
      exact or_congr_right (and_iff_left (hiff.mp hc)).symm
    · rw [if_neg hc]
      exact ⟨.inl, fun h => h.resolve_right fun h => hc (hiff.mpr h.2)⟩
  obtain ⟨t, ht, hmem⟩ := ThreadCallGraph.stops_collect G.joinsites hsite ∅
  refine ⟨t, ht, fun i => ?_⟩
  rw [hmem]
  constructor
  · rintro (h | ⟨join, hjoin, rfl, hrec⟩)
    · exact absurd h (notMem_empty i)
    · exact ⟨hjoin, hrec⟩
  · rintro ⟨hjoin, hrec⟩
    exact .inr ⟨i, hjoin, rfl, hrec⟩

variable (G) in
/-- **`build()` stops**: with the candidates that matter, a walk that has followed every call
    of every triple, and the marks. -/
theorem build_total : ∃ tcgSCC candidateFuncSet attr s t,
    Stops (fun fuel => SCCDetection.find G.scc fuel) tcgSCC ∧
    SCCDetection.Components G.scc tcgSCC ∧
    Stops G.markRelProcs candidateFuncSet ∧ (∀ f, f ∈ candidateFuncSet ↔ G.Relevant f) ∧
    (attr none = (false, false) ∧ ∀ i, ((attr (some i)).1 ↔ G.InLoop i) ∧
      ((attr (some i)).2 ↔ G.InRecursion i)) ∧
    Inv G tcgSCC candidateFuncSet attr none s ∧
    (∀ p ∈ s.visitedCTPs, Handled G tcgSCC candidateFuncSet s p) ∧
    (∀ f ∈ G.collectEntryFunInCallGraph, f ∈ candidateFuncSet → ⟨0, [], f⟩ ∈ s.visitedCTPs) ∧
    Stops (build G) t ∧ t = { s with nodes := t.nodes } ∧
    ∀ b : ℕ, ∀ node, t.nodes[b]? = some node ↔
      ∃ old, s.nodes[b]? = some old ∧ node = { old with multiforked := node.multiforked } ∧
        (node.multiforked ↔ s.Multi b) := by
  obtain ⟨tcgSCC, hfind, hscc⟩ := SCCDetection.find_total G.scc
  obtain ⟨candidateFuncSet, hmark, hcand⟩ := G.markRelProcs_total
  obtain ⟨attr, n, hattrs, hattr⟩ := setMultiForkedAttrs_total hscc
  obtain ⟨sites, hsites, -⟩ := collectLoopInfoForJoin_total hscc
  obtain ⟨s, hwalk, hinv, hhandled, hentries⟩ := walk_total candidateFuncSet attr hscc sites
  obtain ⟨t, hcollect, heq, hnodes⟩ := collect_total hinv
  refine ⟨tcgSCC, candidateFuncSet, attr, s, t, hfind, hscc, hmark, hcand, hattr, hinv, hhandled,
    hentries, ?_, heq, hnodes⟩
  have hwalk' : Stops (fun fuel => walk G tcgSCC candidateFuncSet
      (setMultiForkedAttrs G tcgSCC fuel) (init sites) fuel) s :=
    hwalk.congr fun fuel hf => by rw [hattrs fuel hf]
  exact hfind.bind (hmark.bind (hsites.bind (hwalk'.bind hcollect)))

-- ── More fuel changes no answer

theorem setMultiForkedAttrs_keeps (fork : Option I) :
    Keeps fun fuel => setMultiForkedAttrs G tcgSCC fuel fork := by
  cases fork with
  | none => exact Keeps.const _
  | some i =>
    exact (G.isInLoopInstruction_keeps i).bind fun _ => (G.isInRecursion_keeps tcgSCC i).map _

section

variable (h : ∀ fork, Keeps fun n => attrs n fork)
include h

theorem getOrCreateTCTNode_keeps (s : TCT N I)
    (cxt : CallStrCxt N I) (fork : Option I) (oldCxt : CallStrCxt N I) (routine : N) :
    Keeps fun n => getOrCreateTCTNode (attrs n) s cxt fork oldCxt routine := by
  intro n r hr
  simp only [getOrCreateTCTNode] at hr ⊢
  cases hmap : s.ctpToNodeMap ⟨cxt, fork⟩ with
  | some id =>
    rw [hmap] at hr
    exact hr
  | none =>
    rw [hmap] at hr
    obtain ⟨a, ha, hr⟩ := bind_eq_some_iff.mp hr
    exact bind_eq_some_iff.mpr ⟨a, h fork n a ha, hr⟩

theorem handleCallRelation_keeps (p : CxtThreadProc N I)
    (e : PTACallGraphEdge N I) (s : TCT N I) (cs : I) :
    Keeps fun n => handleCallRelation G tcgSCC candidateFuncSet (attrs n) p e s cs := by
  intro n t ht
  simp only [handleCallRelation] at ht ⊢
  cases hk : e.edgeKind with
  | TDForkEdge =>
    rw [hk] at ht
    obtain ⟨r, hr, rfl⟩ := map_eq_some_iff.mp ht
    exact map_eq_some_iff.mpr ⟨r, getOrCreateTCTNode_keeps h _ _ _ _ _ n r hr, rfl⟩
  | CallRetEdge =>
    rw [hk] at ht
    exact ht
  | TDJoinEdge =>
    rw [hk] at ht
    exact ht
  | HareParForEdge =>
    rw [hk] at ht
    exact ht

theorem processCTP_keeps (s : TCT N I) :
    Keeps fun n => processCTP G tcgSCC candidateFuncSet (attrs n) s := by
  intro n t ht
  simp only [processCTP] at ht ⊢
  cases hpop : s.ctpList.pop with
  | none =>
    rw [hpop] at ht
    cases ht
  | some r =>
    obtain ⟨p, w⟩ := r
    rw [hpop] at ht
    by_cases hc : p.proc ∉ candidateFuncSet
    · exact (if_pos hc).trans ((if_pos hc).symm.trans ht)
    · have ht' := (if_neg hc).symm.trans ht
      refine (if_neg hc).trans ?_
      have hedge : ∀ (s : TCT N I) (e : PTACallGraphEdge N I), Keeps fun n =>
          (e.directCalls.foldlM (handleCallRelation G tcgSCC candidateFuncSet (attrs n) p e) s).bind
            (e.indirectCalls.foldlM (handleCallRelation G tcgSCC candidateFuncSet (attrs n) p e)) :=
        fun s e => (Keeps.foldlM (fun s cs => handleCallRelation_keeps h p e s cs) _ s).bind
          fun s => Keeps.foldlM (fun s cs => handleCallRelation_keeps h p e s cs) _ s
      exact Keeps.foldlM hedge _ _ n t ht'

theorem pushEntry_keeps (s : TCT N I) (entry : N) :
    Keeps fun n => pushEntry candidateFuncSet (attrs n) s entry := by
  intro n t ht
  simp only [pushEntry] at ht ⊢
  by_cases hc : entry ∉ candidateFuncSet
  · rw [if_pos hc] at ht ⊢
    exact ht
  · rw [if_neg hc] at ht ⊢
    exact (getOrCreateTCTNode_keeps h s [] none [] entry).map _ n t ht

end

theorem collectMultiForkedThreads_keeps (s : TCT N I) : Keeps s.collectMultiForkedThreads := by
  intro n t ht
  rw [collectMultiForkedThreads] at ht ⊢
  by_cases hzero : s.nodes.length = 0
  · rw [if_pos hzero] at ht ⊢
    exact ht
  · rw [if_neg hzero] at ht ⊢
    exact (Keeps.whileM (fun r => Keeps.const (multiForkStep s.edges r)) _).map _ n t ht

/-- More fuel does not change what `build()` answers. -/
theorem build_keeps : Keeps (build G) := by
  refine Keeps.bind SCCDetection.find_succ fun tcgSCC => ?_
  refine Keeps.bind G.markRelProcs_keeps fun candidateFuncSet => ?_
  refine Keeps.bind (Keeps.foldlM (fun _ join => (G.isInRecursion_keeps tcgSCC join).map _) _ _)
    fun sites => ?_
  refine Keeps.bind (Keeps.bind (Keeps.foldlM (fun s f => pushEntry_keeps
    setMultiForkedAttrs_keeps s f) _ _) fun s => ?_) collectMultiForkedThreads_keeps
  exact Keeps.whileM (fun s => processCTP_keeps setMultiForkedAttrs_keeps s) s

/-- `c` is a context that the construction has made: of a thread, of a triple of the walk, or
    of a fork. -/
def HasCxt (t : TCT N I) (c : CallStrCxt N I) : Prop :=
  (∃ node ∈ t.nodes, node.ctx.cxt = c) ∨ (∃ p ∈ t.visitedCTPs, p.cxt = c) ∨
  ∃ ct, t.ctToForkCxtMap ct = some c

def IsEntry (t : TCT N I) (b : ℕ) : Prop :=
  ∃ node, t.nodes[b]? = some node ∧ node.ctx.forksite = none

def ForkedInCycle (G : ThreadCallGraph N I) (t : TCT N I) (b : ℕ) : Prop :=
  ∃ node i, t.nodes[b]? = some node ∧ node.ctx.forksite = some i ∧ (G.InLoop i ∨ G.InRecursion i)

end TCT

end SvfTCT
