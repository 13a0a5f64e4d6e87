import SvfModel.TCTProofs

/-!
# `MHP`: the assertions of the interleaving analysis

The analysis walks the program statement by statement, forward through calls and, with
partially matched contexts, backward through returns. It is interested in candidates only: a
function that is not one is passed over at its first instruction. Two assertions guard this:
a statement of a function that is not a candidate is its first instruction, and a fork finds
the node of the thread in the creation tree.

Candidates are closed under callers, except that start routines are added without theirs. The
return of a start routine to a caller that is not a candidate breaks the first assertion
(`assertions_fail`); where that does not happen it holds, and the second holds where no
parallel-for edge is followed or needed to connect a component (**`assertions_hold`**). The
heart is `Known`: the walk that built the tree has been, in the same context, wherever a fork
can still be reached.
-/

namespace SvfMHP

open SvfScc SvfLoop SvfWorkList SvfSCCDetection SvfThreadCallGraph SvfTCT List Option

/-- A thread, a context and a statement. -/
structure CxtThreadStmt (N I : Type) where
  tid : ℕ
  cxt : CallStrCxt N I
  stmt : I
deriving DecidableEq

/-- What the analysis asks `ForkJoinAnalysis`, and about the loops of join sites: nothing is
    assumed of the answers but that exit blocks of a loop are in its function. -/
structure ForkJoinAnalysis (N I : Type) (P : ThreadProgram N I) where
  getDirAndIndJoinedTid : CallStrCxt N I → I → Finset ℕ
  hasJoinLoop : I → Bool
  exitInsts : I → List I
  hasJoinInSymmetricLoop : CallStrCxt N I → I → Bool
  isMustJoin : ℕ → I → Bool
  isHBPair : ℕ → ℕ → Bool
  isRecurFullJoin : ℕ → ℕ → Bool
  exit_in : ∀ i, ∀ j ∈ exitInsts i, P.getFunction j = P.getFunction i

/-- The state of the analysis. -/
structure MHP (N I : Type) [DecidableEq N] [DecidableEq I] where
  threadStmtToTheadInterLeav : CxtThreadStmt N I → Finset ℕ
  instToTSMap : I → Finset (CxtThreadStmt N I)
  cxtStmtList : FIFOWorkList (CxtThreadStmt N I)

variable {N I : Type} [DecidableEq N] [DecidableEq I]

namespace MHP

/-- Before `analyzeInterleaving()`. -/
def init : MHP N I where
  threadStmtToTheadInterLeav := fun _ => ∅
  instToTSMap := fun _ => ∅
  cxtStmtList := FIFOWorkList.empty

/-- The interleavings of a statement have become `tids`, and it is queued. -/
def changed (s : MHP N I) (tgr : CxtThreadStmt N I) (tids : Finset ℕ) : MHP N I where
  threadStmtToTheadInterLeav := Function.update s.threadStmtToTheadInterLeav tgr tids
  instToTSMap :=
    Function.update s.instToTSMap tgr.stmt (insert tgr (s.instToTSMap tgr.stmt))
  cxtStmtList := (s.cxtStmtList.push tgr).2

def addInterleavingTid (s : MHP N I) (tgr : CxtThreadStmt N I) (tid : ℕ) : MHP N I :=
  if tid ∈ s.threadStmtToTheadInterLeav tgr then s
  else s.changed tgr (insert tid (s.threadStmtToTheadInterLeav tgr))

def addInterleavingThread (s : MHP N I) (tgr src : CxtThreadStmt N I) : MHP N I :=
  if s.threadStmtToTheadInterLeav src ⊆ s.threadStmtToTheadInterLeav tgr then s
  else s.changed tgr (s.threadStmtToTheadInterLeav tgr ∪ s.threadStmtToTheadInterLeav src)

section Analysis

variable (P : ThreadProgram N I) (tcgSCC : SCCDetection N) (candidateFuncSet : Finset N)
  (tct : TCT N I) (fja : ForkJoinAnalysis N I P)

def rmInterleavingThread (s : MHP N I) (tgr : CxtThreadStmt N I) (tids : Finset ℕ)
    (joinsite : I) : MHP N I :=
  let joinedTids := tids.filter fun _ => fja.isMustJoin tgr.tid joinsite = true
  if s.threadStmtToTheadInterLeav tgr ∩ joinedTids = ∅ then s
  else { s with
    threadStmtToTheadInterLeav := Function.update s.threadStmtToTheadInterLeav tgr
      (s.threadStmtToTheadInterLeav tgr \ joinedTids)
    cxtStmtList := (s.cxtStmtList.push tgr).2 }

def callEdges (cs : I) : List (PTACallGraphEdge N I) := P.edges.filter fun e => cs ∈ e.calls

section

variable (s : MHP N I)

def handleIntra (cts : CxtThreadStmt N I) : MHP N I :=
  (P.succInsts cts.stmt).foldl
    (fun s ni => s.addInterleavingThread ⟨cts.tid, cts.cxt, ni⟩ cts) s

def handleNonCandidateFun (cts : CxtThreadStmt N I) : Option (MHP N I) :=
  let curfun := P.getFunction cts.stmt
  if P.entryInst curfun = some cts.stmt then
    (P.outEdges curfun).foldlM
      (fun s e =>
        if P.isExtCall e.dstID then some s
        else (P.entryInst e.dstID).map fun calleeInst =>
          s.addInterleavingThread ⟨cts.tid, cts.cxt, calleeInst⟩ cts) s
  else none

def handleFork (cts : CxtThreadStmt N I) : Option (MHP N I) :=
  let call := cts.stmt
  ((if callEdges P call = [] then some s
    else (P.forkEdges call).foldlM
      (fun s e =>
        let newCxt := TCT.pushCxt P.toThreadCallGraph tcgSCC candidateFuncSet cts.cxt call e.dstID
        (P.entryInst e.dstID).bind fun stmt =>
          (tct.ctpToNodeMap ⟨newCxt, some call⟩).map fun id =>
            s.addInterleavingThread ⟨id, newCxt, stmt⟩ cts) s)).map
    fun s => handleIntra P s cts

def handleJoin (cts : CxtThreadStmt N I) : MHP N I :=
  let call := cts.stmt
  let joinedTids := fja.getDirAndIndJoinedTid cts.cxt call
  let s :=
    if joinedTids ≠ ∅ then
      if fja.hasJoinLoop call then
        (fja.exitInsts call).foldl
          (fun s svfEntryInst =>
            let newCts : CxtThreadStmt N I := ⟨cts.tid, cts.cxt, svfEntryInst⟩
            let s := s.addInterleavingThread newCts cts
            if fja.hasJoinInSymmetricLoop cts.cxt call then
              rmInterleavingThread P fja s newCts joinedTids call
            else s) s
      else rmInterleavingThread P fja s cts joinedTids call
    else if fja.hasJoinLoop call then
      (fja.exitInsts call).foldl
        (fun s svfEntryInst => s.addInterleavingThread ⟨cts.tid, cts.cxt, svfEntryInst⟩ cts) s
    else s
  handleIntra P s cts

def handleCall (cts : CxtThreadStmt N I) : Option (MHP N I) :=
  let call := cts.stmt
  (callEdges P call).foldlM
    (fun s e =>
      if P.isExtCall e.dstID then some s
      else
        let newCxt := TCT.pushCxt P.toThreadCallGraph tcgSCC candidateFuncSet cts.cxt call e.dstID
        (P.entryInst e.dstID).map fun svfEntryInst =>
          s.addInterleavingThread ⟨cts.tid, newCxt, svfEntryInst⟩ cts) s

end

def returnTo (cts : CxtThreadStmt N I) (s : MHP N I) (cs : I) : MHP N I :=
  match TCT.matchCxt P.toThreadCallGraph tcgSCC candidateFuncSet cts.cxt cs
    (P.getFunction cts.stmt) with
  | none => s
  | some newCxt =>
    (P.succInsts cs).foldl (fun s ni => s.addInterleavingThread ⟨cts.tid, newCxt, ni⟩ cts) s

def handleRet (s : MHP N I) (cts : CxtThreadStmt N I) : MHP N I :=
  (P.inEdges (P.getFunction cts.stmt)).foldl
    (fun s e =>
      if e.edgeKind = .TDForkEdge ∨ e.edgeKind = .TDJoinEdge then s
      else e.indirectCalls.foldl (returnTo P tcgSCC candidateFuncSet cts)
        (e.directCalls.foldl (returnTo P tcgSCC candidateFuncSet cts) s)) s

/-- The body of the loop of `analyzeInterleaving()`, after the pop. -/
def handle (s : MHP N I) (cts : CxtThreadStmt N I) : Option (MHP N I) :=
  let curInst := cts.stmt
  if P.getFunction curInst ∉ candidateFuncSet then handleNonCandidateFun P s cts
  else if curInst ∈ P.forksites then handleFork P tcgSCC candidateFuncSet tct s cts
  else if curInst ∈ P.joinsites then some (handleJoin P fja s cts)
  else if P.isCallSite curInst && !P.isExtCallInst curInst then
    (handleCall P tcgSCC candidateFuncSet s cts).map fun s =>
      if ∃ e ∈ callEdges P curInst, e.dstID ∈ candidateFuncSet then s else handleIntra P s cts
  else if P.isRetInst curInst then some (handleRet P tcgSCC candidateFuncSet s cts)
  else some (handleIntra P s cts)

def getParentThread (tid : ℕ) : Option ℕ :=
  match tct.edges.filter fun e => e.2 = tid with
  | [e] => some e.1
  | _ => none

/-- The loop of `getAncestorThread`: each round adds a node, so the number of nodes bounds
    it. -/
def ancestors : ℕ → ℕ → Finset ℕ → Finset ℕ
  | 0, _, tds => tds
  | fuel + 1, t, tds =>
    if t ∈ tds then tds
    else
      match getParentThread tct t with
      | none => insert t tds
      | some p => ancestors fuel p (insert t tds)

def getAncestorThread (tid : ℕ) : Finset ℕ :=
  match getParentThread tct tid with
  | none => ∅
  | some p => ancestors tct tct.nodes.length p ∅

def getSiblingThread (tid : ℕ) : List ℕ :=
  match getParentThread tct tid with
  | none => []
  | some p => ((tct.edges.filter fun e => e.1 = p).map (·.2)).filter fun child => child ≠ tid

def withAncestors (curTid : ℕ) : List ℕ :=
  (List.range tct.nodes.length).filter fun i => i ∈ insert curTid (getAncestorThread tct curTid)

def updateAncestorThreads (s : MHP N I) (curTid : ℕ) : Option (MHP N I) :=
  (withAncestors tct curTid).foldlM
    (fun s i => (tct.nodes[i]?).bind fun node =>
      match node.ctx.forksite with
      | none => some s
      | some forkInst =>
        (tct.ctToForkCxtMap node.ctx).bind fun forkSiteCxt =>
          (P.succInsts forkInst).foldlM
            (fun s ni => (getParentThread tct i).map fun p =>
              s.addInterleavingTid ⟨p, forkSiteCxt, ni⟩ curTid) s) s

/-- The first statement of a thread: in its start routine, in its context. -/
def rootStmt (tid : ℕ) : Option (CxtThreadStmt N I) :=
  (tct.nodes[tid]?).bind fun node =>
    (tct.ctToRoutineFunMap node.ctx).bind fun routine =>
      (P.entryInst routine).map fun svfInst => ⟨tid, node.ctx.cxt, svfInst⟩

def updateSiblingThreads (s : MHP N I) (curTid : ℕ) : Option (MHP N I) :=
  (withAncestors tct curTid).foldlM
    (fun s tid => (getSiblingThread tct tid).foldlM
      (fun s stid =>
        if (fja.isHBPair tid stid && fja.isRecurFullJoin tid curTid) || fja.isHBPair stid tid then
          some s
        else (rootStmt P tct stid).map fun cts => s.addInterleavingTid cts curTid) s) s

/-- What `analyzeInterleaving()` does for a node of the tree, before the loop. -/
def startRoot (s : MHP N I) (rootTid : ℕ) : Option (MHP N I) :=
  (rootStmt P tct rootTid).bind fun rootcts =>
    (updateAncestorThreads P tct (s.addInterleavingTid rootcts rootTid) rootTid).bind fun s =>
      updateSiblingThreads P tct fja s rootTid

/-- The runs of `analyzeInterleaving()` over the nodes `order` of the tree: what is left of
    them, and the state, before each test of the loop. Every statement that has been handled
    meets `C`. -/
inductive Runs (C : CxtThreadStmt N I → Prop) (order : List ℕ) : List ℕ → MHP N I → Prop
  | init : Runs C order order MHP.init
  | root {tid : ℕ} {rest : List ℕ} {s s' : MHP N I} (h : Runs C order (tid :: rest) s)
      (hempty : s.cxtStmtList.isEmpty = true) (hstart : startRoot P tct fja s tid = some s') :
      Runs C order rest s'
  | iter {rest : List ℕ} {s s' : MHP N I} {cts : CxtThreadStmt N I}
      {w : FIFOWorkList (CxtThreadStmt N I)} (h : Runs C order rest s)
      (hpop : s.cxtStmtList.pop = some (cts, w)) (hC : C cts)
      (hhandle : handle P tcgSCC candidateFuncSet tct fja { s with cxtStmtList := w } cts = some s') :
      Runs C order rest s'

-- ── What a statement leads to

/-- What handling `cts` may queue. -/
inductive Next (cts : CxtThreadStmt N I) : CxtThreadStmt N I → Prop
  | skip {e : PTACallGraphEdge N I} {i : I} (hcand : P.getFunction cts.stmt ∉ candidateFuncSet)
      (he : e ∈ P.outEdges (P.getFunction cts.stmt)) (hi : P.entryInst e.dstID = some i) :
      Next cts ⟨cts.tid, cts.cxt, i⟩
  | intra {i : I} (hcand : P.getFunction cts.stmt ∈ candidateFuncSet)
      (hi : i ∈ P.succInsts cts.stmt) : Next cts ⟨cts.tid, cts.cxt, i⟩
  | exit {i : I} (hcand : P.getFunction cts.stmt ∈ candidateFuncSet)
      (hi : i ∈ fja.exitInsts cts.stmt) : Next cts ⟨cts.tid, cts.cxt, i⟩
  | again (hcand : P.getFunction cts.stmt ∈ candidateFuncSet) : Next cts cts
  | fork {e : PTACallGraphEdge N I} {i : I} {id : ℕ}
      (hcand : P.getFunction cts.stmt ∈ candidateFuncSet) (he : e ∈ P.forkEdges cts.stmt)
      (hi : P.entryInst e.dstID = some i)
      (hid : tct.ctpToNodeMap ⟨TCT.pushCxt P.toThreadCallGraph tcgSCC candidateFuncSet cts.cxt
        cts.stmt e.dstID, some cts.stmt⟩ = some id) :
      Next cts ⟨id, TCT.pushCxt P.toThreadCallGraph tcgSCC candidateFuncSet cts.cxt cts.stmt
        e.dstID, i⟩
  | call {e : PTACallGraphEdge N I} {i : I}
      (hcand : P.getFunction cts.stmt ∈ candidateFuncSet) (hfork : cts.stmt ∉ P.forksites)
      (hjoin : cts.stmt ∉ P.joinsites) (hcall : P.isCallSite cts.stmt = true)
      (hext : P.isExtCallInst cts.stmt = false) (he : e ∈ callEdges P cts.stmt)
      (hi : P.entryInst e.dstID = some i) :
      Next cts ⟨cts.tid, TCT.pushCxt P.toThreadCallGraph tcgSCC candidateFuncSet cts.cxt
        cts.stmt e.dstID, i⟩
  | ret {e : PTACallGraphEdge N I} {cs i : I} {cxt : CallStrCxt N I}
      (hcand : P.getFunction cts.stmt ∈ candidateFuncSet) (hret : P.isRetInst cts.stmt = true)
      (he : e ∈ P.inEdges (P.getFunction cts.stmt)) (hkind : e.edgeKind ≠ .TDForkEdge)
      (hcs : cs ∈ e.calls) (hmatch : TCT.matchCxt P.toThreadCallGraph tcgSCC candidateFuncSet
        cts.cxt cs (P.getFunction cts.stmt) = some cxt) (hi : i ∈ P.succInsts cs) :
      Next cts ⟨cts.tid, cxt, i⟩

/-- What beginning with a node may queue. -/
inductive Rooted : CxtThreadStmt N I → Prop
  | start {tid : ℕ} {d : CxtThreadStmt N I} (h : rootStmt P tct tid = some d) : Rooted d
  | afterFork {b p : ℕ} {node : TCTNode N I} {forkInst i : I} {cxt : CallStrCxt N I}
      (hnode : tct.nodes[b]? = some node) (hfork : node.ctx.forksite = some forkInst)
      (hcxt : tct.ctToForkCxtMap node.ctx = some cxt) (hi : i ∈ P.succInsts forkInst) :
      Rooted ⟨p, cxt, i⟩

/-- How a statement is come to: in a candidate, in a function that is not external, behind
    another statement, or as the first one of a start routine. -/
inductive Entered (d : CxtThreadStmt N I) : Prop
  | candidate (hcand : P.getFunction d.stmt ∈ candidateFuncSet) : Entered d
  | body (hext : P.isExtCall (P.getFunction d.stmt) = false) : Entered d
  | behind {i : I} (hi : d.stmt ∈ P.succInsts i) : Entered d
  | routine {cs : I} {e : PTACallGraphEdge N I} (hcs : cs ∈ P.forksites)
      (he : e ∈ P.forkEdges cs) (hdst : e.dstID = P.getFunction d.stmt) : Entered d

def Queued (Q : CxtThreadStmt N I → Prop) (s : MHP N I) : Prop := ∀ d ∈ s.cxtStmtList.den, Q d

variable {P tcgSCC candidateFuncSet tct fja} {Q : CxtThreadStmt N I → Prop}

/-- `R` stays when the set of a statement that meets `Q` changes. -/
structure Closed (P : ThreadProgram N I) (fja : ForkJoinAnalysis N I P)
    (Q : CxtThreadStmt N I → Prop) (R : MHP N I → Prop) : Prop where
  addTid : ∀ s tgr tid, R s → Q tgr → R (s.addInterleavingTid tgr tid)
  add : ∀ s tgr src, R s → Q tgr → R (s.addInterleavingThread tgr src)
  rm : ∀ s tgr tids joinsite, R s → Q tgr → R (rmInterleavingThread P fja s tgr tids joinsite)

variable {s : MHP N I} {cts : CxtThreadStmt N I} {tgr : CxtThreadStmt N I}

variable {R : MHP N I → Prop}

section

variable (hR : Closed P fja Q R)
include hR

theorem Closed.intra (h : R s) (hQ : ∀ i ∈ P.succInsts cts.stmt, Q ⟨cts.tid, cts.cxt, i⟩) :
    R (handleIntra P s cts) :=
  foldl_keeps _ s (fun s i hi hs => hR.add s _ cts hs (hQ i hi)) h

theorem Closed.join (h : R s) (hself : Q cts)
    (hexit : ∀ i ∈ fja.exitInsts cts.stmt, Q ⟨cts.tid, cts.cxt, i⟩)
    (hQ : ∀ i ∈ P.succInsts cts.stmt, Q ⟨cts.tid, cts.cxt, i⟩) :
    R (handleJoin P fja s cts) := by
  rw [handleJoin]
  refine hR.intra ?_ hQ
  by_cases hj : fja.getDirAndIndJoinedTid cts.cxt cts.stmt ≠ ∅
  · rw [if_pos hj]
    by_cases hl : fja.hasJoinLoop cts.stmt
    · rw [if_pos hl]
      refine foldl_keeps _ s (fun s i hi hs => ?_) h
      by_cases hsym : fja.hasJoinInSymmetricLoop cts.cxt cts.stmt
      · rw [if_pos hsym]
        exact hR.rm _ _ _ _ (hR.add s _ cts hs (hexit i hi)) (hexit i hi)
      · rw [if_neg hsym]
        exact hR.add s _ cts hs (hexit i hi)
    · rw [if_neg hl]
      exact hR.rm s cts _ _ h hself
  · rw [if_neg hj]
    by_cases hl : fja.hasJoinLoop cts.stmt
    · rw [if_pos hl]
      exact foldl_keeps _ s (fun s i hi hs => hR.add s _ cts hs (hexit i hi)) h
    · rw [if_neg hl]
      exact h

theorem Closed.ret (h : R s)
    (hQ : ∀ e ∈ P.inEdges (P.getFunction cts.stmt), e.edgeKind ≠ .TDForkEdge → ∀ cs ∈ e.calls,
      ∀ cxt, TCT.matchCxt P.toThreadCallGraph tcgSCC candidateFuncSet cts.cxt cs
        (P.getFunction cts.stmt) = some cxt → ∀ i ∈ P.succInsts cs, Q ⟨cts.tid, cxt, i⟩) :
    R (handleRet P tcgSCC candidateFuncSet s cts) := by
  refine foldl_keeps _ s (fun s e he hs => ?_) h
  by_cases hk : e.edgeKind = .TDForkEdge ∨ e.edgeKind = .TDJoinEdge
  · rw [if_pos hk]
    exact hs
  · rw [if_neg hk, not_or] at *
    have hone : ∀ s cs, cs ∈ e.calls → R s → R (returnTo P tcgSCC candidateFuncSet cts s cs) := by
      intro s cs hcs hs
      rw [returnTo]
      cases hm : TCT.matchCxt P.toThreadCallGraph tcgSCC candidateFuncSet cts.cxt cs
          (P.getFunction cts.stmt) with
      | none => exact hs
      | some cxt =>
        exact foldl_keeps _ s
          (fun s i hi hs => hR.add s _ cts hs (hQ e he hk.1 cs hcs cxt hm i hi)) hs
    exact foldl_keeps _ _ (fun s cs hcs => hone s cs (mem_append_right _ hcs))
      (foldl_keeps _ s (fun s cs hcs => hone s cs (mem_append_left _ hcs)) hs)

/-- **One statement.** Handling it changes what it leads to and nothing else. -/
theorem Closed.handle {s s' : MHP N I} (h : R s)
    (hrun : handle P tcgSCC candidateFuncSet tct fja s cts = some s')
    (hQ : ∀ d, Next P tcgSCC candidateFuncSet tct fja cts d → Entered P candidateFuncSet d → Q d) :
    R s' := by
  rw [MHP.handle] at hrun
  by_cases hcand : P.getFunction cts.stmt ∈ candidateFuncSet
  · rw [if_neg (not_not_intro hcand)] at hrun
    have hintra : ∀ i ∈ P.succInsts cts.stmt, Q ⟨cts.tid, cts.cxt, i⟩ :=
      fun i hi => hQ _ (.intra hcand hi) (.behind hi)
    by_cases hfork : cts.stmt ∈ P.forksites
    · rw [if_pos hfork, handleFork] at hrun
      obtain ⟨t, ht, rfl⟩ := map_eq_some_iff.mp hrun
      refine hR.intra ?_ hintra
      by_cases hc : callEdges P cts.stmt = []
      · rw [if_pos hc] at ht
        exact some.inj ht ▸ h
      · rw [if_neg hc] at ht
        refine foldlM_keeps _ s t (fun s e t he hs ht => ?_) h ht
        obtain ⟨i, hi, ht⟩ := bind_eq_some_iff.mp ht
        obtain ⟨id, hid, rfl⟩ := map_eq_some_iff.mp ht
        exact hR.add s _ cts hs (hQ _ (.fork hcand he hi hid)
          (.routine hfork he (P.entry_in _ _ hi).symm))
    · rw [if_neg hfork] at hrun
      by_cases hjoin : cts.stmt ∈ P.joinsites
      · rw [if_pos hjoin] at hrun
        cases hrun
        exact hR.join h (hQ _ (.again hcand) (.candidate hcand)) (fun i hi => hQ _ (.exit hcand hi)
            (.candidate ((fja.exit_in _ _ hi).symm ▸ hcand))) hintra
      · rw [if_neg hjoin] at hrun
        by_cases hcall : (P.isCallSite cts.stmt && !P.isExtCallInst cts.stmt)
        · rw [if_pos hcall] at hrun
          rw [Bool.and_eq_true, Bool.not_eq_true'] at hcall
          obtain ⟨t, ht, rfl⟩ := map_eq_some_iff.mp hrun
          have htQ : R t := by
            refine foldlM_keeps _ s t (fun s e t he hs ht => ?_) h ht
            by_cases hext : P.isExtCall e.dstID
            · rw [if_pos hext] at ht
              exact some.inj ht ▸ hs
            · rw [if_neg hext] at ht
              obtain ⟨i, hi, rfl⟩ := map_eq_some_iff.mp ht
              refine hR.add s _ cts hs
                (hQ _ (.call hcand hfork hjoin hcall.1 hcall.2 he hi) (.body ?_))
              rw [P.entry_in _ _ hi]
              exact Bool.eq_false_of_not_eq_true hext
          by_cases hin : ∃ e ∈ callEdges P cts.stmt, e.dstID ∈ candidateFuncSet
          · rw [if_pos hin]
            exact htQ
          · rw [if_neg hin]
            exact hR.intra htQ hintra
        · rw [if_neg hcall] at hrun
          by_cases hret : P.isRetInst cts.stmt
          · rw [if_pos hret] at hrun
            cases hrun
            exact hR.ret h fun e he hk cs hcs cxt hm i hi =>
              hQ _ (.ret hcand hret he hk hcs hm hi) (.behind hi)
          · rw [if_neg hret] at hrun
            cases hrun
            exact hR.intra h hintra
  · rw [if_pos hcand, handleNonCandidateFun] at hrun
    by_cases hentry : P.entryInst (P.getFunction cts.stmt) = some cts.stmt
    · rw [if_pos hentry] at hrun
      refine foldlM_keeps _ s s' (fun s e t he hs ht => ?_) h hrun
      by_cases hext : P.isExtCall e.dstID
      · rw [if_pos hext] at ht
        exact some.inj ht ▸ hs
      · rw [if_neg hext] at ht
        obtain ⟨i, hi, rfl⟩ := map_eq_some_iff.mp ht
        refine hR.add s _ cts hs (hQ _ (.skip hcand he hi) (.body ?_))
        rw [P.entry_in _ _ hi]
        exact Bool.eq_false_of_not_eq_true hext
    · rw [if_neg hentry] at hrun
      cases hrun

theorem Closed.startRoot {s s' : MHP N I} {rootTid : ℕ} (h : R s)
    (hrun : startRoot P tct fja s rootTid = some s') (hQ : ∀ d, Rooted P tct d → Q d) :
    R s' := by
  obtain ⟨d, hd, hrun⟩ := bind_eq_some_iff.mp hrun
  obtain ⟨t, ht, hrun⟩ := bind_eq_some_iff.mp hrun
  have hstart : R (s.addInterleavingTid d rootTid) := hR.addTid s d rootTid h (hQ d (.start hd))
  have htQ : R t := by
    refine foldlM_keeps _ _ t (fun s b t _ hs ht => ?_) hstart ht
    obtain ⟨node, hnode, ht⟩ := bind_eq_some_iff.mp ht
    cases hfork : node.ctx.forksite with
    | none =>
      rw [hfork] at ht
      exact some.inj ht ▸ hs
    | some forkInst =>
      rw [hfork] at ht
      obtain ⟨cxt, hcxt, ht⟩ := bind_eq_some_iff.mp ht
      refine foldlM_keeps _ s t (fun s i t hi hs ht => ?_) hs ht
      obtain ⟨p, -, rfl⟩ := map_eq_some_iff.mp ht
      exact hR.addTid s _ _ hs (hQ _ (.afterFork hnode hfork hcxt hi))
  refine foldlM_keeps _ t s' (fun s tid t _ hs ht => ?_) htQ hrun
  refine foldlM_keeps _ s t (fun s stid t _ hs ht => ?_) hs ht
  by_cases hb : ((fja.isHBPair tid stid && fja.isRecurFullJoin tid rootTid) ||
      fja.isHBPair stid tid)
  · rw [if_pos hb] at ht
    exact some.inj ht ▸ hs
  · rw [if_neg hb] at ht
    obtain ⟨d, hd, rfl⟩ := map_eq_some_iff.mp ht
    exact hR.addTid s d _ hs (hQ d (.start hd))

end

section

variable (h : Queued Q s)
include h

theorem Queued.push (hQ : Q tgr) : ∀ d ∈ (s.cxtStmtList.push tgr).2.den, Q d := by
  intro d hd
  rw [FIFOWorkList.den_push] at hd
  rcases hd with rfl | hd
  · exact hQ
  · exact h d hd

theorem Queued.addTid (hQ : Q tgr) (tid : ℕ)
    : Queued Q (s.addInterleavingTid tgr tid) := by
  rw [addInterleavingTid]
  by_cases hm : tid ∈ s.threadStmtToTheadInterLeav tgr
  · rw [if_pos hm]
    exact h
  · rw [if_neg hm]
    exact h.push hQ

theorem Queued.add (hQ : Q tgr) (src : CxtThreadStmt N I)
    : Queued Q (s.addInterleavingThread tgr src) := by
  rw [addInterleavingThread]
  by_cases hm : s.threadStmtToTheadInterLeav src ⊆ s.threadStmtToTheadInterLeav tgr
  · rw [if_pos hm]
    exact h
  · rw [if_neg hm]
    exact h.push hQ

theorem Queued.rm (hQ : Q tgr) (tids : Finset ℕ) (join : I)
    : Queued Q (rmInterleavingThread P fja s tgr tids join) := by
  rw [rmInterleavingThread]
  by_cases hm : s.threadStmtToTheadInterLeav tgr ∩
      (tids.filter fun _ => fja.isMustJoin tgr.tid join) = ∅
  · exact (if_pos hm).symm ▸ h
  · exact (if_neg hm).symm ▸ h.push hQ

end

theorem Queued.closed : Closed P fja Q (Queued Q) where
  addTid := fun _ _ tid h hQ => h.addTid hQ tid
  add := fun _ _ src h hQ => h.add hQ src
  rm := fun _ _ tids joinsite h hQ => h.rm hQ tids joinsite

/-- **Runs.** What holds of the roots and is passed on by every statement that is handled
    holds of everything that is ever queued. -/
theorem Runs.queued {C : CxtThreadStmt N I → Prop} {order rest : List ℕ}
    (h : Runs P tcgSCC candidateFuncSet tct fja C order rest s) (hroot : ∀ d, Rooted P tct d → Q d)
    (hnext : ∀ cts d, Q cts → C cts → Next P tcgSCC candidateFuncSet tct fja cts d → Q d) :
    Queued Q s := by
  induction h with
  | init =>
    intro d hd
    cases hd
  | root h hempty hstart ih => exact Queued.closed.startRoot ih hstart hroot
  | @iter rest s s' cts w h hpop hC hhandle ih =>
    obtain ⟨hmem, hden⟩ := FIFOWorkList.pop_some hpop
    have hw : Queued Q { s with cxtStmtList := w } := by
      intro d hd
      have hd' : d ∈ w.den := hd
      rw [hden] at hd'
      exact ih d hd'.1
    exact Queued.closed.handle hw hhandle (fun d hd _ => hnext cts d (ih cts hmem) hC hd)

-- ── The walk of the tree has been there

def Forking (P : ThreadProgram N I) (f : N) : Prop :=
  ∃ cs, (cs ∈ P.forksites ∨ cs ∈ P.joinsites) ∧ Reach P.Edge f (P.getFunction cs)

omit [DecidableEq I] in
theorem Forking.of_reach {f g : N} (h : Forking P g) (hfg : Reach P.Edge f g) : Forking P f := by
  obtain ⟨cs, hcs, hreach⟩ := h
  exact ⟨cs, hcs, hfg.trans hreach⟩

/-- No parallel-for edge connects two functions of one component. -/
def ParForAcyclic (P : ThreadProgram N I) : Prop :=
  ∀ e ∈ P.edges, e.edgeKind = .HareParForEdge → ¬ Mutual P.Edge e.srcID e.dstID

/-- What the walk that built the tree leaves, as far as it is needed here. -/
structure Built (P : ThreadProgram N I) (tcgSCC : SCCDetection N) (candidateFuncSet : Finset N)
    (tct : TCT N I) : Prop where
  scc : SCCDetection.Components P.scc tcgSCC
  cand : ∀ f, Forking P f → f ∈ candidateFuncSet
  walked : ∀ p ∈ tct.visitedCTPs, TCT.Walked P.toThreadCallGraph candidateFuncSet tct p.cxt p.proc
  handled : ∀ p ∈ tct.visitedCTPs, TCT.Handled P.toThreadCallGraph tcgSCC candidateFuncSet tct p
  routine : ∀ ct r, tct.ctToRoutineFunMap ct = some r → ∃ b, ⟨b, ct.cxt, r⟩ ∈ tct.visitedCTPs
  forkCxt : ∀ ct cxt i, tct.ctToForkCxtMap ct = some cxt → ct.forksite = some i →
    ∃ t, ⟨t, cxt, P.getFunction i⟩ ∈ tct.visitedCTPs
  forker : ∀ (b : ℕ) (node : TCTNode N I) i, tct.nodes[b]? = some node → node.ctx.forksite = some i →
    P.getFunction i ∈ candidateFuncSet

/-- What is known of a context and the function it is at: if a fork can still be reached, the
    walk has been there, and before that at the callers in the context. -/
structure Known (P : ThreadProgram N I) (candidateFuncSet : Finset N) (tct : TCT N I)
    (c : CallStrCxt N I) (x : N) : Prop where
  here : Forking P x → ∃ t, ⟨t, c, x⟩ ∈ tct.visitedCTPs
  callers : ∀ c' cs h z, c = c' ++ (cs, h) :: z → Forking P (P.getFunction cs) →
    ∃ t, ⟨t, c', P.getFunction cs⟩ ∈ tct.visitedCTPs
  root : c = [] → P.hasIncomingEdge x = false ∧ x ∈ candidateFuncSet
  rootCaller : ∀ cs h z, c = (cs, h) :: z →
    P.hasIncomingEdge (P.getFunction cs) = false ∧ P.getFunction cs ∈ candidateFuncSet

section

variable (h : Built P tcgSCC candidateFuncSet tct)
include h

theorem Built.known {p : CxtThreadProc N I}
    (hp : p ∈ tct.visitedCTPs) : Known P candidateFuncSet tct p.cxt p.proc := by
  have hw := h.walked p hp
  refine ⟨fun _ => ⟨p.tid, hp⟩, fun c' cs h z heq _ => hw.prefixes c' cs h z heq, hw.root, ?_⟩
  intro cs g z heq
  obtain ⟨t, ht⟩ := hw.prefixes [] cs g z heq
  exact (h.walked _ ht).root rfl

/-- Inside a component a context does not change, so where the walk has been in one of its
    functions it has been in all. -/
theorem Built.component (hpar : ParForAcyclic P)
    {c : CallStrCxt N I} {x y : N} (hxy : Reach P.Edge x y) :
    Reach P.Edge y x → Forking P y → (∃ t, ⟨t, c, x⟩ ∈ tct.visitedCTPs) →
      ∃ t, ⟨t, c, y⟩ ∈ tct.visitedCTPs := by
  induction hxy with
  | refl => exact fun _ _ hx => hx
  | @tail z y hxz hzy ih =>
    intro hyx hy hx
    have hzy' : Reach P.Edge z y := .single hzy
    obtain ⟨t, ht⟩ := ih (hzy'.trans hyx) (hy.of_reach hzy') hx
    have hm : Mutual P.Edge z y := ⟨hzy', hyx.trans hxz⟩
    have hcand : z ∈ candidateFuncSet := h.cand z (hy.of_reach hzy')
    obtain ⟨e, he, rfl, rfl⟩ := P.edge_iff.mp hzy
    obtain ⟨cs, hcs⟩ := exists_mem_of_ne_nil _ (P.calls_ne e he)
    have hfn : P.getFunction cs = e.srcID := P.calls_in e he cs hcs
    have hdone := h.handled _ ht hcand e (mem_filter.mpr ⟨he, decide_eq_true rfl⟩) cs hcs
    have hcxt : TCT.calleeCxt P.toThreadCallGraph tcgSCC candidateFuncSet ⟨t, c, e.srcID⟩ cs
        e.dstID = c := by
      rcases TCT.pushCxt_of_mem h.scc c e.dstID (hfn.symm ▸ hcand) with ⟨-, heq⟩ | ⟨hnm, -⟩
      · exact heq
      · exact absurd (hfn.symm ▸ hm) hnm
    cases hk : e.edgeKind with
    | CallRetEdge => exact ⟨t, hcxt ▸ hdone.call hk⟩
    | TDForkEdge =>
      obtain ⟨b, -, hv⟩ := hdone.fork hk
      rw [hcxt] at hv
      exact ⟨b, hv⟩
    | TDJoinEdge => exact absurd hk (P.join_out e he)
    | HareParForEdge => exact absurd hm (hpar e he hk)

theorem Known.callee {c : CallStrCxt N I} {cs : I}
    {e : PTACallGraphEdge N I} (hk : Known P candidateFuncSet tct c (P.getFunction cs))
    (hcand : P.getFunction cs ∈ candidateFuncSet) (he : e ∈ P.edges) (hcs : cs ∈ e.calls)
    (hkind : e.edgeKind ≠ .HareParForEdge) :
    Known P candidateFuncSet tct
      (TCT.pushCxt P.toThreadCallGraph tcgSCC candidateFuncSet c cs e.dstID) e.dstID := by
  have hfn : P.getFunction cs = e.srcID := P.calls_in e he cs hcs
  have hedge : P.Edge (P.getFunction cs) e.dstID := P.edge_iff.mpr ⟨e, he, hfn.symm, rfl⟩
  have hcases := TCT.pushCxt_of_mem h.scc c e.dstID hcand
  constructor
  case here =>
    intro hf
    obtain ⟨t, ht⟩ := hk.here (hf.of_reach (.single hedge))
    have hdone := h.handled _ ht hcand e (mem_filter.mpr ⟨he, decide_eq_true hfn.symm⟩) cs hcs
    cases hkd : e.edgeKind with
    | CallRetEdge => exact ⟨t, hdone.call hkd⟩
    | TDForkEdge =>
      obtain ⟨b, -, hv⟩ := hdone.fork hkd
      exact ⟨b, hv⟩
    | TDJoinEdge => exact absurd hkd (P.join_out e he)
    | HareParForEdge => exact absurd hkd hkind
  case callers =>
    intro c' cs' h' z heq hf
    rcases hcases with ⟨-, hc⟩ | ⟨-, hc⟩
    · exact hk.callers c' cs' h' z (hc.symm.trans heq) hf
    · rw [hc] at heq
      rcases eq_nil_or_concat z with rfl | ⟨z, q, rfl⟩
      · obtain ⟨rfl, hlast⟩ := append_inj' heq rfl
        obtain ⟨rfl, -⟩ := Prod.mk.inj (List.cons.inj hlast).1
        exact hk.here hf
      · rw [concat_eq_append, ← cons_append, ← append_assoc] at heq
        exact hk.callers c' cs' h' z (append_inj' heq rfl).1 hf
  case root =>
    intro hnil
    rcases hcases with ⟨hm, hc⟩ | ⟨-, hc⟩
    · exact absurd hm (P.not_mutual_of_root (hk.root (hc.symm.trans hnil)).1 hedge)
    · rw [hc] at hnil
      exact absurd hnil (append_ne_nil_of_right_ne_nil _ (cons_ne_nil _ _))
  case rootCaller =>
    intro cs' h' z heq
    rcases hcases with ⟨-, hc⟩ | ⟨-, hc⟩
    · exact hk.rootCaller cs' h' z (hc.symm.trans heq)
    · rw [hc] at heq
      cases c with
      | nil =>
        obtain ⟨rfl, -⟩ := Prod.mk.inj (List.cons.inj heq).1
        exact hk.root rfl
      | cons q c =>
        obtain rfl : q = (cs', h') := (List.cons.inj heq).1
        exact hk.rootCaller cs' h' c rfl

theorem Known.ret (hpar : ParForAcyclic P)
    {c c' : CallStrCxt N I} {x : N} (hk : Known P candidateFuncSet tct c x)
    {e : PTACallGraphEdge N I} (he : e ∈ P.inEdges x) {cs : I}
    (hmatch : TCT.matchCxt P.toThreadCallGraph tcgSCC candidateFuncSet c cs x = some c') :
    Known P candidateFuncSet tct c' (P.getFunction cs) := by
  obtain ⟨hmem, hdst⟩ := mem_filter.mp he
  have hincoming : P.hasIncomingEdge x := by
    rw [ThreadCallGraph.hasIncomingEdge, Bool.not_eq_true', isEmpty_eq_false_iff]
    exact ne_nil_of_mem he
  have hne : c ≠ [] := by
    intro hnil
    rw [(hk.root hnil).1] at hincoming
    cases hincoming
  rw [TCT.matchCxt] at hmatch
  by_cases hcand : P.getFunction cs ∈ candidateFuncSet
  · rw [if_neg (not_not_intro hcand), if_neg hne] at hmatch
    by_cases hsame : TCT.inSameCallGraphSCC tcgSCC (P.getFunction cs) x = false
    · -- the last call of the context is taken back
      rw [if_pos hsame] at hmatch
      by_cases hlast : c.getLast? = some (cs, x)
      · rw [if_pos hlast] at hmatch
        cases hmatch
        have hc : c = c.dropLast ++ [(cs, x)] := by
          rw [getLast?_eq_some_getLast hne] at hlast
          rw [← some.inj hlast]
          exact (dropLast_append_getLast hne).symm
        refine ⟨fun hf => hk.callers c.dropLast cs x [] hc hf, ?_, ?_, ?_⟩
        · intro c'' cs' h' z heq hf
          refine hk.callers c'' cs' h' (z ++ [(cs, x)]) ?_ hf
          rw [hc, heq, append_assoc, cons_append]
        · intro hnil
          rw [hnil] at hc
          exact hk.rootCaller cs x [] hc
        · intro cs' h' z heq
          refine hk.rootCaller cs' h' (z ++ [(cs, x)]) ?_
          rw [heq] at hc
          exact hc
      · rw [if_neg hlast] at hmatch
        cases hmatch.symm
    · rw [if_neg hsame] at hmatch
      cases hmatch
      have hm : Mutual P.Edge (P.getFunction cs) x := by
        rw [Bool.not_eq_false, TCT.inSameCallGraphSCC, decide_eq_true_eq] at hsame
        exact (h.scc.same_rep _ _).mp hsame
      exact ⟨fun hf => h.component hpar hm.2 hm.1 hf (hk.here (hf.of_reach hm.2)), hk.callers,
        fun hnil => absurd hnil hne, hk.rootCaller⟩
  · rw [if_pos hcand] at hmatch
    cases hmatch
    exact ⟨fun hf => absurd (h.cand _ hf) hcand, hk.callers, fun hnil => absurd hnil hne,
      hk.rootCaller⟩

end

-- ── The assertions

section

variable (P : ThreadProgram N I)

/-- The assertion of `handleNonCandidateFun`. -/
def AtEntry (candidateFuncSet : Finset N) (cts : CxtThreadStmt N I) : Prop :=
  P.getFunction cts.stmt ∉ candidateFuncSet →
    P.entryInst (P.getFunction cts.stmt) = some cts.stmt

/-- The threads that `handleFork` looks up have nodes. -/
def ForkFound (tcgSCC : SCCDetection N) (candidateFuncSet : Finset N)
    (tct : TCT N I) (cts : CxtThreadStmt N I) : Prop :=
  P.getFunction cts.stmt ∈ candidateFuncSet → cts.stmt ∈ P.forksites →
    ∀ e ∈ P.forkEdges cts.stmt, ∃ id, tct.ctpToNodeMap
      ⟨TCT.pushCxt P.toThreadCallGraph tcgSCC candidateFuncSet cts.cxt cts.stmt e.dstID,
        some cts.stmt⟩ = some id

def ReturnsToCandidates (candidateFuncSet : Finset N) (cts : CxtThreadStmt N I) : Prop :=
  P.getFunction cts.stmt ∈ candidateFuncSet → P.isRetInst cts.stmt = true →
    ∀ e ∈ P.inEdges (P.getFunction cts.stmt), e.edgeKind ≠ .TDForkEdge → ∀ cs ∈ e.calls,
      P.getFunction cs ∈ candidateFuncSet

/-- A call of a function with a body is not a parallel-for. -/
def CallsNoParFor (cts : CxtThreadStmt N I) : Prop :=
  P.isCallSite cts.stmt = true → P.isExtCallInst cts.stmt = false →
    ∀ e ∈ callEdges P cts.stmt, e.edgeKind ≠ .HareParForEdge

end

section

variable {d : CxtThreadStmt N I} (h : Built P tcgSCC candidateFuncSet tct) (hd : Rooted P tct d)
include h hd

theorem Rooted.visited : ∃ t, ⟨t, d.cxt, P.getFunction d.stmt⟩ ∈ tct.visitedCTPs := by
  cases hd with
  | @start tid _ hroot =>
    obtain ⟨node, hnode, hroot⟩ := bind_eq_some_iff.mp hroot
    obtain ⟨routine, hr, hroot⟩ := bind_eq_some_iff.mp hroot
    obtain ⟨i, hi, rfl⟩ := map_eq_some_iff.mp hroot
    obtain ⟨b, hv⟩ := h.routine _ _ hr
    exact ⟨b, (P.entry_in routine i hi).symm ▸ hv⟩
  | afterFork hnode hfork hcxt hi =>
    obtain ⟨t, ht⟩ := h.forkCxt _ _ _ hcxt hfork
    exact ⟨t, (P.succ_in _ _ hi).symm ▸ ht⟩

theorem Rooted.atEntry : AtEntry P candidateFuncSet d := by
  intro hcand
  cases hd with
  | @start tid _ hroot =>
    obtain ⟨node, hnode, hroot⟩ := bind_eq_some_iff.mp hroot
    obtain ⟨routine, hr, hroot⟩ := bind_eq_some_iff.mp hroot
    obtain ⟨i, hi, rfl⟩ := map_eq_some_iff.mp hroot
    exact (P.entry_in routine i hi).symm ▸ hi
  | @afterFork _ _ node forkInst i _ hnode hfork hcxt hi =>
    refine absurd ?_ hcand
    rw [P.succ_in forkInst i hi]
    exact h.forker _ node forkInst hnode hfork

end

theorem Next.atEntry {cts d : CxtThreadStmt N I} (hret : ReturnsToCandidates P candidateFuncSet cts)
    (hd : Next P tcgSCC candidateFuncSet tct fja cts d) : AtEntry P candidateFuncSet d := by
  intro hn
  cases hd with
  | skip _ he hi => exact (P.entry_in _ _ hi).symm ▸ hi
  | intra hcand hi => exact absurd ((P.succ_in _ _ hi).symm ▸ hcand) hn
  | exit hcand hi => exact absurd ((fja.exit_in _ _ hi).symm ▸ hcand) hn
  | again hcand => exact absurd hcand hn
  | fork _ _ hi _ => exact (P.entry_in _ _ hi).symm ▸ hi
  | call _ _ _ _ _ _ hi => exact (P.entry_in _ _ hi).symm ▸ hi
  | @ret e cs i cxt hcand hr he hk hcs _ hi =>
    refine absurd ?_ hn
    rw [P.succ_in cs i hi]
    exact hret hcand hr e he hk cs hcs

theorem Next.known (h : Built P tcgSCC candidateFuncSet tct) (hpar : ParForAcyclic P)
    {cts d : CxtThreadStmt N I} (hcall : CallsNoParFor P cts)
    (hk : Known P candidateFuncSet tct cts.cxt (P.getFunction cts.stmt))
    (hd : Next P tcgSCC candidateFuncSet tct fja cts d) :
    Known P candidateFuncSet tct d.cxt (P.getFunction d.stmt) := by
  cases hd with
  | @skip e i hcand he hi =>
    obtain ⟨hmem, hsrc⟩ := mem_filter.mp he
    have hedge : P.Edge (P.getFunction cts.stmt) e.dstID :=
      P.edge_iff.mpr ⟨e, hmem, of_decide_eq_true hsrc, rfl⟩
    rw [P.entry_in _ _ hi]
    -- a function that is not a candidate reaches no fork, so its callees do not
    exact ⟨fun hf => absurd (h.cand _ (hf.of_reach (.single hedge))) hcand,
      hk.callers, fun hnil => absurd (hk.root hnil).2 hcand, hk.rootCaller⟩
  | intra _ hi => exact (P.succ_in _ _ hi).symm ▸ hk
  | exit _ hi => exact (fja.exit_in _ _ hi).symm ▸ hk
  | again _ => exact hk
  | @fork e i id hcand he hi _ =>
    obtain ⟨hmem, hprop⟩ := mem_filter.mp he
    obtain ⟨hkind, hcs⟩ := of_decide_eq_true hprop
    rw [P.entry_in _ _ hi]
    exact hk.callee h hcand hmem hcs (fun hpf => nomatch hkind.symm.trans hpf)
  | @call e i hcand _ _ hc hext he hi =>
    obtain ⟨hmem, hcs⟩ := mem_filter.mp he
    rw [P.entry_in _ _ hi]
    exact hk.callee h hcand hmem (of_decide_eq_true hcs) (hcall hc hext e he)
  | @ret e cs i cxt _ _ he _ _ hmatch hi =>
    rw [P.succ_in cs i hi]
    exact hk.ret h hpar he hmatch

theorem Known.forkFound (h : Built P tcgSCC candidateFuncSet tct)
    (hk : Known P candidateFuncSet tct cts.cxt (P.getFunction cts.stmt)) :
    ForkFound P tcgSCC candidateFuncSet tct cts := by
  intro hcand hfork e he
  obtain ⟨t, ht⟩ := hk.here ⟨cts.stmt, .inl hfork, .refl⟩
  obtain ⟨hmem, hprop⟩ := mem_filter.mp he
  obtain ⟨hkind, hcs⟩ := of_decide_eq_true hprop
  have hout : e ∈ P.outEdges (P.getFunction cts.stmt) :=
    mem_filter.mpr ⟨hmem, decide_eq_true (P.calls_in e hmem cts.stmt hcs).symm⟩
  obtain ⟨b, hb, -⟩ := (h.handled _ ht hcand e hout cts.stmt hcs).fork hkind
  exact ⟨b, hb⟩

end Analysis

variable (P : ThreadProgram N I)

theorem exists_built : ∃ tcgSCC candidateFuncSet tct,
    Stops (fun fuel => SCCDetection.find P.scc fuel) tcgSCC ∧ Stops P.markRelProcs candidateFuncSet ∧
      Stops (TCT.build P.toThreadCallGraph) tct ∧ Built P tcgSCC candidateFuncSet tct := by
  obtain ⟨tcgSCC, candidateFuncSet, attr, s, t, hfind, hscc, hmark, hcand, -, hinv, hhandled, -,
    hbuild, ht, hnodes⟩ := TCT.build_total P.toThreadCallGraph
  refine ⟨tcgSCC, candidateFuncSet, t, hfind, hmark, hbuild, ?_⟩
  rw [ht]
  constructor
  case scc => exact hscc
  case cand => exact fun f ⟨cs, hcs, hreach⟩ => (hcand f).mpr (.inl ⟨cs, hcs, hreach⟩)
  case walked =>
    exact fun p hp => ⟨(hinv.walked p hp).cxtOf, (hinv.walked p hp).prefixes, (hinv.walked p hp).root⟩
  case handled =>
    exact fun p hp hc e he cs hcs =>
      ⟨(hhandled p hp hc e he cs hcs).call, (hhandled p hp hc e he cs hcs).fork⟩
  case routine =>
    intro ct r hr
    obtain ⟨b, -, hv⟩ := hinv.routine ct r hr
    exact ⟨b, hv⟩
  case forkCxt => exact fun ct cxt i hc hi => (hinv.forkCxt ct cxt hc).2 i hi
  case forker =>
    intro b node i hnode hfork
    obtain ⟨old, hold, heq, -⟩ := (hnodes b node).mp hnode
    exact hinv.fork_mem hold (by rw [heq] at hfork; exact hfork)

/-- **The assertions of the interleaving analysis.** In every run whose statements all return
    to candidates only, a statement of a function that is not a candidate is its first
    instruction; and in every run that calls along no parallel-for edge, if none connects two
    functions of a component, every fork finds the nodes of its threads. -/
theorem assertions_hold : ∃ tcgSCC candidateFuncSet tct,
    Stops (fun fuel => SCCDetection.find P.scc fuel) tcgSCC ∧ Stops P.markRelProcs candidateFuncSet ∧
      Stops (TCT.build P.toThreadCallGraph) tct ∧
      ∀ (fja : ForkJoinAnalysis N I P) (order rest : List ℕ) (s : MHP N I)
        (cts : CxtThreadStmt N I) (w : FIFOWorkList (CxtThreadStmt N I)),
        s.cxtStmtList.pop = some (cts, w) →
        (Runs P tcgSCC candidateFuncSet tct fja (ReturnsToCandidates P candidateFuncSet) order rest s →
          AtEntry P candidateFuncSet cts) ∧
        (ParForAcyclic P →
          Runs P tcgSCC candidateFuncSet tct fja (CallsNoParFor P) order rest s →
          ForkFound P tcgSCC candidateFuncSet tct cts) := by
  obtain ⟨tcgSCC, candidateFuncSet, tct, hfind, hmark, hbuild, h⟩ := exists_built P
  refine ⟨tcgSCC, candidateFuncSet, tct, hfind, hmark, hbuild, ?_⟩
  intro fja order rest s cts w hpop
  obtain ⟨hmem, -⟩ := FIFOWorkList.pop_some hpop
  constructor
  · intro hruns
    exact hruns.queued (fun d hd => hd.atEntry h) (fun _ d _ hret hd => hd.atEntry hret) cts hmem
  · intro hpar hruns
    let Q : CxtThreadStmt N I → Prop := fun d =>
      Known P candidateFuncSet tct d.cxt (P.getFunction d.stmt)
    have hroot : ∀ d, Rooted P tct d → Q d := by
      intro d hd
      obtain ⟨t, ht⟩ := hd.visited h
      exact h.known ht
    have hknown : Q cts :=
      hruns.queued hroot (fun _ d hk hcall hd => hd.known h hpar hcall hk) cts hmem
    exact hknown.forkFound h

def AssertionsHold (fja : ForkJoinAnalysis N I P) : Prop :=
  ∀ tcgSCC candidateFuncSet tct, Stops (fun fuel => SCCDetection.find P.scc fuel) tcgSCC →
    Stops P.markRelProcs candidateFuncSet → Stops (TCT.build P.toThreadCallGraph) tct →
    ∀ (order rest : List ℕ) (s : MHP N I),
      Runs P tcgSCC candidateFuncSet tct fja (fun _ => True) order rest s →
      ∀ cts w, s.cxtStmtList.pop = some (cts, w) →
        AtEntry P candidateFuncSet cts ∧ ForkFound P tcgSCC candidateFuncSet tct cts

-- ── A start routine that is also called directly

variable {P} {tcgSCC : SCCDetection N} {candidateFuncSet : Finset N} {tct : TCT N I}
  {fja : ForkJoinAnalysis N I P}

variable (P tcgSCC candidateFuncSet tct fja) in
/-- `n` iterations of the loop of `analyzeInterleaving()`. -/
def iterate : ℕ → MHP N I → Option (MHP N I)
  | 0, s => some s
  | n + 1, s =>
    match s.cxtStmtList.pop with
    | none => none
    | some (cts, w) =>
      (handle P tcgSCC candidateFuncSet tct fja { s with cxtStmtList := w } cts).bind
        (iterate n)

theorem Runs.iterate {order rest : List ℕ} : ∀ (n : ℕ) (s t : MHP N I),
    Runs P tcgSCC candidateFuncSet tct fja (fun _ => True) order rest s →
      iterate P tcgSCC candidateFuncSet tct fja n s = some t →
      Runs P tcgSCC candidateFuncSet tct fja (fun _ => True) order rest t := by
  intro n
  induction n with
  | zero =>
    intro s t h hrun
    exact some.inj hrun ▸ h
  | succ n ih =>
    intro s t h hrun
    rw [MHP.iterate] at hrun
    cases hpop : s.cxtStmtList.pop with
    | none =>
      rw [hpop] at hrun
      cases hrun
    | some r =>
      obtain ⟨cts, w⟩ := r
      rw [hpop] at hrun
      obtain ⟨u, hu, hrest⟩ := bind_eq_some_iff.mp hrun
      exact ih u t (.iter h hpop trivial hu) hrest

/-- Function 0 forks 1 and calls 2, which calls 1 directly; function 3 is `pthread_create`
    and function 4 is not called.
    Instruction 0 is the fork, 1 the call of function 2 and 4 the call of function 1; 2, 3 and
    5 are the returns of functions 0, 1 and 2. -/
def directlyCalled : ThreadProgram (Fin 5) (Fin 6) where
  nodes := List.finRange 5
  nodes_all := mem_finRange
  insts := List.finRange 6
  insts_all := mem_finRange
  edges := [⟨0, 3, .CallRetEdge, [0], []⟩, ⟨0, 1, .TDForkEdge, [0], []⟩,
    ⟨0, 2, .CallRetEdge, [1], []⟩, ⟨2, 1, .CallRetEdge, [4], []⟩]
  getFunction := fun i => if i ≤ 2 then 0 else if i = 3 then 1 else 2
  hasLoopInfo := fun _ => false
  isExtCall := fun f => f = 3
  forksites := [0]
  joinsites := []
  calls_in := by decide
  entryInst := fun f =>
    if f = 0 then some 0 else if f = 1 then some 3 else if f = 2 then some 4 else none
  succInsts := fun i => if i = 0 then [1] else if i = 1 then [2] else if i = 4 then [5] else []
  isCallSite := fun i => i = 0 ∨ i = 1 ∨ i = 4
  isRetInst := fun i => i = 2 ∨ i = 3 ∨ i = 5
  isExtCallInst := fun i => i = 0
  entry_in := by decide
  succ_in := by decide
  calls_ne := by decide
  join_out := by decide

def noJoins : ForkJoinAnalysis (Fin 5) (Fin 6) directlyCalled where
  getDirAndIndJoinedTid := fun _ _ => ∅
  hasJoinLoop := fun _ => false
  exitInsts := fun _ => []
  hasJoinInSymmetricLoop := fun _ _ => false
  isMustJoin := fun _ _ => false
  isHBPair := fun _ _ => false
  isRecurFullJoin := fun _ _ => false
  exit_in := fun _ _ h => absurd h not_mem_nil

/-- The return of thread 1 from function 1 goes back to function 2, which is no candidate, at
    the instruction behind the call. -/
theorem assertions_fail : ¬ AssertionsHold directlyCalled noJoins := by
  intro hall
  have hrun : (SCCDetection.find directlyCalled.scc 20).bind (fun tcgSCC =>
      (directlyCalled.markRelProcs 20).bind fun candidateFuncSet =>
        (TCT.build directlyCalled.toThreadCallGraph 20).bind fun tct =>
          (startRoot directlyCalled tct noJoins init 0).bind fun s =>
            (iterate directlyCalled tcgSCC candidateFuncSet tct noJoins 3 s).map fun s =>
              (s.cxtStmtList.dataList.head?, decide ((2 : Fin 5) ∈ candidateFuncSet))) =
      some (some ⟨1, [(0, 1)], 5⟩, false) := by
    decide +kernel
  obtain ⟨tcgSCC, hscc, hrun⟩ := bind_eq_some_iff.mp hrun
  obtain ⟨candidateFuncSet, hmark, hrun⟩ := bind_eq_some_iff.mp hrun
  obtain ⟨tct, hbuild, hrun⟩ := bind_eq_some_iff.mp hrun
  obtain ⟨s, hstart, hrun⟩ := bind_eq_some_iff.mp hrun
  obtain ⟨t, hiter, hresult⟩ := map_eq_some_iff.mp hrun
  obtain ⟨hfront, hcand⟩ := Prod.mk.inj hresult
  have hruns : Runs directlyCalled tcgSCC candidateFuncSet tct noJoins (fun _ => True) [0, 1] [1] t :=
    Runs.iterate 3 s t (.root .init rfl hstart) hiter
  obtain ⟨rest, hlist⟩ := head?_eq_some_iff.mp hfront
  obtain ⟨w, hpop, -⟩ := FIFOWorkList.pop_cons hlist
  obtain ⟨hentry, -⟩ := hall tcgSCC candidateFuncSet tct (stops_of_succ SCCDetection.find_succ hscc)
    (stops_of_succ directlyCalled.markRelProcs_keeps hmark) (stops_of_succ TCT.build_keeps hbuild)
    [0, 1] [1] t hruns _ w hpop
  cases hentry (of_decide_eq_false hcand)

end MHP

end SvfMHP
