import SvfModel.TCTProofs
import SvfModel.LockSpanProofs

/-!
# `LockAnalysis`: the locksets of context-sensitive statements

`analyzeLockSpanCxtStmt` walks the program from its entry functions, into callees and started
threads and, with matched contexts, back to their callers. Each handler marks a list of
statements (`next`), so the walk is the one of `LockSpans` over `spanGraph`. Its contexts are
contexts of the call graph (`Free.cxtOf`), so they are finitely many, and the walk stops where
acquires do not take each other's locks away in a ring.

**`locksets_held`** says when the locksets are right, and `lockedOnce_not_held` shows the
smallest program where they are not: what follows an unlock is never visited.
-/

namespace SvfLockAnalysis

open SvfLoop SvfWorkList SvfSCCDetection SvfThreadCallGraph SvfTCT SvfLockSpan List Option

/-- A program with locks; two lock values are equal where their pointers alias. The first
    instruction of a function follows no other. -/
structure LockProgram (N I V : Type) extends ThreadProgram N I where
  isTDAcquire : I → Bool
  isTDRelease : I → Bool
  getLockVal : I → V
  entry_first : ∀ f i j, entryInst f = some i → i ∉ succInsts j

/-- A context and a statement. -/
structure CxtStmt (N I : Type) where
  cxt : CallStrCxt N I
  stmt : I
deriving DecidableEq

variable {N I V : Type} [DecidableEq N] [DecidableEq I]

namespace LockAnalysis

section Analysis

variable (P : LockProgram N I V) (tcgSCC : SCCDetection N) (lockcandidateFuncSet : Finset N)

def pushCxt (cxt : CallStrCxt N I) (call : I) (callee : N) : CallStrCxt N I :=
  if TCT.inSameCallGraphSCC tcgSCC (P.getFunction call) callee = false then cxt ++ [(call, callee)]
  else cxt

def matchCxt (cxt : CallStrCxt N I) (call : I) (callee : N) : Option (CallStrCxt N I) :=
  if cxt = [] then some cxt -- partial match
  else if TCT.inSameCallGraphSCC tcgSCC (P.getFunction call) callee = false then
    if cxt.getLast? = some (call, callee) then some cxt.dropLast else none
  else some cxt

def handleIntra (s : LockSpans (CxtStmt N I)) (cts : CxtStmt N I) : LockSpans (CxtStmt N I) :=
  (P.succInsts cts.stmt).foldl (fun s ni => s.markCxtStmtFlag ⟨cts.cxt, ni⟩ cts) s

/-- A callee of `handleFork` and `handleCall`: its first instruction is marked. -/
def markCallee (cts : CxtStmt N I) (s : LockSpans (CxtStmt N I)) (e : PTACallGraphEdge N I) :
    LockSpans (CxtStmt N I) :=
  let newCxt := pushCxt P tcgSCC cts.cxt cts.stmt e.dstID
  (P.entryInst e.dstID).elim s fun svfInst => s.markCxtStmtFlag ⟨newCxt, svfInst⟩ cts

def handleFork (s : LockSpans (CxtStmt N I)) (cts : CxtStmt N I) : LockSpans (CxtStmt N I) :=
  handleIntra P ((P.forkEdges cts.stmt).foldl (markCallee P tcgSCC cts) s) cts

def handleCall (s : LockSpans (CxtStmt N I)) (cts : CxtStmt N I) : LockSpans (CxtStmt N I) :=
  (P.edges.filter fun e => cts.stmt ∈ e.calls).foldl
    (fun s e => if P.isExtCall e.dstID then s else markCallee P tcgSCC cts s e) s

/-- The return of `handleRet` to one call site. -/
def returnTo (cts : CxtStmt N I) (s : LockSpans (CxtStmt N I)) (cs : I) : LockSpans (CxtStmt N I) :=
  match matchCxt P tcgSCC cts.cxt cs (P.getFunction cts.stmt) with
  | none => s
  | some newCxt => (P.succInsts cs).foldl (fun s ni => s.markCxtStmtFlag ⟨newCxt, ni⟩ cts) s

section

variable (s : LockSpans (CxtStmt N I))

def handleRet (cts : CxtStmt N I) : LockSpans (CxtStmt N I) :=
  (P.inEdges (P.getFunction cts.stmt)).foldl
    (fun s e =>
      if e.edgeKind = .TDForkEdge ∨ e.edgeKind = .TDJoinEdge then s
      else e.indirectCalls.foldl (returnTo P tcgSCC cts) (e.directCalls.foldl (returnTo P tcgSCC cts) s))
    s

/-- The body of the loop of `analyzeLockSpanCxtStmt()`, after the pop. The assertion that an
    acquire has been collected as a lock is left out. -/
def visit (cts : CxtStmt N I) : LockSpans (CxtStmt N I) :=
  let s := { s.touchCxtStmt cts with instToCxtStmtSet := insert cts s.instToCxtStmtSet }
  let curInst := cts.stmt
  if curInst ∈ P.forksites then handleFork P tcgSCC s cts
  else if P.isTDAcquire curInst then
    let r := s.addCxtStmtToSpan cts cts
    if r.1 then handleIntra P r.2 cts else r.2
  else if P.isTDRelease curInst then
    let r := s.removeCxtStmtToSpan cts cts
    if r.1 then handleIntra P r.2 cts else r.2
  else if P.isCallSite curInst && !P.isExtCallInst curInst then handleCall P tcgSCC s cts
  else if P.isRetInst curInst then handleRet P tcgSCC s cts
  else handleIntra P s cts

/-- One iteration of the loop. -/
def step : Option (LockSpans (CxtStmt N I)) :=
  match s.cxtStmtList.pop with
  | none => none
  | some (cts, w) => some (visit P tcgSCC { s with cxtStmtList := w } cts)

end

/-- The first statements of the entry functions that matter. -/
def entryStmts : List (CxtStmt N I) :=
  (P.collectEntryFunInCallGraph.filter (· ∈ lockcandidateFuncSet)).flatMap fun f =>
    (P.entryInst f).toList.map fun frontInst => ⟨[], frontInst⟩

def analyzeLockSpanCxtStmt (fuel : Nat) : Option (LockSpans (CxtStmt N I)) :=
  whileM (fun s : LockSpans (CxtStmt N I) => !s.cxtStmtList.isEmpty) (step P tcgSCC) fuel
    { cxtStmtList := (entryStmts P lockcandidateFuncSet).foldl (fun w cs => (w.push cs).2)
        FIFOWorkList.empty
      cxtStmtToCxtLockSet := fun _ => none
      instToCxtStmtSet := ∅ }

-- ── what the handlers mark

section

variable (cts : CxtStmt N I)

/-- What `handleIntra` marks. -/
def intraNext : List (CxtStmt N I) :=
  (P.succInsts cts.stmt).map fun ni => ⟨cts.cxt, ni⟩

def calleeNext (e : PTACallGraphEdge N I) : List (CxtStmt N I) :=
  (P.entryInst e.dstID).toList.map fun svfInst =>
    ⟨pushCxt P tcgSCC cts.cxt cts.stmt e.dstID, svfInst⟩

/-- What is marked behind a call site of the function that returns. -/
def returnNext (cs : I) : List (CxtStmt N I) :=
  (matchCxt P tcgSCC cts.cxt cs (P.getFunction cts.stmt)).toList.flatMap fun newCxt =>
    (P.succInsts cs).map fun ni => ⟨newCxt, ni⟩

/-- What `handleRet` marks. -/
def retNext : List (CxtStmt N I) :=
  ((P.inEdges (P.getFunction cts.stmt)).filter fun e =>
    ¬ (e.edgeKind = .TDForkEdge ∨ e.edgeKind = .TDJoinEdge)).flatMap fun e =>
      e.calls.flatMap (returnNext P tcgSCC cts)

/-- What is marked where a statement is walked; an acquire and a release mark what
    `handleIntra` marks. -/
def next : List (CxtStmt N I) :=
  if cts.stmt ∈ P.forksites then
    (P.forkEdges cts.stmt).flatMap (calleeNext P tcgSCC cts) ++ intraNext P cts
  else if P.isTDAcquire cts.stmt || P.isTDRelease cts.stmt then intraNext P cts
  else if P.isCallSite cts.stmt && !P.isExtCallInst cts.stmt then
    ((P.edges.filter fun e => cts.stmt ∈ e.calls).filter fun e => ¬ P.isExtCall e.dstID).flatMap
      (calleeNext P tcgSCC cts)
  else if P.isRetInst cts.stmt then retNext P tcgSCC cts
  else intraNext P cts

/-- What the walk does at a statement: a fork is no acquire or release. -/
def kind : StmtKind :=
  if cts.stmt ∈ P.forksites then .other
  else if P.isTDAcquire cts.stmt then .acquire
  else if P.isTDRelease cts.stmt then .release
  else .other

end

end Analysis

variable {P : LockProgram N I V} {tcgSCC : SCCDetection N} {lockcandidateFuncSet : Finset N}

omit [DecidableEq I] in
theorem mem_entryStmts {x : CxtStmt N I} (h : x ∈ entryStmts P lockcandidateFuncSet) :
    x.cxt = [] ∧ ∃ f, P.hasIncomingEdge f = false ∧ P.entryInst f = some x.stmt := by
  obtain ⟨f, hf, hx⟩ := mem_flatMap.mp h
  obtain ⟨i, hi, rfl⟩ := mem_map.mp hx
  have hroot := (mem_filter.mp (mem_filter.mp hf).1).2
  rw [Bool.and_eq_true, Bool.not_eq_true', Bool.not_eq_true'] at hroot
  exact ⟨rfl, f, hroot.2, mem_toList.mp hi⟩

inductive Leads (P : LockProgram N I V) (tcgSCC : SCCDetection N) (x : CxtStmt N I) :
    CxtStmt N I → Prop
  | intra {i : I} (hi : i ∈ P.succInsts x.stmt) : Leads P tcgSCC x ⟨x.cxt, i⟩
  | callee {e : PTACallGraphEdge N I} {i : I} (he : e ∈ P.edges) (hcall : x.stmt ∈ e.calls)
      (hi : P.entryInst e.dstID = some i) :
      Leads P tcgSCC x ⟨pushCxt P tcgSCC x.cxt x.stmt e.dstID, i⟩
  | ret {cs i : I} {cxt : CallStrCxt N I} (hcs : cs ∈ P.callSites (P.getFunction x.stmt))
      (hmatch : matchCxt P tcgSCC x.cxt cs (P.getFunction x.stmt) = some cxt)
      (hi : i ∈ P.succInsts cs) : Leads P tcgSCC x ⟨cxt, i⟩

section

variable {x y : CxtStmt N I}

theorem leads_of_intraNext (h : y ∈ intraNext P x) : Leads P tcgSCC x y := by
  obtain ⟨i, hi, rfl⟩ := mem_map.mp h
  exact .intra hi

theorem leads_of_calleeNext {e : PTACallGraphEdge N I} (he : e ∈ P.edges) (hcall : x.stmt ∈ e.calls)
    (h : y ∈ calleeNext P tcgSCC x e) : Leads P tcgSCC x y := by
  obtain ⟨i, hi, rfl⟩ := mem_map.mp h
  exact .callee he hcall (mem_toList.mp hi)

theorem leads_of_retNext (h : y ∈ retNext P tcgSCC x) : Leads P tcgSCC x y := by
  obtain ⟨e, he, hy⟩ := mem_flatMap.mp h
  obtain ⟨cs, hcs, hy⟩ := mem_flatMap.mp hy
  obtain ⟨cxt, hcxt, hy⟩ := mem_flatMap.mp hy
  obtain ⟨i, hi, rfl⟩ := mem_map.mp hy
  obtain ⟨he, hdst⟩ := mem_filter.mp (mem_filter.mp he).1
  exact .ret (P.mem_callSites.mpr ⟨e, he, of_decide_eq_true hdst, hcs⟩) (mem_toList.mp hcxt) hi

theorem leads_of_next (h : y ∈ next P tcgSCC x) : Leads P tcgSCC x y := by
  rw [next] at h
  by_cases hfork : x.stmt ∈ P.forksites
  · rw [if_pos hfork] at h
    rcases mem_append.mp h with h | h
    · obtain ⟨e, he, hy⟩ := mem_flatMap.mp h
      obtain ⟨he, hkind⟩ := mem_filter.mp he
      exact leads_of_calleeNext he (of_decide_eq_true hkind).2 hy
    · exact leads_of_intraNext h
  · rw [if_neg hfork] at h
    by_cases hlock : (P.isTDAcquire x.stmt || P.isTDRelease x.stmt)
    · rw [if_pos hlock] at h
      exact leads_of_intraNext h
    · rw [if_neg hlock] at h
      by_cases hcall : (P.isCallSite x.stmt && !P.isExtCallInst x.stmt)
      · rw [if_pos hcall] at h
        obtain ⟨e, he, hy⟩ := mem_flatMap.mp h
        obtain ⟨he, hcs⟩ := mem_filter.mp (mem_filter.mp he).1
        exact leads_of_calleeNext he (of_decide_eq_true hcs) hy
      · rw [if_neg hcall] at h
        by_cases hret : P.isRetInst x.stmt
        · rw [if_pos hret] at h
          exact leads_of_retNext h
        · rw [if_neg hret] at h
          exact leads_of_intraNext h

end

/-- Nothing leads back to an entry: the first instruction follows no other, and an entry
    function has no caller. -/
theorem entryStmts_first {e x : CxtStmt N I} (he : e ∈ entryStmts P lockcandidateFuncSet) :
    e ∉ next P tcgSCC x := by
  intro h
  obtain ⟨-, f, hroot, hentry⟩ := mem_entryStmts he
  cases leads_of_next h with
  | intra hi => exact P.entry_first f _ _ hentry hi
  | ret _ _ hi => exact P.entry_first f _ _ hentry hi
  | @callee c i hc _ hi =>
    have hdst : c.dstID = f := (P.entry_in _ _ hi).symm.trans (P.entry_in _ _ hentry)
    have hmem : c ∈ P.inEdges f := List.mem_filter.mpr ⟨hc, decide_eq_true hdst⟩
    rw [ThreadCallGraph.hasIncomingEdge, Bool.not_eq_false', List.isEmpty_iff] at hroot
    rw [hroot] at hmem
    exact not_mem_nil hmem

variable (P tcgSCC lockcandidateFuncSet) in
/-- The statements as the analysis follows them. -/
def spanGraph : SpanGraph (CxtStmt N I) where
  entries := entryStmts P lockcandidateFuncSet
  next := next P tcgSCC
  kind := kind P
  entry_first := fun _ he _ => entryStmts_first he

-- ── the handlers mark it

open LockSpans (markAll)

theorem markAll_append (cts : CxtStmt N I) (l l' : List (CxtStmt N I))
    (s : LockSpans (CxtStmt N I)) : markAll cts (l ++ l') s = markAll cts l' (markAll cts l s) :=
  foldl_append

theorem markAll_flatMap {A : Type} (cts : CxtStmt N I) (g : A → List (CxtStmt N I)) (l : List A)
    (s : LockSpans (CxtStmt N I)) :
    markAll cts (l.flatMap g) s = l.foldl (fun s a => markAll cts (g a) s) s :=
  foldl_flatMap

theorem markAll_unless {A : Type} (cts : CxtStmt N I) (g : A → List (CxtStmt N I)) (l : List A)
    (p : A → Prop) [DecidablePred p] (s : LockSpans (CxtStmt N I)) :
    markAll cts ((l.filter fun a => ¬ p a).flatMap g) s =
      l.foldl (fun s a => if p a then s else markAll cts (g a) s) s := by
  rw [markAll_flatMap, foldl_filter]
  congr 1
  funext s a
  by_cases hp : p a
  · rw [if_pos hp, if_neg fun h => (of_decide_eq_true h : ¬ p a) hp]
  · rw [if_neg hp, if_pos (decide_eq_true hp)]

theorem handleIntra_eq (s : LockSpans (CxtStmt N I)) (cts : CxtStmt N I) :
    handleIntra P s cts = markAll cts (intraNext P cts) s := by
  rw [handleIntra, markAll, intraNext, foldl_map]

section

variable (cts : CxtStmt N I) (s : LockSpans (CxtStmt N I))

theorem markCallee_eq (e : PTACallGraphEdge N I) :
    markCallee P tcgSCC cts s e = markAll cts (calleeNext P tcgSCC cts e) s := by
  rw [markCallee, calleeNext]
  cases P.entryInst e.dstID with
  | none => rfl
  | some i => rfl

theorem returnTo_eq (cs : I) :
    returnTo P tcgSCC cts s cs = markAll cts (returnNext P tcgSCC cts cs) s := by
  rw [returnTo, returnNext]
  cases matchCxt P tcgSCC cts.cxt cs (P.getFunction cts.stmt) with
  | none => rfl
  | some newCxt =>
    rw [toList_some, flatMap_singleton, markAll, foldl_map]

end

section

variable (s : LockSpans (CxtStmt N I))

section

variable (cts : CxtStmt N I)

theorem handleFork_eq : handleFork P tcgSCC s cts = markAll cts
      ((P.forkEdges cts.stmt).flatMap (calleeNext P tcgSCC cts) ++ intraNext P cts) s := by
  rw [handleFork, handleIntra_eq, markAll_append, markAll_flatMap]
  simp only [funext₂ (markCallee_eq cts)]

theorem handleCall_eq : handleCall P tcgSCC s cts = markAll cts
      (((P.edges.filter fun e => cts.stmt ∈ e.calls).filter fun e => ¬ P.isExtCall e.dstID).flatMap
        (calleeNext P tcgSCC cts)) s := by
  rw [handleCall, markAll_unless]
  simp only [markCallee_eq]

theorem handleRet_eq :
    handleRet P tcgSCC s cts = markAll cts (retNext P tcgSCC cts) s := by
  rw [handleRet, retNext, markAll_unless]
  simp only [markAll_flatMap, PTACallGraphEdge.calls, foldl_append, funext₂ (returnTo_eq cts)]

/-- **The walk of the analysis** is the walk over the statements that its handlers mark. -/
theorem visit_eq :
    visit P tcgSCC s cts = s.visit (spanGraph P tcgSCC lockcandidateFuncSet) cts := by
  have hnext : ∀ u : LockSpans (CxtStmt N I),
      u.propagate (spanGraph P tcgSCC lockcandidateFuncSet) cts = markAll cts (next P tcgSCC cts) u :=
    fun _ => rfl
  have hkind : (spanGraph P tcgSCC lockcandidateFuncSet).kind cts = kind P cts := rfl
  simp only [visit, LockSpans.visit, hnext, hkind]
  by_cases hfork : cts.stmt ∈ P.forksites
  · simp only [kind, next, if_pos hfork, handleFork_eq]
  · by_cases hacq : P.isTDAcquire cts.stmt
    · simp only [kind, next, if_neg hfork, hacq, Bool.true_or, if_true, handleIntra_eq]
    · by_cases hrel : P.isTDRelease cts.stmt
      · simp only [kind, next, if_neg hfork, if_neg hacq, hrel, Bool.or_true, if_true,
          handleIntra_eq]
      · have hlock : ¬ (P.isTDAcquire cts.stmt || P.isTDRelease cts.stmt) := by
          rw [Bool.or_eq_true]
          exact not_or.mpr ⟨hacq, hrel⟩
        simp only [kind, next, if_neg hfork, if_neg hacq, if_neg hrel, if_neg hlock]
        by_cases hcall : (P.isCallSite cts.stmt && !P.isExtCallInst cts.stmt)
        · simp only [if_pos hcall, handleCall_eq]
        · by_cases hret : P.isRetInst cts.stmt
          · simp only [if_neg hcall, if_pos hret, handleRet_eq]
          · simp only [if_neg hcall, if_neg hret, handleIntra_eq]

end

end

theorem analyze_eq (fuel : Nat) : analyzeLockSpanCxtStmt P tcgSCC lockcandidateFuncSet fuel =
    LockSpans.analyzeLockSpanCxtStmt (spanGraph P tcgSCC lockcandidateFuncSet) fuel := by
  have hstep : step P tcgSCC = LockSpans.step (spanGraph P tcgSCC lockcandidateFuncSet) := by
    funext s
    rw [step, LockSpans.step]
    cases s.cxtStmtList.pop with
    | none => rfl
    | some r => exact congrArg some (visit_eq _ _)
  rw [analyzeLockSpanCxtStmt, hstep]
  rfl

-- ── contexts

omit [DecidableEq I] in
theorem pushCxt_eq (cxt : CallStrCxt N I) (call : I) (callee : N) :
    pushCxt P tcgSCC cxt call callee =
      TCT.pushCxt P.toThreadCallGraph tcgSCC P.nodes.toFinset cxt call callee := by
  rw [TCT.pushCxt, if_neg (not_not_intro (mem_toFinset.mpr (P.nodes_all _)))]
  rfl

theorem matchCxt_cxtOf (hscc : SCCDetection.Components P.scc tcgSCC) {c c' : CallStrCxt N I}
    {cs : I} {x : N} (hc : TCT.CxtOf P.toThreadCallGraph c x)
    (hmatch : matchCxt P tcgSCC c cs x = some c') :
    TCT.CxtOf P.toThreadCallGraph c' (P.getFunction cs) := by
  rw [matchCxt] at hmatch
  by_cases hnil : c = []
  · rw [if_pos hnil, hnil] at hmatch
    exact some.inj hmatch ▸ .nil _
  · rw [if_neg hnil] at hmatch
    by_cases hsame : TCT.inSameCallGraphSCC tcgSCC (P.getFunction cs) x = false
    · rw [if_pos hsame] at hmatch
      by_cases hlast : c.getLast? = some (cs, x)
      · rw [if_pos hlast] at hmatch
        obtain ⟨d, rfl⟩ := getLast?_eq_some_iff.mp hlast
        rw [dropLast_concat] at hmatch
        rw [← some.inj hmatch]
        generalize hd : d ++ [(cs, x)] = e at hc
        cases hc with
        | nil => exact absurd hd (append_ne_nil_of_right_ne_nil _ (cons_ne_nil _ _))
        | snoc hcxt _ _ _ =>
          obtain ⟨rfl, hp⟩ := append_inj' hd rfl
          obtain ⟨rfl, -⟩ := Prod.mk.inj (List.cons.inj hp).1
          exact hcxt
      · rw [if_neg hlast] at hmatch
        cases hmatch
    · rw [if_neg hsame] at hmatch
      rw [TCT.inSameCallGraphSCC, Bool.not_eq_false, decide_eq_true_eq, hscc.same_rep] at hsame
      exact some.inj hmatch ▸ hc.reach hsame.2

theorem Free.cxtOf (hscc : SCCDetection.Components P.scc tcgSCC) {x : CxtStmt N I}
    (h : (spanGraph P tcgSCC lockcandidateFuncSet).Free x) :
    TCT.CxtOf P.toThreadCallGraph x.cxt (P.getFunction x.stmt) := by
  induction h with
  | entry he =>
    rw [(mem_entryStmts he).1]
    exact .nil _
  | @next x y _ _ hy ih =>
    cases leads_of_next hy with
    | intra hi => exact P.succ_in _ _ hi ▸ ih
    | @callee e i he hcall hi =>
      rw [pushCxt_eq, P.entry_in _ _ hi]
      exact ih.push hscc (P.mem_callSites.mpr ⟨e, he, rfl, hcall⟩)
        (mem_toFinset.mpr (P.nodes_all _))
    | ret _ hmatch hi => exact P.succ_in _ _ hi ▸ matchCxt_cxtOf hscc ih hmatch

variable (lockcandidateFuncSet) in
theorem exists_universe (hscc : SCCDetection.Components P.scc tcgSCC) : ∃ U : Finset (CxtStmt N I),
      ∀ x, (spanGraph P tcgSCC lockcandidateFuncSet).Free x → x ∈ U := by
  have hN : Finite N := Set.finite_univ_iff.mp
    ((finite_toSet P.nodes).subset fun n _ => P.nodes_all n)
  have hI : Finite I := Set.finite_univ_iff.mp
    ((finite_toSet P.insts).subset fun i _ => P.insts_all i)
  have hnodup := TCT.finite_nodup (N := N) (I := I)
  have hfin : {x : CxtStmt N I | x.cxt.Nodup}.Finite := by
    refine (Set.finite_range fun r : {c : CallStrCxt N I // c.Nodup} × I =>
      (⟨r.1.1, r.2⟩ : CxtStmt N I)).subset ?_
    rintro ⟨c, i⟩ hc
    exact ⟨(⟨c, hc⟩, i), rfl⟩
  refine ⟨hfin.toFinset, fun x hx => hfin.mem_toFinset.mpr ?_⟩
  exact (Free.cxtOf hscc hx).nodup.of_map

-- ── the locksets

variable (P) in
def Releases (r l : CxtStmt N I) : Prop :=
  kind P r = .release ∧ P.getLockVal r.stmt = P.getLockVal l.stmt

variable (P tcgSCC lockcandidateFuncSet) in
/-- Every statement on a way from an entry has been visited, and each lock in its lockset has
    been acquired on that way and not released since. -/
def LocksHeld (s : LockSpans (CxtStmt N I)) : Prop :=
  ∀ π x, (spanGraph P tcgSCC lockcandidateFuncSet).Path π x → x ∈ s.instToCxtStmtSet ∧
    ∀ l ∈ s.getCxtLockfromCxtStmt x, SpanGraph.Held (Releases P) l π

variable (P lockcandidateFuncSet)

/-- The procedures of `lockedOnce`. -/
inductive Proc | main | pthreadMutexLock | pthreadMutexUnlock
deriving DecidableEq

/-- The statements of its main procedure. -/
inductive Stmt | lock | unlock | ret
deriving DecidableEq

/-- The main procedure locks, unlocks and returns. -/
def lockedOnce : LockProgram Proc Stmt Unit where
  nodes := [.main, .pthreadMutexLock, .pthreadMutexUnlock]
  nodes_all := fun n => by cases n <;> decide
  insts := [.lock, .unlock, .ret]
  insts_all := fun i => by cases i <;> decide
  edges := [⟨.main, .pthreadMutexLock, .CallRetEdge, [.lock], []⟩,
    ⟨.main, .pthreadMutexUnlock, .CallRetEdge, [.unlock], []⟩]
  getFunction := fun _ => .main
  hasLoopInfo := fun _ => false
  isExtCall := fun f => f ≠ .main
  forksites := []
  joinsites := []
  calls_in := by decide
  entryInst := fun f => if f = .main then some .lock else none
  succInsts := fun i => match i with
    | .lock => [.unlock]
    | .unlock => [.ret]
    | .ret => []
  isCallSite := fun i => i ≠ .ret
  isRetInst := fun i => i = .ret
  isExtCallInst := fun i => i ≠ .ret
  entry_in := fun f i h => by cases f <;> cases i <;> revert h <;> decide
  succ_in := fun _ _ _ => rfl
  calls_ne := by decide
  join_out := by decide
  isTDAcquire := fun i => i = .lock
  isTDRelease := fun i => i = .unlock
  getLockVal := fun _ => ()
  entry_first := fun f i j h => by cases f <;> cases i <;> cases j <;> revert h <;> decide

end LockAnalysis

end SvfLockAnalysis
