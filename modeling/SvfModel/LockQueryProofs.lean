import SvfModel.LockAnalysisProofs
import SvfModel.IntraLockProofs

/-!
# `LockAnalysis::isProtectedByCommonLock`

Two instructions inside intraprocedural locks are compared by their unconditional ones, any
others by the locksets of their context-sensitive statements, each of the one with each of the
other, a statement with itself left out. A completed analysis has a lockset for every statement
that it visited, so a missing one never counts as protected. What is left is an instruction that
is compared with itself and has a single context: nothing is compared then, and it is called
protected though it may hold no lock (**`isProtectedByCommonLock_iff`**).
-/

namespace SvfLockQuery

open SvfLoop SvfSCCDetection SvfLockSpan SvfIntraLock SvfLockAnalysis Relation Finset

structure LockedProgram (N I V : Type) extends LockProgram N I V where
  lockModule : LockModule N I
  alias_iff : ∀ a b, lockModule.isAliasedLocks a b = true ↔ getLockVal a = getLockVal b

/-- What the two analyses leave behind. -/
structure LockAnalysis (N I : Type) [DecidableEq N] [DecidableEq I] where
  spans : LockSpans (CxtStmt N I)
  intra : IntraLocks I

variable {N I V : Type} [DecidableEq N] [DecidableEq I] [DecidableEq V]

namespace LockAnalysis

section Queries

variable (P : LockedProgram N I V) (s : LockAnalysis N I)

def isInsideCondIntraLock (stmt : I) : Bool := !(s.intra.instTocondCILocksMap stmt).isEmpty

def isInsideIntraLock (stmt : I) : Bool :=
  !(s.intra.instCILocksMap stmt).isEmpty || s.isInsideCondIntraLock stmt

def getCxtStmtfromInst (inst : I) : Finset (CxtStmt N I) :=
  s.spans.instToCxtStmtSet.filter fun cts => cts.stmt = inst

def hasCxtLockfromCxtStmt (cts : CxtStmt N I) : Bool := (s.spans.cxtStmtToCxtLockSet cts).isSome

def aliasLocks (lockset1 lockset2 : Finset (CxtStmt N I)) : Bool :=
  decide (∃ lock ∈ lockset1, ∃ l ∈ lockset2, P.getLockVal lock.stmt = P.getLockVal l.stmt)

def isProtectedUnderCxts (cxtStmt1 cxtStmt2 : CxtStmt N I) : Bool :=
  if !s.hasCxtLockfromCxtStmt cxtStmt1 || !s.hasCxtLockfromCxtStmt cxtStmt2 then true
  else aliasLocks P (s.spans.getCxtLockfromCxtStmt cxtStmt1) (s.spans.getCxtLockfromCxtStmt cxtStmt2)

def isProtectedByCommonCxtLock (i1 i2 : I) : Bool :=
  if s.getCxtStmtfromInst i1 = ∅ ∨ s.getCxtStmtfromInst i2 = ∅ then false
  else decide (∀ cxtStmt1 ∈ s.getCxtStmtfromInst i1, ∀ cxtStmt2 ∈ s.getCxtStmtfromInst i2,
    cxtStmt1 = cxtStmt2 ∨ s.isProtectedUnderCxts P cxtStmt1 cxtStmt2 = true)

def isProtectedByCommonLock (i1 i2 : I) : Bool :=
  if s.isInsideIntraLock i1 && s.isInsideIntraLock i2 then
    isProtectedByCommonCILock P.lockModule s.intra i1 i2
  else s.isProtectedByCommonCxtLock P i1 i2

-- ── What an answer should say

/-- The lock sites of a statement: those of its lockset, and its unconditional
    intraprocedural ones. -/
def Locks (cts : CxtStmt N I) : Set I :=
  {l | (∃ lock ∈ s.spans.getCxtLockfromCxtStmt cts, lock.stmt = l) ∨ l ∈ s.intra.instCILocksMap cts.stmt}

/-- Under all contexts of the two there is a common lock if the answer is positive, and the
    answer does not depend on which comes first. -/
def Answered (i1 i2 : I) : Prop :=
  (s.isProtectedByCommonLock P i1 i2 = true →
    ∀ cts1 ∈ s.getCxtStmtfromInst i1, ∀ cts2 ∈ s.getCxtStmtfromInst i2,
      ∃ l1 ∈ s.Locks cts1, ∃ l2 ∈ s.Locks cts2, P.getLockVal l1 = P.getLockVal l2) ∧
  s.isProtectedByCommonLock P i2 i1 = s.isProtectedByCommonLock P i1 i2

/-- An instruction in no intraprocedural lock that is visited in one context, without a lock. -/
def Bare (i : I) : Prop :=
  s.isInsideIntraLock i = false ∧
    ∃ cts, s.getCxtStmtfromInst i = {cts} ∧ s.spans.getCxtLockfromCxtStmt cts = ∅

/-- Both analyses have come to their end. -/
def Completed : Prop :=
  (∃ tcgSCC lockcandidateFuncSet, Stops (SCCDetection.find P.scc) tcgSCC ∧
    Stops (SvfLockAnalysis.LockAnalysis.analyzeLockSpanCxtStmt P.toLockProgram tcgSCC
      lockcandidateFuncSet) s.spans) ∧
  Stops (analyzeIntraProcedualLock P.lockModule) s.intra

end Queries

variable {P : LockedProgram N I V} {s : LockAnalysis N I} {i i1 i2 : I}

omit [DecidableEq V] in
theorem Completed.hasLocks (h : Completed P s) {cts : CxtStmt N I}
    (hcts : cts ∈ s.getCxtStmtfromInst i) : s.hasCxtLockfromCxtStmt cts := by
  obtain ⟨tcgSCC, cand, -, hstops⟩ := h.1
  rw [funext SvfLockAnalysis.LockAnalysis.analyze_eq] at hstops
  have hinv := (LockSpans.runs_of_stops hstops).1.inv
  exact Option.isSome_iff_ne_none.mpr (hinv.touched cts (mem_filter.mp hcts).1)

theorem protected_cxt_iff : s.isProtectedByCommonCxtLock P i1 i2 ↔
    s.getCxtStmtfromInst i1 ≠ ∅ ∧ s.getCxtStmtfromInst i2 ≠ ∅ ∧
      ∀ cts1 ∈ s.getCxtStmtfromInst i1, ∀ cts2 ∈ s.getCxtStmtfromInst i2, cts1 = cts2 ∨
        (s.hasCxtLockfromCxtStmt cts1 ∧ s.hasCxtLockfromCxtStmt cts2 →
          ∃ lock ∈ s.spans.getCxtLockfromCxtStmt cts1, ∃ l ∈ s.spans.getCxtLockfromCxtStmt cts2,
            P.getLockVal lock.stmt = P.getLockVal l.stmt) := by
  rw [isProtectedByCommonCxtLock]
  split_ifs with hnone
  · exact iff_of_false not_false fun hall => hnone.elim hall.1 hall.2.1
  · rw [decide_eq_true_eq, ← and_assoc, and_iff_right (not_or.mp hnone)]
    refine forall₂_congr fun cts1 h1 => forall₂_congr fun cts2 h2 => or_congr_right ?_
    rw [isProtectedUnderCxts, ← Bool.not_and, ← Bool.and_eq_true]
    cases s.hasCxtLockfromCxtStmt cts1 && s.hasCxtLockfromCxtStmt cts2 with
    | false => exact iff_of_true rfl nofun
    | true =>
      rw [Bool.not_true, if_neg Bool.false_ne_true, aliasLocks, decide_eq_true_eq, imp_iff_right rfl]

omit [DecidableEq V] in
theorem protected_intra_iff : isProtectedByCommonCILock P.lockModule s.intra i1 i2 ↔
    (s.isInsideCondIntraLock i1 = false ∧ s.isInsideCondIntraLock i2 = false) ∧
      ∃ l1 ∈ s.intra.instCILocksMap i1, ∃ l2 ∈ s.intra.instCILocksMap i2,
        P.getLockVal l1 = P.getLockVal l2 := by
  rw [isProtectedByCommonCILock, isInsideCondIntraLock, isInsideCondIntraLock,
    Bool.not_eq_false', Bool.not_eq_false', ← Bool.and_eq_true]
  split_ifs with hcond
  · rw [and_iff_right hcond]
    simp only [List.any_eq_true, P.alias_iff]
  · exact iff_of_false not_false fun hall => hcond hall.1

theorem isProtectedByCommonLock_comm :
    s.isProtectedByCommonLock P i2 i1 = s.isProtectedByCommonLock P i1 i2 := by
  have hswap : ∀ (A B : I → Prop), (∃ l1, A l1 ∧ ∃ l2, B l2 ∧ P.getLockVal l1 = P.getLockVal l2) →
      ∃ l2, B l2 ∧ ∃ l1, A l1 ∧ P.getLockVal l2 = P.getLockVal l1 :=
    fun A B ⟨l1, h1, l2, h2, heq⟩ => ⟨l2, h2, l1, h1, heq.symm⟩
  have hone : ∀ j1 j2, s.isProtectedByCommonLock P j1 j2 → s.isProtectedByCommonLock P j2 j1 := by
    intro j1 j2
    rw [isProtectedByCommonLock, isProtectedByCommonLock, Bool.and_comm]
    split_ifs
    · rw [protected_intra_iff, protected_intra_iff]
      exact fun hp => ⟨hp.1.symm, hswap _ _ hp.2⟩
    · rw [protected_cxt_iff, protected_cxt_iff]
      rintro ⟨h1, h2, hall⟩
      refine ⟨h2, h1, fun cts2 hcts2 cts1 hcts1 => (hall cts1 hcts1 cts2 hcts2).imp Eq.symm ?_⟩
      intro hlocks hswapped
      obtain ⟨lock, hlock, l, hl, heq⟩ := hlocks hswapped.symm
      exact ⟨l, hl, lock, hlock, heq.symm⟩
  exact Bool.eq_iff_iff.mpr ⟨hone i2 i1, hone i1 i2⟩

theorem not_answered_of_bare (hbare : Bare s i) : ¬ Answered P s i i := by
  obtain ⟨hout, cts, hone, hnone⟩ := hbare
  have hcts : cts ∈ s.getCxtStmtfromInst i := hone ▸ mem_singleton_self cts
  have hprotected : s.isProtectedByCommonLock P i i := by
    rw [isProtectedByCommonLock, hout, Bool.and_false, if_neg Bool.false_ne_true, protected_cxt_iff]
    refine ⟨ne_empty_of_mem hcts, ne_empty_of_mem hcts, fun c1 h1 c2 h2 => .inl ?_⟩
    rw [hone] at h1 h2
    exact (mem_singleton.mp h1).trans (mem_singleton.mp h2).symm
  intro hans
  obtain ⟨l, hl, -⟩ := hans.1 hprotected cts hcts cts hcts
  rcases hl with ⟨lock, hlock, -⟩ | hl
  · exact notMem_empty lock (hnone ▸ hlock)
  · rw [(mem_filter.mp hcts).2] at hl
    rw [isInsideIntraLock, Bool.or_eq_false_iff, Bool.not_eq_false', List.isEmpty_iff] at hout
    exact List.not_mem_nil (hout.1 ▸ hl)

/-- **Common locks.** A completed analysis never calls two instructions protected without a
    common lock, except one and itself where it is visited in one context, in no lock. -/
theorem isProtectedByCommonLock_iff (P : LockedProgram N I V) (s : LockAnalysis N I)
    (h : Completed P s) (i1 i2 : I) : Answered P s i1 i2 ↔ ¬ (i1 = i2 ∧ Bare s i1) := by
  constructor
  · rintro hans ⟨rfl, hbare⟩
    exact not_answered_of_bare hbare hans
  · intro hbare
    refine ⟨fun hp cts1 h1 cts2 h2 => ?_, isProtectedByCommonLock_comm⟩
    rw [isProtectedByCommonLock] at hp
    split_ifs at hp with hin
    · obtain ⟨-, l1, hl1, l2, hl2, heq⟩ := protected_intra_iff.mp hp
      rw [← (mem_filter.mp h1).2] at hl1
      rw [← (mem_filter.mp h2).2] at hl2
      exact ⟨l1, .inr hl1, l2, .inr hl2, heq⟩
    · obtain ⟨-, -, hall⟩ := protected_cxt_iff.mp hp
      rcases hall cts1 h1 cts2 h2 with rfl | hlocks
      · -- the one instruction has a lock here, or there is another context to compare with
        obtain rfl : i1 = i2 := (mem_filter.mp h1).2.symm.trans (mem_filter.mp h2).2
        rw [Bool.and_self, Bool.not_eq_true] at hin
        obtain ⟨lock, hlock⟩ : (s.spans.getCxtLockfromCxtStmt cts1).Nonempty := by
          by_contra hnone
          refine hbare ⟨rfl, hin, cts1, ?_, not_nonempty_iff_eq_empty.mp hnone⟩
          refine eq_singleton_iff_unique_mem.mpr ⟨h1, fun c hc => ?_⟩
          refine ((hall cts1 h1 c hc).resolve_right fun hlocks => ?_).symm
          obtain ⟨l, hl, -⟩ := hlocks ⟨h.hasLocks h1, h.hasLocks hc⟩
          exact hnone ⟨l, hl⟩
        exact ⟨lock.stmt, .inl ⟨lock, hlock, rfl⟩, lock.stmt, .inl ⟨lock, hlock, rfl⟩, rfl⟩
      · obtain ⟨lock, hlock, l, hl, heq⟩ := hlocks ⟨h.hasLocks h1, h.hasLocks h2⟩
        exact ⟨lock.stmt, .inl ⟨lock, hlock, rfl⟩, l.stmt, .inl ⟨l, hl, rfl⟩, heq⟩

-- ── A store that races with itself

inductive Proc | main | worker | pthreadCreate | pthreadMutexLock
deriving DecidableEq

inductive Stmt | entry | fork | lock | ret | store
deriving DecidableEq

/-- The main procedure starts workers in a loop, then locks and returns; a worker stores. -/
def workers : LockedProgram Proc Stmt Unit where
  nodes := [.main, .worker, .pthreadCreate, .pthreadMutexLock]
  nodes_all := fun n => by cases n <;> decide
  insts := [.entry, .fork, .lock, .ret, .store]
  insts_all := fun i => by cases i <;> decide
  edges := [⟨.main, .pthreadCreate, .CallRetEdge, [.fork], []⟩,
    ⟨.main, .worker, .TDForkEdge, [.fork], []⟩, ⟨.main, .pthreadMutexLock, .CallRetEdge, [.lock], []⟩]
  getFunction := fun i => if i = .store then .worker else .main
  hasLoopInfo := fun i => i = .fork
  isExtCall := fun f => f = .pthreadCreate ∨ f = .pthreadMutexLock
  forksites := [.fork]
  joinsites := []
  calls_in := by decide
  entryInst := fun f => match f with
    | .main => some .entry
    | .worker => some .store
    | _ => none
  succInsts := fun i => match i with
    | .entry => [.fork]
    | .fork => [.fork, .lock]
    | .lock => [.ret]
    | _ => []
  isCallSite := fun i => i = .fork ∨ i = .lock
  isRetInst := fun i => i = .ret
  isExtCallInst := fun i => i = .fork ∨ i = .lock
  entry_in := fun f i h => by cases f <;> cases i <;> revert h <;> decide
  succ_in := fun i j h => by cases i <;> cases j <;> revert h <;> decide
  calls_ne := by decide
  join_out := by decide
  isTDAcquire := fun i => i = .lock
  isTDRelease := fun _ => false
  getLockVal := fun _ => ()
  entry_first := fun f i j h => by cases f <;> cases i <;> cases j <;> revert h <;> decide
  lockModule :=
    { insts := [.entry, .fork, .lock, .ret, .store]
      getFunction := fun i => if i = .store then .worker else .main
      getSuccInstructions := fun i => match i with
        | .entry => [.fork]
        | .fork => [.fork, .lock]
        | .lock => [.ret]
        | _ => []
      getPredInstructions := fun i => match i with
        | .fork => [.entry, .fork]
        | .lock => [.fork]
        | .ret => [.lock]
        | _ => []
      getEntryBlock := fun f => if f = .worker then [.store] else [.entry]
      exitInst := fun f => if f = .worker then .store else .ret
      isTDAcquire := fun i => i = .lock
      isTDRelease := fun _ => false
      isAliasedLocks := fun _ _ => true
      locksites := [.lock]
      succ_mem := by decide
      pred_mem := by decide
      pred_iff := fun a b => by cases a <;> cases b <;> decide
      succ_fun := fun a b h => by cases a <;> cases b <;> revert h <;> decide
      entry_ne := fun f => by cases f <;> decide
      entry_next := fun f a b h => absurd h.length_le (by cases f <;> exact Nat.not_succ_le_self 1)
      entry_prev := fun f a b h => absurd h.length_le (by cases f <;> exact Nat.not_succ_le_self 1)
      entry_first := fun f a => by cases f <;> cases a <;> decide
      lock_mem := by decide
      lock_acq := by decide
      exclusive := fun i => by cases i <;> decide
      alias_equiv := ⟨fun _ => rfl, fun _ => rfl, fun _ _ => rfl⟩ }
  alias_iff := fun _ _ => iff_of_true rfl rfl

theorem workers_bare : ∃ s, Completed workers s ∧ Bare s .store := by
  have hrun : ∃ scc, SCCDetection.find workers.scc 9 = some scc ∧
      ∃ t, SvfLockAnalysis.LockAnalysis.analyzeLockSpanCxtStmt workers.toLockProgram scc {.main} 9 = some t ∧
        t.instToCxtStmtSet.filter (fun cts => cts.stmt = .store) = {⟨[(.fork, .worker)], .store⟩} ∧
        t.getCxtLockfromCxtStmt ⟨[(.fork, .worker)], .store⟩ = ∅ := by
    refine ⟨_, rfl, _, rfl, ?_⟩
    decide +kernel
  obtain ⟨scc, hscc, t, ht, hone, hnone⟩ := hrun
  obtain ⟨intra, hintra, hspec⟩ := analyzeIntraProcedualLock_spec workers.lockModule
  have hspan : ∀ l ∈ workers.lockModule.locksites, ¬ workers.lockModule.InSpan l .store := by
    intro l hl hin
    obtain rfl := List.mem_singleton.mp hl
    rcases ReflTransGen.cases_tail hin with h | ⟨i, -, hE, -⟩
    · cases h
    · have hmem : .store ∈ workers.lockModule.getSuccInstructions i := hE
      cases i <;> exact absurd hmem (by decide)
  have hcilocks : intra.instCILocksMap .store = [] := List.eq_nil_iff_forall_not_mem.mpr fun l hl =>
    have h := (hspec l .store).1.mp ((hspec l .store).2.1.mp hl)
    hspan l h.1 h.2.2
  have hcond : intra.instTocondCILocksMap .store = [] :=
    List.eq_nil_iff_forall_not_mem.mpr fun l hl =>
      have h := (hspec l .store).2.2.mp hl
      hspan l h.1 h.2.2.2
  have hdone : Completed workers ⟨t, intra⟩ :=
    ⟨⟨scc, {Proc.main}, stops_of_succ SCCDetection.find_succ hscc, stops_of_whileM (n := 9) ht⟩, hintra⟩
  refine ⟨⟨t, intra⟩, hdone, ?_, _, hone, hnone⟩
  rw [isInsideIntraLock, isInsideCondIntraLock, hcilocks, hcond]
  rfl

/-- The store of the workers is called protected against itself; it holds no lock. -/
theorem workers_not_answered : ∃ s, Completed workers s ∧ ¬ Answered workers s .store .store := by
  obtain ⟨s, hs, hbare⟩ := workers_bare
  exact ⟨s, hs, not_answered_of_bare hbare⟩

theorem workers_answered : ∃ s, Completed workers s ∧ Answered workers s .fork .store := by
  obtain ⟨s, hs, -⟩ := workers_bare
  exact ⟨s, hs, (isProtectedByCommonLock_iff workers s hs .fork .store).mpr fun h => nomatch h.1⟩

end LockAnalysis

end SvfLockQuery
