import SvfModel.MHPProofs

/-!
# `MHP::handleJoin`: which threads a join takes out

A join takes the ids of the threads that are joined out of the interleaving set of its statement,
or, in a symmetric join loop, out of those of the first statements behind the loop. It may do so
for a thread that is not multi-forked, at a join site that is not in recursion. `isMustJoin` is
asked for that once for every joined id, but each time about the thread that joins.

The heart is `mem_handleJoin`: what is in every interleaving set afterwards. From it one reads off
exactly when an id is lost that should stay (**`handleJoin_removes_iff`**): the joining thread is
forked once, and a joined one is not.
-/

namespace SvfMHP

open SvfThreadCallGraph SvfTCT List

variable {N I : Type} [DecidableEq N] [DecidableEq I]

namespace MHP

def isMustJoin (tct : TCT N I) (curTid : ℕ) (joinsite : I) : Bool :=
  !TCT.isMultiforked tct.nodes curTid && !decide (joinsite ∈ tct.inRecurJoinSites)

end MHP

def ForkJoinAnalysis.withMustJoin {P : ThreadProgram N I} (fja : ForkJoinAnalysis N I P)
    (tct : TCT N I) : ForkJoinAnalysis N I P :=
  { fja with isMustJoin := MHP.isMustJoin tct }

namespace MHP

variable {P : ThreadProgram N I} {fja : ForkJoinAnalysis N I P} {tct : TCT N I} {s : MHP N I}
  {tgr src cts d : CxtThreadStmt N I} {tids : Finset ℕ} {joinsite : I} {t : ℕ}

-- ── Sets of one statement

/-- The interleaving set of a statement. -/
def leav (s : MHP N I) (d : CxtThreadStmt N I) : Finset ℕ := s.threadStmtToTheadInterLeav d

theorem leav_update (f : CxtThreadStmt N I → Finset ℕ) (v : Finset ℕ) :
    Function.update f tgr v d = if d = tgr then v else f d := by
  by_cases h : d = tgr
  · subst h
    rw [Function.update_self, if_pos rfl]
  · rw [Function.update_of_ne h, if_neg h]

theorem mem_addInterleavingThread : t ∈ (s.addInterleavingThread tgr src).leav d ↔
      t ∈ s.leav d ∨ d = tgr ∧ t ∈ s.leav src := by
  unfold addInterleavingThread
  by_cases hsub : s.threadStmtToTheadInterLeav src ⊆ s.threadStmtToTheadInterLeav tgr
  · rw [if_pos hsub]
    constructor
    · exact .inl
    · rintro (h | ⟨rfl, h⟩)
      · exact h
      · exact hsub h
  · rw [if_neg hsub]
    show t ∈ Function.update s.threadStmtToTheadInterLeav tgr _ d ↔ _
    rw [leav_update]
    by_cases hd : d = tgr
    · subst hd
      rw [if_pos rfl, Finset.mem_union]
      simp [leav]
    · rw [if_neg hd]
      simp [leav, hd]

/-- The ids that `rmInterleavingThread` takes out. -/
def mustJoined (fja : ForkJoinAnalysis N I P) (tid : ℕ) (tids : Finset ℕ) (joinsite : I) :
    Finset ℕ :=
  tids.filter fun _ => fja.isMustJoin tid joinsite = true

theorem mem_rmInterleavingThread : t ∈ (rmInterleavingThread P fja s tgr tids joinsite).leav d ↔
      t ∈ s.leav d ∧ ¬ (d = tgr ∧ t ∈ mustJoined fja tgr.tid tids joinsite) := by
  unfold rmInterleavingThread
  dsimp only
  show _ ∈ leav (if s.leav tgr ∩ mustJoined fja tgr.tid tids joinsite = ∅ then s else _) d ↔ _
  by_cases hnone : s.leav tgr ∩ mustJoined fja tgr.tid tids joinsite = ∅
  · rw [if_pos hnone]
    constructor
    · intro h
      refine ⟨h, fun ⟨hd, ht⟩ => ?_⟩
      subst hd
      exact Finset.eq_empty_iff_forall_notMem.mp hnone t (Finset.mem_inter.mpr ⟨h, ht⟩)
    · exact And.left
  · rw [if_neg hnone]
    show t ∈ Function.update s.threadStmtToTheadInterLeav tgr _ d ↔ _
    rw [leav_update]
    by_cases hd : d = tgr
    · subst hd
      rw [if_pos rfl, Finset.mem_sdiff]
      simp [leav, mustJoined]
    · rw [if_neg hd]
      simp [leav, hd]

-- ── Loops over statements

/-- A loop that adds the set of one statement to others adds nothing else. The set that is added
    does not change on the way. -/
theorem mem_foldl_add {A : Type} (tgr : A → CxtThreadStmt N I) (l : List A) : ∀ s : MHP N I,
    t ∈ (l.foldl (fun s a => s.addInterleavingThread (tgr a) src) s).leav d ↔
      t ∈ s.leav d ∨ (∃ a ∈ l, d = tgr a) ∧ t ∈ s.leav src := by
  induction l with
  | nil =>
    intro s
    simp
  | cons a l ih =>
    intro s
    rw [foldl_cons, ih, mem_addInterleavingThread, mem_addInterleavingThread]
    simp only [mem_cons, exists_eq_or_imp]
    tauto

section

variable (fja : ForkJoinAnalysis N I P)

def loopExits (cts : CxtThreadStmt N I) : List (CxtThreadStmt N I) :=
  (fja.exitInsts cts.stmt).map fun i => ⟨cts.tid, cts.cxt, i⟩

/-- The statements that a join takes ids out of: itself outside of a loop, and the first
    statements behind a symmetric loop. -/
def joinTargets (cts : CxtThreadStmt N I) :
    List (CxtThreadStmt N I) :=
  if fja.hasJoinLoop cts.stmt then
    if fja.hasJoinInSymmetricLoop cts.cxt cts.stmt then loopExits fja cts else []
  else [cts]

/-- The ids that a join takes out. -/
def removed (cts : CxtThreadStmt N I) : Finset ℕ :=
  mustJoined fja cts.tid (fja.getDirAndIndJoinedTid cts.cxt cts.stmt) cts.stmt

end

omit [DecidableEq N] [DecidableEq I] in
theorem mem_loopExits : d ∈ loopExits fja cts ↔
    ∃ i ∈ fja.exitInsts cts.stmt, d = ⟨cts.tid, cts.cxt, i⟩ := by
  rw [loopExits, mem_map]
  simp only [eq_comm]

section Exits

variable (fja) (cts) (tids) (joinsite)

def exitLoop (s : MHP N I) (l : List I) : MHP N I :=
  l.foldl (fun s i => rmInterleavingThread P fja
    (s.addInterleavingThread ⟨cts.tid, cts.cxt, i⟩ cts) ⟨cts.tid, cts.cxt, i⟩ tids joinsite) s

theorem mem_exitLoop (ht : t ∈ mustJoined fja cts.tid tids joinsite) (l : List I) :
    ∀ s : MHP N I, t ∈ (exitLoop fja cts tids joinsite s l).leav d ↔
      t ∈ s.leav d ∧ ¬ ∃ i ∈ l, d = ⟨cts.tid, cts.cxt, i⟩ := by
  induction l with
  | nil =>
    intro s
    simp [exitLoop]
  | cons i l ih =>
    intro s
    have hstep : t ∈ (rmInterleavingThread P fja
        (s.addInterleavingThread ⟨cts.tid, cts.cxt, i⟩ cts) ⟨cts.tid, cts.cxt, i⟩ tids
        joinsite).leav d ↔ t ∈ s.leav d ∧ d ≠ ⟨cts.tid, cts.cxt, i⟩ := by
      rw [mem_rmInterleavingThread, mem_addInterleavingThread]
      constructor
      · rintro ⟨h, hne⟩
        have hd : d ≠ ⟨cts.tid, cts.cxt, i⟩ := fun hd => hne ⟨hd, ht⟩
        exact ⟨h.resolve_right fun h => hd h.1, hd⟩
      · rintro ⟨h, hd⟩
        exact ⟨.inl h, fun h => hd h.1⟩
    show t ∈ (exitLoop fja cts tids joinsite _ l).leav d ↔ _
    rw [ih, hstep, and_assoc]
    simp only [mem_cons, exists_eq_or_imp, not_or, ne_eq]

theorem mem_exitLoop_of_mem (ht : t ∉ mustJoined fja cts.tid tids joinsite) (l : List I) :
    ∀ s : MHP N I, t ∈ s.leav d → t ∈ (exitLoop fja cts tids joinsite s l).leav d := by
  induction l with
  | nil => exact fun s h => h
  | cons i l ih =>
    intro s h
    refine ih _ ?_
    rw [mem_rmInterleavingThread, mem_addInterleavingThread]
    exact ⟨.inl h, fun hd => ht hd.2⟩

end Exits

-- ── The join

def joined (fja : ForkJoinAnalysis N I P) (s : MHP N I) (cts : CxtThreadStmt N I) : MHP N I :=
  let joinedTids := fja.getDirAndIndJoinedTid cts.cxt cts.stmt
  if joinedTids ≠ ∅ then
    if fja.hasJoinLoop cts.stmt then
      if fja.hasJoinInSymmetricLoop cts.cxt cts.stmt then
        exitLoop fja cts joinedTids cts.stmt s (fja.exitInsts cts.stmt)
      else (fja.exitInsts cts.stmt).foldl
        (fun s i => s.addInterleavingThread ⟨cts.tid, cts.cxt, i⟩ cts) s
    else rmInterleavingThread P fja s cts joinedTids cts.stmt
  else if fja.hasJoinLoop cts.stmt then
    (fja.exitInsts cts.stmt).foldl
      (fun s i => s.addInterleavingThread ⟨cts.tid, cts.cxt, i⟩ cts) s
  else s

theorem handleJoin_eq (fja : ForkJoinAnalysis N I P) (s : MHP N I) (cts : CxtThreadStmt N I) :
    handleJoin P fja s cts = handleIntra P (joined fja s cts) cts := by
  unfold handleJoin joined exitLoop
  dsimp only
  cases hsym : fja.hasJoinInSymmetricLoop cts.cxt cts.stmt with
  | true => simp
  | false => simp

theorem mem_joined_of_removed (ht : t ∈ removed fja cts) (h : t ∈ s.leav d) :
    t ∈ (joined fja s cts).leav d ↔ d ∉ joinTargets fja cts := by
  have hne : fja.getDirAndIndJoinedTid cts.cxt cts.stmt ≠ ∅ :=
    Finset.ne_empty_of_mem (Finset.mem_filter.mp ht).1
  unfold joined joinTargets
  dsimp only
  rw [if_pos hne]
  cases fja.hasJoinLoop cts.stmt with
  | true =>
    rw [if_pos rfl, if_pos rfl]
    cases fja.hasJoinInSymmetricLoop cts.cxt cts.stmt with
    | true =>
      rw [if_pos rfl, if_pos rfl, mem_exitLoop fja cts _ _ ht, mem_loopExits]
      exact and_iff_right h
    | false =>
      rw [if_neg Bool.false_ne_true, if_neg Bool.false_ne_true, mem_foldl_add]
      exact iff_of_true (.inl h) not_mem_nil
  | false =>
    rw [if_neg Bool.false_ne_true, if_neg Bool.false_ne_true, mem_rmInterleavingThread,
      mem_singleton]
    constructor
    · exact fun hmem hd => hmem.2 ⟨hd, ht⟩
    · exact fun hd => ⟨h, fun hc => hd hc.1⟩

theorem mem_joined_of_mem (ht : t ∉ removed fja cts) (h : t ∈ s.leav d) :
    t ∈ (joined fja s cts).leav d := by
  have hadd : t ∈ ((fja.exitInsts cts.stmt).foldl
      (fun s i => s.addInterleavingThread ⟨cts.tid, cts.cxt, i⟩ cts) s).leav d :=
    (mem_foldl_add _ _ s).mpr (.inl h)
  unfold joined
  dsimp only
  split_ifs
  · exact mem_exitLoop_of_mem fja cts _ _ ht _ s h
  · exact hadd
  · exact mem_rmInterleavingThread.mpr ⟨h, fun hd => ht hd.2⟩
  · exact hadd
  · exact h

theorem mem_of_mem_joined_self (ht : t ∈ removed fja cts)
    (h : t ∈ (joined fja s cts).leav cts) : t ∈ s.leav cts := by
  have hadd : t ∈ ((fja.exitInsts cts.stmt).foldl
      (fun s i => s.addInterleavingThread ⟨cts.tid, cts.cxt, i⟩ cts) s).leav cts →
      t ∈ s.leav cts := by
    rw [mem_foldl_add]
    rintro (h | ⟨-, h⟩)
    · exact h
    · exact h
  unfold joined at h
  dsimp only at h
  split_ifs at h
  · exact ((mem_exitLoop fja cts _ _ ht _ s).mp h).1
  · exact hadd h
  · exact (mem_rmInterleavingThread.mp h).1
  · exact hadd h
  · exact h

/-- The id that a join takes out comes back from the join's own set, if it is not taken out
    there, to a statement that follows. -/
def ComesBack (fja : ForkJoinAnalysis N I P) (s : MHP N I) (cts d : CxtThreadStmt N I) (t : ℕ) :
    Prop :=
  (∃ i ∈ P.succInsts cts.stmt, d = ⟨cts.tid, cts.cxt, i⟩) ∧ t ∈ s.leav cts ∧
    cts ∉ joinTargets fja cts

/-- **What a join takes out**: the joined ids, if `isMustJoin` allows it, and from the targets. -/
theorem handleJoin_loses_iff (h : t ∈ s.leav d) : t ∉ (handleJoin P fja s cts).leav d ↔
    t ∈ removed fja cts ∧ d ∈ joinTargets fja cts ∧ ¬ ComesBack fja s cts d t := by
  rw [handleJoin_eq, handleIntra, mem_foldl_add, not_or]
  by_cases ht : t ∈ removed fja cts
  · rw [mem_joined_of_removed ht h, not_not, ComesBack]
    refine ⟨fun ⟨hd, hback⟩ => ⟨ht, hd, fun ⟨hsucc, hcts, hnot⟩ => hback ⟨hsucc, ?_⟩⟩,
      fun ⟨_, hd, hback⟩ => ⟨hd, fun ⟨hsucc, hcts⟩ => ?_⟩⟩
    · exact (mem_joined_of_removed ht hcts).mpr hnot
    · have hmem := mem_of_mem_joined_self ht hcts
      exact hback ⟨hsucc, hmem, (mem_joined_of_removed ht hmem).mp hcts⟩
  · exact iff_of_false (fun hlost => hlost.1 (mem_joined_of_mem ht h)) fun hrm => ht hrm.1

/-- **Only threads that are surely dead are taken out**, if and only if the joining thread is
    multi-forked, or the join site is in recursion, or no joined id of a multi-forked thread is in
    a set where ids are taken out for good. -/
theorem handleJoin_removes_iff (fja : ForkJoinAnalysis N I P) (tct : TCT N I) (s : MHP N I)
    (cts : CxtThreadStmt N I) :
    (∀ d t, t ∈ s.leav d → t ∉ (handleJoin P (fja.withMustJoin tct) s cts).leav d →
      t ∈ fja.getDirAndIndJoinedTid cts.cxt cts.stmt ∧
      TCT.isMultiforked tct.nodes t = false ∧ cts.stmt ∉ tct.inRecurJoinSites) ↔
    (TCT.isMultiforked tct.nodes cts.tid = true ∨ cts.stmt ∈ tct.inRecurJoinSites ∨
      ∀ t ∈ fja.getDirAndIndJoinedTid cts.cxt cts.stmt, TCT.isMultiforked tct.nodes t = true →
        ∀ d ∈ joinTargets fja cts, t ∈ s.leav d → ComesBack fja s cts d t) := by
  have hmem : ∀ t, t ∈ removed (fja.withMustJoin tct) cts ↔
      t ∈ fja.getDirAndIndJoinedTid cts.cxt cts.stmt ∧
        TCT.isMultiforked tct.nodes cts.tid = false ∧ cts.stmt ∉ tct.inRecurJoinSites := by
    intro t
    show t ∈ Finset.filter _ _ ↔ _
    rw [Finset.mem_filter]
    show _ ∧ isMustJoin tct cts.tid cts.stmt ↔ _
    simp [isMustJoin, ForkJoinAnalysis.withMustJoin]
  constructor
  · intro h
    by_cases hmulti : TCT.isMultiforked tct.nodes cts.tid
    · exact .inl hmulti
    by_cases hrec : cts.stmt ∈ tct.inRecurJoinSites
    · exact .inr (.inl hrec)
    refine .inr (.inr fun t ht hforked d hd hin => by_contra fun hback => ?_)
    have hlost := (handleJoin_loses_iff hin).mpr
      ⟨(hmem t).mpr ⟨ht, Bool.eq_false_iff.mpr hmulti, hrec⟩, hd, hback⟩
    exact Bool.false_ne_true ((h d t hin hlost).2.1.symm.trans hforked)
  · intro h d t hin hlost
    obtain ⟨hrm, hd, hback⟩ := (handleJoin_loses_iff hin).mp hlost
    obtain ⟨ht, honce, hrec⟩ := (hmem t).mp hrm
    refine ⟨ht, ?_, hrec⟩
    rcases h with hmulti | hin' | hall
    · cases honce.symm.trans hmulti
    · exact absurd hin' hrec
    · exact Bool.eq_false_iff.mpr fun hforked => hback (hall t ht hforked d hd hin)

/-- The functions: two of the program, `pthread_create` and `pthread_join`. -/
inductive LoopFun
  | main
  | worker
  | create
  | join
  deriving DecidableEq

inductive LoopInst
  | fork
  | join
  | mainRet
  | workerRet
  deriving DecidableEq

/-- `main` forks `worker` in a loop and joins it once behind the loop. -/
def forkedInLoop : ThreadProgram LoopFun LoopInst where
  nodes := [.main, .worker, .create, .join]
  nodes_all := fun f => by cases f <;> decide
  insts := [.fork, .join, .mainRet, .workerRet]
  insts_all := fun i => by cases i <;> decide
  edges := [⟨.main, .create, .CallRetEdge, [.fork], []⟩,
    ⟨.main, .worker, .TDForkEdge, [.fork], []⟩, ⟨.main, .join, .CallRetEdge, [.join], []⟩]
  getFunction := fun i => if i = .workerRet then .worker else .main
  hasLoopInfo := fun i => i = .fork
  isExtCall := fun f => f = .create ∨ f = .join
  forksites := [.fork]
  joinsites := [.join]
  calls_in := by decide
  entryInst := fun f =>
    match f with
    | .main => some .fork
    | .worker => some .workerRet
    | _ => none
  succInsts := fun i =>
    match i with
    | .fork => [.fork, .join]
    | .join => [.mainRet]
    | _ => []
  isCallSite := fun i => i = .fork ∨ i = .join
  isRetInst := fun i => i = .mainRet ∨ i = .workerRet
  isExtCallInst := fun i => i = .fork ∨ i = .join
  entry_in := fun f i => by cases f <;> cases i <;> decide
  succ_in := fun i j _ => by cases i <;> cases j <;> first | rfl | contradiction
  calls_ne := by decide
  join_out := by decide

def joinsOne : ForkJoinAnalysis LoopFun LoopInst forkedInLoop where
  getDirAndIndJoinedTid := fun _ i => if i = .join then {1} else ∅
  hasJoinLoop := fun _ => false
  exitInsts := fun _ => []
  hasJoinInSymmetricLoop := fun _ _ => false
  isMustJoin := fun _ _ => false
  isHBPair := fun _ _ => false
  isRecurFullJoin := fun _ _ => false
  exit_in := fun _ _ h => absurd h not_mem_nil

def runsAtJoin : MHP LoopFun LoopInst := init.addInterleavingTid ⟨0, [], .join⟩ 1

/-- The one join takes out the id of all the threads that the loop has forked. -/
theorem handleJoin_removes_multiforked : ∃ tct,
    TCT.build forkedInLoop.toThreadCallGraph 20 = some tct ∧
    TCT.isMultiforked tct.nodes 1 = true ∧ (1 : ℕ) ∈ runsAtJoin.leav ⟨0, [], .join⟩ ∧
    (1 : ℕ) ∉ (handleJoin forkedInLoop (joinsOne.withMustJoin tct) runsAtJoin ⟨0, [], .join⟩).leav
      ⟨0, [], .join⟩ := by
  have hrun : (TCT.build forkedInLoop.toThreadCallGraph 20).map (fun tct =>
      decide (TCT.isMultiforked tct.nodes 1 ∧ (1 : ℕ) ∈ runsAtJoin.leav ⟨0, [], .join⟩ ∧
        (1 : ℕ) ∉ (handleJoin forkedInLoop (joinsOne.withMustJoin tct) runsAtJoin
          ⟨0, [], .join⟩).leav ⟨0, [], .join⟩)) = some true := by
    decide +kernel
  obtain ⟨tct, hbuild, hall⟩ := Option.map_eq_some_iff.mp hrun
  exact ⟨tct, hbuild, of_decide_eq_true hall⟩

end MHP

end SvfMHP
