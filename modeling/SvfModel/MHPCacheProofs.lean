import SvfModel.JoinProofs

/-!
# `MHP::mayHappenInParallel`: the cache of function pairs

A function that is not a candidate is entered in the walk at its first instruction and no further.
`updateNonCandidateFunInterleaving` copies what is known there to its other instructions, and
queries about two such functions are answered once, with whatever pair of instructions comes
first.

The heart is `Walked`, what the walk preserves: every statement in the table is still queued, or it
is of a candidate, or the first of its function. So in the end the other instructions have nothing
of their own, after the copying all have the same (`Uniform`), and the cache makes no difference
(**`mayHappenInParallel_cached`**).
-/

namespace SvfTCT

open SvfLoop SvfWorkList SvfSCCDetection SvfThreadCallGraph Option
open Function (update update_of_ne update_self)
open Option (bind_eq_some_iff map_eq_some_iff)

variable {N I : Type} [DecidableEq N] [DecidableEq I]

namespace TCT

-- ── Start routines

def RoutinesIn (X : N → Prop) (s : TCT N I) : Prop :=
  ∀ ct r, s.ctToRoutineFunMap ct = some r → X r

variable {G : ThreadCallGraph N I} {tcgSCC : SCCDetection N} {candidateFuncSet : Finset N}
  {X : N → Prop} {attrs : Option I → Option (Bool × Bool)}

theorem RoutinesIn.getOrCreate {s : TCT N I} (h : RoutinesIn X s) {cxt oldCxt : CallStrCxt N I}
    {fork : Option I} {routine : N} (hX : X routine) {q : ℕ × TCT N I}
    (hq : getOrCreateTCTNode attrs s cxt fork oldCxt routine = some q) : RoutinesIn X q.2 := by
  simp only [getOrCreateTCTNode] at hq
  cases hmap : s.ctpToNodeMap ⟨cxt, fork⟩ with
  | some id =>
    rw [hmap] at hq
    exact some.inj hq ▸ h
  | none =>
    rw [hmap] at hq
    obtain ⟨a, -, hq⟩ := bind_eq_some_iff.mp hq
    simp only [addTCTNode] at hq
    rw [if_pos hmap] at hq
    cases hq
    intro ct r hr
    have hr' : update s.ctToRoutineFunMap ⟨cxt, fork⟩ (some routine) ct = some r := hr
    by_cases hct : ct = ⟨cxt, fork⟩
    · rw [hct, update_self] at hr'
      exact some.inj hr' ▸ hX
    · rw [update_of_ne hct] at hr'
      exact h ct r hr'

theorem RoutinesIn.push {s : TCT N I} (h : RoutinesIn X s) (p : CxtThreadProc N I) :
    RoutinesIn X (s.pushToCTPWorkList p).2 := by
  rw [pushToCTPWorkList]
  by_cases hp : p ∈ s.visitedCTPs
  · rw [if_pos hp]
    exact h
  · rw [if_neg hp]
    exact h

theorem RoutinesIn.callRelation {s t : TCT N I} (h : RoutinesIn X s) {p : CxtThreadProc N I}
    {e : PTACallGraphEdge N I} {cs : I} (hX : e.edgeKind = .TDForkEdge → X e.dstID)
    (ht : handleCallRelation G tcgSCC candidateFuncSet attrs p e s cs = some t) :
    RoutinesIn X t := by
  simp only [handleCallRelation] at ht
  cases hk : e.edgeKind with
  | CallRetEdge =>
    rw [hk] at ht
    exact some.inj ht ▸ h.push _
  | TDForkEdge =>
    rw [hk] at ht
    obtain ⟨⟨spawnee, u⟩, hu, rfl⟩ := map_eq_some_iff.mp ht
    have hpush := (h.getOrCreate (hX hk) hu).push
      ⟨spawnee, pushCxt G tcgSCC candidateFuncSet p.cxt cs e.dstID, e.dstID⟩
    dsimp only
    split_ifs
    · rw [addTCTEdge]
      split_ifs
      · exact hpush
      · exact hpush
    · exact hpush
  | TDJoinEdge =>
    rw [hk] at ht
    exact some.inj ht ▸ h
  | HareParForEdge =>
    rw [hk] at ht
    exact some.inj ht ▸ h

theorem RoutinesIn.process {s t : TCT N I} (h : RoutinesIn X s)
    (hX : ∀ e ∈ G.edges, e.edgeKind = .TDForkEdge → e.calls ≠ [] → X e.dstID)
    (ht : processCTP G tcgSCC candidateFuncSet attrs s = some t) : RoutinesIn X t := by
  rw [processCTP] at ht
  cases hpop : s.ctpList.pop with
  | none =>
    rw [hpop] at ht
    cases ht
  | some r =>
    obtain ⟨p, w⟩ := r
    rw [hpop] at ht
    dsimp only at ht
    have hw : RoutinesIn X { s with ctpList := w } := h
    by_cases hcand : p.proc ∉ candidateFuncSet
    · rw [if_pos hcand] at ht
      exact some.inj ht ▸ hw
    · rw [if_neg hcand] at ht
      refine foldlM_keeps _ _ t (fun s e t he hs ht => ?_) hw ht
      have hone : ∀ s cs t, cs ∈ e.calls → RoutinesIn X s →
          handleCallRelation G tcgSCC candidateFuncSet attrs p e s cs = some t →
          RoutinesIn X t := fun s cs t hcs hs ht =>
        hs.callRelation (fun hk => hX e (List.mem_filter.mp he).1 hk (List.ne_nil_of_mem hcs)) ht
      obtain ⟨u, hu, ht⟩ := bind_eq_some_iff.mp ht
      have hu' : RoutinesIn X u :=
        foldlM_keeps _ s u (fun s cs t hcs => hone s cs t (List.mem_append_left _ hcs)) hs hu
      exact foldlM_keeps _ u t (fun s cs t hcs => hone s cs t (List.mem_append_right _ hcs)) hu' ht

/-- **Start routines** are candidates, or something a fork edge leads to. -/
theorem build_routines {t : TCT N I} (hmark : Stops G.markRelProcs candidateFuncSet)
    (hbuild : Stops (build G) t) :
    RoutinesIn (fun r => r ∈ candidateFuncSet ∨
      ∃ e ∈ G.edges, e.edgeKind = .TDForkEdge ∧ e.calls ≠ [] ∧ e.dstID = r) t := by
  obtain ⟨m, hm⟩ := hmark
  obtain ⟨n, hn⟩ := hbuild
  have hrun := hn (m + n + 1) (by omega)
  rw [build] at hrun
  obtain ⟨scc, -, hrun⟩ := bind_eq_some_iff.mp hrun
  obtain ⟨cand, hcand, hrun⟩ := bind_eq_some_iff.mp hrun
  obtain rfl : candidateFuncSet = cand := some.inj ((hm (m + n + 1) (by omega)).symm.trans hcand)
  obtain ⟨sites, -, hrun⟩ := bind_eq_some_iff.mp hrun
  obtain ⟨s, hwalk, hcollect⟩ := bind_eq_some_iff.mp hrun
  rw [walk] at hwalk
  obtain ⟨u, hu, hwalk⟩ := bind_eq_some_iff.mp hwalk
  have hinit : RoutinesIn (fun r => r ∈ candidateFuncSet ∨
      ∃ e ∈ G.edges, e.edgeKind = .TDForkEdge ∧ e.calls ≠ [] ∧ e.dstID = r)
      (init sites : TCT N I) := by
    intro _ _ hr
    cases hr
  have hstart := foldlM_keeps _ (init sites) u (fun s entry t _ hs ht => by
    rw [pushEntry] at ht
    by_cases hentry : entry ∉ candidateFuncSet
    · rw [if_pos hentry] at ht
      exact some.inj ht ▸ hs
    · rw [if_neg hentry] at ht
      obtain ⟨q, hq, rfl⟩ := map_eq_some_iff.mp ht
      exact (hs.getOrCreate (.inl (not_not.mp hentry)) hq).push _) hinit hu
  have hs := whileM_keeps (fun s s' hs hs' => hs.process
    (fun e he hk hcs => .inr ⟨e, he, hk, hcs, rfl⟩) hs') _ u s hstart hwalk
  rw [collectMultiForkedThreads] at hcollect
  by_cases hnone : s.nodes.length = 0
  · rw [if_pos hnone] at hcollect
    exact some.inj hcollect ▸ hs
  · rw [if_neg hnone] at hcollect
    obtain ⟨r, -, rfl⟩ := map_eq_some_iff.mp hcollect
    exact hs

end TCT

end SvfTCT

namespace SvfMHP

open SvfLoop SvfWorkList SvfSCCDetection SvfThreadCallGraph SvfTCT List
open Function (update update_of_ne update_self)

/-- A program as the front end hands it over. The entry block of a function has no predecessors.
    A fork edge from elsewhere than a fork site is one of a parallel-for whose task is given by a
    pointer: it leads to the function that the program names, which is a declaration if it is
    external. -/
structure LLVMProgram (N I : Type) extends ThreadProgram N I where
  entry_noPred : ∀ i, ∀ j ∈ succInsts i, ∀ f, entryInst f ≠ some j
  task_noBody : ∀ e ∈ edges, e.edgeKind = .TDForkEdge → (∀ cs ∈ e.calls, cs ∉ forksites) →
    isExtCall e.dstID = true → entryInst e.dstID = none

/-- The order in which a loop over a hash set comes to the elements. -/
structure SetOrder (A : Type) where
  list : Finset A → List A
  mem_list : ∀ s a, a ∈ list s ↔ a ∈ s

variable {N I : Type} [DecidableEq N] [DecidableEq I]

/-- The same thread and context at another statement. -/
def CxtThreadStmt.withStmt (d : CxtThreadStmt N I) (i : I) : CxtThreadStmt N I := ⟨d.tid, d.cxt, i⟩

namespace MHP

/-- The body of the innermost loop of `updateNonCandidateFunInterleaving()`. -/
def copyTo (s : MHP N I) (cts : CxtThreadStmt N I) (svfInst : I) : MHP N I :=
  let newCts : CxtThreadStmt N I := ⟨cts.tid, cts.cxt, svfInst⟩
  { s with
    threadStmtToTheadInterLeav := update s.threadStmtToTheadInterLeav newCts
      (s.threadStmtToTheadInterLeav newCts ∪ s.threadStmtToTheadInterLeav cts)
    instToTSMap := update s.instToTSMap svfInst (insert newCts (s.instToTSMap svfInst)) }

section Queries

variable (P : ThreadProgram N I) (candidateFuncSet : Finset N) (tct : TCT N I)
  (order : SetOrder (CxtThreadStmt N I))

/-- One function of `updateNonCandidateFunInterleaving()`. An instruction that no thread comes to
    has an empty set here. -/
def updateFun (s : MHP N I) (svffun : N) : Option (MHP N I) :=
  if svffun ∉ candidateFuncSet ∧ P.isExtCall svffun = false then
    (P.entryInst svffun).map fun entryinst =>
      (order.list (s.instToTSMap entryinst)).foldl
        (fun s cts =>
          ((P.insts.filter fun i => P.getFunction i = svffun).filter fun i => i ≠ entryinst).foldl
            (fun s svfInst => s.copyTo cts svfInst) s) s
  else some s

def updateNonCandidateFunInterleaving (s : MHP N I) : Option (MHP N I) :=
  P.nodes.foldlM (updateFun P candidateFuncSet order) s

def mayHappenInParallelInst (s : MHP N I) (i1 i2 : I) : Bool :=
  decide (∃ ts1 ∈ s.instToTSMap i1, ∃ ts2 ∈ s.instToTSMap i2,
    if ts1.tid ≠ ts2.tid then
      ts2.tid ∈ s.threadStmtToTheadInterLeav ts1 ∧ ts1.tid ∈ s.threadStmtToTheadInterLeav ts2
    else TCT.isMultiforked tct.nodes ts1.tid = true)

/-- `nonCandidateFuncMHPRelMap`. -/
abbrev FuncPairToBool (N : Type) := N × N → Option Bool

def mayHappenInParallelCache (s : MHP N I) (cache : FuncPairToBool N) (i1 i2 : I) :
    Bool × FuncPairToBool N :=
  if P.getFunction i1 ∉ candidateFuncSet ∧ P.getFunction i2 ∉ candidateFuncSet then
    let funpair := (P.getFunction i1, P.getFunction i2)
    match cache funpair with
    | none =>
      let mhp := mayHappenInParallelInst tct s i1 i2
      (mhp, update cache funpair (some mhp))
    | some mhp => (mhp, cache)
  else (mayHappenInParallelInst tct s i1 i2, cache)

def answers (s : MHP N I) : FuncPairToBool N → List (I × I) → List Bool
  | _, [] => []
  | cache, q :: queries =>
    let r := mayHappenInParallelCache P candidateFuncSet tct s cache q.1 q.2
    r.1 :: answers s r.2 queries

end Queries

-- ── What the walk preserves

variable {P : ThreadProgram N I} {tcgSCC : SCCDetection N} {candidateFuncSet : Finset N}
  {tct : TCT N I} {fja : ForkJoinAnalysis N I P} {order : SetOrder (CxtThreadStmt N I)}
  {s t : MHP N I}

variable (P candidateFuncSet) in
/-- Every statement in the table is still queued, or has been handled without a failed
    assertion. -/
structure Walked (s : MHP N I) : Prop where
  located : ∀ i, ∀ d ∈ s.instToTSMap i, d.stmt = i
  listed : ∀ d, (s.leav d).Nonempty → d ∈ s.instToTSMap d.stmt
  entered : ∀ d, d ∈ s.instToTSMap d.stmt → Entered P candidateFuncSet d
  handled : ∀ d, d ∈ s.instToTSMap d.stmt →
    d ∈ s.cxtStmtList.den ∨ AtEntry P candidateFuncSet d

variable {i : I} {o : Option ℕ} {d : CxtThreadStmt N I}

theorem Walked.init : Walked P candidateFuncSet (MHP.init : MHP N I) where
  located := fun _ d hd => absurd hd (Finset.notMem_empty d)
  listed := fun _ h => absurd h Finset.not_nonempty_empty
  entered := fun d hd => absurd hd (Finset.notMem_empty d)
  handled := fun d hd => absurd hd (Finset.notMem_empty d)

theorem mem_changed {tgr d : CxtThreadStmt N I} {tids : Finset ℕ} :
    d ∈ (s.changed tgr tids).instToTSMap i ↔ d ∈ s.instToTSMap i ∨ d = tgr ∧ i = tgr.stmt := by
  show d ∈ update s.instToTSMap tgr.stmt (insert tgr (s.instToTSMap tgr.stmt)) i ↔ _
  by_cases hi : i = tgr.stmt
  · subst hi
    rw [update_self, Finset.mem_insert, and_iff_left rfl, or_comm]
  · rw [update_of_ne hi]
    exact ⟨.inl, fun h => h.resolve_right fun h => hi h.2⟩

theorem Walked.changed (h : Walked P candidateFuncSet s) {tgr : CxtThreadStmt N I}
    (htgr : Entered P candidateFuncSet tgr) (tids : Finset ℕ) :
    Walked P candidateFuncSet (s.changed tgr tids) := by
  constructor
  case located =>
    intro i d hd
    rcases mem_changed.mp hd with hd | ⟨rfl, rfl⟩
    · exact h.located i d hd
    · rfl
  case listed =>
    intro d hd
    refine mem_changed.mpr ?_
    by_cases hdt : d = tgr
    · exact .inr ⟨hdt, congrArg _ hdt⟩
    · have hsame : (s.changed tgr tids).leav d = s.leav d := update_of_ne hdt _ _
      exact .inl (h.listed d (hsame ▸ hd))
  case entered =>
    intro d hd
    rcases mem_changed.mp hd with hd | ⟨rfl, -⟩
    · exact h.entered d hd
    · exact htgr
  case handled =>
    intro d hd
    have hden : (s.changed tgr tids).cxtStmtList.den = insert tgr s.cxtStmtList.den :=
      FIFOWorkList.den_push _ _
    rw [hden]
    rcases mem_changed.mp hd with hd | ⟨rfl, -⟩
    · exact (h.handled d hd).imp_left (Set.mem_insert_of_mem _)
    · exact .inl (Set.mem_insert _ _)

/-- **One change** of an interleaving set. -/
theorem Walked.closed : Closed P fja (Entered P candidateFuncSet) (Walked P candidateFuncSet) where
  addTid := by
    intro s tgr tid h htgr
    rw [addInterleavingTid]
    split_ifs
    · exact h
    · exact h.changed htgr _
  add := by
    intro s tgr src h htgr
    rw [addInterleavingThread]
    split_ifs
    · exact h
    · exact h.changed htgr _
  rm := by
    intro s tgr tids joinsite h _
    have hless : ∀ d, (rmInterleavingThread P fja s tgr tids joinsite).leav d ⊆ s.leav d :=
      fun d x hx => (mem_rmInterleavingThread.mp hx).1
    have htable : (rmInterleavingThread P fja s tgr tids joinsite).instToTSMap = s.instToTSMap := by
      simp only [rmInterleavingThread]
      split_ifs
      · rfl
      · rfl
    have hden : s.cxtStmtList.den ⊆
        (rmInterleavingThread P fja s tgr tids joinsite).cxtStmtList.den := by
      simp only [rmInterleavingThread]
      split_ifs
      · exact subset_rfl
      · rw [FIFOWorkList.den_push]
        exact Set.subset_insert _ _
    constructor
    · exact fun i d hd => h.located i d (htable ▸ hd)
    · exact fun d hd => htable.symm ▸ h.listed d (hd.mono (hless d))
    · exact fun d hd => h.entered d (htable ▸ hd)
    · exact fun d hd => (h.handled d (htable ▸ hd)).imp_left fun hq => hden hq

theorem atEntry_of_handle {cts : CxtThreadStmt N I}
    (hrun : handle P tcgSCC candidateFuncSet tct fja s cts = some t) :
    AtEntry P candidateFuncSet cts := by
  intro hcand
  by_contra hentry
  rw [handle, if_pos hcand, handleNonCandidateFun, if_neg hentry] at hrun
  cases hrun

/-- **Runs.** -/
theorem Runs.walked {C : CxtThreadStmt N I → Prop} {roots rest : List ℕ}
    (h : Runs P tcgSCC candidateFuncSet tct fja C roots rest s)
    (hroot : ∀ d, Rooted P tct d → Entered P candidateFuncSet d) : Walked P candidateFuncSet s := by
  induction h with
  | init => exact Walked.init
  | root h hempty hstart ih => exact Walked.closed.startRoot ih hstart hroot
  | @iter rest s s' cts w h hpop hC hhandle ih =>
    obtain ⟨hmem, hden⟩ := FIFOWorkList.pop_some hpop
    have hw : Walked P candidateFuncSet { s with cxtStmtList := w } := by
      refine ⟨ih.located, ih.listed, ih.entered, fun d hd => ?_⟩
      show d ∈ w.den ∨ _
      rw [hden]
      by_cases hdc : d = cts
      · exact .inr (hdc ▸ atEntry_of_handle hhandle)
      · exact (ih.handled d hd).imp_left fun hq => ⟨hq, hdc⟩
    exact Walked.closed.handle hw hhandle fun _ _ h => h

-- ── What the copying does

/-- A fact about a statement: that it is in the table, or what is in its interleaving set. -/
def Holds (s : MHP N I) (d : CxtThreadStmt N I) : Option ℕ → Prop
  | none => d ∈ s.instToTSMap d.stmt
  | some x => x ∈ s.leav d

/-- Every statement in the table is under its instruction. -/
def Located (s : MHP N I) : Prop := ∀ i, ∀ d ∈ s.instToTSMap i, d.stmt = i

section

variable {cts d : CxtThreadStmt N I}

theorem mem_copyTo {i j : I} :
    d ∈ (s.copyTo cts i).instToTSMap j ↔ d ∈ s.instToTSMap j ∨ d = cts.withStmt i ∧ j = i := by
  show d ∈ update s.instToTSMap i (insert (cts.withStmt i) (s.instToTSMap i)) j ↔ _
  by_cases hj : j = i
  · subst hj
    rw [update_self, Finset.mem_insert, and_iff_left rfl, or_comm]
  · rw [update_of_ne hj]
    exact ⟨.inl, fun h => h.resolve_right fun h => hj h.2⟩

theorem mem_leav_copyTo {x : ℕ} :
    x ∈ (s.copyTo cts i).leav d ↔ x ∈ s.leav d ∨ d = cts.withStmt i ∧ x ∈ s.leav cts := by
  show x ∈ update s.threadStmtToTheadInterLeav (cts.withStmt i)
    (s.leav (cts.withStmt i) ∪ s.leav cts) d ↔ _
  rw [leav_update]
  by_cases hd : d = cts.withStmt i
  · subst hd
    rw [if_pos rfl, Finset.mem_union, and_iff_right rfl]
  · rw [if_neg hd]
    exact ⟨.inl, fun h => h.resolve_right fun h => hd h.1⟩

theorem holds_copyTo (h : s.Holds cts none) :
    (s.copyTo cts i).Holds d o ↔ s.Holds d o ∨ d = cts.withStmt i ∧ s.Holds cts o := by
  cases o with
  | none =>
    refine mem_copyTo.trans (or_congr_right (and_congr_right fun hd => ?_))
    exact iff_of_true (congrArg CxtThreadStmt.stmt hd) h
  | some x => exact mem_leav_copyTo

end

theorem Located.copyTo (h : Located s) (cts : CxtThreadStmt N I) (i : I) :
    Located (s.copyTo cts i) := by
  intro j d hd
  rcases mem_copyTo.mp hd with hd | ⟨rfl, rfl⟩
  · exact h j d hd
  · rfl

theorem holds_copyTo_foldl {cts d : CxtThreadStmt N I} (l : List I) (hl : cts.stmt ∉ l)
    : ∀ s : MHP N I, s.Holds cts none → ((l.foldl (fun s i => s.copyTo cts i) s).Holds d o ↔
        s.Holds d o ∨ (∃ i ∈ l, d = cts.withStmt i) ∧ s.Holds cts o) := by
  induction l with
  | nil =>
    intro s _
    simp
  | cons i l ih =>
    intro s h
    have hne : cts ≠ cts.withStmt i :=
      fun heq => hl (List.mem_cons.mpr (.inl (congrArg CxtThreadStmt.stmt heq)))
    have hself : ∀ o, (s.copyTo cts i).Holds cts o ↔ s.Holds cts o := fun o =>
      (holds_copyTo h).trans ⟨fun h => h.resolve_right fun h => hne h.1, .inl⟩
    rw [foldl_cons, ih (fun hm => hl (mem_cons_of_mem i hm)) _ ((hself none).mpr h),
      holds_copyTo h, hself]
    simp only [mem_cons, exists_eq_or_imp]
    tauto

theorem holds_copyTo_foldl_foldl {l : List I} {e : I} (hl : e ∉ l) (ctss : List (CxtThreadStmt N I))
    (hstmt : ∀ cts ∈ ctss, cts.stmt = e) :
    ∀ s : MHP N I, (∀ cts ∈ ctss, s.Holds cts none) →
      ((ctss.foldl (fun s cts => l.foldl (fun s i => s.copyTo cts i) s) s).Holds d o ↔
        s.Holds d o ∨ d.stmt ∈ l ∧ d.withStmt e ∈ ctss ∧ s.Holds (d.withStmt e) o) := by
  induction ctss with
  | nil =>
    intro s _
    simp
  | cons cts ctss ih =>
    intro s h
    obtain ⟨hcts, hrest⟩ := List.forall_mem_cons.mp h
    obtain ⟨hctsE, hstmtRest⟩ := List.forall_mem_cons.mp hstmt
    have hone : ∀ (d : CxtThreadStmt N I) (o : Option ℕ),
        (l.foldl (fun s i => s.copyTo cts i) s).Holds d o ↔
          s.Holds d o ∨ d.stmt ∈ l ∧ d.withStmt e = cts ∧ s.Holds (d.withStmt e) o := by
      intro d o
      refine (holds_copyTo_foldl l (hctsE.symm ▸ hl) s hcts).trans (or_congr_right ?_)
      constructor
      · rintro ⟨⟨i, hi, rfl⟩, ho⟩
        have heq : (cts.withStmt i).withStmt e = cts := by rw [← hctsE]; rfl
        exact ⟨hi, heq, heq.symm ▸ ho⟩
      · rintro ⟨hd, rfl, ho⟩
        exact ⟨⟨d.stmt, hd, rfl⟩, ho⟩
    have hentry : ∀ (d : CxtThreadStmt N I) (o : Option ℕ), d.stmt = e →
        ((l.foldl (fun s i => s.copyTo cts i) s).Holds d o ↔ s.Holds d o) := by
      intro d o hd
      exact (hone d o).trans ⟨fun h => h.resolve_right fun h => hl (hd ▸ h.1), .inl⟩
    rw [foldl_cons, ih hstmtRest _
      (fun c hc => (hentry c none (hstmtRest c hc)).mpr (hrest c hc)), hone d o,
      hentry (d.withStmt e) o rfl, mem_cons]
    tauto

theorem Located.updateFun (h : Located s) {svffun : N}
    (hrun : updateFun P candidateFuncSet order s svffun = some t) : Located t := by
  rw [MHP.updateFun] at hrun
  split_ifs at hrun
  · obtain ⟨e, -, rfl⟩ := Option.map_eq_some_iff.mp hrun
    exact foldl_keeps _ s (fun s cts _ hs => foldl_keeps _ s (fun s i _ hs => hs.copyTo cts i) hs) h
  · exact Option.some.inj hrun ▸ h

variable (P candidateFuncSet) in
structure Copied (l : List N) (i e : I) : Prop where
  mem : P.getFunction i ∈ l
  cand : P.getFunction i ∉ candidateFuncSet
  ext : P.isExtCall (P.getFunction i) = false
  entry : P.entryInst (P.getFunction i) = some e
  ne : i ≠ e

omit [DecidableEq N] [DecidableEq I] in
theorem Copied.mono {l l' : List N} {i e : I} (h : Copied P candidateFuncSet l i e)
    (hmem : P.getFunction i ∈ l') : Copied P candidateFuncSet l' i e :=
  ⟨hmem, h.cand, h.ext, h.entry, h.ne⟩

omit [DecidableEq N] [DecidableEq I] in
theorem Copied.not_twice {l l' : List N} {i e e' : I} (h : Copied P candidateFuncSet l i e) :
    ¬ Copied P candidateFuncSet l' e e' := by
  intro h'
  have hfun : P.getFunction e = P.getFunction i := P.entry_in _ e h.entry
  exact h'.ne (Option.some.inj ((hfun ▸ h.entry).symm.trans h'.entry))

variable (P candidateFuncSet) in
def Updated (l : List N) (s t : MHP N I) : Prop :=
  ∀ d o, t.Holds d o ↔ s.Holds d o ∨ ∃ e, Copied P candidateFuncSet l d.stmt e ∧
    s.Holds (d.withStmt e) none ∧ s.Holds (d.withStmt e) o

theorem updateFun_spec (h : Located s) {svffun : N}
    (hrun : updateFun P candidateFuncSet order s svffun = some t) :
    Updated P candidateFuncSet [svffun] s t := by
  intro d o
  rw [updateFun] at hrun
  by_cases hfun : svffun ∉ candidateFuncSet ∧ P.isExtCall svffun = false
  · rw [if_pos hfun] at hrun
    obtain ⟨e, he, rfl⟩ := Option.map_eq_some_iff.mp hrun
    have hsets : ∀ cts, cts ∈ order.list (s.instToTSMap e) → cts.stmt = e :=
      fun cts hcts => h e cts ((order.mem_list _ _).mp hcts)
    have hnot : e ∉ ((P.insts.filter fun i => P.getFunction i = svffun).filter fun i => i ≠ e) :=
      fun hm => absurd rfl (of_decide_eq_true (List.mem_filter.mp hm).2 : e ≠ e)
    rw [holds_copyTo_foldl_foldl hnot _ hsets s (fun cts hcts => ?_)]
    · refine or_congr_right ?_
      rw [order.mem_list, mem_filter, mem_filter]
      constructor
      · rintro ⟨⟨⟨-, hd⟩, hne⟩, hin, ho⟩
        obtain rfl := of_decide_eq_true hd
        exact ⟨e, ⟨mem_singleton_self _, hfun.1, hfun.2, he, of_decide_eq_true hne⟩, hin, ho⟩
      · rintro ⟨e', hc, hin, ho⟩
        obtain hd := List.mem_singleton.mp hc.mem
        obtain rfl : e = e' := Option.some.inj (he.symm.trans (hd ▸ hc.entry))
        exact ⟨⟨⟨P.insts_all _, decide_eq_true hd⟩, decide_eq_true hc.ne⟩, hin, ho⟩
    · have hm := (order.mem_list _ _).mp hcts
      show cts ∈ s.instToTSMap cts.stmt
      exact (h e cts hm).symm ▸ hm
  · rw [if_neg hfun] at hrun
    cases hrun
    refine ⟨.inl, fun h => h.resolve_right ?_⟩
    rintro ⟨e, hc, -⟩
    obtain hd := List.mem_singleton.mp hc.mem
    exact hfun ⟨hd ▸ hc.cand, hd ▸ hc.ext⟩

/-- **All functions.** -/
theorem updateFun_foldlM : ∀ (l : List N) (s t : MHP N I), Located s →
    l.foldlM (updateFun P candidateFuncSet order) s = some t →
    Updated P candidateFuncSet l s t := by
  intro l
  induction l with
  | nil =>
    intro s t _ hrun d o
    cases hrun
    exact ⟨.inl, fun h => h.resolve_right fun ⟨_, hc, _⟩ => not_mem_nil hc.mem⟩
  | cons f l ih =>
    intro s t h hrun d o
    rw [foldlM_cons] at hrun
    obtain ⟨u, hu, hrun⟩ := Option.bind_eq_some_iff.mp hrun
    have hone := updateFun_spec h hu
    rw [ih u t (h.updateFun hu) hrun d o, hone d o]
    -- at the first instruction of a function nothing has changed
    have hentry : ∀ {e : I}, Copied P candidateFuncSet l d.stmt e → ∀ o,
        u.Holds (d.withStmt e) o ↔ s.Holds (d.withStmt e) o := fun hc o =>
      (hone _ o).trans ⟨fun h => h.resolve_right fun ⟨_, hc', _⟩ => hc.not_twice hc', .inl⟩
    constructor
    · rintro ((h | ⟨e, hc, h⟩) | ⟨e, hc, hin, ho⟩)
      · exact .inl h
      · exact .inr ⟨e, hc.mono (List.mem_cons.mpr (.inl (List.mem_singleton.mp hc.mem))), h⟩
      · exact .inr ⟨e, hc.mono (mem_cons_of_mem f hc.mem), (hentry hc none).mp hin,
          (hentry hc o).mp ho⟩
    · rintro (h | ⟨e, hc, hin, ho⟩)
      · exact .inl (.inl h)
      · rcases List.mem_cons.mp hc.mem with hm | hm
        · exact .inl (.inr ⟨e, hc.mono (List.mem_singleton.mpr hm), hin, ho⟩)
        · have hc' := hc.mono hm
          exact .inr ⟨e, hc', (hentry hc' none).mpr hin, (hentry hc' o).mpr ho⟩

-- ── One function, one answer

variable (P candidateFuncSet) in
/-- All instructions of a function that is not a candidate have the same threads, contexts and
    interleaving sets, its first instruction among them. -/
def Uniform (t : MHP N I) : Prop :=
  ∀ i j, P.getFunction i = P.getFunction j → P.getFunction i ∉ candidateFuncSet →
    ∀ tid cxt, (⟨tid, cxt, i⟩ ∈ t.instToTSMap i ↔ ⟨tid, cxt, j⟩ ∈ t.instToTSMap j) ∧
      t.leav ⟨tid, cxt, i⟩ = t.leav ⟨tid, cxt, j⟩

variable (P candidateFuncSet) in
/-- What is entered at its first instruction, and no candidate, is not external. -/
def NoExtEntry : Prop :=
  ∀ d : CxtThreadStmt N I, Entered P candidateFuncSet d → P.getFunction d.stmt ∉ candidateFuncSet →
    P.entryInst (P.getFunction d.stmt) = some d.stmt → P.isExtCall (P.getFunction d.stmt) = false

theorem Walked.holds_none (h : Walked P candidateFuncSet s) (ho : s.Holds d o)
    : s.Holds d none := by
  cases o with
  | none => exact ho
  | some x => exact h.listed d ⟨x, ho⟩

/-- At the end of the walk, facts about a function that is not a candidate are about its first
    instruction. -/
theorem Walked.atEntry (h : Walked P candidateFuncSet s) (hempty : s.cxtStmtList.isEmpty)
    (hext : NoExtEntry P candidateFuncSet) (ho : s.Holds d o)
    (hcand : P.getFunction d.stmt ∉ candidateFuncSet) :
    P.entryInst (P.getFunction d.stmt) = some d.stmt ∧
      P.isExtCall (P.getFunction d.stmt) = false := by
  have hin : d ∈ s.instToTSMap d.stmt := h.holds_none ho
  have hentry : AtEntry P candidateFuncSet d := by
    rcases h.handled d hin with hq | hq
    · rw [FIFOWorkList.den_of_isEmpty hempty] at hq
      exact absurd hq (Set.notMem_empty d)
    · exact hq
  exact ⟨hentry hcand, hext d (h.entered d hin) hcand (hentry hcand)⟩

section

variable (hup : Updated P candidateFuncSet P.nodes s t) (h : Walked P candidateFuncSet s)
  (hempty : s.cxtStmtList.isEmpty) (hext : NoExtEntry P candidateFuncSet)
include hup h hempty hext

theorem Updated.holds_iff (o : Option ℕ) (hcand : P.getFunction d.stmt ∉ candidateFuncSet) :
    t.Holds d o ↔ ∃ e, P.entryInst (P.getFunction d.stmt) = some e ∧
      P.isExtCall (P.getFunction d.stmt) = false ∧ s.Holds (d.withStmt e) o := by
  rw [hup d o]
  constructor
  · rintro (ho | ⟨e, hc, -, ho⟩)
    · obtain ⟨he, hbody⟩ := h.atEntry hempty hext ho hcand
      exact ⟨d.stmt, he, hbody, ho⟩
    · exact ⟨e, hc.entry, hc.ext, ho⟩
  · rintro ⟨e, he, hbody, ho⟩
    by_cases hde : d.stmt = e
    · subst hde
      exact .inl ho
    · exact .inr ⟨e, ⟨P.nodes_all _, hcand, hbody, he, hde⟩, h.holds_none ho, ho⟩

theorem Updated.uniform : Uniform P candidateFuncSet t := by
  intro i j hij hcand tid cxt
  have hsame : ∀ o, t.Holds ⟨tid, cxt, i⟩ o ↔ t.Holds ⟨tid, cxt, j⟩ o := by
    intro o
    rw [hup.holds_iff h hempty hext (d := ⟨tid, cxt, i⟩) o hcand,
      hup.holds_iff h hempty hext (d := ⟨tid, cxt, j⟩) o (hij ▸ hcand)]
    dsimp only
    rw [hij]
    exact .rfl
  exact ⟨hsame none, Finset.ext fun x => hsame (some x)⟩

end

section

variable {i1 i2 j1 j2 : I} (hu : Uniform P candidateFuncSet t) (hl : Located t)
  (h1 : P.getFunction i1 = P.getFunction j1) (h2 : P.getFunction i2 = P.getFunction j2)
  (hc1 : P.getFunction i1 ∉ candidateFuncSet) (hc2 : P.getFunction i2 ∉ candidateFuncSet)
include hu hl h1 h2 hc1 hc2

theorem Uniform.inst_of_inst (h : mayHappenInParallelInst tct t i1 i2) :
    mayHappenInParallelInst tct t j1 j2 := by
  obtain ⟨⟨tid1, cxt1, k1⟩, hts1, ⟨tid2, cxt2, k2⟩, hts2, hpar⟩ := of_decide_eq_true h
  obtain rfl : k1 = i1 := hl i1 _ hts1
  obtain rfl : k2 = i2 := hl i2 _ hts2
  obtain ⟨hmem1, hleav1⟩ := hu k1 j1 h1 hc1 tid1 cxt1
  obtain ⟨hmem2, hleav2⟩ := hu k2 j2 h2 hc2 tid2 cxt2
  refine decide_eq_true ⟨⟨tid1, cxt1, j1⟩, hmem1.mp hts1, ⟨tid2, cxt2, j2⟩, hmem2.mp hts2, ?_⟩
  dsimp only at hpar ⊢
  show if tid1 ≠ tid2 then tid2 ∈ t.leav ⟨tid1, cxt1, j1⟩ ∧ tid1 ∈ t.leav ⟨tid2, cxt2, j2⟩ else _
  rw [← hleav1, ← hleav2]
  exact hpar

theorem Uniform.inst_eq :
    mayHappenInParallelInst tct t i1 i2 = mayHappenInParallelInst tct t j1 j2 :=
  Bool.eq_iff_iff.mpr ⟨hu.inst_of_inst hl h1 h2 hc1 hc2,
    hu.inst_of_inst hl h1.symm h2.symm (h1 ▸ hc1) (h2 ▸ hc2)⟩

end

theorem inst_of_inst_swap {i1 i2 : I} (h : mayHappenInParallelInst tct t i1 i2) :
    mayHappenInParallelInst tct t i2 i1 := by
  obtain ⟨ts1, hts1, ts2, hts2, hpar⟩ := of_decide_eq_true h
  refine decide_eq_true ⟨ts2, hts2, ts1, hts1, ?_⟩
  by_cases heq : ts1.tid = ts2.tid
  · rw [if_neg (not_not_intro heq)] at hpar
    rw [if_neg (not_not_intro heq.symm), ← heq]
    exact hpar
  · rw [if_pos heq] at hpar
    rw [if_pos (Ne.symm heq)]
    exact hpar.symm

theorem mayHappenInParallelInst_comm (i1 i2 : I) :
    mayHappenInParallelInst tct t i1 i2 = mayHappenInParallelInst tct t i2 i1 :=
  Bool.eq_iff_iff.mpr ⟨inst_of_inst_swap, inst_of_inst_swap⟩

-- ── The cache

variable (P candidateFuncSet tct) in
/-- What is cached for two functions is the answer for all their instructions. -/
def Sound (t : MHP N I) (cache : FuncPairToBool N) : Prop :=
  ∀ f g mhp, cache (f, g) = some mhp → f ∉ candidateFuncSet ∧ g ∉ candidateFuncSet ∧
    ∀ i₁ i₂, P.getFunction i₁ = f → P.getFunction i₂ = g →
      mhp = mayHappenInParallelInst tct t i₁ i₂

/-- **One query.** -/
theorem Sound.query {cache : FuncPairToBool N} (h : Sound P candidateFuncSet tct t cache)
    (hu : Uniform P candidateFuncSet t) (hl : Located t) (i1 i2 : I) :
    (mayHappenInParallelCache P candidateFuncSet tct t cache i1 i2).1 =
        mayHappenInParallelInst tct t i1 i2 ∧
      Sound P candidateFuncSet tct t
        (mayHappenInParallelCache P candidateFuncSet tct t cache i1 i2).2 := by
  rw [mayHappenInParallelCache]
  by_cases hcand : P.getFunction i1 ∉ candidateFuncSet ∧ P.getFunction i2 ∉ candidateFuncSet
  · rw [if_pos hcand]
    dsimp only
    cases hfound : cache (P.getFunction i1, P.getFunction i2) with
    | none =>
      refine ⟨rfl, fun f g mhp hmhp => ?_⟩
      dsimp only at hmhp
      by_cases hfg : (f, g) = (P.getFunction i1, P.getFunction i2)
      · rw [hfg, update_self] at hmhp
        cases hfg
        cases hmhp
        exact ⟨hcand.1, hcand.2, fun j1 j2 h1 h2 => hu.inst_eq hl h1.symm h2.symm hcand.1 hcand.2⟩
      · rw [update_of_ne hfg] at hmhp
        exact h f g mhp hmhp
    | some mhp =>
      exact ⟨(h _ _ mhp hfound).2.2 i1 i2 rfl rfl, h⟩
  · rw [if_neg hcand]
    exact ⟨rfl, h⟩

/-- **Every sequence of queries.** -/
theorem answers_eq (hu : Uniform P candidateFuncSet t) (hl : Located t) (queries : List (I × I)) :
    ∀ cache, Sound P candidateFuncSet tct t cache → answers P candidateFuncSet tct t cache queries =
        queries.map fun q => mayHappenInParallelInst tct t q.1 q.2 := by
  induction queries with
  | nil => exact fun _ _ => rfl
  | cons q queries ih =>
    intro cache h
    obtain ⟨hanswer, hnext⟩ := h.query hu hl q.1 q.2
    rw [answers, map_cons, hanswer, ih _ hnext]

-- ── Programs of the front end

theorem noExtEntry (P : LLVMProgram N I) (hcand : ∀ f, f ∈ candidateFuncSet ↔ P.Relevant f) :
    NoExtEntry P.toThreadProgram candidateFuncSet := by
  intro d hd hnot hentry
  cases hd with
  | candidate h => exact absurd h hnot
  | body h => exact h
  | @behind i hi => exact absurd hentry (P.entry_noPred i d.stmt hi _)
  | @routine cs e hcs he hdst => exact absurd ((hcand _).mpr (.inr ⟨cs, hcs, e, he, hdst⟩)) hnot

theorem Rooted.entered (P : LLVMProgram N I) (hmark : Stops P.markRelProcs candidateFuncSet)
    (hbuild : Stops (TCT.build P.toThreadCallGraph) tct) (hd : Rooted P.toThreadProgram tct d)
    : Entered P.toThreadProgram candidateFuncSet d := by
  cases hd with
  | @start tid _ hroot =>
    obtain ⟨node, -, hroot⟩ := Option.bind_eq_some_iff.mp hroot
    obtain ⟨routine, hr, hroot⟩ := Option.bind_eq_some_iff.mp hroot
    obtain ⟨i, hi, rfl⟩ := Option.map_eq_some_iff.mp hroot
    have hfun : P.getFunction i = routine := P.entry_in routine i hi
    rcases TCT.build_routines hmark hbuild _ _ hr with hc | ⟨e, he, hk, -, hdst⟩
    · exact .candidate (hfun ▸ hc)
    · by_cases hsite : ∃ cs ∈ e.calls, cs ∈ P.forksites
      · obtain ⟨cs, hcs, hfork⟩ := hsite
        exact .routine hfork (List.mem_filter.mpr ⟨he, decide_eq_true ⟨hk, hcs⟩⟩)
          (hdst.trans hfun.symm)
      · refine .body ?_
        show P.isExtCall (P.getFunction i) = false
        by_contra hext
        rw [hfun, ← hdst, Bool.not_eq_false] at hext
        have hnone := P.task_noBody e he hk (fun cs hcs hf => hsite ⟨cs, hcs, hf⟩) hext
        rw [hdst, hi] at hnone
        exact Option.some_ne_none i hnone
  | afterFork _ _ _ hi => exact .behind hi

end MHP

end SvfMHP
