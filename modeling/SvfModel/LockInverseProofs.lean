import SvfModel.LockAnalysisProofs

/-!
# Lock spans and locksets

Next to the lockset of a statement, `LockAnalysis` keeps the span of a lock: the statements that
hold it. `addCxtStmtToSpan` and `removeCxtStmtToSpan` change both maps; `intersect`, which takes
locks away where two ways meet, is given the lockset only.

The walk over both maps is the walk over the locksets (`visit_toLockSpans`). A mark keeps the maps
inverse to each other exactly if it takes no lock away (`Inverse.mark`), and so does a run of such
steps (**`lockSpans_inverse`**). Where one way locks and the other does not, a lock is taken away
(`oneWayLocked_not_inverse`); the spans then hold too much, but never too little
(**`lockSpans_cover`**).
-/

namespace SvfLockSpan

open SvfLoop
open Function (update update_self update_of_ne)

variable {X : Type} [DecidableEq X]

/-- The state of the walk with the spans of the locks. -/
structure SpanMaps (X : Type) [DecidableEq X] extends LockSpans X where
  cxtLocktoSpan : X → Finset X

namespace SpanMaps

section

variable (s : SpanMaps X)

def addCxtStmtToSpan (cts cl : X) : Bool × SpanMaps X :=
  let r := s.toLockSpans.addCxtStmtToSpan cts cl
  (r.1, ⟨r.2, update s.cxtLocktoSpan cl (insert cts (s.cxtLocktoSpan cl))⟩)

def removeCxtStmtToSpan (cts cl : X) : Bool × SpanMaps X :=
  let r := s.toLockSpans.removeCxtStmtToSpan cts cl
  (r.1, ⟨r.2, if r.1 then update s.cxtLocktoSpan cl ((s.cxtLocktoSpan cl).erase cts)
    else s.cxtLocktoSpan⟩)

/-- The first lockset is added lock by lock; later ones are intersected with it. -/
def markCxtStmtFlag (tgr src : X) : SpanMaps X :=
  ⟨s.toLockSpans.markCxtStmtFlag tgr src,
    if s.cxtStmtToCxtLockSet tgr = none then fun cl =>
      if cl ∈ s.getCxtLockfromCxtStmt src then insert tgr (s.cxtLocktoSpan cl)
      else s.cxtLocktoSpan cl
    else s.cxtLocktoSpan⟩

variable (G : SpanGraph X)

def propagate (cts : X) : SpanMaps X :=
  (G.next cts).foldl (fun s tgr => s.markCxtStmtFlag tgr cts) s

def enter (cts : X) : SpanMaps X :=
  ⟨{ s.touchCxtStmt cts with instToCxtStmtSet := insert cts s.instToCxtStmtSet }, s.cxtLocktoSpan⟩

def visit (cts : X) : SpanMaps X :=
  let s := s.enter cts
  match G.kind cts with
  | .acquire =>
    let r := s.addCxtStmtToSpan cts cts
    if r.1 then r.2.propagate G cts else r.2
  | .release =>
    let r := s.removeCxtStmtToSpan cts cts
    if r.1 then r.2.propagate G cts else r.2
  | .other   => s.propagate G cts

theorem propagate_toLockSpans (cts : X) :
    (s.propagate G cts).toLockSpans = s.toLockSpans.propagate G cts := by
  rw [propagate, LockSpans.propagate]
  induction G.next cts generalizing s with
  | nil => rfl
  | cons tgr l ih => exact ih _

/-- **The walk over both maps** is the walk over the locksets. -/
theorem visit_toLockSpans (cts : X) :
    (s.visit G cts).toLockSpans = s.toLockSpans.visit G cts := by
  have hite : ∀ r : Bool × SpanMaps X,
      (if r.1 then r.2.propagate G cts else r.2).toLockSpans =
        if r.1 then r.2.toLockSpans.propagate G cts else r.2.toLockSpans := by
    intro r
    rw [apply_ite SpanMaps.toLockSpans, propagate_toLockSpans]
  rw [visit, LockSpans.visit]
  cases G.kind cts with
  | acquire => exact hite _
  | release => exact hite _
  | other => exact propagate_toLockSpans _ G cts

end

variable (G : SpanGraph X)

/-- One iteration of the loop. -/
def step (s : SpanMaps X) : Option (SpanMaps X) :=
  s.cxtStmtList.pop.map fun r =>
    visit ⟨{ s.toLockSpans with cxtStmtList := r.2 }, s.cxtLocktoSpan⟩ G r.1

def init : SpanMaps X := ⟨LockSpans.init G, fun _ => ∅⟩

/-- The states that the loop reaches if every iteration meets `P`. -/
inductive Reaches (P : LockSpans X → X → Prop) : SpanMaps X → Prop
  | init : Reaches P (init G)
  | iter {s t : SpanMaps X} (h : Reaches P s)
      (hok : ∀ r ∈ s.cxtStmtList.pop, P s.toLockSpans r.1) (hstep : step G s = some t) : Reaches P t

/-- The statements of the span of a lock are those that hold it. -/
def Inverse (s : SpanMaps X) : Prop :=
  ∀ x l, x ∈ s.cxtLocktoSpan l ↔ l ∈ s.getCxtLockfromCxtStmt x

/-- The lockset that a statement passes on, if it does. -/
def passedOn (s : LockSpans X) (cts : X) : Option (Finset X) :=
  let locks := s.getCxtLockfromCxtStmt cts
  match G.kind cts with
  | .acquire => if cts ∈ locks then none else some (insert cts locks)
  | .release => if cts ∈ locks then some (locks.erase cts) else none
  | .other   => some locks

/-- No statement that follows has a lock that is not passed on to it. -/
def LosesNone (s : LockSpans X) (cts : X) : Prop :=
  ∀ S ∈ passedOn G s cts, ∀ tgr ∈ G.next cts, tgr ≠ cts →
    ∀ L ∈ s.cxtStmtToCxtLockSet tgr, L ⊆ S

variable {G} {s : SpanMaps X} {cts : X} {S : Finset X}

theorem Inverse.mark (h : s.Inverse) {tgr src : X}
    (hkeep : ∀ L ∈ s.cxtStmtToCxtLockSet tgr, L ⊆ s.getCxtLockfromCxtStmt src) :
    (s.markCxtStmtFlag tgr src).Inverse := by
  have hm := LockSpans.mark_spec s.toLockSpans tgr src
  intro x l
  show x ∈ (if s.cxtStmtToCxtLockSet tgr = none then _ else _ : X → Finset X) l ↔
    l ∈ (s.toLockSpans.markCxtStmtFlag tgr src).getCxtLockfromCxtStmt x
  cases hmap : s.cxtStmtToCxtLockSet tgr with
  | none =>
    rw [if_pos rfl]
    by_cases hx : x = tgr
    · subst hx
      have hold : x ∉ s.cxtLocktoSpan l := by
        rw [h x l, LockSpans.getCxtLockfromCxtStmt, hmap]
        exact Finset.notMem_empty l
      rw [hm.locks_first hmap]
      split_ifs with hl
      · exact iff_of_true (Finset.mem_insert_self x _) hl
      · exact iff_of_false hold hl
    · rw [hm.locks_others hx, ← h x l]
      split_ifs
      · rw [Finset.mem_insert, or_iff_right hx]
      · exact Iff.rfl
  | some L =>
    rw [if_neg (Option.some_ne_none L), h x l]
    by_cases hx : x = tgr
    · have hL : s.getCxtLockfromCxtStmt tgr = L := by
        rw [LockSpans.getCxtLockfromCxtStmt, hmap, Option.getD_some]
      rw [hx, hm.locks_later (by rw [hmap]; exact Option.some_ne_none L), hL,
        Finset.inter_eq_left.mpr (hkeep L hmap)]
    · rw [hm.locks_others hx]

/-- Passing on a lockset that no follower exceeds keeps the maps inverse. -/
theorem Inverse.propagate (h : s.Inverse) (hcur : s.cxtStmtToCxtLockSet cts = some S)
    (hkeep : ∀ tgr ∈ G.next cts, ∀ L ∈ s.cxtStmtToCxtLockSet tgr, L ⊆ S) :
    (s.propagate G cts).Inverse := by
  refine (foldl_keeps (P := fun s : SpanMaps X => s.Inverse ∧
    s.cxtStmtToCxtLockSet cts = some S ∧
    ∀ tgr ∈ G.next cts, ∀ L ∈ s.cxtStmtToCxtLockSet tgr, L ⊆ S) (G.next cts) s
    (fun s tgr htgr ⟨h, hcur, hkeep⟩ => ?_) ⟨h, hcur, hkeep⟩).1
  have hlocks : s.getCxtLockfromCxtStmt cts = S := by
    rw [LockSpans.getCxtLockfromCxtStmt, hcur, Option.getD_some]
  have hm := LockSpans.mark_spec s.toLockSpans tgr cts
  rw [hlocks] at hm
  have hentry : ∀ L ∈ (s.markCxtStmtFlag tgr cts).cxtStmtToCxtLockSet tgr, L ⊆ S := by
    intro L hL
    cases hmap : s.cxtStmtToCxtLockSet tgr with
    | none =>
      have hfirst := hL.symm.trans (hm.first hmap).1
      split_ifs at hfirst
      cases hfirst
      exact subset_rfl
    | some M =>
      cases hL.symm.trans (hm.later M hmap).1
      exact Finset.inter_subset_right
  refine ⟨h.mark fun L hL => hlocks.symm ▸ hkeep tgr htgr L hL, ?_, fun y hy L hL => ?_⟩
  · by_cases hct : cts = tgr
    · subst hct
      exact (hm.later S hcur).1.trans (by rw [Finset.inter_self])
    · exact (hm.others cts hct).trans hcur
  · by_cases hyt : y = tgr
    · exact hentry L (hyt ▸ hL)
    · exact hkeep y hy L ((hm.others y hyt).symm.trans hL)

theorem locks_setLocks (s : LockSpans X) (cts x : X) (L : Finset X) :
    (s.setLocks cts L).getCxtLockfromCxtStmt x =
      if x = cts then L else s.getCxtLockfromCxtStmt x := by
  show (update s.cxtStmtToCxtLockSet cts (some L) x).getD ∅ = _
  by_cases hx : x = cts
  · rw [hx, update_self, if_pos rfl, Option.getD_some]
  · rw [update_of_ne hx, if_neg hx]
    rfl

theorem locks_touch (s : LockSpans X) (cts x : X) :
    (s.touchCxtStmt cts).getCxtLockfromCxtStmt x = s.getCxtLockfromCxtStmt x := by
  refine (locks_setLocks s cts x _).trans ?_
  split_ifs with hx
  · rw [hx]
  · rfl

theorem Inverse.enter (h : s.Inverse) (cts : X) : (s.enter cts).Inverse := fun x l =>
  (h x l).trans (by rw [← locks_touch s.toLockSpans cts x]; rfl)

/-- An acquire adds its pair to both maps. -/
theorem mem_add (s : SpanMaps X) (cts cl x l : X) :
    (x ∈ (s.addCxtStmtToSpan cts cl).2.cxtLocktoSpan l ↔
      (x = cts ∧ l = cl) ∨ x ∈ s.cxtLocktoSpan l) ∧
    (l ∈ (s.addCxtStmtToSpan cts cl).2.getCxtLockfromCxtStmt x ↔
      (x = cts ∧ l = cl) ∨ l ∈ s.getCxtLockfromCxtStmt x) := by
  have hlocks : (s.addCxtStmtToSpan cts cl).2.getCxtLockfromCxtStmt x = _ :=
    locks_setLocks s.toLockSpans cts x _
  have hspan : (s.addCxtStmtToSpan cts cl).2.cxtLocktoSpan l = _ :=
    Function.update_apply s.cxtLocktoSpan cl _ l
  rw [hlocks, hspan]
  by_cases hx : x = cts <;> by_cases hl : l = cl <;> simp [hx, hl]

/-- A release takes its pair out of both, if the statement holds the lock. -/
theorem mem_remove (s : SpanMaps X) (cts cl x l : X) :
    (x ∈ (s.removeCxtStmtToSpan cts cl).2.cxtLocktoSpan l ↔
      x ∈ s.cxtLocktoSpan l ∧ ¬ (cl ∈ s.getCxtLockfromCxtStmt cts ∧ x = cts ∧ l = cl)) ∧
    (l ∈ (s.removeCxtStmtToSpan cts cl).2.getCxtLockfromCxtStmt x ↔
      l ∈ s.getCxtLockfromCxtStmt x ∧
        ¬ (cl ∈ s.getCxtLockfromCxtStmt cts ∧ x = cts ∧ l = cl)) := by
  rw [removeCxtStmtToSpan, LockSpans.removeCxtStmtToSpan]
  by_cases hmem : cl ∈ s.getCxtLockfromCxtStmt cts
  · rw [if_pos hmem]
    dsimp only
    rw [if_pos rfl, locks_setLocks, Function.update_apply]
    by_cases hx : x = cts <;> by_cases hl : l = cl <;> simp [hx, hl, hmem]
  · rw [if_neg hmem]
    dsimp only
    rw [if_neg Bool.false_ne_true, locks_touch]
    simp [hmem]

theorem Inverse.add (h : s.Inverse) (cts cl : X) : (s.addCxtStmtToSpan cts cl).2.Inverse :=
  fun x l => by rw [(mem_add s cts cl x l).1, (mem_add s cts cl x l).2, h x l]

theorem Inverse.remove (h : s.Inverse) (cts cl : X) :
    (s.removeCxtStmtToSpan cts cl).2.Inverse :=
  fun x l => by rw [(mem_remove s cts cl x l).1, (mem_remove s cts cl x l).2, h x l]

/-- **One iteration** that takes no lock away keeps the maps inverse. -/
theorem Inverse.visit (h : s.Inverse) (hok : LosesNone G s.toLockSpans cts) :
    (s.visit G cts).Inverse := by
  -- a statement that passes on `S` has it for its lockset, and the others what they had
  have hkeep : ∀ {u : SpanMaps X} {S : Finset X}, S ∈ passedOn G s.toLockSpans cts → u.Inverse →
      u.cxtStmtToCxtLockSet = update (s.enter cts).cxtStmtToCxtLockSet cts (some S) →
      (u.propagate G cts).Inverse := by
    intro u S hS hinv hu
    refine hinv.propagate (by rw [hu, update_self]) fun tgr htgr L hL => ?_
    rw [hu] at hL
    by_cases hct : tgr = cts
    · rw [hct, update_self] at hL
      exact (Option.some.inj hL).ge
    · rw [update_of_ne hct] at hL
      exact hok S hS tgr htgr hct L ((update_of_ne hct _ _).symm.trans hL)
  have hlocks := locks_touch s.toLockSpans cts cts
  rw [SpanMaps.visit]
  cases hk : G.kind cts with
  | acquire =>
    have hadd := (h.enter cts).add cts cts
    dsimp only
    split_ifs with hnew
    · have hmem : cts ∉ s.getCxtLockfromCxtStmt cts := hlocks ▸ of_decide_eq_true hnew
      refine hkeep (S := insert cts (s.getCxtLockfromCxtStmt cts)) ?_ hadd ?_
      · rw [passedOn, hk]
        exact if_neg hmem
      · rw [← hlocks]
        rfl
    · exact hadd
  | release =>
    have hremove := (h.enter cts).remove cts cts
    dsimp only
    split_ifs with hfound
    · by_cases hmem : cts ∈ (s.enter cts).getCxtLockfromCxtStmt cts
      · refine hkeep (S := (s.getCxtLockfromCxtStmt cts).erase cts) ?_ hremove ?_
        · rw [passedOn, hk]
          exact if_pos (hlocks ▸ hmem)
        · rw [removeCxtStmtToSpan, LockSpans.removeCxtStmtToSpan, if_pos hmem, ← hlocks]
          rfl
      · rw [removeCxtStmtToSpan, LockSpans.removeCxtStmtToSpan, if_neg hmem] at hfound
        cases hfound
    · exact hremove
  | other =>
    refine hkeep (S := s.getCxtLockfromCxtStmt cts) (by rw [passedOn, hk]; rfl) (h.enter cts) ?_
    exact (Function.update_idem _ _ _).symm

-- ── where locks are taken away

/-- A statement that holds a lock is in its span. -/
def Covers (s : SpanMaps X) : Prop :=
  ∀ x l, l ∈ s.getCxtLockfromCxtStmt x → x ∈ s.cxtLocktoSpan l

section

variable (h : s.Covers)
include h

theorem Covers.mark (tgr src : X) : (s.markCxtStmtFlag tgr src).Covers := by
  have hm := LockSpans.mark_spec s.toLockSpans tgr src
  intro x l hl
  show x ∈ (if s.cxtStmtToCxtLockSet tgr = none then _ else _ : X → Finset X) l
  replace hl : l ∈ (s.toLockSpans.markCxtStmtFlag tgr src).getCxtLockfromCxtStmt x := hl
  by_cases hx : x = tgr
  · subst hx
    by_cases hmap : s.cxtStmtToCxtLockSet x = none
    · rw [hm.locks_first hmap] at hl
      rw [if_pos hmap, if_pos hl]
      exact Finset.mem_insert_self x _
    · rw [hm.locks_later hmap] at hl
      rw [if_neg hmap]
      exact h x l (Finset.mem_inter.mp hl).1
  · rw [hm.locks_others hx] at hl
    have hold := h x l hl
    split_ifs
    · dsimp only
      split_ifs
      · exact Finset.mem_insert_of_mem hold
      · exact hold
    · exact hold

theorem Covers.propagate (cts : X) : (s.propagate G cts).Covers :=
  foldl_keeps (P := Covers) (G.next cts) s (fun _ tgr _ h => h.mark tgr cts) h

theorem Covers.enter (cts : X) : (s.enter cts).Covers := fun x l hl =>
  h x l (locks_touch s.toLockSpans cts x ▸ hl)

theorem Covers.add (cts cl : X) : (s.addCxtStmtToSpan cts cl).2.Covers :=
  fun x l hl => (mem_add s cts cl x l).1.mpr (((mem_add s cts cl x l).2.mp hl).imp_right (h x l))

theorem Covers.remove (cts cl : X) : (s.removeCxtStmtToSpan cts cl).2.Covers :=
  fun x l hl => (mem_remove s cts cl x l).1.mpr
    (((mem_remove s cts cl x l).2.mp hl).imp_left (h x l))

/-- **One iteration**, whatever it takes away, leaves the holders of a lock in its span. A release
    changes both maps, and what it gives up is passed on as it is. -/
theorem Covers.visit : (s.visit G cts).Covers := by
  rw [SpanMaps.visit]
  cases G.kind cts with
  | acquire =>
    have hadd := (h.enter cts).add cts cts
    dsimp only
    split_ifs
    · exact hadd.propagate cts
    · exact hadd
  | release =>
    have hremove := (h.enter cts).remove cts cts
    dsimp only
    split_ifs
    · exact hremove.propagate cts
    · exact hremove
  | other => exact (h.enter cts).propagate cts

end

end SpanMaps

end SvfLockSpan

namespace SvfLockAnalysis

open SvfLoop SvfLockSpan SvfSCCDetection

variable {N I V : Type} [DecidableEq N] [DecidableEq I]

namespace LockAnalysis

/-- **Lock spans and locksets are inverse** in every state that the analysis of a program reaches
    without taking a lock away. -/
theorem lockSpans_inverse (P : LockProgram N I V) (tcgSCC : SCCDetection N)
    (lockcandidateFuncSet : Finset N) {s : SpanMaps (CxtStmt N I)}
    (h : SpanMaps.Reaches (spanGraph P tcgSCC lockcandidateFuncSet)
      (SpanMaps.LosesNone (spanGraph P tcgSCC lockcandidateFuncSet)) s) : s.Inverse := by
  induction h with
  | init => exact fun x l => iff_of_false (Finset.notMem_empty x) (Finset.notMem_empty l)
  | iter _ hok hstep ih =>
    obtain ⟨r, hpop, rfl⟩ := Option.map_eq_some_iff.mp hstep
    exact SpanMaps.Inverse.visit (s := ⟨_, _⟩) ih (hok r hpop)

theorem lockSpans_inverse_lockedOnce : let G := spanGraph lockedOnce SCCDetection.clear {.main}
    ∃ s ∈ SpanMaps.step G (SpanMaps.init G), s.Inverse := by
  refine ⟨_, rfl, lockSpans_inverse lockedOnce SCCDetection.clear {.main}
    (SpanMaps.Reaches.init.iter (fun r _ S _ tgr _ _ L hL => ?_) rfl)⟩
  cases hL

/-- Whatever is taken away, **a statement is in the span of every lock it holds**, in every state of
    the walk; when the list is empty, that is what the analysis returns. -/
theorem lockSpans_cover (P : LockProgram N I V) (tcgSCC : SCCDetection N)
    (lockcandidateFuncSet : Finset N) {s : SpanMaps (CxtStmt N I)}
    (h : SpanMaps.Reaches (spanGraph P tcgSCC lockcandidateFuncSet) (fun _ _ => True) s) :
    s.Covers ∧ (s.cxtStmtList.isEmpty →
      Stops (analyzeLockSpanCxtStmt P tcgSCC lockcandidateFuncSet) s.toLockSpans) := by
  rw [funext analyze_eq]
  suffices hruns : s.Covers ∧ LockSpans.Runs (spanGraph P tcgSCC lockcandidateFuncSet)
      (fun _ _ => True) s.toLockSpans from hruns.imp_right fun h hdone => h.stops hdone
  induction h with
  | init => exact ⟨fun x l hl => absurd hl (Finset.notMem_empty l), .init⟩
  | iter _ _ hstep ih =>
    obtain ⟨r, hpop, rfl⟩ := Option.map_eq_some_iff.mp hstep
    refine ⟨SpanMaps.Covers.visit (s := ⟨_, _⟩) ih.1, ?_⟩
    rw [SpanMaps.visit_toLockSpans]
    exact ih.2.iter hpop trivial

theorem lockSpans_cover_lockedOnce : let G := spanGraph lockedOnce SCCDetection.clear {.main}
    ∃ s ∈ SpanMaps.step G (SpanMaps.init G), s.Covers :=
  ⟨_, rfl, (lockSpans_cover lockedOnce SCCDetection.clear {.main}
    (SpanMaps.Reaches.init.iter (fun _ _ => trivial) rfl)).1⟩

/-- The statements of `oneWayLocked`. -/
inductive OneWay | branch | lock | skip | ret
deriving DecidableEq

theorem mem_procs : ∀ p : Proc, p ∈ [.main, .pthreadMutexLock, .pthreadMutexUnlock] :=
  lockedOnce.nodes_all

/-- The main procedure locks on one of two ways to its return. -/
def oneWayLocked : LockProgram Proc OneWay Unit where
  nodes         := [.main, .pthreadMutexLock, .pthreadMutexUnlock]
  nodes_all     := mem_procs
  insts         := [.branch, .lock, .skip, .ret]
  insts_all     := fun i => by cases i <;> decide
  edges         := [⟨.main, .pthreadMutexLock, .CallRetEdge, [.lock], []⟩]
  getFunction   := fun _ => .main
  hasLoopInfo   := fun _ => false
  isExtCall     := fun f => f ≠ .main
  forksites     := []
  joinsites     := []
  calls_in      := by decide
  entryInst     := fun f => if f = .main then some .branch else none
  succInsts     := fun i => match i with
    | .branch => [.lock, .skip]
    | .lock   => [.ret]
    | .skip   => [.ret]
    | .ret    => []
  isCallSite    := fun i => i = .lock
  isRetInst     := fun i => i = .ret
  isExtCallInst := fun i => i = .lock
  entry_in      := fun f i h => by cases f <;> cases i <;> revert h <;> decide
  succ_in       := fun _ _ _ => rfl
  calls_ne      := by decide
  join_out      := by decide
  isTDAcquire   := fun i => i = .lock
  isTDRelease   := fun _ => false
  getLockVal    := fun _ => ()
  entry_first   := fun f i j h => by cases f <;> cases i <;> cases j <;> revert h <;> decide

/-- The return stays in the span of the lock that its lockset has lost. -/
theorem oneWayLocked_not_inverse :
    ¬ ∀ tcgSCC, Stops (SCCDetection.find oneWayLocked.scc) tcgSCC → ∀ s,
      SpanMaps.Reaches (spanGraph oneWayLocked tcgSCC {.main}) (fun _ _ => True) s →
        s.Inverse := by
  intro hall
  have hrun : (SCCDetection.find oneWayLocked.scc 9).bind (fun tcgSCC =>
      let G := spanGraph oneWayLocked tcgSCC {.main}
      (((SpanMaps.step G (SpanMaps.init G)).bind (SpanMaps.step G)).bind (SpanMaps.step G)).map
        fun s =>
        decide ((⟨[], .ret⟩ : CxtStmt Proc OneWay) ∈ s.cxtLocktoSpan ⟨[], .lock⟩ ∧
          ⟨[], .lock⟩ ∉ s.getCxtLockfromCxtStmt ⟨[], .ret⟩)) = some true := by
    decide +kernel
  obtain ⟨tcgSCC, hscc, hrun⟩ := Option.bind_eq_some_iff.mp hrun
  obtain ⟨s₃, hrun, hresult⟩ := Option.map_eq_some_iff.mp hrun
  obtain ⟨s₂, hrun, hstep₃⟩ := Option.bind_eq_some_iff.mp hrun
  obtain ⟨s₁, hstep₁, hstep₂⟩ := Option.bind_eq_some_iff.mp hrun
  have hany : ∀ {s : SpanMaps (CxtStmt Proc OneWay)}, ∀ r ∈ s.cxtStmtList.pop, True :=
    fun _ _ => trivial
  have hinverse := hall tcgSCC (stops_of_succ SCCDetection.find_succ hscc) s₃
    (((SpanMaps.Reaches.init.iter hany hstep₁).iter hany hstep₂).iter hany hstep₃)
  obtain ⟨hspan, hlock⟩ := of_decide_eq_true hresult
  exact hlock ((hinverse _ _).mp hspan)

end LockAnalysis

end SvfLockAnalysis
