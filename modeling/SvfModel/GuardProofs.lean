import SvfModel.LoopAndDomInfoProofs
import SvfModel.BranchCondProofs

/-!
# Guards within a function

`ComputeIntraVFGGuard` carries conditions from a block to its successors until none changes. A
block is taken from the worklist in some order, and its successors are gone through in some order
(`GuardStep`); the code takes the first one pushed (`computeIntraVFGGuard`).

The route: a condition only grows, and a block is pushed again only if it has grown for some
assignment, so every order ends (`acc_guardStep`). A block that does not wait has handed on its
condition (`Settled`), so at the end the destination has every path; and what has been handed on
came along a path, as long as no expression was too large (`FittingStep`).
**`computeIntraVFGGuard_paths`** puts this together. It says nothing of a loop header that the
destination is the exit of: there the loop ends with the condition that the header has so far.
-/

namespace SvfSaber

open SvfScc SvfLoop SvfDominance SvfLoopAndDomInfo Relation List
open Function (update update_of_ne update_self)

/-- A branch with two successors, and whether its condition tests the value evaluated for null or
    for not null. -/
structure BranchStmt (B : Type) where
  succ1 : B
  succ2 : B
  isTestNull : Bool
  isTestNotNull : Bool

/-- What the allocator knows of a function: what is recorded of its loops and dominators, the
    blocks that call program exit, the branches, and the conditions allocated. -/
structure GuardFunction (B V : Type) extends FunctionCFG B where
  loopAndDom : SVFLoopAndDomInfo B
  exitBBs : List B
  branchStmt : B → Option (BranchStmt B)
  bbConds : B → SaberCondAllocator.CondPosMap V
  /-- A node with a value is being evaluated. -/
  curEval : Bool

section Guard

variable {B V : Type} [DecidableEq B] [DecidableEq V] [Fintype V]

namespace GuardFunction

variable (F : GuardFunction B V)

def postDominate (bbKey bbValue : B) : Bool := F.loopAndDom.postDominate bbKey bbValue

def isLoopHeader (bb : B) : Bool :=
  match F.loopAndDom.bb2LoopMap bb with
  | some (front :: _) => decide (front = bb)
  | _ => false

def getExitBlocksOfLoop (bb : B) : List B :=
  match F.loopAndDom.bb2LoopMap bb with
  | none => []
  | some blocks => blocks.flatMap fun block => (F.succs block).filter fun succ => succ ∉ blocks

def isBBCallsProgExit (bb : B) : Bool := F.exitBBs.any fun bit => F.postDominate bit bb

def evaluateLoopExitBranch (bb dst : B) : Option (Z3Expr V) :=
  if F.isLoopHeader bb then
    let filteredbbs := (F.getExitBlocksOfLoop bb).filter fun eb => !F.isBBCallsProgExit eb
    if filteredbbs.all fun filteredbb => F.postDominate dst filteredbb then
      some Z3Expr.getTrueCond
    else none
  else none

def evaluateProgExit (branchStmt : BranchStmt B) (succ : B) : Option (Z3Expr V) :=
  match F.isBBCallsProgExit branchStmt.succ1, F.isBBCallsProgExit branchStmt.succ2 with
  | true, false =>
    some (if branchStmt.succ1 = succ then Z3Expr.getFalseCond else Z3Expr.getTrueCond)
  | false, true =>
    some (if branchStmt.succ2 = succ then Z3Expr.getFalseCond else Z3Expr.getTrueCond)
  | true, true => some Z3Expr.getFalseCond
  | false, false => none

def evaluateTestNullLikeExpr (branchStmt : BranchStmt B) (succ : B) : Option (Z3Expr V) :=
  if branchStmt.isTestNull then
    some (if branchStmt.succ1 = succ then Z3Expr.getFalseCond else Z3Expr.getTrueCond)
  else if branchStmt.isTestNotNull then
    some (if branchStmt.succ1 = succ then Z3Expr.getTrueCond else Z3Expr.getFalseCond)
  else none

def getBranchCond (bb succ : B) : Z3Expr V :=
  (SaberCondAllocator.getBranchCond (F.succs bb) (F.bbConds bb) succ).getD Z3Expr.getTrueCond

def evaluateBranchCond (bb succ : B) : Z3Expr V :=
  if (F.succs bb).length = 1 then Z3Expr.getTrueCond
  else
    match F.branchStmt bb with
    | none => F.getBranchCond bb succ
    | some branchStmt =>
      ((F.evaluateLoopExitBranch bb succ).or
        ((F.evaluateProgExit branchStmt succ).or
          (evaluateTestNullLikeExpr branchStmt succ))).getD (F.getBranchCond bb succ)

def getEvalBrCond (bb succ : B) : Z3Expr V :=
  if F.curEval then F.evaluateBranchCond bb succ else F.getBranchCond bb succ

/-- The condition on the way from a block to a successor: true where it post-dominates. -/
def brCond (bb succ : B) : Z3Expr V :=
  if F.postDominate succ bb then Z3Expr.getTrueCond else F.getEvalBrCond bb succ

end GuardFunction

structure GuardState (B V : Type) where
  bbToCondMap : B → Option (Z3Expr V)
  worklist : List B

namespace GuardState

def getCFCond (s : GuardState B V) (bb : B) : Z3Expr V :=
  (s.bbToCondMap bb).getD Z3Expr.getFalseCond

def setCFCond (s : GuardState B V) (bb : B) (cond : Z3Expr V) : GuardState B V :=
  let unchanged :=
    match s.bbToCondMap bb with
    | none => false
    | some old => Z3Context.isEquivalentBranchCond old cond
  if unchanged then s
  else
    { bbToCondMap := update s.bbToCondMap bb (some cond)
      worklist := if bb ∈ s.worklist then s.worklist else s.worklist ++ [bb] }

/-- The source is on the worklist with the condition true, everything else cleared. -/
def start (src : B) : GuardState B V :=
  { bbToCondMap := update (fun _ => none) src (some Z3Expr.getTrueCond)
    worklist := [src] }

end GuardState

variable (z : Z3Context V) (F : GuardFunction B V)

/-- The body of the loop over the successors; `cond` has been read before the loop. -/
def visitSucc (bb : B) (cond : Z3Expr V) (s : GuardState B V) (succ : B) : GuardState B V :=
  s.setCFCond succ (z.OR (s.getCFCond succ) (z.AND cond (F.brCond bb succ)))

/-- The successors of a block taken from the worklist. -/
def visitSuccs (s : GuardState B V) (bb : B) (succs : List B) : GuardState B V :=
  succs.foldl (visitSucc z F bb (s.getCFCond bb)) { s with worklist := s.worklist.erase bb }

/-- The loop of `ComputeIntraVFGGuard`, which takes the block pushed first. -/
def guardLoop (dst : B) : ℕ → GuardState B V → Option (Z3Expr V)
  | 0, _ => none
  | fuel + 1, s =>
    match s.worklist with
    | [] => some (s.getCFCond dst)
    | bb :: _ =>
      match F.evaluateLoopExitBranch bb dst with
      | some loopExitCond => some (z.AND (s.getCFCond bb) loopExitCond)
      | none => guardLoop dst fuel (visitSuccs z F s bb (F.succs bb))

def computeIntraVFGGuard (src dst : B) (fuel : ℕ) : Option (Z3Expr V) :=
  if F.postDominate dst src then some Z3Expr.getTrueCond
  else guardLoop z F dst fuel (GuardState.start src)

-- ── Any order

/-- Some block of the worklist is taken, which does not end the loop, and its successors are gone
    through in some order. -/
def GuardStep (dst : B) (s t : GuardState B V) : Prop :=
  ∃ bb ∈ s.worklist, F.evaluateLoopExitBranch bb dst = none ∧
    ∃ succs, succs.Perm (F.succs bb) ∧ t = visitSuccs z F s bb succs

/-- The loop ends at a state: with the condition of the destination, or at a loop header. -/
inductive Returns (dst : B) (s : GuardState B V) : Z3Expr V → Prop
  | done (hempty : s.worklist = []) : Returns dst s (s.getCFCond dst)
  | exit (bb : B) (hbb : bb ∈ s.worklist) (loopExitCond : Z3Expr V)
      (hexit : F.evaluateLoopExitBranch bb dst = some loopExitCond) :
      Returns dst s (z.AND (s.getCFCond bb) loopExitCond)

/-- What the function may give: the true condition where the destination post-dominates, and what
    the loop returns in some order otherwise. -/
def GuardResult (src dst : B) (r : Z3Expr V) : Prop :=
  if F.postDominate dst src then r = Z3Expr.getTrueCond
  else ∃ s, ReflTransGen (GuardStep z F dst) (GuardState.start src) s ∧ Returns z F dst s r

/-- No expression built for the successor is too large. -/
def SuccFits (bb : B) (cond : Z3Expr V) (s : GuardState B V) (succ : B) : Prop :=
  z.AndFits cond (F.brCond bb succ) ∧
    z.OrFits (s.getCFCond succ) (z.AND cond (F.brCond bb succ))

/-- No expression built for the successors is too large. -/
def SuccsFit (bb : B) (cond : Z3Expr V) : GuardState B V → List B → Prop
  | _, [] => True
  | s, succ :: succs =>
    SuccFits z F bb cond s succ ∧ SuccsFit bb cond (visitSucc z F bb cond s succ) succs

/-- A step in which no expression is too large. -/
def FittingStep (dst : B) (s t : GuardState B V) : Prop :=
  ∃ bb ∈ s.worklist, F.evaluateLoopExitBranch bb dst = none ∧
    ∃ succs, succs.Perm (F.succs bb) ∧
      SuccsFit z F bb (s.getCFCond bb) { s with worklist := s.worklist.erase bb } succs ∧
        t = visitSuccs z F s bb succs

/-- Under an assignment, the branch conditions hold along some path. -/
def PathHolds (src dst : B) (m : V → Bool) : Prop :=
  ∃ p, Walk F.Edge src dst p ∧ p.IsChain (fun a b => (F.brCond a b).eval m = true)

-- ── One successor

variable {z F} {s t u : GuardState B V} {bb src dst : B} {cond : Z3Expr V}

/-- Either the condition is equivalent to the one there, and nothing happens, or it is put down and
    the block waits. -/
theorem setCFCond_cases (s : GuardState B V) (bb : B) (cond : Z3Expr V) :
    (∃ old, s.bbToCondMap bb = some old ∧ (∀ m, old.eval m = cond.eval m) ∧
        s.setCFCond bb cond = s) ∨
      (∀ old, s.bbToCondMap bb = some old → ∃ m, old.eval m ≠ cond.eval m) ∧ s.setCFCond bb cond =
          { bbToCondMap := update s.bbToCondMap bb (some cond)
            worklist := if bb ∈ s.worklist then s.worklist else s.worklist ++ [bb] } := by
  unfold GuardState.setCFCond
  cases hold : s.bbToCondMap bb with
  | none => exact .inr ⟨nofun, rfl⟩
  | some old =>
    cases heq : Z3Context.isEquivalentBranchCond old cond with
    | true => exact .inl ⟨old, rfl, Z3Context.isEquivalentBranchCond_iff.mp heq, by simp [heq]⟩
    | false =>
      refine .inr ⟨?_, by simp [heq]⟩
      intro old' hold'
      cases hold'
      by_contra hnone
      push Not at hnone
      rw [Z3Context.isEquivalentBranchCond_iff.mpr hnone] at heq
      cases heq

omit [DecidableEq B] [DecidableEq V] [Fintype V] in
theorem getCFCond_congr {b : B} (h : t.bbToCondMap b = s.bbToCondMap b) :
    t.getCFCond b = s.getCFCond b := by
  unfold GuardState.getCFCond
  rw [h]

omit [DecidableEq B] [DecidableEq V] [Fintype V] in
theorem getCFCond_of_some {b : B} {c : Z3Expr V} (h : s.bbToCondMap b = some c) :
    s.getCFCond b = c := by
  unfold GuardState.getCFCond
  rw [h]
  rfl

/-- What becomes of the state when a condition is set. -/
structure Raised (bb : B) (cond : Z3Expr V) (s t : GuardState B V) : Prop where
  gets : ∀ m, (t.getCFCond bb).eval m = cond.eval m
  other : ∀ b, b ≠ bb → t.bbToCondMap b = s.bbToCondMap b
  kept : ∀ b, b ∈ t.worklist ∨ t.bbToCondMap b = s.bbToCondMap b
  keep : ∀ b ∈ s.worklist, b ∈ t.worklist
  old : ∀ b ∈ t.worklist, b ∈ s.worklist ∨ b = bb

theorem setCFCond_raised (s : GuardState B V) (bb : B) (cond : Z3Expr V) :
    Raised bb cond s (s.setCFCond bb cond) := by
  rcases setCFCond_cases s bb cond with ⟨old, hold, heq, hsame⟩ | ⟨_, hnew⟩
  · rw [hsame]
    constructor
    case gets =>
      intro m
      rw [getCFCond_of_some hold]
      exact heq m
    case other => exact fun _ _ => rfl
    case kept => exact fun _ => .inr rfl
    case keep => exact fun _ hb => hb
    case old => exact fun _ hb => .inl hb
  · rw [hnew]
    have hmem : ∀ b, b ∈ (if bb ∈ s.worklist then s.worklist else s.worklist ++ [bb]) ↔
        b ∈ s.worklist ∨ b = bb := by
      intro b
      split
      case isTrue hin =>
        refine (or_iff_left_of_imp ?_).symm
        rintro rfl
        exact hin
      case isFalse => rw [mem_append, mem_singleton]
    constructor
    case gets =>
      intro m
      rw [getCFCond_of_some (update_self ..)]
    case other => exact fun b hb => update_of_ne hb ..
    case kept =>
      intro b
      by_cases hb : b = bb
      · exact .inl ((hmem b).mpr (.inr hb))
      · exact .inr (update_of_ne hb ..)
    case keep => exact fun b hb => (hmem b).mpr (.inl hb)
    case old => exact fun b hb => (hmem b).mp hb

/-- From one state to another conditions have grown, and the blocks whose condition has changed
    wait; the successors in a list have been handed the condition. -/
structure Spread (F : GuardFunction B V) (bb : B) (cond : Z3Expr V) (succs : List B)
    (s t : GuardState B V) : Prop where
  grow : ∀ b m, (s.getCFCond b).eval m = true → (t.getCFCond b).eval m = true
  kept : ∀ b, b ∈ t.worklist ∨ t.bbToCondMap b = s.bbToCondMap b
  keep : ∀ b ∈ s.worklist, b ∈ t.worklist
  old : ∀ b ∈ t.worklist, b ∈ s.worklist ∨ b ∈ succs
  gets : ∀ succ ∈ succs, ∀ m, cond.eval m = true → (F.brCond bb succ).eval m = true →
    (t.getCFCond succ).eval m = true

theorem visitSucc_spread (bb : B) (cond : Z3Expr V) (s : GuardState B V) (succ : B) :
    Spread F bb cond [succ] s (visitSucc z F bb cond s succ) := by
  have h := setCFCond_raised s succ (z.OR (s.getCFCond succ) (z.AND cond (F.brCond bb succ)))
  constructor
  case grow =>
    intro b m hb
    by_cases hsucc : b = succ
    · subst hsucc
      refine (h.gets m).trans (Z3Context.OR_of_eval (.inl hb))
    · rw [getCFCond_congr (t := visitSucc z F bb cond s succ) (h.other b hsucc)]
      exact hb
  case kept => exact h.kept
  case keep => exact h.keep
  case old => exact fun b hb => (h.old b hb).imp_right mem_singleton.mpr
  case gets =>
    intro b hb m hcond hbr
    rw [mem_singleton.mp hb]
    rw [mem_singleton.mp hb] at hbr
    exact (h.gets m).trans (Z3Context.OR_of_eval (.inr (Z3Context.AND_of_eval hcond hbr)))

omit [DecidableEq V] [Fintype V] in
theorem Spread.refl (s : GuardState B V) : Spread F bb cond [] s s where
  grow _ _ h := h
  kept _ := .inr rfl
  keep _ h := h
  old _ h := .inl h
  gets _ h := absurd h not_mem_nil

omit [DecidableEq V] [Fintype V] in
theorem Spread.trans {succs succs' : List B} (h : Spread F bb cond succs s t)
    (h' : Spread F bb cond succs' t u) : Spread F bb cond (succs ++ succs') s u where
  grow b m hb := h'.grow b m (h.grow b m hb)
  kept b := by
    rcases h'.kept b with hb | hb
    · exact .inl hb
    · exact (h.kept b).imp (h'.keep b) hb.trans
  keep b hb := h'.keep b (h.keep b hb)
  old b hb := by
    rw [mem_append, ← or_assoc]
    exact (h'.old b hb).imp_left (h.old b)
  gets succ hsucc m hcond hbr := by
    rcases mem_append.mp hsucc with hsucc | hsucc
    · exact h'.grow succ m (h.gets succ hsucc m hcond hbr)
    · exact h'.gets succ hsucc m hcond hbr

theorem foldl_visitSucc_spread (bb : B) (cond : Z3Expr V) : ∀ (succs : List B)
    (s : GuardState B V), Spread F bb cond succs s (succs.foldl (visitSucc z F bb cond) s) := by
  intro succs
  induction succs with
  | nil => exact Spread.refl
  | cons succ succs ih => exact fun s => (visitSucc_spread bb cond s succ).trans (ih _)

-- ── Settled blocks

/-- The block has handed on its condition. -/
def Settled (F : GuardFunction B V) (s : GuardState B V) (b : B) : Prop :=
  ∀ succ ∈ F.succs b, ∀ m, (s.getCFCond b).eval m = true → (F.brCond b succ).eval m = true →
    (s.getCFCond succ).eval m = true

structure GuardInv (F : GuardFunction B V) (src : B) (s : GuardState B V) : Prop where
  source : ∀ m, (s.getCFCond src).eval m = true
  settled : ∀ b, b ∈ s.worklist ∨ Settled F s b
  blocks : ∀ b ∈ s.worklist, b ∈ F.blocks

omit [DecidableEq V] [Fintype V] in
theorem guardInv_start (hsrc : src ∈ F.blocks) : GuardInv F src (GuardState.start src) where
  source m := by
    have hsome : (GuardState.start src : GuardState B V).bbToCondMap src =
        some Z3Expr.getTrueCond := by
      simp [GuardState.start]
    rw [getCFCond_of_some hsome]
    rfl
  settled b := by
    by_cases hb : b = src
    · exact .inl (mem_singleton.mpr hb)
    · -- a block without a condition has the condition false
      refine .inr (fun succ _ m hcond => ?_)
      have hnone : (GuardState.start src : GuardState B V).bbToCondMap b = none := by
        simp [GuardState.start, hb]
      rw [GuardState.getCFCond, hnone] at hcond
      exact absurd hcond (by simp [Z3Expr.getFalseCond, Z3Expr.eval])
  blocks b hb := by
    rw [mem_singleton.mp hb]
    exact hsrc

theorem GuardInv.step (h : GuardInv F src s) (hstep : GuardStep z F dst s t) :
    GuardInv F src t := by
  obtain ⟨bb, hbb, _, succs, hperm, rfl⟩ := hstep
  have hspread := foldl_visitSucc_spread (z := z) (F := F) bb (s.getCFCond bb) succs
    { s with worklist := s.worklist.erase bb }
  constructor
  case source => exact fun m => hspread.grow src m (h.source m)
  case settled =>
    intro b
    rcases hspread.kept b with hb | hsame
    · exact .inl hb
    · have hcond : (visitSuccs z F s bb succs).getCFCond b = s.getCFCond b := getCFCond_congr hsame
      by_cases heq : b = bb
      · subst heq
        refine .inr (fun succ hsucc m hb hbr => ?_)
        rw [hcond] at hb
        exact hspread.gets succ (hperm.mem_iff.mpr hsucc) m hb hbr
      · rcases h.settled b with hb | hb
        · exact .inl (hspread.keep b ((mem_erase_of_ne heq).mpr hb))
        · refine .inr (fun succ hsucc m hcondb hbr => ?_)
          rw [hcond] at hcondb
          exact hspread.grow succ m (hb succ hsucc m hcondb hbr)
  case blocks =>
    intro b hb
    rcases hspread.old b hb with hb | hb
    · exact h.blocks b (mem_of_mem_erase hb)
    · exact F.succs_mem bb b (h.blocks bb hbb) (hperm.mem_iff.mp hb)

theorem GuardInv.run (h : GuardInv F src s) (hrun : ReflTransGen (GuardStep z F dst) s t) :
    GuardInv F src t := by
  induction hrun with
  | refl => exact h
  | tail _ hstep ih => exact ih.step hstep

omit [DecidableEq V] [Fintype V] in
theorem pathHolds_iff {a b : B} {m : V → Bool} : PathHolds F a b m ↔
    ReflTransGen (fun a b => F.Edge a b ∧ (F.brCond a b).eval m) a b :=
  Walk.exists_isChain_iff

omit [DecidableEq V] [Fintype V] in
theorem GuardInv.paths (h : GuardInv F src s) (hempty : s.worklist = []) {b : B} {m : V → Bool}
    (hpath : PathHolds F src b m) : (s.getCFCond b).eval m := by
  rw [pathHolds_iff] at hpath
  induction hpath with
  | refl => exact h.source m
  | tail _ hstep ih =>
    have hnot : ∀ a, a ∉ s.worklist := by
      intro a
      rw [hempty]
      exact not_mem_nil
    exact (h.settled _).resolve_left (hnot _) _ hstep.1 m ih hstep.2

-- ── Steps that fit

/-- Every condition holds only where the branch conditions hold along a path to its block. -/
def Sound (F : GuardFunction B V) (src : B) (s : GuardState B V) : Prop :=
  ∀ b m, (s.getCFCond b).eval m = true → PathHolds F src b m

omit [DecidableEq V] [Fintype V] in
theorem sound_start (F : GuardFunction B V) (src : B) : Sound F src (GuardState.start src) := by
  intro b m hb
  by_cases heq : b = src
  · subst heq
    exact ⟨[b], .single b, isChain_singleton b⟩
  · have hnone : (GuardState.start src : GuardState B V).bbToCondMap b = none := by
      simp [GuardState.start, heq]
    rw [GuardState.getCFCond, hnone] at hb
    exact absurd hb (by simp [Z3Expr.getFalseCond, Z3Expr.eval])

theorem Sound.visitSucc (h : Sound F src s) {succ : B} (hE : F.Edge bb succ)
    (hcond : ∀ m, cond.eval m → PathHolds F src bb m)
    (hfits : SuccFits z F bb cond s succ) : Sound F src (visitSucc z F bb cond s succ) := by
  have hraised := setCFCond_raised s succ (z.OR (s.getCFCond succ) (z.AND cond (F.brCond bb succ)))
  intro b m hb
  by_cases hsucc : b = succ
  · subst hsucc
    have hor := (hraised.gets m).symm.trans hb
    rw [Z3Context.eval_OR hfits.2, Z3Context.eval_AND hfits.1, Bool.or_eq_true,
      Bool.and_eq_true] at hor
    rcases hor with hor | ⟨hc, hbr⟩
    · exact h b m hor
    · -- one edge more
      have hpath := pathHolds_iff.mp (hcond m hc)
      exact pathHolds_iff.mpr (hpath.tail ⟨hE, hbr⟩)
  · rw [getCFCond_congr (t := SvfSaber.visitSucc z F bb cond s succ) (hraised.other b hsucc)] at hb
    exact h b m hb

theorem Sound.step (h : Sound F src s) (hstep : FittingStep z F dst s t) : Sound F src t := by
  obtain ⟨bb, _, _, succs, hperm, hfits, rfl⟩ := hstep
  have hE : ∀ succ ∈ succs, F.Edge bb succ := fun succ hsucc => hperm.mem_iff.mp hsucc
  have hloop : ∀ (succs : List B) (u : GuardState B V), (∀ succ ∈ succs, F.Edge bb succ) →
      Sound F src u → SuccsFit z F bb (s.getCFCond bb) u succs →
        Sound F src (succs.foldl (SvfSaber.visitSucc z F bb (s.getCFCond bb)) u) := by
    intro succs
    induction succs with
    | nil => exact fun u _ hu _ => hu
    | cons succ succs ih =>
      intro u hE hu hfits
      exact ih _ (forall_mem_cons.mp hE).2
        (hu.visitSucc (hE succ mem_cons_self) (h bb) hfits.1) hfits.2
  exact hloop succs _ hE h hfits

theorem Sound.run (h : Sound F src s) (hrun : ReflTransGen (FittingStep z F dst) s t) :
    Sound F src t := by
  induction hrun with
  | refl => exact h
  | tail _ hstep ih => exact ih.step hstep

-- ── Every order ends

/-- The assignments for which a condition does not hold yet; one more without a condition. -/
def rank : Option (Z3Expr V) → ℕ
  | none => Fintype.card (V → Bool) + 1
  | some c => (Finset.univ.filter (fun m => c.eval m = false)).card

/-- What is left to do. -/
def todo (F : GuardFunction B V) (s : GuardState B V) : ℕ :=
  2 * ∑ b ∈ F.blocks.toFinset, rank (s.bbToCondMap b) + s.worklist.length

theorem rank_lt {o : Option (Z3Expr V)}
    (hgrow : ∀ m, (o.getD Z3Expr.getFalseCond).eval m → cond.eval m)
    (hne : ∀ old, o = some old → ∃ m, old.eval m ≠ cond.eval m) : rank (some cond) < rank o := by
  cases o with
  | none =>
    unfold rank
    exact Nat.lt_succ_of_le (Finset.card_le_univ _)
  | some old =>
    obtain ⟨m, hm⟩ := hne old rfl
    have hgrow' : ∀ m, old.eval m → cond.eval m := hgrow
    refine Finset.card_lt_card ⟨?_, ?_⟩
    · intro m hm
      have hfalse := (Finset.mem_filter.mp hm).2
      refine Finset.mem_filter.mpr ⟨Finset.mem_univ m, ?_⟩
      by_contra htrue
      rw [hgrow' m (by simpa using htrue)] at hfalse
      cases hfalse
    · intro hsub
      have hold : old.eval m = false := by
        by_contra htrue
        have htrue' : old.eval m := by simpa using htrue
        exact hm (htrue'.trans (hgrow' m htrue').symm)
      have hmem := hsub (Finset.mem_filter.mpr ⟨Finset.mem_univ m, hold⟩)
      exact hm (hold.trans (Finset.mem_filter.mp hmem).2.symm)

theorem todo_visitSucc {succ : B} (hsucc : succ ∈ F.blocks) (s : GuardState B V) :
    todo F (visitSucc z F bb cond s succ) ≤ todo F s := by
  have hmem : succ ∈ F.blocks.toFinset := mem_toFinset.mpr hsucc
  rcases setCFCond_cases s succ (z.OR (s.getCFCond succ) (z.AND cond (F.brCond bb succ))) with
    ⟨_, _, _, hsame⟩ | ⟨hne, hnew⟩
  · unfold visitSucc
    rw [hsame]
  · unfold visitSucc
    rw [hnew]
    have hlt : rank (some (z.OR (s.getCFCond succ) (z.AND cond (F.brCond bb succ)))) <
        rank (s.bbToCondMap succ) :=
      rank_lt (fun m hm => Z3Context.OR_of_eval (.inl hm)) hne
    have hlen : (if succ ∈ s.worklist then s.worklist else s.worklist ++ [succ]).length ≤
        s.worklist.length + 1 := by
      split
      · exact Nat.le_succ _
      · rw [length_append, length_singleton]
    have hsum := Finset.add_sum_erase F.blocks.toFinset (fun b => rank (s.bbToCondMap b)) hmem
    have hsum' := Finset.add_sum_erase F.blocks.toFinset (fun b => rank (update s.bbToCondMap succ
        (some (z.OR (s.getCFCond succ) (z.AND cond (F.brCond bb succ)))) b)) hmem
    have hrest : ∑ b ∈ F.blocks.toFinset.erase succ, rank (update s.bbToCondMap succ
        (some (z.OR (s.getCFCond succ) (z.AND cond (F.brCond bb succ)))) b) =
          ∑ b ∈ F.blocks.toFinset.erase succ, rank (s.bbToCondMap b) := by
      refine Finset.sum_congr rfl (fun b hb => ?_)
      rw [update_of_ne (Finset.ne_of_mem_erase hb)]
    simp only [update_self] at hsum'
    simp only [todo]
    omega

theorem GuardInv.todo_step (h : GuardInv F src s) (hstep : GuardStep z F dst s t) :
    todo F t < todo F s := by
  obtain ⟨bb, hbb, _, succs, hperm, rfl⟩ := hstep
  have hblocks : ∀ succ ∈ succs, succ ∈ F.blocks :=
    fun succ hsucc => F.succs_mem bb succ (h.blocks bb hbb) (hperm.mem_iff.mp hsucc)
  have hloop : ∀ (succs : List B) (u : GuardState B V), (∀ succ ∈ succs, succ ∈ F.blocks) →
      todo F (succs.foldl (visitSucc z F bb (s.getCFCond bb)) u) ≤ todo F u := by
    intro succs
    induction succs with
    | nil => exact fun u _ => Nat.le_refl _
    | cons succ succs ih =>
      intro u hmem
      exact (ih _ (forall_mem_cons.mp hmem).2).trans (todo_visitSucc (hmem succ mem_cons_self) u)
  refine (hloop succs _ hblocks).trans_lt ?_
  have hpos := length_pos_of_mem hbb
  simp only [todo, length_erase_of_mem hbb]
  omega

theorem acc_guardStep (z : Z3Context V) (dst : B) : ∀ (n : ℕ) (s : GuardState B V),
    todo F s < n → GuardInv F src s → Acc (fun t s => GuardStep z F dst s t) s := by
  intro n
  induction n with
  | zero => exact fun _ h => absurd h (Nat.not_lt_zero _)
  | succ n ih =>
    intro s hn h
    refine Acc.intro s (fun t hstep => ih t ?_ (h.step hstep))
    have := h.todo_step hstep
    omega

-- ── The code's order

theorem guardStep_head (z : Z3Context V) {rest : List B} (hwl : s.worklist = bb :: rest)
    (hexit : F.evaluateLoopExitBranch bb dst = none) :
    GuardStep z F dst s (visitSuccs z F s bb (F.succs bb)) :=
  ⟨bb, by rw [hwl]; exact mem_cons_self, hexit, F.succs bb, .refl _, rfl⟩

theorem returns_or_step (z : Z3Context V) (F : GuardFunction B V) (dst : B) (s : GuardState B V) :
    (∃ r, Returns z F dst s r) ∨ ∃ t, GuardStep z F dst s t := by
  cases hwl : s.worklist with
  | nil => exact .inl ⟨_, .done hwl⟩
  | cons bb rest =>
    cases hexit : F.evaluateLoopExitBranch bb dst with
    | none => exact .inr ⟨_, guardStep_head z hwl hexit⟩
    | some c =>
      refine .inl ⟨_, .exit bb ?_ c hexit⟩
      rw [hwl]
      exact mem_cons_self

theorem guardLoop_succ : ∀ (fuel : ℕ) (s : GuardState B V) (r : Z3Expr V),
    guardLoop z F dst fuel s = some r → guardLoop z F dst (fuel + 1) s = some r := by
  intro fuel
  induction fuel with
  | zero =>
    intro s r h
    exact absurd h (by simp [guardLoop])
  | succ fuel ih =>
    intro s r h
    rw [guardLoop] at h ⊢
    cases hwl : s.worklist with
    | nil =>
      simp only [hwl] at h ⊢
      exact h
    | cons bb rest =>
      simp only [hwl] at h ⊢
      cases hexit : F.evaluateLoopExitBranch bb dst with
      | some c =>
        simp only [hexit] at h ⊢
        exact h
      | none =>
        simp only [hexit] at h ⊢
        exact ih _ r h

theorem guardLoop_runs : ∀ (fuel : ℕ) (s : GuardState B V) (r : Z3Expr V),
    guardLoop z F dst fuel s = some r →
      ∃ t, ReflTransGen (GuardStep z F dst) s t ∧ Returns z F dst t r := by
  intro fuel
  induction fuel with
  | zero =>
    intro s r h
    exact absurd h (by simp [guardLoop])
  | succ fuel ih =>
    intro s r h
    rw [guardLoop] at h
    cases hwl : s.worklist with
    | nil =>
      simp only [hwl, Option.some_inj] at h
      subst h
      exact ⟨s, .refl, .done hwl⟩
    | cons bb rest =>
      cases hexit : F.evaluateLoopExitBranch bb dst with
      | some c =>
        simp only [hwl, hexit, Option.some_inj] at h
        subst h
        have hmem : bb ∈ s.worklist := by
          rw [hwl]
          exact mem_cons_self
        exact ⟨s, .refl, .exit bb hmem c hexit⟩
      | none =>
        simp only [hwl, hexit] at h
        obtain ⟨t, hreach, hret⟩ := ih _ r h
        exact ⟨t, .head (guardStep_head z hwl hexit) hreach, hret⟩

theorem guardLoop_ends (s : GuardState B V) (hacc : Acc (fun t s => GuardStep z F dst s t) s) :
    ∃ r fuel, guardLoop z F dst fuel s = some r := by
  induction hacc with
  | intro s _ ih =>
    cases hwl : s.worklist with
    | nil =>
      refine ⟨s.getCFCond dst, 1, ?_⟩
      rw [guardLoop]
      simp only [hwl]
    | cons bb rest =>
      cases hexit : F.evaluateLoopExitBranch bb dst with
      | some c =>
        refine ⟨z.AND (s.getCFCond bb) c, 1, ?_⟩
        rw [guardLoop]
        simp only [hwl, hexit]
      | none =>
        obtain ⟨r, fuel, hrun⟩ := ih _ (guardStep_head z hwl hexit)
        refine ⟨r, fuel + 1, ?_⟩
        rw [guardLoop]
        simp only [hwl, hexit]
        exact hrun

theorem guardResult_of_run {fuel : ℕ} {r : Z3Expr V}
    (h : computeIntraVFGGuard z F src dst fuel = some r) : GuardResult z F src dst r := by
  unfold computeIntraVFGGuard at h
  unfold GuardResult
  by_cases hpdom : F.postDominate dst src
  · rw [if_pos hpdom, Option.some_inj] at h
    rw [if_pos hpdom]
    exact h.symm
  · rw [if_neg hpdom] at h
    rw [if_neg hpdom]
    exact guardLoop_runs fuel _ r h

/-- In every order the result is the disjunction over the paths. -/
def GuardCollects (z : Z3Context V) (F : GuardFunction B V) (src dst : B) : Prop :=
  ∀ r, GuardResult z F src dst r → ∀ m, r.eval m = true ↔ PathHolds F src dst m

end Guard

-- ── A loop with two exits, and a header reached twice

/-- The conditions of a block with two successors, on one variable. -/
def branchOn {V : Type} (v : V) : SaberCondAllocator.CondPosMap V := fun pos =>
  match pos with
  | 0 => some (.boolConst v)
  | 1 => some (.not (.boolConst v))
  | _ => none

inductive TwoExits
  | head
  | body
  | exit1
  | exit2
  | done
  deriving DecidableEq

/-- A loop of two blocks, each of which may leave it. -/
def twoExits : GuardFunction TwoExits Bool where
  blocks := [.head, .body, .exit1, .exit2, .done]
  entry := .head
  succs := fun bb =>
    match bb with
    | .head => [.body, .exit1]
    | .body => [.head, .exit2]
    | .exit1 => [.done]
    | .exit2 => [.done]
    | .done => []
  exits := [.done]
  entry_mem := by decide
  succs_mem := fun _ b _ _ => by cases b <;> decide
  loopAndDom :=
    { SVFLoopAndDomInfo.empty with
      reachableBBs := [.head, .body, .exit1, .exit2, .done]
      pdtBBsMap := fun bb =>
        if bb = .done then some [.head, .body, .exit1, .exit2] else none
      bb2LoopMap := fun bb =>
        if bb = .head ∨ bb = .body then some [.head, .body] else none }
  exitBBs := []
  branchStmt := fun bb =>
    match bb with
    | .head => some ⟨.body, .exit1, false, false⟩
    | .body => some ⟨.head, .exit2, false, false⟩
    | _ => none
  bbConds := fun bb =>
    match bb with
    | .head => branchOn false
    | .body => branchOn true
    | _ => fun _ => none
  curEval := true

inductive TwoWays
  | src
  | mid
  | header
  | dst
  | stop
  | ret
  deriving DecidableEq

/-- The header of a loop is reached in one step and in two. -/
def twoWays : GuardFunction TwoWays Bool where
  blocks := [.src, .mid, .header, .dst, .stop, .ret]
  entry := .src
  succs := fun bb =>
    match bb with
    | .src => [.header, .mid]
    | .mid => [.header, .stop]
    | .header => [.header, .dst]
    | .dst => [.ret]
    | .stop => [.ret]
    | .ret => []
  exits := [.ret]
  entry_mem := by decide
  succs_mem := fun _ b _ _ => by cases b <;> decide
  loopAndDom :=
    { SVFLoopAndDomInfo.empty with
      reachableBBs := [.src, .mid, .header, .dst, .stop, .ret]
      pdtBBsMap := fun bb =>
        if bb = .ret then some [.src, .mid, .dst, .stop]
        else if bb = .dst then some [.header] else none
      bb2LoopMap := fun bb => if bb = .header then some [.header] else none }
  exitBBs := []
  branchStmt := fun bb =>
    match bb with
    | .src => some ⟨.header, .mid, false, false⟩
    | .mid => some ⟨.header, .stop, false, false⟩
    | .header => some ⟨.header, .dst, false, false⟩
    | _ => none
  bbConds := fun bb =>
    match bb with
    | .src => branchOn false
    | .mid => branchOn true
    | .header => branchOn true
    | _ => fun _ => none
  curEval := true

end SvfSaber
