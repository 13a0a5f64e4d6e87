import SvfModel.DominanceProofs
import SvfModel.TargetSearchProofs

/-!
# Intraprocedural lock spans

For every lock site `analyzeIntraProcedualLock` collects the instructions up to the releases of
the lock, and gives up if it comes to the exit. From the releases it goes back to the acquires;
if it comes to the end of the entry block on the way, the span is recorded as conditional,
otherwise as unconditional.

Both traversals are searches for a target (`traverse_spec`), so a span is recorded
as unconditional exactly if the lock cannot reach the exit without a release, and no release of it
can be reached from the end of the entry block without an acquire (`Unconditional`). That is not
what makes a span protected: an acquire inside the entry block is passed over, and what comes to
the span from a release, or from the entry without coming to a release of the span, is not looked
at. `SpanCond` says that none of this happens (**`analyzeIntraProcedualLock_protects_iff`**).
-/

namespace SvfIntraLock

open SvfLoop SvfDominance SvfTargetSearch Relation List
open Function (update update_of_ne update_self)

/-- The instructions of a module, intrinsics left out, and what the lock analysis asks about them.
    The instructions of an entry block follow each other, and nothing leads to the first one. -/
structure LockModule (F I : Type) where
  insts : List I
  getFunction : I → F
  getSuccInstructions : I → List I
  getPredInstructions : I → List I
  getEntryBlock : F → List I
  exitInst : F → I
  isTDAcquire : I → Bool
  isTDRelease : I → Bool
  isAliasedLocks : I → I → Bool
  locksites : List I
  succ_mem : ∀ a ∈ insts, ∀ b ∈ getSuccInstructions a, b ∈ insts
  pred_mem : ∀ a ∈ insts, ∀ b ∈ getPredInstructions a, b ∈ insts
  pred_iff : ∀ a b, a ∈ getPredInstructions b ↔ b ∈ getSuccInstructions a
  succ_fun : ∀ a, ∀ b ∈ getSuccInstructions a, getFunction b = getFunction a
  entry_ne : ∀ f, getEntryBlock f ≠ []
  entry_next : ∀ f a b, [a, b] <:+: getEntryBlock f → ∀ c, c ∈ getSuccInstructions a ↔ c = b
  entry_prev : ∀ f a b, [a, b] <:+: getEntryBlock f → ∀ c, b ∈ getSuccInstructions c → c = a
  entry_first : ∀ f a, (getEntryBlock f).head (entry_ne f) ∉ getSuccInstructions a
  lock_mem : ∀ l ∈ locksites, l ∈ insts
  lock_acq : ∀ l ∈ locksites, isTDAcquire l = true
  exclusive : ∀ i, isTDAcquire i = true → isTDRelease i = false
  alias_equiv : Equivalence (fun a b => isAliasedLocks a b = true)

abbrev InstSet (I : Type) := List I

variable {F I : Type} [DecidableEq I]

section Analysis

variable (P : LockModule F I)

def LockModule.entryInst (i : I) : I :=
  (P.getEntryBlock (P.getFunction i)).getLast (P.entry_ne (P.getFunction i))

/-- The loop of `intraForwardTraverse`, the end of the worklist in front. -/
def forwardLoop (lockSite : I) :
    ℕ → List I → InstSet I → InstSet I → Option (Bool × InstSet I × InstSet I)
  | 0, _, _, _ => none
  | _ + 1, [], unlockSet, forwardInsts => some (true, unlockSet, forwardInsts)
  | fuel + 1, i :: worklist, unlockSet, forwardInsts =>
    if P.exitInst (P.getFunction lockSite) = i then some (false, unlockSet, forwardInsts)
    -- Skip the visited Instructions.
    else if i ∈ forwardInsts then forwardLoop lockSite fuel worklist unlockSet forwardInsts
    else if P.isTDRelease i && P.isAliasedLocks lockSite i then
      forwardLoop lockSite fuel worklist (i :: unlockSet) (i :: forwardInsts)
    else
      forwardLoop lockSite fuel ((P.getSuccInstructions i).reverse ++ worklist) unlockSet
        (i :: forwardInsts)

def intraForwardTraverse (lockSite : I) (fuel : ℕ) : Option (Bool × InstSet I × InstSet I) :=
  forwardLoop P lockSite fuel [lockSite] [] []

def backwardLoop (unlockSite : I) : ℕ → List I → InstSet I → Option (Bool × InstSet I)
  | 0, _, _ => none
  | _ + 1, [], backwardInsts => some (true, backwardInsts)
  | fuel + 1, i :: worklist, backwardInsts =>
    if P.entryInst unlockSite = i then some (false, backwardInsts)
    -- Skip the visited Instructions.
    else if i ∈ backwardInsts then backwardLoop unlockSite fuel worklist backwardInsts
    else if P.isTDAcquire i && P.isAliasedLocks unlockSite i then
      backwardLoop unlockSite fuel worklist (i :: backwardInsts)
    else
      backwardLoop unlockSite fuel ((P.getPredInstructions i).reverse ++ worklist)
        (i :: backwardInsts)

def intraBackwardTraverse (fuel : ℕ) : InstSet I → InstSet I → Option (Bool × InstSet I)
  | [], backwardInsts => some (true, backwardInsts)
  | unlockSite :: unlockSet, backwardInsts =>
    match backwardLoop P unlockSite fuel [unlockSite] backwardInsts with
    | none => none
    | some (false, backwardInsts) => some (false, backwardInsts)
    | some (true, backwardInsts) => intraBackwardTraverse fuel unlockSet backwardInsts

structure IntraLocks (I : Type) where
  ciLocktoSpan : I → InstSet I
  instCILocksMap : I → InstSet I
  instTocondCILocksMap : I → InstSet I

namespace IntraLocks

/-- Nothing is recorded. -/
def new : IntraLocks I := ⟨fun _ => [], fun _ => [], fun _ => []⟩

def addIntraLock (s : IntraLocks I) (lockSite : I) (stmts : InstSet I) : IntraLocks I :=
  stmts.foldl (fun s stmt =>
    { s with
      instCILocksMap := update s.instCILocksMap stmt
        ((s.instCILocksMap stmt).insert lockSite)
      ciLocktoSpan := update s.ciLocktoSpan lockSite
        ((s.ciLocktoSpan lockSite).insert stmt) }) s

def addCondIntraLock (s : IntraLocks I) (lockSite : I) (stmts : InstSet I) : IntraLocks I :=
  stmts.foldl (fun s stmt =>
    { s with
      instTocondCILocksMap := update s.instTocondCILocksMap stmt
        ((s.instTocondCILocksMap stmt).insert lockSite) }) s

end IntraLocks

def analyzeLock (fuel : ℕ) (s : IntraLocks I) (lockSite : I) : Option (IntraLocks I) :=
  match intraForwardTraverse P lockSite fuel with
  | none => none
  | some (forward, unlockSet, forwardInsts) =>
    match intraBackwardTraverse P fuel unlockSet [] with
    | none => none
    | some (backward, _) =>
      if forward && backward then some (s.addIntraLock lockSite forwardInsts)
      else if forward && !backward then some (s.addCondIntraLock lockSite forwardInsts)
      else some s

def analyzeIntraProcedualLock (fuel : ℕ) : Option (IntraLocks I) :=
  P.locksites.foldlM (analyzeLock P fuel) IntraLocks.new

def isProtectedByCommonCILock (s : IntraLocks I) (i1 i2 : I) : Bool :=
  if (s.instTocondCILocksMap i1).isEmpty && (s.instTocondCILocksMap i2).isEmpty then
    (s.instCILocksMap i1).any (fun cil1 =>
      (s.instCILocksMap i2).any (fun cil2 => P.isAliasedLocks cil1 cil2))
  else false

end Analysis

-- ── Paths

namespace LockModule

variable (P : LockModule F I) (L : I)

/-- Control goes from one instruction to the other. -/
def Edge (a b : I) : Prop := b ∈ P.getSuccInstructions a

def Acquires (i : I) : Prop := P.isTDAcquire i = true ∧ P.isAliasedLocks L i = true

def Releases (i : I) : Prop := P.isTDRelease i = true ∧ P.isAliasedLocks L i = true

/-- Reached from `L` on a path without a release before its end. -/
def InSpan (x : I) : Prop := ReflTransGen (fun a b => P.Edge a b ∧ ¬P.Releases L a) L x

/-- A release that ends the span. -/
def Unlocks (u : I) : Prop := P.InSpan L u ∧ P.Releases L u

/-- The second instruction is reached from the first on a path without an acquire after its
    start. -/
def AcquireFree : I → I → Prop := ReflTransGen (fun a b => P.Edge a b ∧ ¬P.Acquires L b)

def firstInst : I := (P.getEntryBlock (P.getFunction L)).head (P.entry_ne (P.getFunction L))

/-- On every path from the function entry, `x` lies after an acquire with no release in
    between. -/
def Protected (x : I) : Prop :=
  ∀ p, Walk P.Edge (P.firstInst L) x p → ∃ ρ a σ, p = ρ ++ a :: σ ∧ P.Acquires L a ∧
    ∀ y ∈ σ.dropLast, ¬P.Releases L y

/-- Every path to the unlocks passes through an acquire. -/
def UnlocksGuarded : Prop :=
  ∀ u, P.Unlocks L u → ∀ p, Walk P.Edge (P.firstInst L) u p → ∃ a ∈ p, P.Acquires L a

/-- Every path to the exit passes through a release. -/
def ExitReleased : Prop :=
  ∀ p, Walk P.Edge L (P.exitInst (P.getFunction L)) p → ∃ r ∈ p.dropLast, P.Releases L r

def EndGuarded : Prop := ∀ u, P.Unlocks L u → ¬P.AcquireFree L (P.entryInst L) u

/-- A path from the function entry leads to `x` without an acquire, or without one after a
    release. -/
def Unheld (x : I) : Prop :=
  ¬P.Acquires L (P.firstInst L) ∧ P.AcquireFree L (P.firstInst L) x ∨
    ∃ r y, ReflTransGen P.Edge (P.firstInst L) r ∧ P.Releases L r ∧ P.Edge r y ∧
      ¬P.Acquires L y ∧ P.AcquireFree L y x

/-- When the lock cannot reach the exit without a release: if the entry block has an acquire, its
    end reaches no unlock without another; and if the end of the entry block reaches none, nothing
    in the span is reached unheld. -/
def SpanCond : Prop :=
  P.ExitReleased L →
    ((∃ a ∈ P.getEntryBlock (P.getFunction L), P.Acquires L a) → P.EndGuarded L) ∧
      (P.EndGuarded L → ∀ x, P.InSpan L x → ¬P.Unheld L x)

end LockModule

-- ── The traversals are searches

variable {P : LockModule F I} {L : I}

/-- What the forward traversal goes on with. -/
def nextInsts (P : LockModule F I) (L i : I) : List I :=
  if P.isTDRelease i && P.isAliasedLocks L i then [] else P.getSuccInstructions i

/-- What the backward traversal goes on with. -/
def prevInsts (P : LockModule F I) (L i : I) : List I :=
  if P.isTDAcquire i && P.isAliasedLocks L i then [] else P.getPredInstructions i

section

omit [DecidableEq I]

theorem mem_nextInsts {a b : I} : b ∈ nextInsts P L a ↔ P.Edge a b ∧ ¬P.Releases L a := by
  unfold nextInsts LockModule.Edge LockModule.Releases
  by_cases h : (P.isTDRelease a && P.isAliasedLocks L a)
  · rw [if_pos h]
    rw [Bool.and_eq_true] at h
    simp [h]
  · rw [if_neg h]
    rw [Bool.and_eq_true] at h
    exact (and_iff_left h).symm

theorem mem_prevInsts {a b : I} : b ∈ prevInsts P L a ↔ P.Edge b a ∧ ¬P.Acquires L a := by
  unfold prevInsts LockModule.Edge LockModule.Acquires
  by_cases h : (P.isTDAcquire a && P.isAliasedLocks L a)
  · rw [if_pos h]
    rw [Bool.and_eq_true] at h
    simp [h]
  · rw [if_neg h]
    rw [Bool.and_eq_true] at h
    rw [P.pred_iff]
    exact (and_iff_left h).symm

theorem reaches_nextInsts {x : I} : Reaches (nextInsts P L) L x ↔ P.InSpan L x := by
  unfold LockModule.InSpan Reaches
  simp only [mem_nextInsts]

theorem reaches_prevInsts {u x : I} : Reaches (prevInsts P L) u x ↔ P.AcquireFree L x u := by
  unfold LockModule.AcquireFree Reaches
  simp only [mem_prevInsts]
  exact reflTransGen_swap (r := fun b a => P.Edge b a ∧ ¬P.Acquires L a)

end

theorem forwardLoop_succ : ∀ (fuel : ℕ) (wl U S : List I) (r : Bool × InstSet I × InstSet I),
    forwardLoop P L fuel wl U S = some r → forwardLoop P L (fuel + 1) wl U S = some r := by
  intro fuel
  induction fuel with
  | zero =>
    intro wl U S r h
    exact absurd h (by simp [forwardLoop])
  | succ fuel ih =>
    intro wl U S r h
    cases wl with
    | nil => exact h
    | cons i wl =>
      rw [forwardLoop] at h ⊢
      by_cases hexit : P.exitInst (P.getFunction L) = i
      · rw [if_pos hexit] at h ⊢
        exact h
      · rw [if_neg hexit] at h ⊢
        by_cases hseen : i ∈ S
        · rw [if_pos hseen] at h ⊢
          exact ih _ _ _ _ h
        · rw [if_neg hseen] at h ⊢
          by_cases hrel : (P.isTDRelease i && P.isAliasedLocks L i)
          · rw [if_pos hrel] at h ⊢
            exact ih _ _ _ _ h
          · rw [if_neg hrel] at h ⊢
            exact ih _ _ _ _ h

theorem forwardLoop_explore : ∀ (fuel : ℕ) (wl U S : List I) (r : Bool × List I),
    (∀ x, x ∈ U ↔ x ∈ S ∧ P.Releases L x) →
      explore (nextInsts P L) (P.exitInst (P.getFunction L)) fuel wl S = some r →
        ∃ U', forwardLoop P L fuel wl U S = some (r.1, U', r.2) ∧
          ∀ x, x ∈ U' ↔ x ∈ r.2 ∧ P.Releases L x := by
  intro fuel
  induction fuel with
  | zero =>
    intro wl U S r _ h
    exact absurd h (by simp [explore])
  | succ fuel ih =>
    intro wl U S r hU h
    cases wl with
    | nil =>
      rw [explore, Option.some_inj] at h
      subst h
      exact ⟨U, rfl, hU⟩
    | cons i wl =>
      rw [explore] at h
      rw [forwardLoop]
      by_cases hexit : P.exitInst (P.getFunction L) = i
      · rw [if_pos hexit, Option.some_inj] at h
        subst h
        rw [if_pos hexit]
        exact ⟨U, rfl, hU⟩
      · rw [if_neg hexit] at h ⊢
        by_cases hseen : i ∈ S
        · rw [if_pos hseen] at h ⊢
          exact ih _ _ _ _ hU h
        · rw [if_neg hseen] at h ⊢
          by_cases hrel : (P.isTDRelease i && P.isAliasedLocks L i)
          · rw [nextInsts, if_pos hrel] at h
            rw [if_pos hrel]
            refine ih wl (i :: U) (i :: S) r ?_ h
            intro x
            rw [mem_cons, mem_cons, hU, or_and_right]
            refine or_congr_left (and_iff_left_of_imp ?_).symm
            rintro rfl
            rw [Bool.and_eq_true] at hrel
            exact hrel
          · rw [nextInsts, if_neg hrel] at h
            rw [if_neg hrel]
            refine ih _ U (i :: S) r ?_ h
            intro x
            rw [hU, mem_cons, or_and_right]
            refine (or_iff_right ?_).symm
            rintro ⟨rfl, hx⟩
            exact hrel (by rw [Bool.and_eq_true]; exact hx)

theorem backwardLoop_explore (u : I) : ∀ (fuel : ℕ) (wl S : List I),
    backwardLoop P u fuel wl S = explore (prevInsts P u) (P.entryInst u) fuel wl S := by
  intro fuel
  induction fuel with
  | zero => exact fun _ _ => rfl
  | succ fuel ih =>
    intro wl S
    cases wl with
    | nil => rfl
    | cons i wl =>
      rw [backwardLoop, explore]
      by_cases hentry : P.entryInst u = i
      · rw [if_pos hentry, if_pos hentry]
      · rw [if_neg hentry, if_neg hentry]
        by_cases hseen : i ∈ S
        · rw [if_pos hseen, if_pos hseen, ih]
        · rw [if_neg hseen, if_neg hseen]
          by_cases hacq : (P.isTDAcquire i && P.isAliasedLocks u i)
          · rw [if_pos hacq, ih, prevInsts, if_pos hacq]
            rfl
          · rw [if_neg hacq, ih, prevInsts, if_neg hacq]

theorem intraBackwardTraverse_exploreAll (fuel : ℕ) : ∀ (us S : List I),
    (∀ u ∈ us, prevInsts P u = prevInsts P L ∧ P.entryInst u = P.entryInst L) →
      intraBackwardTraverse P fuel us S = exploreAll (prevInsts P L) (P.entryInst L) fuel us S := by
  intro us
  induction us with
  | nil => exact fun _ _ => rfl
  | cons u us ih =>
    intro S h
    obtain ⟨hprev, hentry⟩ := h u mem_cons_self
    rw [intraBackwardTraverse, exploreAll, backwardLoop_explore, hprev, hentry]
    cases explore (prevInsts P L) (P.entryInst L) fuel [u] S with
    | none => rfl
    | some r =>
      obtain ⟨missed, S'⟩ := r
      cases missed with
      | false => rfl
      | true => exact ih S' (forall_mem_cons.mp h).2

omit [DecidableEq I] in
theorem inSpan_mem (hL : L ∈ P.insts) {x : I} (h : P.InSpan L x) :
    x ∈ P.insts ∧ P.getFunction x = P.getFunction L := by
  induction h with
  | refl => exact ⟨hL, rfl⟩
  | tail _ hstep ih =>
    exact ⟨P.succ_mem _ ih.1 _ hstep.1, (P.succ_fun _ _ hstep.1).trans ih.2⟩

omit [DecidableEq I] in
theorem prevInsts_of_releases {u : I} (hu : P.Releases L u) : prevInsts P u = prevInsts P L := by
  funext i
  have hsame : P.isAliasedLocks u i = P.isAliasedLocks L i := by
    rw [Bool.eq_iff_iff]
    constructor
    · exact fun h => P.alias_equiv.trans hu.2 h
    · exact fun h => P.alias_equiv.trans (P.alias_equiv.symm hu.2) h
  unfold prevInsts
  rw [hsame]

/-- The traversals from one lock site: the forward one succeeds exactly if the exit is not in the
    span, and then collects the span and its unlocks; the backward one then succeeds exactly if
    the end of the entry block is guarded. -/
theorem traverse_spec (hL : L ∈ P.insts) : ∃ forward unlockSet forwardInsts backward backwardInsts,
      Stops (fun fuel => intraForwardTraverse P L fuel) (forward, unlockSet, forwardInsts) ∧
      Stops (fun fuel => intraBackwardTraverse P fuel unlockSet []) (backward, backwardInsts) ∧
      (forward ↔ ¬P.InSpan L (P.exitInst (P.getFunction L))) ∧
      (forward → (∀ x, x ∈ forwardInsts ↔ P.InSpan L x) ∧ (backward ↔ P.EndGuarded L)) := by
  have hnext : ∀ x ∈ P.insts, ∀ y ∈ nextInsts P L x, y ∈ P.insts :=
    fun x hx y hy => P.succ_mem x hx y (mem_nextInsts.mp hy).1
  have hprev : ∀ x ∈ P.insts, ∀ y ∈ prevInsts P L x, y ∈ P.insts :=
    fun x hx y hy => P.pred_mem x hx y ((P.pred_iff y x).mpr (mem_prevInsts.mp hy).1)
  have hstart : ∀ (next : I → List I) (target : I) (wl : List I), Marked next target wl [] :=
    fun _ _ _ => ⟨nofun, not_mem_nil⟩
  have hone : ∀ w ∈ [L], w ∈ P.insts := by
    intro w hw
    rw [mem_singleton.mp hw]
    exact hL
  obtain ⟨forward, S, ⟨n, hn⟩, hsound, hforward, hmarked⟩ :=
    explore_spec hnext hone (hstart (nextInsts P L) (P.exitInst (P.getFunction L)) [L])
  rw [forall_mem_singleton, reaches_nextInsts] at hforward
  have hspan : ∀ x ∈ S, P.InSpan L x := by
    intro x hx
    rcases hsound x hx with h | ⟨w, hw, h⟩
    · cases h
    · rw [mem_singleton.mp hw] at h
      exact reaches_nextInsts.mp h
  obtain ⟨U, hU, hmem⟩ := forwardLoop_explore (n + 1) [L] [] [] (forward, S) (by simp)
    (hn (n + 1) (Nat.lt_succ_self n))
  have hunlock : ∀ u ∈ U, P.Unlocks L u :=
    fun u hu => ⟨hspan u ((hmem u).mp hu).1, ((hmem u).mp hu).2⟩
  have hagree : ∀ u ∈ U, prevInsts P u = prevInsts P L ∧ P.entryInst u = P.entryInst L := by
    intro u hu
    refine ⟨prevInsts_of_releases (hunlock u hu).2, ?_⟩
    unfold LockModule.entryInst
    simp only [(inSpan_mem hL (hunlock u hu).1).2]
  obtain ⟨backward, S', hback, hbackward⟩ :=
    exploreAll_spec hprev (fun u hu => (inSpan_mem hL (hunlock u hu).1).1)
      (hstart (prevInsts P L) (P.entryInst L) [])
  refine ⟨forward, U, S, backward, S',
    stops_of_succ (fun m r h => forwardLoop_succ m [L] [] [] r h) hU, ?_, hforward, ?_⟩
  · refine Stops.congr (n := 0) (fun fuel _ => ?_) hback
    exact intraBackwardTraverse_exploreAll fuel U [] hagree
  · intro h
    have hmem' : ∀ x, x ∈ S ↔ P.InSpan L x := by
      intro x
      rw [(hmarked h).2]
      simp [reaches_nextInsts]
    refine ⟨hmem', hbackward.trans ?_⟩
    constructor
    · intro hall u hu
      rw [← reaches_prevInsts]
      exact hall u ((hmem u).mpr ⟨(hmem' u).mpr hu.1, hu.2⟩)
    · intro hall u hu
      rw [reaches_prevInsts]
      exact hall u (hunlock u hu)

-- ── What is recorded

def Unconditional (P : LockModule F I) (L : I) : Prop := P.ExitReleased L ∧ P.EndGuarded L

namespace IntraLocks

structure Grows (s : IntraLocks I) (R R' : I → I → Prop) (s' : IntraLocks I) : Prop where
  span : ∀ l x, x ∈ s'.ciLocktoSpan l ↔ x ∈ s.ciLocktoSpan l ∨ R l x
  locks : ∀ l x, l ∈ s'.instCILocksMap x ↔ l ∈ s.instCILocksMap x ∨ R l x
  cond : ∀ l x, l ∈ s'.instTocondCILocksMap x ↔ l ∈ s.instTocondCILocksMap x ∨ R' l x

variable {s s' s'' : IntraLocks I}

omit [DecidableEq I] in
theorem grows_none {R R' : I → I → Prop} (hR : ∀ l x, ¬R l x) (hR' : ∀ l x, ¬R' l x) :
    Grows s R R' s where
  span l x := (or_iff_left (hR l x)).symm
  locks l x := (or_iff_left (hR l x)).symm
  cond l x := (or_iff_left (hR' l x)).symm

omit [DecidableEq I] in
theorem Grows.trans {R1 R1' R2 R2' R R' : I → I → Prop} (h : Grows s R1 R1' s')
    (h' : Grows s' R2 R2' s'') (hR : ∀ l x, R l x ↔ R1 l x ∨ R2 l x)
    (hR' : ∀ l x, R' l x ↔ R1' l x ∨ R2' l x) : Grows s R R' s'' where
  span l x := by rw [h'.span, h.span, hR, or_assoc]
  locks l x := by rw [h'.locks, h.locks, hR, or_assoc]
  cond l x := by rw [h'.cond, h.cond, hR', or_assoc]

theorem mem_update_insert {m : I → List I} {a b k x : I} :
    x ∈ update m a ((m a).insert b) k ↔ x ∈ m k ∨ k = a ∧ x = b := by
  by_cases hk : k = a
  · subst hk
    rw [update_self, mem_insert_iff, or_comm]
    simp only [true_and]
  · rw [update_of_ne hk]
    simp only [hk, false_and, or_false]

theorem addIntraLock_grows (s : IntraLocks I) (lockSite : I) (stmts : InstSet I) :
    Grows s (fun l x => l = lockSite ∧ x ∈ stmts) (fun _ _ => False)
      (s.addIntraLock lockSite stmts) := by
  unfold addIntraLock
  induction stmts generalizing s with
  | nil => exact grows_none (by simp) (by simp)
  | cons stmt stmts ih =>
    have hone : Grows s (fun l x => l = lockSite ∧ x = stmt) (fun _ _ => False)
        { s with
          instCILocksMap := update s.instCILocksMap stmt ((s.instCILocksMap stmt).insert lockSite)
          ciLocktoSpan := update s.ciLocktoSpan lockSite
            ((s.ciLocktoSpan lockSite).insert stmt) } := by
      constructor
      case span => exact fun l x => mem_update_insert
      case locks => exact fun l x => mem_update_insert.trans (or_congr_right and_comm)
      case cond => simp
    refine hone.trans (ih _) ?_ (by simp)
    intro l x
    rw [mem_cons]
    tauto

theorem addCondIntraLock_grows (s : IntraLocks I) (lockSite : I) (stmts : InstSet I) :
    Grows s (fun _ _ => False) (fun l x => l = lockSite ∧ x ∈ stmts)
      (s.addCondIntraLock lockSite stmts) := by
  unfold addCondIntraLock
  induction stmts generalizing s with
  | nil => exact grows_none (by simp) (by simp)
  | cons stmt stmts ih =>
    have hone : Grows s (fun _ _ => False) (fun l x => l = lockSite ∧ x = stmt)
        { s with
          instTocondCILocksMap := update s.instTocondCILocksMap stmt
            ((s.instTocondCILocksMap stmt).insert lockSite) } := by
      constructor
      case span => simp
      case locks => simp
      case cond => exact fun l x => mem_update_insert.trans (or_congr_right and_comm)
    refine hone.trans (ih _) (by simp) ?_
    intro l x
    rw [mem_cons]
    tauto

end IntraLocks

open IntraLocks

omit [DecidableEq I] in
theorem exitReleased_iff : P.ExitReleased L ↔ ¬P.InSpan L (P.exitInst (P.getFunction L)) := by
  have hwalk := Walk.exists_dropLast_iff (E := P.Edge) (Q := fun i => ¬P.Releases L i) (a := L)
    (b := P.exitInst (P.getFunction L))
  refine Iff.trans ?_ (not_congr hwalk)
  unfold LockModule.ExitReleased
  push Not
  exact .rfl

theorem analyzeLock_grows (hL : L ∈ P.insts) : ∃ add : IntraLocks I → IntraLocks I,
      (∃ n, ∀ fuel, n < fuel → ∀ s, analyzeLock P fuel s L = some (add s)) ∧
      ∀ s, Grows s (fun l x => l = L ∧ Unconditional P L ∧ P.InSpan L x)
        (fun l x => l = L ∧ P.ExitReleased L ∧ ¬P.EndGuarded L ∧ P.InSpan L x) (add s) := by
  obtain ⟨forward, U, S, backward, S', ⟨m, hm⟩, ⟨n, hn⟩, hforward, hspan⟩ := traverse_spec hL
  rw [← exitReleased_iff] at hforward
  refine ⟨fun s => if forward && backward then s.addIntraLock L S
      else if forward && !backward then s.addCondIntraLock L S else s, ⟨m + n, ?_⟩, ?_⟩
  · intro fuel hf s
    have hrun : intraForwardTraverse P L fuel = some (forward, U, S) := hm fuel (by omega)
    have hrun' : intraBackwardTraverse P fuel U [] = some (backward, S') := hn fuel (by omega)
    simp only [analyzeLock, hrun, hrun']
    cases forward <;> cases backward <;> rfl
  · intro s
    cases forward with
    | false =>
      have hnot : ¬P.ExitReleased L := fun h => absurd (hforward.mpr h) (by simp)
      exact grows_none (fun _ _ h => hnot h.2.1.1) (fun _ _ h => hnot h.2.1)
    | true =>
      have hexit := hforward.mp rfl
      obtain ⟨hmem, hbackward⟩ := hspan rfl
      cases backward with
      | false =>
        have hnot : ¬P.EndGuarded L := fun h => absurd (hbackward.mpr h) (by simp)
        have hgrows := addCondIntraLock_grows s L S
        refine ⟨?_, ?_, ?_⟩
        · exact fun l x => (hgrows.span l x).trans (or_congr_right
            (iff_of_false id (fun h => hnot h.2.1.2)))
        · exact fun l x => (hgrows.locks l x).trans (or_congr_right
            (iff_of_false id (fun h => hnot h.2.1.2)))
        · refine fun l x => (hgrows.cond l x).trans (or_congr_right ?_)
          rw [hmem]
          exact and_congr_right fun _ => ⟨fun h => ⟨hexit, hnot, h⟩, fun h => h.2.2⟩
      | true =>
        have hguard := hbackward.mp rfl
        have hgrows := addIntraLock_grows s L S
        have hsame : ∀ l x, l = L ∧ x ∈ S ↔ l = L ∧ Unconditional P L ∧ P.InSpan L x := by
          intro l x
          rw [hmem]
          exact and_congr_right fun _ => ⟨fun h => ⟨⟨hexit, hguard⟩, h⟩, And.right⟩
        refine ⟨?_, ?_, ?_⟩
        · exact fun l x => (hgrows.span l x).trans (or_congr_right (hsame l x))
        · exact fun l x => (hgrows.locks l x).trans (or_congr_right (hsame l x))
        · exact fun l x => (hgrows.cond l x).trans (or_congr_right
            (iff_of_false id (fun h => h.2.2.1 hguard)))

/-- What is recorded: the spans of the lock sites that are unconditional, in both maps, and those
    of the others that cannot reach the exit without a release. -/
theorem analyzeIntraProcedualLock_spec (P : LockModule F I) :
    ∃ s, Stops (analyzeIntraProcedualLock P) s ∧ ∀ l x,
      (x ∈ s.ciLocktoSpan l ↔ l ∈ P.locksites ∧ Unconditional P l ∧ P.InSpan l x) ∧
      (l ∈ s.instCILocksMap x ↔ x ∈ s.ciLocktoSpan l) ∧
      (l ∈ s.instTocondCILocksMap x ↔
        l ∈ P.locksites ∧ P.ExitReleased l ∧ ¬P.EndGuarded l ∧ P.InSpan l x) := by
  have hloop : ∀ (ls : List I), (∀ l ∈ ls, l ∈ P.insts) → ∀ s, ∃ s',
      Stops (fun fuel => ls.foldlM (analyzeLock P fuel) s) s' ∧
        Grows s (fun l x => l ∈ ls ∧ Unconditional P l ∧ P.InSpan l x)
          (fun l x => l ∈ ls ∧ P.ExitReleased l ∧ ¬P.EndGuarded l ∧ P.InSpan l x) s' := by
    intro ls
    induction ls with
    | nil => exact fun _ s => ⟨s, ⟨0, fun _ _ => rfl⟩, grows_none (by simp) (by simp)⟩
    | cons L ls ih =>
      intro hls s
      obtain ⟨add, ⟨m, hm⟩, hadd⟩ := analyzeLock_grows (hls L mem_cons_self)
      obtain ⟨s', ⟨n, hn⟩, hgrows⟩ := ih (forall_mem_cons.mp hls).2 (add s)
      refine ⟨s', ⟨m + n, fun fuel hf => ?_⟩, (hadd s).trans hgrows ?_ ?_⟩
      · show (L :: ls).foldlM (analyzeLock P fuel) s = some s'
        rw [foldlM_cons, hm fuel (by omega) s]
        exact hn fuel (by omega)
      · intro l x
        rw [mem_cons, or_and_right]
        refine or_congr_left (and_congr_right ?_)
        rintro rfl
        rfl
      · intro l x
        rw [mem_cons, or_and_right]
        refine or_congr_left (and_congr_right ?_)
        rintro rfl
        rfl
  obtain ⟨s, hs, hgrows⟩ := hloop P.locksites P.lock_mem IntraLocks.new
  refine ⟨s, hs, ?_⟩
  intro l x
  have hnone : ∀ y : I, y ∉ ([] : List I) := fun y => not_mem_nil
  refine ⟨?_, ?_, ?_⟩
  · exact (hgrows.span l x).trans (or_iff_right (hnone x))
  · exact ((hgrows.locks l x).trans (or_iff_right (hnone l))).trans
      ((hgrows.span l x).trans (or_iff_right (hnone x))).symm
  · exact (hgrows.cond l x).trans (or_iff_right (hnone l))

-- ── Protected instructions

/-- The path passes an acquire, and from the last one on no release before its end. -/
def Held (P : LockModule F I) (L : I) (p : List I) : Prop :=
  ∃ ρ a σ, p = ρ ++ a :: σ ∧ P.Acquires L a ∧ ∀ y ∈ σ.dropLast, ¬P.Releases L y

section

omit [DecidableEq I]

theorem held_cons {a : I} {p : List I} (h : Held P L p) : Held P L (a :: p) := by
  obtain ⟨ρ, b, σ, rfl, hacq, hfree⟩ := h
  exact ⟨a :: ρ, b, σ, rfl, hacq, hfree⟩

/-- A path on which the lock is not held at the end has a release with no acquire after it, or
    neither of them. -/
theorem walk_cases {a x : I} {p : List I} (hp : Walk P.Edge a x p) : Held P L p ∨
      (∃ r y, ReflTransGen P.Edge a r ∧ P.Releases L r ∧ P.Edge r y ∧ ¬P.Acquires L y ∧
        P.AcquireFree L y x) ∨
      (¬P.Acquires L a ∧ P.AcquireFree L a x ∧ ∀ y ∈ p.dropLast, ¬P.Releases L y) := by
  induction hp with
  | single a =>
    by_cases hacq : P.Acquires L a
    · exact .inl ⟨[], a, [], rfl, hacq, by simp⟩
    · exact .inr (.inr ⟨hacq, .refl, by simp⟩)
  | cons hE hW ih =>
    rename_i a b x p
    rcases ih with ih | ⟨r, y, hreach, hrel, hry, hy, hfree⟩ | ⟨hb, hfree, hquiet⟩
    · exact .inl (held_cons ih)
    · exact .inr (.inl ⟨r, y, .head hE hreach, hrel, hry, hy, hfree⟩)
    · by_cases hrel : P.Releases L a
      · exact .inr (.inl ⟨a, b, .refl, hrel, hE, hb, hfree⟩)
      · by_cases hacq : P.Acquires L a
        · exact .inl ⟨[], a, p, rfl, hacq, hquiet⟩
        · refine .inr (.inr ⟨hacq, .head ⟨hE, hb⟩ hfree, ?_⟩)
          rw [dropLast_cons_of_ne_nil (ne_nil_of_mem hW.first_mem), forall_mem_cons]
          exact ⟨hrel, hquiet⟩

theorem acquireFree_walk {a x : I} (h : P.AcquireFree L a x) (ha : ¬P.Acquires L a) :
    ∃ p, Walk P.Edge a x p ∧ ∀ y ∈ p, ¬P.Acquires L y := by
  induction h using ReflTransGen.head_induction_on with
  | refl => exact ⟨[x], .single x, by simpa using ha⟩
  | head hstep _ ih =>
    obtain ⟨p, hp, hfree⟩ := ih hstep.2
    exact ⟨_ :: p, .cons hstep.1 hp, forall_mem_cons.mpr ⟨ha, hfree⟩⟩

/-- After a release at the end of `p` and no acquire in `q` the lock is not held. -/
theorem not_held_append {p q : List I} {r : I} (hlast : p.getLast? = some r)
    (hrel : P.Releases L r) (hqne : q ≠ []) (hnone : ∀ y ∈ q, ¬P.Acquires L y) :
    ¬Held P L (p ++ q) := by
  rintro ⟨ρ, a, σ, hsplit, hacq, hquiet⟩
  rcases append_eq_append_iff.mp hsplit with ⟨τ, rfl, hτ⟩ | ⟨τ, rfl, hτ⟩
  · have ha : a ∈ q := hτ ▸ mem_append_right τ mem_cons_self
    exact hnone a ha hacq
  · cases τ with
    | nil =>
      have ha : a ∈ q := by
        rw [nil_append] at hτ
        exact hτ ▸ mem_cons_self
      exact hnone a ha hacq
    | cons b τ =>
      -- the acquire is on the way to the release, and is not the release
      rw [cons_append, List.cons.injEq] at hτ
      obtain ⟨rfl, rfl⟩ := hτ
      rw [getLast?_append_cons] at hlast
      cases τ with
      | nil =>
        rw [getLast?_singleton, Option.some_inj] at hlast
        subst hlast
        exact absurd hrel.1 (by rw [P.exclusive a hacq.1]; simp)
      | cons b' τ =>
        refine hquiet r ?_ hrel
        rw [dropLast_append_of_ne_nil hqne]
        refine mem_append_left _ (mem_of_getLast? ?_)
        rw [← hlast, getLast?_cons_cons]

theorem not_protected_iff (x : I) : ¬P.Protected L x ↔ P.Unheld L x := by
  constructor
  · intro h
    unfold LockModule.Protected at h
    push Not at h
    obtain ⟨p, hp, hnot⟩ := h
    rcases walk_cases hp with ⟨ρ, a, σ, rfl, hacq, hfree⟩ | hrel | ⟨ha, hfree, _⟩
    · obtain ⟨y, hy, hyrel⟩ := hnot ρ a σ rfl hacq
      exact absurd hyrel (hfree y hy)
    · exact .inr hrel
    · exact .inl ⟨ha, hfree⟩
  · rintro (⟨hfirst, hfree⟩ | ⟨r, y, hreach, hrel, hry, hy, hfree⟩) hprot
    · obtain ⟨p, hp, hnone⟩ := acquireFree_walk hfree hfirst
      obtain ⟨ρ, a, σ, rfl, hacq, _⟩ := hprot p hp
      exact hnone a (mem_append_right ρ mem_cons_self) hacq
    · obtain ⟨p, hp⟩ := Walk.of_reach hreach
      obtain ⟨q, hq, hnone⟩ := acquireFree_walk hfree hy
      exact not_held_append hp.getLast?_eq hrel (ne_nil_of_mem hq.first_mem) hnone
        (hprot (p ++ q) (hp.append hry hq))

end

-- ── The entry block

section

omit [DecidableEq I]

theorem entry_walk {f : F} : ∀ {a x : I} {p : List I}, Walk P.Edge a x p →
    ∀ ρ C, P.getEntryBlock f = ρ ++ a :: C → p <+: a :: C ∨ a :: C <+: p := by
  intro a x p hp
  induction hp with
  | single a => exact fun ρ C _ => .inl ⟨C, rfl⟩
  | cons hE hW ih =>
    rename_i a b x p
    intro ρ C hC
    cases C with
    | nil => exact .inr ⟨p, rfl⟩
    | cons c C =>
      have hinfix : [a, c] <:+: P.getEntryBlock f := ⟨ρ, C, by rw [hC]; simp⟩
      obtain rfl := (P.entry_next f a c hinfix b).mp hE
      rcases ih (ρ ++ [a]) C (by rw [hC]; simp) with h | h
      · exact .inl (prefix_cons_inj a |>.mpr h)
      · exact .inr (prefix_cons_inj a |>.mpr h)

theorem entry_before {f : F} {a b : I} (h : ReflTransGen P.Edge a b) : ∀ p,
    p ++ [b] <+: P.getEntryBlock f → a ∈ p ++ [b] := by
  induction h with
  | refl => exact fun p _ => mem_append_right p mem_cons_self
  | tail hreach hstep ih =>
    rename_i c b
    intro p hp
    rcases eq_nil_or_concat p with rfl | ⟨q, d, rfl⟩
    · have hhead : (P.getEntryBlock f).head (P.entry_ne f) = b := by
        obtain ⟨rest, hrest⟩ := hp
        simp only [← hrest]
        rfl
      exact absurd hstep (hhead ▸ P.entry_first f c)
    · have hinfix : [d, b] <:+: P.getEntryBlock f := by
        obtain ⟨rest, hrest⟩ := hp
        exact ⟨q, rest, by rw [← hrest]; simp⟩
      obtain rfl := P.entry_prev f d b hinfix c hstep
      rw [concat_eq_append] at hp ⊢
      exact mem_append_left _ (ih q ((prefix_append _ _).trans hp))

theorem entry_reach {f : F} : ∀ (C : List I) (a : I) (ρ : List I), P.getEntryBlock f = ρ ++ a :: C →
      ∃ p, Walk P.Edge a ((a :: C).getLast (cons_ne_nil a C)) p ∧ p = a :: C := by
  intro C
  induction C with
  | nil => exact fun a _ _ => ⟨[a], .single a, rfl⟩
  | cons c C ih =>
    intro a ρ hC
    have hinfix : [a, c] <:+: P.getEntryBlock f := ⟨ρ, C, by rw [hC]; simp⟩
    obtain ⟨p, hp, rfl⟩ := ih c (ρ ++ [a]) (by rw [hC]; simp)
    rw [getLast_cons_cons]
    exact ⟨_, .cons ((P.entry_next f a c hinfix c).mpr rfl) hp, rfl⟩

theorem unlocksGuarded_of_entry (hL : L ∈ P.locksites)
    (h : ∃ a ∈ P.getEntryBlock (P.getFunction L), P.Acquires L a) : P.UnlocksGuarded L := by
  intro u hu p hp
  obtain ⟨a, ha, hacq⟩ := h
  obtain ⟨first, C, hC⟩ := exists_cons_of_ne_nil (P.entry_ne (P.getFunction L))
  have hfirst : P.firstInst L = first := by
    unfold LockModule.firstInst
    simp only [hC, head_cons]
  rw [hfirst] at hp
  rcases entry_walk hp [] C hC with hin | hthrough
  · -- the unlock is in the entry block, and so is the lock, before it
    rw [← hC] at hin
    have hlast := hp.getLast?_eq
    obtain ⟨q, rfl⟩ := getLast?_eq_some_iff.mp hlast
    have hreach : ReflTransGen P.Edge L u := ReflTransGen.mono (fun _ _ h => h.1) _ _ hu.1
    exact ⟨L, entry_before hreach q hin, P.lock_acq L hL, P.alias_equiv.refl L⟩
  · exact ⟨a, hthrough.subset (hC ▸ ha), hacq⟩

theorem guarded_iff (hL : L ∈ P.locksites) (h : ¬P.EndGuarded L) :
    P.UnlocksGuarded L ↔ ∃ a ∈ P.getEntryBlock (P.getFunction L), P.Acquires L a := by
  constructor
  · intro hguard
    unfold LockModule.EndGuarded at h
    push Not at h
    obtain ⟨u, hu, hfree⟩ := h
    obtain ⟨first, C, hC⟩ := exists_cons_of_ne_nil (P.entry_ne (P.getFunction L))
    have hfirst : P.firstInst L = first := by
      unfold LockModule.firstInst
      simp only [hC, head_cons]
    have hend : P.entryInst L = (first :: C).getLast (cons_ne_nil first C) := by
      unfold LockModule.entryInst
      simp only [hC]
    obtain ⟨p, hp, hpC⟩ := entry_reach C first [] hC
    rw [← hend] at hp
    rcases ReflTransGen.cases_head hfree with hsame | ⟨b, ⟨hE, hb⟩, hfree⟩
    · rw [hsame, ← hfirst] at hp
      obtain ⟨a, ha, hacq⟩ := hguard u hu p hp
      exact ⟨a, hC ▸ hpC ▸ ha, hacq⟩
    · obtain ⟨q, hq, hnone⟩ := acquireFree_walk hfree hb
      rw [← hfirst] at hp
      obtain ⟨a, ha, hacq⟩ := hguard u hu (p ++ q) (hp.append hE hq)
      rcases mem_append.mp ha with ha | ha
      · exact ⟨a, hC ▸ hpC ▸ ha, hacq⟩
      · exact absurd hacq (hnone a ha)
  · exact unlocksGuarded_of_entry hL

end

-- ── The spans recorded are the protected ones

/-- The spans recorded as unconditional are protected, and the locks that have to be recorded so
    are, exactly if `SpanCond` holds of every lock site. -/
theorem analyzeIntraProcedualLock_protects_iff (P : LockModule F I) :
    ∃ s, Stops (analyzeIntraProcedualLock P) s ∧ ∀ L ∈ P.locksites,
      (((∃ x, x ∈ s.ciLocktoSpan L) → ∀ x, P.InSpan L x → x ∈ s.ciLocktoSpan L ∧
            P.Protected L x) ∧
          (P.UnlocksGuarded L ∧ P.ExitReleased L → ∀ x, P.InSpan L x → x ∈ s.ciLocktoSpan L) ↔
        P.SpanCond L) := by
  obtain ⟨s, hs, hspec⟩ := analyzeIntraProcedualLock_spec P
  refine ⟨s, hs, ?_⟩
  intro L hL
  have hrec : ∀ x, x ∈ s.ciLocktoSpan L ↔ Unconditional P L ∧ P.InSpan L x :=
    fun x => (hspec L x).1.trans (and_iff_right hL)
  have hself : P.InSpan L L := .refl
  constructor
  · rintro ⟨hsafe, hcomplete⟩ hexit
    constructor
    · intro hentry
      by_contra hend
      have hguard := (guarded_iff hL hend).mpr hentry
      exact hend ((hrec L).mp (hcomplete ⟨hguard, hexit⟩ L hself)).1.2
    · intro hend x hx hunheld
      have hsome : ∃ x, x ∈ s.ciLocktoSpan L := ⟨L, (hrec L).mpr ⟨⟨hexit, hend⟩, hself⟩⟩
      exact (not_protected_iff x).mpr hunheld (hsafe hsome x hx).2
  · intro hcond
    constructor
    · rintro ⟨y, hy⟩ x hx
      have huncond := ((hrec y).mp hy).1
      refine ⟨(hrec x).mpr ⟨huncond, hx⟩, ?_⟩
      by_contra hprot
      exact (hcond huncond.1).2 huncond.2 x hx ((not_protected_iff x).mp hprot)
    · rintro ⟨hguard, hexit⟩ x hx
      have hend : P.EndGuarded L := by
        by_contra hend
        exact hend ((hcond hexit).1 ((guarded_iff hL hend).mp hguard))
      exact (hrec x).mpr ⟨⟨hexit, hend⟩, hx⟩

-- ── A lock taken in the entry block

/-- The instructions of a function that takes a lock, branches, releases it and returns. -/
inductive LockInst
  | lock
  | br
  | unlock
  | ret
  deriving DecidableEq

open LockInst

/-- The lock and the branch are the entry block. -/
def entryLock : LockModule Unit LockInst where
  insts := [lock, br, unlock, ret]
  getFunction := fun _ => ()
  getSuccInstructions := fun i =>
    match i with
    | lock => [br]
    | br => [unlock]
    | unlock => [ret]
    | ret => []
  getPredInstructions := fun i =>
    match i with
    | lock => []
    | br => [lock]
    | unlock => [br]
    | ret => [unlock]
  getEntryBlock := fun _ => [lock, br]
  exitInst := fun _ => ret
  isTDAcquire := fun i => i = lock
  isTDRelease := fun i => i = unlock
  isAliasedLocks := fun _ _ => true
  locksites := [lock]
  succ_mem := by decide +revert
  pred_mem := by decide +revert
  pred_iff := fun a b => by cases a <;> cases b <;> decide
  succ_fun := fun _ _ _ => rfl
  entry_ne := fun _ => cons_ne_nil lock [br]
  entry_next := by
    intro _ a b h c
    obtain ⟨ρ, σ, h⟩ := h
    match ρ, h with
    | [], h =>
      simp only [nil_append, cons_append, List.cons.injEq] at h
      obtain ⟨rfl, rfl, _⟩ := h
      exact mem_singleton
    | [_], h => simp at h
    | _ :: _ :: _, h => simp at h
  entry_prev := by
    intro _ a b h c hc
    obtain ⟨ρ, σ, h⟩ := h
    match ρ, h with
    | [], h =>
      simp only [nil_append, cons_append, List.cons.injEq] at h
      obtain ⟨rfl, rfl, _⟩ := h
      cases c <;> first | rfl | exact absurd hc (by decide)
    | [_], h => simp at h
    | _ :: _ :: _, h => simp at h
  entry_first := fun _ a => by cases a <;> decide
  lock_mem := by decide
  lock_acq := by decide
  exclusive := fun i => by cases i <;> decide
  alias_equiv := ⟨fun _ => rfl, fun _ => rfl, fun _ _ => rfl⟩

/-- It is released on every way, and taken before the release, but its span is not recorded as
    unconditional. -/
theorem analyzeIntraProcedualLock_entryLock :
    ∃ s, Stops (analyzeIntraProcedualLock entryLock) s ∧ lock ∈ entryLock.locksites ∧
      entryLock.UnlocksGuarded lock ∧ entryLock.ExitReleased lock ∧
      ¬∀ x, entryLock.InSpan lock x → x ∈ s.ciLocktoSpan lock := by
  obtain ⟨s, hs, hspec⟩ := analyzeIntraProcedualLock_spec entryLock
  have hsite : lock ∈ entryLock.locksites := mem_singleton.mpr rfl
  have hrel : entryLock.Releases lock unlock := ⟨rfl, rfl⟩
  refine ⟨s, hs, hsite, ?_, ?_, ?_⟩
  · exact unlocksGuarded_of_entry hsite ⟨lock, mem_cons_self, rfl, rfl⟩
  · rw [exitReleased_iff]
    intro hspan
    rcases ReflTransGen.cases_tail hspan with h | ⟨i, _, hE, hi⟩
    · cases h
    · cases i with
      | lock => exact absurd (show ret ∈ [br] from hE) (by decide)
      | br => exact absurd (show ret ∈ [unlock] from hE) (by decide)
      | unlock => exact hi hrel
      | ret => exact absurd (show ret ∈ [] from hE) not_mem_nil
  · intro hall
    have hguard := ((hspec lock lock).1.mp (hall lock .refl)).2.1.2
    have hfirst : entryLock.Edge lock br ∧ ¬entryLock.Releases lock lock :=
      ⟨mem_singleton.mpr rfl, fun h => absurd h.1 (by decide)⟩
    have hsecond : entryLock.Edge br unlock ∧ ¬entryLock.Releases lock br :=
      ⟨mem_singleton.mpr rfl, fun h => absurd h.1 (by decide)⟩
    refine hguard unlock ⟨.tail (.single hfirst) hsecond, hrel⟩ ?_
    exact .single ⟨hsecond.1, fun h => absurd h.1 (by decide)⟩

end SvfIntraLock
