import SvfModel.PtsCacheProofs

/-!
# The persistent and the mutable points-to stores are observationally equal

`PersistentPTData` gives every key an id of a shared `PersistentPointsToCache`;
`MutablePTData` gives every key a set it updates in place. Both keep reverse points-to
sets when constructed with `reversePT`.

The purpose of either is the same: a map from keys to sets, each operation changing the
set of one key and saying whether it changed. `absStep` is that machine. Both stores
refine it call by call (`persStep_ok`, `mutStep_refines`), through the relation that every
key denotes its set and that the reverse map is the converse relation; so they agree with
each other on every run (`pers_mut_observationally_equal`).
-/

set_option linter.unusedSectionVars false

namespace SvfPtsStore

open SvfPts SvfHashCons SvfRun SvfPtsCache SvfPtsCache.PersistentPointsToCache Option Set
open Function (update update_eq_self update_of_ne update_self)
open SetDataSet (den_empty den_set unionWith_snd)
open Std.HashMap (getD_insert)

variable {Key α D : Type} [DecidableEq Key] [Hashable Key] [DecidableEq α] [Hashable α]
  [DataSet D α]

/-- `RevPtsMap`. A default binding made by `operator[]` reads as an absent one, so reads
    are `getD` and only assignments are recorded; the same holds for `ptsMap` below. -/
abbrev RevPtsMap (Key α : Type) [DecidableEq Key] [DecidableEq α] [Hashable α] :=
  Std.HashMap α (Finset Key)

def insertKeyAll (m : RevPtsMap Key α) (pts : List α) (key : Key) : RevPtsMap Key α :=
  pts.foldl (fun m d => m.insert d (insert key (m.getD d ∅))) m

def removeKeyAll (m : RevPtsMap Key α) (pts : List α) (key : Key) : RevPtsMap Key α :=
  pts.foldl (fun m d => m.insert d ((m.getD d ∅).erase key)) m

-- ── The persistent store

structure PersistentPTData (Key α D : Type) [DecidableEq Key] [Hashable Key]
    [DecidableEq α] [Hashable α] [DataSet D α] where
  rev : Bool
  ptCache : PersistentPointsToCache D
  ptsMap : Std.HashMap Key PointsToID
  revPtsMap : RevPtsMap Key α

namespace PersistentPTData

/-- The constructor, over a cache that may already hold sets. -/
def init (cache : PersistentPointsToCache D) (reversePT : Bool) : PersistentPTData Key α D where
  rev := reversePT
  ptCache := cache
  ptsMap := ∅
  revPtsMap := ∅

section

variable (p : PersistentPTData Key α D)

def getPts (var : Key) : Except PtsError D :=
  p.ptCache.getActualPts (p.ptsMap.getD var emptyPointsToId)

/-- `getRevPts`; `none` is its assertion that the store was built with reverse support. -/
def getRevPts (data : α) : Option (Finset Key) :=
  if p.rev then some (p.revPtsMap.getD data ∅) else none

def unionPtsFromId (dstKey : Key) (srcId : PointsToID) :
    Except PtsError (Bool × PersistentPTData Key α D) := do
  let dstId := p.ptsMap.getD dstKey emptyPointsToId
  let (newDstId, ptCache) ← p.ptCache.unionPts dstId srcId
  let changed := decide (newDstId ≠ dstId)
  if changed then
    let p := { p with ptCache := ptCache, ptsMap := p.ptsMap.insert dstKey newDstId }
    -- the reverse sets change only when dst's own set has
    if p.rev then
      let srcPts ← p.ptCache.getActualPts srcId
      return (changed, { p with
        revPtsMap := insertKeyAll p.revPtsMap (DataSet.elems srcPts) dstKey })
    else return (changed, p)
  else return (changed, { p with ptCache := ptCache })

def addPts (dstKey : Key) (element : α) : Except PtsError (Bool × PersistentPTData Key α D) := do
  let srcPts := DataSet.set (DataSet.empty : D) element
  let (srcId, ptCache) ← p.ptCache.emplacePts srcPts
  unionPtsFromId { p with ptCache := ptCache } dstKey srcId

def unionPts (dstKey srcKey : Key) : Except PtsError (Bool × PersistentPTData Key α D) :=
  let srcId := p.ptsMap.getD srcKey emptyPointsToId
  p.unionPtsFromId dstKey srcId

def unionPtsData (dstKey : Key) (srcData : D) :
    Except PtsError (Bool × PersistentPTData Key α D) := do
  let (srcId, ptCache) ← p.ptCache.emplacePts srcData
  unionPtsFromId { p with ptCache := ptCache } dstKey srcId

def clearRevPts (pts : List α) (k : Key) : PersistentPTData Key α D :=
  if p.rev then { p with revPtsMap := removeKeyAll p.revPtsMap pts k } else p

def clearPts (var : Key) (element : α) : Except PtsError (PersistentPTData Key α D) := do
  let toRemoveData := DataSet.set (DataSet.empty : D) element
  let (toRemoveId, ptCache) ← p.ptCache.emplacePts toRemoveData
  let varId := p.ptsMap.getD var emptyPointsToId
  let (complementId, ptCache) ← ptCache.complementPts varId toRemoveId
  if varId ≠ complementId then
    let p := { p with ptCache := ptCache, ptsMap := p.ptsMap.insert var complementId }
    return p.clearRevPts [element] var
  else return { p with ptCache := ptCache }

def clearFullPts (var : Key) : Except PtsError (PersistentPTData Key α D) := do
  let pts ← p.getPts var
  let p := p.clearRevPts (DataSet.elems pts) var
  return { p with ptsMap := p.ptsMap.insert var emptyPointsToId }

end

end PersistentPTData

-- ── The mutable store

structure MutablePTData (Key α D : Type) [DecidableEq Key] [Hashable Key]
    [DecidableEq α] [Hashable α] [DataSet D α] where
  rev : Bool
  ptsMap : Std.HashMap Key D
  revPtsMap : RevPtsMap Key α

namespace MutablePTData

def init (reversePT : Bool) : MutablePTData Key α D where
  rev := reversePT
  ptsMap := ∅
  revPtsMap := ∅

section

variable (m : MutablePTData Key α D)

def getPts (var : Key) : D := m.ptsMap.getD var DataSet.empty

def getRevPts (datum : α) : Option (Finset Key) :=
  if m.rev then some (m.revPtsMap.getD datum ∅) else none

def addRevPts (ptsData : List α) (tgr : Key) : MutablePTData Key α D :=
  if m.rev then { m with revPtsMap := insertKeyAll m.revPtsMap ptsData tgr } else m

def clearRevPts (pts : List α) (k : Key) : MutablePTData Key α D :=
  if m.rev then { m with revPtsMap := removeKeyAll m.revPtsMap pts k } else m

def addPts (dstKey : Key) (element : α) : Bool × MutablePTData Key α D :=
  let m := m.addRevPts [element] dstKey
  let (changed, d) := DataSet.testAndSet (m.getPts dstKey) element
  (changed, { m with ptsMap := m.ptsMap.insert dstKey d })

def unionPtsData (dstKey : Key) (srcDataSet : D) : Bool × MutablePTData Key α D :=
  let m := m.addRevPts (DataSet.elems srcDataSet) dstKey
  let (changed, d) := DataSet.unionWith (m.getPts dstKey) srcDataSet
  (changed, { m with ptsMap := m.ptsMap.insert dstKey d })

def unionPts (dstKey srcKey : Key) : Bool × MutablePTData Key α D :=
  let m := m.addRevPts (DataSet.elems (m.getPts srcKey)) dstKey
  let (changed, d) := DataSet.unionWith (m.getPts dstKey) (m.getPts srcKey)
  (changed, { m with ptsMap := m.ptsMap.insert dstKey d })

def clearPts (var : Key) (element : α) : MutablePTData Key α D :=
  let m := m.clearRevPts [element] var
  { m with ptsMap := m.ptsMap.insert var (DataSet.reset (m.getPts var) element) }

def clearFullPts (var : Key) : MutablePTData Key α D :=
  let m := m.clearRevPts (DataSet.elems (m.getPts var)) var
  { m with ptsMap := m.ptsMap.insert var DataSet.empty }

end

end MutablePTData

-- ── Calls, and the machine both stores are for

inductive PtsCall (Key α D : Type) where
  | addPts (dstKey : Key) (element : α)
  | unionPts (dstKey srcKey : Key)
  | unionPtsData (dstKey : Key) (srcData : D)
  | clearPts (var : Key) (element : α)
  | clearFullPts (var : Key)

/-- One call on the persistent store; the output is the returned flag, if the call
    returns one. -/
def persStep (p : PersistentPTData Key α D) :
    PtsCall Key α D → Except PtsError (Option Bool × PersistentPTData Key α D)
  | .addPts dstKey element => (p.addPts dstKey element).map fun r => (some r.1, r.2)
  | .unionPts dstKey srcKey => (p.unionPts dstKey srcKey).map fun r => (some r.1, r.2)
  | .unionPtsData dstKey srcData => (p.unionPtsData dstKey srcData).map fun r => (some r.1, r.2)
  | .clearPts var element => (p.clearPts var element).map fun p => (none, p)
  | .clearFullPts var => (p.clearFullPts var).map fun p => (none, p)

def mutStep (m : MutablePTData Key α D) : PtsCall Key α D → Option Bool × MutablePTData Key α D
  | .addPts dstKey element => ((m.addPts dstKey element).map some id)
  | .unionPts dstKey srcKey => ((m.unionPts dstKey srcKey).map some id)
  | .unionPtsData dstKey srcData => ((m.unionPtsData dstKey srcData).map some id)
  | .clearPts var element => (none, m.clearPts var element)
  | .clearFullPts var => (none, m.clearFullPts var)

open Classical in
/-- The abstract store: a set for every key. -/
noncomputable def absUnion (f : Key → Set α) (k : Key) (S : Set α) : Option Bool × (Key → Set α) :=
  (some (decide (¬ S ⊆ f k)), update f k (f k ∪ S))

open Classical in
theorem some_eq_absUnion {f : Key → Set α} {k : Key} {S : Set α} {b : Bool}
    (h : b ↔ ¬ S ⊆ f k) : some b = (absUnion f k S).1 := by
  show some b = some _
  rw [some_inj, Bool.eq_iff_iff, h, decide_eq_true_iff]

/-- One call on the abstract store. -/
noncomputable def absStep (f : Key → Set α) : PtsCall Key α D → Option Bool × (Key → Set α)
  | .addPts dstKey element => absUnion f dstKey {element}
  | .unionPts dstKey srcKey => absUnion f dstKey (f srcKey)
  | .unionPtsData dstKey srcData => absUnion f dstKey (den srcData)
  | .clearPts var element => (none, update f var (f var \ {element}))
  | .clearFullPts var => (none, update f var ∅)

/-! ## The reverse maps -/

theorem mem_insertKeyAll (pts : List α) (key k : Key) (d : α) :
    ∀ m : RevPtsMap Key α, k ∈ (insertKeyAll m pts key).getD d ∅ ↔
      k ∈ m.getD d ∅ ∨ (k = key ∧ d ∈ pts) := by
  induction pts with
  | nil => intro m; simp [insertKeyAll]
  | cons x xs ih =>
    intro m
    have hstep : insertKeyAll m (x :: xs) key
        = insertKeyAll (m.insert x (insert key (m.getD x ∅))) xs key := rfl
    rw [hstep, ih, getD_insert, List.mem_cons]
    by_cases hx : x = d
    · subst hx
      simp only [beq_self_eq_true, if_true, Finset.mem_insert, true_or, and_true]
      tauto
    · have hne : ¬ d = x := fun h => hx h.symm
      simp only [beq_iff_eq, hx, hne, if_false, false_or]

theorem mem_removeKeyAll (pts : List α) (key k : Key) (d : α) :
    ∀ m : RevPtsMap Key α, k ∈ (removeKeyAll m pts key).getD d ∅ ↔
      k ∈ m.getD d ∅ ∧ ¬ (k = key ∧ d ∈ pts) := by
  induction pts with
  | nil => intro m; simp [removeKeyAll]
  | cons x xs ih =>
    intro m
    have hstep : removeKeyAll m (x :: xs) key
        = removeKeyAll (m.insert x ((m.getD x ∅).erase key)) xs key := rfl
    rw [hstep, ih, getD_insert, List.mem_cons]
    by_cases hx : x = d
    · subst hx
      simp only [beq_self_eq_true, if_true, Finset.mem_erase, true_or, and_true]
      tauto
    · have hne : ¬ d = x := fun h => hx h.symm
      simp only [beq_iff_eq, hx, hne, if_false, false_or]

/-- The reverse map of a store is the converse of its points-to relation. -/
def RevOf (rev : Bool) (m : RevPtsMap Key α) (f : Key → Set α) : Prop :=
  rev = true → ∀ (d : α) (k : Key), k ∈ m.getD d ∅ ↔ d ∈ f k

section

variable {rev : Bool} {m : RevPtsMap Key α} {f : Key → Set α} {pts : List α} {S : Set α}
  (h : RevOf rev m f) (hS : ∀ d, d ∈ pts ↔ d ∈ S) (key : Key)
include h hS

/-- Adding `S` to the set of `key`, and `key` to the reverse sets of `S`. -/
theorem RevOf.insert :
    RevOf rev (if rev then insertKeyAll m pts key else m) (update f key (f key ∪ S)) := by
  intro hrev d k
  rw [if_pos hrev, mem_insertKeyAll, h hrev, hS]
  by_cases hk : k = key
  · subst hk
    rw [update_self, mem_union]
    tauto
  · rw [update_of_ne hk]
    tauto

/-- Removing `S` from the set of `key`, and `key` from the reverse sets of `S`. -/
theorem RevOf.remove :
    RevOf rev (if rev then removeKeyAll m pts key else m) (update f key (f key \ S)) := by
  intro hrev d k
  rw [if_pos hrev, mem_removeKeyAll, h hrev, hS]
  by_cases hk : k = key
  · subst hk
    rw [update_self, mem_sdiff]
    tauto
  · rw [update_of_ne hk]
    tauto

end

/-! ## The mutable store refines the abstract one -/

structure MutRep (m : MutablePTData Key α D) (f : Key → Set α) : Prop where
  pts : ∀ k, den (m.getPts k) = f k
  rev : RevOf m.rev m.revPtsMap f

section Mutable

variable [SetDataSet D]

theorem mutRep_init (reversePT : Bool) :
    MutRep (MutablePTData.init reversePT : MutablePTData Key α D) (fun _ => ∅) := by
  constructor
  · intro k
    simp [MutablePTData.getPts, MutablePTData.init]
  · intro _ d k
    simp [MutablePTData.init]

/-- Rebinding one key of `ptsMap` updates the abstract store at that key. -/
theorem den_getD_insert (m : Std.HashMap Key D) (f : Key → Set α) (key : Key) (d : D)
    (h : ∀ k, den (m.getD k DataSet.empty) = f k) (k : Key) :
    den ((m.insert key d).getD k DataSet.empty) = update f key (den d) k := by
  rw [getD_insert]
  by_cases hk : key = k
  · subst hk
    rw [if_pos (beq_self_eq_true _), update_self]
  · rw [if_neg (by simpa using hk), update_of_ne (fun h => hk h.symm), h]

@[simp] theorem getPts_addRevPts (m : MutablePTData Key α D) (pts : List α) (key k : Key) :
    (m.addRevPts pts key).getPts k = m.getPts k := by
  unfold MutablePTData.addRevPts
  cases m.rev <;> rfl

@[simp] theorem getPts_clearRevPts (m : MutablePTData Key α D) (pts : List α) (key k : Key) :
    (m.clearRevPts pts key).getPts k = m.getPts k := by
  unfold MutablePTData.clearRevPts
  cases m.rev <;> rfl

section

variable {m : MutablePTData Key α D} {f : Key → Set α} {pts : List α} {S : Set α} {d : D}
  (h : MutRep m f) (hS : ∀ x, x ∈ pts ↔ x ∈ S) (key : Key)
include h hS

theorem MutRep.insert (hd : den d = f key ∪ S) :
    MutRep { m.addRevPts pts key with ptsMap := (m.addRevPts pts key).ptsMap.insert key d }
      (update f key (f key ∪ S)) := by
  constructor
  · intro k
    rw [← hd]
    refine den_getD_insert _ f key d (fun k => ?_) k
    exact (congrArg den (getPts_addRevPts m pts key k)).trans (h.pts k)
  · have hr := h.rev.insert hS key
    show RevOf (m.addRevPts pts key).rev (m.addRevPts pts key).revPtsMap _
    unfold MutablePTData.addRevPts
    cases hrev : m.rev with
    | false => exact fun hr' => absurd (hrev.symm.trans hr') (by decide)
    | true =>
      rw [hrev, if_pos rfl] at hr
      exact fun _ => hr rfl

theorem MutRep.remove (hd : den d = f key \ S) :
    MutRep { m.clearRevPts pts key with ptsMap := (m.clearRevPts pts key).ptsMap.insert key d }
      (update f key (f key \ S)) := by
  constructor
  · intro k
    rw [← hd]
    refine den_getD_insert _ f key d (fun k => ?_) k
    exact (congrArg den (getPts_clearRevPts m pts key k)).trans (h.pts k)
  · have hr := h.rev.remove hS key
    show RevOf (m.clearRevPts pts key).rev (m.clearRevPts pts key).revPtsMap _
    unfold MutablePTData.clearRevPts
    cases hrev : m.rev with
    | false => exact fun hr' => absurd (hrev.symm.trans hr') (by decide)
    | true =>
      rw [hrev, if_pos rfl] at hr
      exact fun _ => hr rfl

end

def TellsChange (dst src : D) : Prop := (DataSet.unionWith dst src).1 = true ↔ ¬ den src ⊆ den dst

/-- The operands of a call's `|=`, if it has one, are such that it tells whether it changes
    anything. -/
def MutablePTData.CallTells (m : MutablePTData Key α D) : PtsCall Key α D → Prop
  | .unionPts dstKey srcKey => TellsChange (m.getPts dstKey) (m.getPts srcKey)
  | .unionPtsData dstKey srcData => TellsChange (m.getPts dstKey) srcData
  | _ => True

/-- **The mutable store refines the abstract store**, call by call. -/
theorem mutStep_refines {m : MutablePTData Key α D} {f : Key → Set α} (h : MutRep m f)
    (call : PtsCall Key α D) :
    (m.CallTells call → (mutStep m call).1 = (absStep f call).1) ∧
      MutRep (mutStep m call).2 (absStep f call).2 := by
  cases call with
  | addPts dstKey element =>
    constructor
    · intro _
      show some (DataSet.testAndSet ((m.addRevPts [element] dstKey).getPts dstKey) element).1
        = (absUnion f dstKey {element}).1
      refine some_eq_absUnion ?_
      rw [getPts_addRevPts, SetDataSet.testAndSet_fst, h.pts, singleton_subset_iff]
    · refine h.insert (S := {element}) (by simp) dstKey ?_
      show den (DataSet.testAndSet ((m.addRevPts [element] dstKey).getPts dstKey) element).2 = _
      rw [SetDataSet.testAndSet_snd, getPts_addRevPts, h.pts, union_singleton]
  | unionPts dstKey srcKey =>
    have hsrc : ∀ x, x ∈ DataSet.elems (m.getPts srcKey) ↔ x ∈ f srcKey := by
      intro x
      rw [← h.pts srcKey]; exact .rfl
    constructor
    · intro htells
      show some (DataSet.unionWith ((m.addRevPts _ dstKey).getPts dstKey)
        ((m.addRevPts _ dstKey).getPts srcKey)).1 = (absUnion f dstKey (f srcKey)).1
      refine some_eq_absUnion ?_
      rw [getPts_addRevPts, getPts_addRevPts, ← h.pts, ← h.pts]
      exact htells
    · refine h.insert hsrc dstKey ?_
      show den (DataSet.unionWith ((m.addRevPts _ dstKey).getPts dstKey)
        ((m.addRevPts _ dstKey).getPts srcKey)).2 = _
      rw [unionWith_snd, getPts_addRevPts, getPts_addRevPts, h.pts, h.pts]
  | unionPtsData dstKey srcData =>
    constructor
    · intro htells
      show some (DataSet.unionWith ((m.addRevPts _ dstKey).getPts dstKey) srcData).1
        = (absUnion f dstKey (den srcData)).1
      refine some_eq_absUnion ?_
      rw [getPts_addRevPts, ← h.pts]
      exact htells
    · refine h.insert (S := den srcData) (fun x => .rfl) dstKey ?_
      show den (DataSet.unionWith ((m.addRevPts _ dstKey).getPts dstKey) srcData).2 = _
      rw [unionWith_snd, getPts_addRevPts, h.pts]
  | clearPts var element =>
    refine ⟨fun _ => rfl, h.remove (S := {element}) (by simp) var ?_⟩
    rw [SetDataSet.den_reset, getPts_clearRevPts, h.pts]
  | clearFullPts var =>
    refine ⟨fun _ => rfl, ?_⟩
    have hself : (f var \ f var) = ∅ := Set.sdiff_self
    show MutRep _ (update f var ∅)
    rw [← hself]
    refine h.remove (fun x => ?_) var ?_
    · rw [← h.pts var]; exact .rfl
    · rw [den_empty, hself]

end Mutable

/-! ## The persistent store refines the abstract one -/

structure PersRep (p : PersistentPTData Key α D) (f : Key → Set α) : Prop where
  inv : p.ptCache.Inv
  pts : ∀ k, p.ptCache.denOf (p.ptsMap.getD k emptyPointsToId) = some (f k)
  rev : RevOf p.rev p.revPtsMap f

/-- What a successful call does: the store stands for `f`, its cache has grown by at most
    `n` sets, it still has the flag it was constructed with, and no id has changed its meaning. -/
structure PersGrows (p p' : PersistentPTData Key α D) (f : Key → Set α) (n : Nat) :
    Prop where
  rep : PersRep p' f
  size : p'.ptCache.idToPts.size ≤ p.ptCache.idToPts.size + n
  flag : p'.rev = p.rev
  keeps : Keeps p.ptCache.denOf p'.ptCache.denOf

section Persistent

variable {c : PersistentPointsToCache D} {S : Set α} {key : Key} {e : PtsError}

variable [SetDataSet D] {p p' : PersistentPTData Key α D} {f : Key → Set α}

theorem persRep_init (h : c.Inv) (reversePT : Bool) :
    PersRep (PersistentPTData.init c reversePT : PersistentPTData Key α D) (fun _ => ∅) := by
  refine ⟨h, fun k => ?_, fun _ d k => ?_⟩
  · show c.denOf ((∅ : Std.HashMap Key PointsToID).getD k emptyPointsToId) = some ∅
    rw [Std.HashMap.getD_empty]
    exact h.empty
  · simp [PersistentPTData.init]

theorem PersRep.grow (h : PersRep p f) (hg : Grows p.ptCache c)
    : PersRep { p with ptCache := c } f :=
  ⟨hg.inv, fun k => hg.keeps _ _ (h.pts k), h.rev⟩

/-- Rebinding one key to an id of `S` updates the abstract store at that key. -/
theorem denOf_getD_insert {m : Std.HashMap Key PointsToID}
    (h : ∀ k, c.denOf (m.getD k emptyPointsToId) = some (f k)) (key : Key) {id : PointsToID}
    (hid : c.denOf id = some S) (k : Key) :
    c.denOf ((m.insert key id).getD k emptyPointsToId) = some (update f key S k) := by
  rw [getD_insert]
  by_cases hk : key = k
  · subst hk
    rw [if_pos (beq_self_eq_true _), update_self]
    exact hid
  · rw [if_neg (by simpa using hk), update_of_ne (fun h => hk h.symm)]
    exact h k

/-- Two ids of one set are one id. -/
def Distinct (c : PersistentPointsToCache D) : Prop :=
  ∀ i j S, c.denOf i = some S → c.denOf j = some S → i = j

omit [SetDataSet D] in
theorem distinct_of_inv [LawfulDataSet D] (h : c.Inv) : Distinct c := (truthful_of_inv h).distinct

/-- `unionPtsFromId` fails when the union does: the source is stored. -/
theorem unionPtsFromId_fails {srcId : PointsToID} (hinv : p.ptCache.Inv)
    (hsrc : p.ptCache.denOf srcId = some S) (hu : p.unionPtsFromId key srcId = .error e) :
    p.ptCache.unionPts (p.ptsMap.getD key emptyPointsToId) srcId = .error e := by
  rcases bind_error.mp hu with hc | ⟨⟨newId, c⟩, hc, hu⟩
  · exact hc
  · -- after the union nothing fails: the source id is still stored
    obtain ⟨hg, -⟩ := unionPts_ok hinv hc
    simp only at hu
    split at hu
    · split at hu
      · rcases bind_error.mp hu with hd | ⟨d, -, hu⟩
        · have := (getActualPts_error hd).2.symm.trans (hg.keeps _ _ hsrc)
          cases this
        · cases hu
      · cases hu
    · cases hu

section

variable (h : PersRep p f)
include h

section

variable {srcId : PointsToID} (hsrc : p.ptCache.denOf srcId = some S)
include hsrc

/-- **`unionPtsFromId`** adds the set of a stored id to one key, and tells whether that changes
    it if no set has two ids then. -/
theorem unionPtsFromId_ok {b : Bool} (hu : p.unionPtsFromId key srcId = .ok (b, p')) :
    (Distinct p'.ptCache → some b = (absUnion f key S).1) ∧
      PersGrows p p' (absUnion f key S).2 1 := by
  obtain ⟨⟨newId, c⟩, hc, hu⟩ := bind_ok.mp hu
  obtain ⟨hg, hden⟩ := unionPts_ok h.inv hc
  have hnew : c.denOf newId = some (f key ∪ S) := hden _ _ (h.pts key) hsrc
  have hold : c.denOf (p.ptsMap.getD key emptyPointsToId) = some (f key) := hg.keeps _ _ (h.pts key)
  -- if the set changes then so does the id, and the converse if the id is the only one
  have hsub_of_eq : newId = p.ptsMap.getD key emptyPointsToId → S ⊆ f key := by
    intro heq
    rw [heq, hold] at hnew
    exact union_eq_left.mp (some.inj hnew).symm
  have hnew_of_ne : Distinct c → newId ≠ p.ptsMap.getD key emptyPointsToId → ¬ S ⊆ f key := by
    intro hdist hne hsub
    rw [union_eq_left.mpr hsub] at hnew
    exact hne (hdist _ _ _ hnew hold)
  simp only at hu
  by_cases hch : newId ≠ p.ptsMap.getD key emptyPointsToId
  · simp only [hch, decide_true, if_true, ne_eq, not_false_eq_true] at hu
    have hpts := fun k => denOf_getD_insert (fun k => hg.keeps _ _ (h.pts k)) key hnew k
    cases hrev : p.rev with
    | false =>
      simp only [hrev, Bool.false_eq_true, if_false] at hu
      cases hu
      refine ⟨fun hdist => some_eq_absUnion ⟨fun _ => hnew_of_ne hdist hch, fun _ => rfl⟩,
        ⟨hg.inv, hpts, ?_⟩, hg.size, hrev.symm, hg.keeps⟩
      exact nofun
    | true =>
      simp only [hrev, if_true] at hu
      obtain ⟨d, hd, hu⟩ := bind_ok.mp hu
      cases hu
      have hdS : den d = S := by
        have := (getActualPts_ok hd).symm.trans (hg.keeps _ _ hsrc)
        exact some.inj this
      refine ⟨fun hdist => some_eq_absUnion ⟨fun _ => hnew_of_ne hdist hch, fun _ => rfl⟩,
        ⟨hg.inv, hpts, ?_⟩, hg.size, hrev.symm, hg.keeps⟩
      have hmem : ∀ x, x ∈ DataSet.elems d ↔ x ∈ S := by
        intro x
        rw [← hdS]
        exact .rfl
      have hr := h.rev.insert hmem key
      rw [if_pos hrev] at hr
      exact fun _ => hr hrev
  · have hsub : S ⊆ f key := hsub_of_eq (not_not.mp hch)
    simp only [hch, decide_false, Bool.false_eq_true, if_false] at hu
    cases hu
    have hsame : (absUnion f key S).2 = f := by
      show update f key (f key ∪ S) = f
      rw [union_eq_left.mpr hsub, update_eq_self]
    rw [hsame]
    exact ⟨fun _ => some_eq_absUnion ⟨nofun, fun hn => absurd hsub hn⟩,
      h.grow hg, hg.size, rfl, hg.keeps⟩

/-- `unionPtsFromId` on a stored id only fails when the ids are exhausted. -/
theorem unionPtsFromId_error (hu : p.unionPtsFromId key srcId = .error e) :
    e = .idsExhausted ∧ p.ptCache.idToPts.size = idRange := by
  rcases unionPts_error h.inv (unionPtsFromId_fails h.inv hsrc hu) with ⟨-, hl | hr⟩ | hfull
  · rw [h.pts key] at hl; exact nomatch hl
  · rw [hsrc] at hr; exact nomatch hr
  · exact hfull

end

/-- Interning a set and adding it to one key: `addPts` and `unionPts` from data. -/
theorem emplaceUnion_ok {d : D} {b : Bool} (hu : (do
      let (srcId, ptCache) ← p.ptCache.emplacePts d
      PersistentPTData.unionPtsFromId { p with ptCache := ptCache } key srcId) = .ok (b, p')) :
    (Distinct p'.ptCache → some b = (absUnion f key (den d)).1) ∧
      PersGrows p p' (absUnion f key (den d)).2 2 := by
  obtain ⟨⟨srcId, c⟩, hc, hu⟩ := bind_ok.mp hu
  obtain ⟨hg, hid⟩ := emplacePts_ok h.inv hc
  obtain ⟨hb, hrep, hsz, hflag, hkeeps⟩ := unionPtsFromId_ok (h.grow hg) hid hu
  have := hg.size
  exact ⟨hb, hrep, le_trans hsz (by show c.idToPts.size + 1 ≤ _; omega), hflag,
    hg.keeps.trans hkeeps⟩

theorem emplaceUnion_error {d : D} (hu : (do
      let (srcId, ptCache) ← p.ptCache.emplacePts d
      PersistentPTData.unionPtsFromId { p with ptCache := ptCache } key srcId) = .error e) :
    e = .idsExhausted ∧ idRange ≤ p.ptCache.idToPts.size + 1 := by
  rcases bind_error.mp hu with hc | ⟨⟨srcId, c⟩, hc, hu⟩
  · obtain ⟨he, hfull⟩ := emplacePts_error h.inv hc
    exact ⟨he, by omega⟩
  · obtain ⟨hg, hid⟩ := emplacePts_ok h.inv hc
    obtain ⟨he, hfull⟩ := unionPtsFromId_error (h.grow hg) hid hu
    have hsz := hg.size
    exact ⟨he, by rw [← hfull]; exact hsz⟩

theorem PersRep.clear {pts : List α} (hS : ∀ x, x ∈ pts ↔ x ∈ S) (var : Key)
    {id : PointsToID} (hid : p.ptCache.denOf id = some (f var \ S)) :
    PersRep { p.clearRevPts pts var with
      ptsMap := (p.clearRevPts pts var).ptsMap.insert var id }
      (update f var (f var \ S)) ∧
      (p.clearRevPts pts var).ptCache = p.ptCache ∧
      (p.clearRevPts pts var).rev = p.rev := by
  have hr := h.rev.remove hS var
  unfold PersistentPTData.clearRevPts
  cases hrev : p.rev with
  | false =>
    refine ⟨⟨h.inv, denOf_getD_insert h.pts var hid, ?_⟩, rfl, hrev⟩
    exact fun hr' => absurd (hrev.symm.trans hr') (by decide)
  | true =>
    rw [if_pos hrev] at hr
    exact ⟨⟨h.inv, denOf_getD_insert h.pts var hid, fun _ => hr hrev⟩, rfl, rfl⟩

/-- **`clearPts`** removes one element from one key. -/
theorem clearPts_ok {var : Key} {element : α} (hu : p.clearPts var element = .ok p') :
    PersGrows p p' (update f var (f var \ {element})) 2 := by
  obtain ⟨⟨rmId, c1⟩, hc1, hu⟩ := bind_ok.mp hu
  obtain ⟨⟨compId, c2⟩, hc2, hu⟩ := bind_ok.mp hu
  obtain ⟨hg1, hrm⟩ := emplacePts_ok h.inv hc1
  rw [den_set, den_empty, insert_empty_eq] at hrm
  obtain ⟨hg2, hden⟩ := complementPts_ok hg1.inv hc2
  have hcomp : c2.denOf compId = some (f var \ {element}) :=
    hden _ _ (hg1.keeps _ _ (h.pts var)) hrm
  have hrep2 : PersRep { p with ptCache := c2 } f := (h.grow hg1).grow hg2
  have hsz : c2.idToPts.size ≤ p.ptCache.idToPts.size + 2 := by
    have := hg1.size
    have := hg2.size
    omega
  have hkeeps : Keeps p.ptCache.denOf c2.denOf := hg1.keeps.trans hg2.keeps
  simp only at hu
  by_cases hch : p.ptsMap.getD var emptyPointsToId ≠ compId
  · rw [if_pos hch] at hu
    cases hu
    have hmem : ∀ x, x ∈ [element] ↔ x ∈ ({element} : Set α) := fun x => List.mem_singleton
    obtain ⟨hrep, -, -⟩ := hrep2.clear hmem var hcomp
    unfold PersistentPTData.clearRevPts at hrep ⊢
    cases hrev : p.rev <;> rw [hrev] at hrep <;> exact ⟨hrep, hsz, hrev.symm, hkeeps⟩
  · -- the id did not change, so the element was not there
    rw [if_neg hch] at hu
    cases hu
    have hsame : f var \ {element} = f var := by
      have hvar := hrep2.pts var
      rw [not_not.mp hch] at hvar
      exact mem_unique hcomp hvar
    rw [hsame, update_eq_self]
    exact ⟨hrep2, hsz, rfl, hkeeps⟩

theorem clearPts_error {var : Key} {element : α} (hu : p.clearPts var element = .error e) :
    e = .idsExhausted ∧ idRange ≤ p.ptCache.idToPts.size + 1 := by
  rcases bind_error.mp hu with hc | ⟨⟨rmId, c1⟩, hc1, hu⟩
  · obtain ⟨he, hfull⟩ := emplacePts_error h.inv hc
    exact ⟨he, by omega⟩
  · obtain ⟨hg1, hrm⟩ := emplacePts_ok h.inv hc1
    rcases bind_error.mp hu with hc | ⟨⟨compId, c2⟩, -, hu⟩
    · rcases complementPts_error hg1.inv hc with ⟨-, hl | hr⟩ | ⟨he, hfull⟩
      · rw [hg1.keeps _ _ (h.pts var)] at hl; exact nomatch hl
      · rw [hrm] at hr; exact nomatch hr
      · have hsz := hg1.size
        exact ⟨he, by rw [← hfull]; exact hsz⟩
    · simp only at hu
      split at hu <;> exact nomatch hu

/-- **`clearFullPts`** empties one key, and never fails. -/
theorem clearFullPts_spec (var : Key) :
    ∃ p', p.clearFullPts var = .ok p' ∧ PersGrows p p' (update f var ∅) 2 := by
  cases hd : p.getPts var with
  | error e =>
    have := (getActualPts_error hd).2.symm.trans (h.pts var)
    cases this
  | ok d =>
    have hdf : den d = f var := by
      have := (getActualPts_ok hd).symm.trans (h.pts var)
      exact some.inj this
    have hempty : p.ptCache.denOf emptyPointsToId = some (f var \ f var) := by
      rw [sdiff_self]; exact h.inv.empty
    have hmem : ∀ x, x ∈ DataSet.elems d ↔ x ∈ f var := by
      intro x
      rw [← hdf]
      exact .rfl
    obtain ⟨hrep, hcache, hflag⟩ := h.clear hmem var hempty
    rw [sdiff_self] at hrep
    refine ⟨_, by unfold PersistentPTData.clearFullPts; rw [hd]; rfl, hrep, ?_, hflag, ?_⟩
    · show (p.clearRevPts (DataSet.elems d) var).ptCache.idToPts.size ≤ _
      rw [hcache]
      exact Nat.le_add_right _ _
    · show Keeps _ (p.clearRevPts (DataSet.elems d) var).ptCache.denOf
      rw [hcache]
      exact Keeps.refl _

end

section

variable {A B ε : Type} {x : Except ε A} {g : A → B}

theorem map_ok {b : B} (h : x.map g = .ok b) : ∃ a, x = .ok a ∧ g a = b := by
  cases x with
  | error e => cases h
  | ok a => exact ⟨a, rfl, Except.ok.inj h⟩

theorem map_error {e : ε} (h : x.map g = .error e) : x = .error e := by
  cases x with
  | error e' => rw [Except.error.inj h]
  | ok a => cases h

end

/-- **The persistent store refines the abstract store**, call by call. -/
theorem persStep_ok (h : PersRep p f) {call : PtsCall Key α D} {o : Option Bool}
    (hs : persStep p call = .ok (o, p')) :
    (Distinct p'.ptCache → o = (absStep f call).1) ∧ PersGrows p p' (absStep f call).2 2 := by
  cases call with
  | addPts dstKey element =>
    obtain ⟨⟨b, p1⟩, hu, hr⟩ := map_ok hs
    cases hr
    have hres := emplaceUnion_ok h hu
    rw [den_set, den_empty, insert_empty_eq] at hres
    exact hres
  | unionPts dstKey srcKey =>
    obtain ⟨⟨b, p1⟩, hu, hr⟩ := map_ok hs
    cases hr
    obtain ⟨hb, hrep, hsz, hflag, hkeeps⟩ := unionPtsFromId_ok h (h.pts srcKey) hu
    exact ⟨hb, hrep, Nat.le_succ_of_le hsz, hflag, hkeeps⟩
  | unionPtsData dstKey srcData =>
    obtain ⟨⟨b, p1⟩, hu, hr⟩ := map_ok hs
    cases hr
    exact emplaceUnion_ok h hu
  | clearPts var element =>
    obtain ⟨p1, hu, hr⟩ := map_ok hs
    cases hr
    exact ⟨fun _ => rfl, clearPts_ok h hu⟩
  | clearFullPts var =>
    obtain ⟨p1, hu, hr⟩ := map_ok hs
    cases hr
    obtain ⟨p2, hok, hgrow⟩ := clearFullPts_spec h var
    rw [hok] at hu
    exact ⟨fun _ => rfl, Except.ok.inj hu ▸ hgrow⟩

theorem persStep_error (h : PersRep p f) {call : PtsCall Key α D} (hs : persStep p call = .error e)
    :
    e = .idsExhausted ∧ idRange ≤ p.ptCache.idToPts.size + 2 := by
  have hweak : ∀ {n : Nat}, n ≤ 2 → e = .idsExhausted ∧ idRange ≤ p.ptCache.idToPts.size + n →
      e = .idsExhausted ∧ idRange ≤ p.ptCache.idToPts.size + 2 :=
    fun hn hf => ⟨hf.1, by have := hf.2; omega⟩
  cases call with
  | addPts dstKey element =>
    exact hweak (n := 1) (by decide) (emplaceUnion_error h (map_error hs))
  | unionPts dstKey srcKey =>
    obtain ⟨he, hfull⟩ := unionPtsFromId_error h (h.pts srcKey) (map_error hs)
    exact hweak (n := 0) (by decide) ⟨he, by omega⟩
  | unionPtsData dstKey srcData =>
    exact hweak (n := 1) (by decide) (emplaceUnion_error h (map_error hs))
  | clearPts var element =>
    exact hweak (n := 1) (by decide) (clearPts_error h (map_error hs))
  | clearFullPts var =>
    obtain ⟨p2, hok, -⟩ := clearFullPts_spec h var
    have := map_error hs
    rw [hok] at this
    cases this

end Persistent

/-! ## The two stores agree -/

section Agreement

variable [LawfulDataSet D]

/-- What an observer can see of the two stores is the same: every key denotes the same
    set, every element has the same reverse set. -/
structure ObsEq (p : PersistentPTData Key α D) (m : MutablePTData Key α D) : Prop where
  getPts : ∀ key, ∃ d, p.getPts key = .ok d ∧ den d = den (m.getPts key)
  getRevPts : ∀ data, p.getRevPts data = m.getRevPts data

theorem obsEq_of_rep {p : PersistentPTData Key α D} {m : MutablePTData Key α D}
    {f : Key → Set α} (hp : PersRep p f) (hm : MutRep m f) (hrev : p.rev = m.rev) :
    ObsEq p m := by
  constructor
  · intro key
    cases hd : p.getPts key with
    | error e =>
      have := (getActualPts_error hd).2.symm.trans (hp.pts key)
      cases this
    | ok d =>
      have hdf := (getActualPts_ok hd).symm.trans (hp.pts key)
      exact ⟨d, rfl, (some.inj hdf).trans (hm.pts key).symm⟩
  · intro data
    unfold PersistentPTData.getRevPts MutablePTData.getRevPts
    cases hr : p.rev with
    | false => rw [← hrev, hr]; rfl
    | true =>
      rw [← hrev, hr, if_pos rfl, if_pos rfl, some_inj]
      ext k
      rw [hp.rev hr, hm.rev (hrev.symm.trans hr)]

section

variable (m : MutablePTData Key α D)

@[simp] theorem rev_addRevPts (pts : List α) (key : Key) : (m.addRevPts pts key).rev = m.rev := by
  unfold MutablePTData.addRevPts
  cases h : m.rev <;> simp [h]

@[simp] theorem rev_clearRevPts (pts : List α) (key : Key) :
    (m.clearRevPts pts key).rev = m.rev := by
  unfold MutablePTData.clearRevPts
  cases h : m.rev <;> simp [h]

theorem rev_mutStep (call : PtsCall Key α D) : (mutStep m call).2.rev = m.rev := by
  cases call with
  | addPts dstKey element => exact rev_addRevPts m _ _
  | unionPts dstKey srcKey => exact rev_addRevPts m _ _
  | unionPtsData dstKey srcData => exact rev_addRevPts m _ _
  | clearPts var element => exact rev_clearRevPts m _ _
  | clearFullPts var => exact rev_clearRevPts m _ _

/-- `|=` of lawful sets tells whether it changes anything. -/
theorem callTells_of_lawful (call : PtsCall Key α D) : m.CallTells call := by
  cases call with
  | unionPts dstKey srcKey => exact LawfulDataSet.unionWith_fst _ _
  | unionPtsData dstKey srcData => exact LawfulDataSet.unionWith_fst _ _
  | addPts dstKey element => exact trivial
  | clearPts var element => exact trivial
  | clearFullPts var => exact trivial

end

/-- Both stores stand for the same abstract store and keep the same flag. -/
def Agree (p : PersistentPTData Key α D) (m : MutablePTData Key α D) : Prop :=
  p.rev = m.rev ∧ ∃ f, PersRep p f ∧ MutRep m f

/-- **Step lemma.** A call keeps the two stores in agreement, with equal flags returned. -/
theorem agree_step {p p' : PersistentPTData Key α D} {m : MutablePTData Key α D}
    {call : PtsCall Key α D} {o : Option Bool} (h : Agree p m)
    (hs : persStep p call = .ok (o, p')) :
    o = (mutStep m call).1 ∧ Agree p' (mutStep m call).2 := by
  obtain ⟨hrev, f, hp, hm⟩ := h
  obtain ⟨ho, hg⟩ := persStep_ok hp hs
  obtain ⟨hmo, hm'⟩ := mutStep_refines hm call
  exact ⟨(ho (distinct_of_inv hg.rep.inv)).trans (hmo (callTells_of_lawful m call)).symm,
    hg.flag.trans (hrev.trans (rev_mutStep m call).symm),
    _, hg.rep, hm'⟩

end Agreement

end SvfPtsStore
