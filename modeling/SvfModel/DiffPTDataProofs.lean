import SvfModel.PtsStoreProofs

/-!
# Difference propagation: `PersistentDiffPTData` and `MutableDiffPTData`

Next to the points-to set of a key, both stores keep what has been propagated of it, and
`computeDiffPts` gives what has not. In one store these are ids of the points-to cache, in the
other sets that are updated in place. The purpose of either is `absDiffStep`: three sets for
every key, changed by set operations.

Whatever the sets are made of, both stores keep the right sets (`persDiffStep_ok`,
`mutDiffStep_refines`). The heart is what they return. The persistent store looks at ids only:
the difference is empty when its id is 0, a set has changed when its id has. That is right as
long as no set has two ids, which is lost when a set is interned that the hash map does not
recognise, because its hash is not that of the equal set it has (`Known`). The mutable store
returns what `|=` returns. **`Runs.diff_agree`** is what holds of every run in which neither
happens; for lawful sets that is every run (`stepOk_of_lawful`).
-/

set_option linter.unusedSectionVars false

namespace SvfPtsStore

open SvfPts SvfHashCons SvfRun SvfPtsCache SvfPtsCache.PersistentPointsToCache Option
open Function (update update_of_ne update_self)

-- ── Sets that the hash map recognises

section Known

variable {D α : Type} [DataSet D α] {c c' : PersistentPointsToCache D}

section

variable (c : PersistentPointsToCache D)

/-- The hash map takes a set for every stored set that is equal to it. -/
def Known (d : D) : Prop :=
  ∀ d' ∈ c.idToPts, den d' = den d → (d' == d) = true

section

variable (lhs rhs : PointsToID)

/-- The result of an operation is recognised, if it has to be computed. -/
def OpKnown (operands : PointsToID × PointsToID) (dataOp : D → D → D) (name : OpCacheName) : Prop :=
  (c.opCache name)[operands]? = none → ∀ l r, c.getActualPts lhs = .ok l →
    c.getActualPts rhs = .ok r → Known c (dataOp l r)

def UnionKnown : Prop :=
  (minmax lhs rhs).1 ≠ emptyPointsToId → (minmax lhs rhs).1 ≠ (minmax lhs rhs).2 →
    OpKnown c lhs rhs (minmax lhs rhs) DataSet.union .unionCache

def ComplementKnown : Prop :=
  lhs ≠ rhs → rhs ≠ emptyPointsToId → lhs ≠ emptyPointsToId →
    OpKnown c lhs rhs (lhs, rhs) DataSet.sub .complementCache

end

end

variable {name : OpCacheName} {lhs rhs id : PointsToID}

def IntersectKnown (c : PersistentPointsToCache D) (lhs rhs : PointsToID) : Prop :=
  (minmax lhs rhs).1 ≠ emptyPointsToId → (minmax lhs rhs).1 ≠ (minmax lhs rhs).2 →
    OpKnown c lhs rhs (minmax lhs rhs) DataSet.inter .intersectionCache

section

variable {key : PointsToID × PointsToID} {id : PointsToID} (h : Distinct c)
include h

theorem distinct_setOp : Distinct (c.setOp name key id) := by
  intro i j S hi hj
  rw [denOf_setOp] at hi hj
  exact h i j S hi hj

theorem distinct_setOp_if {p : Prop} [Decidable p] :
    Distinct (if p then c.setOp name key id else c) := by
  split_ifs
  · exact distinct_setOp h
  · exact h

end

variable [SetDataSet D]

section

variable (h : c.Inv) (hdist : Distinct c)
include h hdist

/-- **Interning a set that is recognised** gives no set a second id. -/
theorem emplacePts_distinct {d : D} {id : PointsToID} (hknown : Known c d)
    (he : c.emplacePts d = .ok (id, c')) : Distinct c' := by
  unfold emplacePts at he
  cases hfound : c.ptsToId[d]? with
  | some id' =>
    rw [hfound] at he
    cases he
    exact hdist
  | none =>
    rw [hfound] at he
    obtain ⟨⟨n, c1⟩, hn, hr⟩ := bind_ok.mp he
    obtain ⟨rfl, -, rfl⟩ := newPointsToId_ok h hn
    cases hr
    -- a stored set that is equal to `d` would have been found
    have hfresh : ∀ i, c.denOf i ≠ some (den d) := by
      intro i hi
      obtain ⟨d', hd', heq⟩ := Option.map_eq_some_iff.mp hi
      have hbeq := hknown d' (Array.mem_of_getElem? hd') heq
      have hid := h.interns.id_of_value i d' hd'
      rw [Std.HashMap.getElem?_congr hbeq, hfound] at hid
      cases hid.symm
    have hcases : ∀ i S, ((c.idToPts.push d)[i]?).map den = some S →
        c.denOf i = some S ∨ (i = c.idToPts.size ∧ S = den d) := by
      intro i S hi
      rw [Array.getElem?_push] at hi
      split_ifs at hi with hlast
      · exact .inr ⟨hlast, (some.inj hi).symm⟩
      · exact .inl hi
    intro i j S hi hj
    rcases hcases i S hi with hi | ⟨rfl, rfl⟩
    · rcases hcases j S hj with hj | ⟨-, rfl⟩
      · exact hdist i j S hi hj
      · exact absurd hi (hfresh i)
    · rcases hcases j _ hj with hj | ⟨rfl, -⟩
      · exact absurd hj (hfresh j)
      · rfl

theorem opPts_distinct {dataOp : D → D → D} {comm performed : Bool}
    (hknown : OpKnown c lhs rhs (if comm then minmax lhs rhs else (lhs, rhs)) dataOp name)
    (ho : c.opPts lhs rhs dataOp name comm = .ok (id, performed, c')) : Distinct c' := by
  unfold opPts at ho
  simp only at ho
  cases hfound : (c.opCache name)[if comm then minmax lhs rhs else (lhs, rhs)]? with
  | some id' =>
    rw [hfound] at ho
    obtain ⟨rfl, hr⟩ := Prod.mk.inj (Except.ok.inj ho)
    obtain ⟨-, rfl⟩ := Prod.mk.inj hr
    exact hdist
  | none =>
    rw [hfound] at ho
    obtain ⟨l, hl, ho⟩ := bind_ok.mp ho
    obtain ⟨r, hr, ho⟩ := bind_ok.mp ho
    obtain ⟨⟨n, c1⟩, hc1, ho⟩ := bind_ok.mp ho
    obtain ⟨-, hr'⟩ := Prod.mk.inj (Except.ok.inj ho)
    obtain ⟨-, rfl⟩ := Prod.mk.inj hr'
    exact distinct_setOp (emplacePts_distinct h hdist (hknown hfound l r hl hr) hc1)

theorem unionPts_distinct (hknown : UnionKnown c lhs rhs) (hu : c.unionPts lhs rhs = .ok (id, c')) :
    Distinct c' := by
  rcases unionPts_cases hu with ⟨-, -, rfl⟩ | ⟨-, -, rfl⟩ | ⟨h0, hx, performed, c1, ho, rfl⟩
  · exact hdist
  · exact hdist
  have hd1 := opPts_distinct h hdist (hknown h0 hx) ho
  cases performed with
  | false => exact hd1
  | true => exact distinct_setOp_if (distinct_setOp_if hd1)

theorem complementPts_distinct (hknown : ComplementKnown c lhs rhs)
    (hu : c.complementPts lhs rhs = .ok (id, c')) :
    Distinct c' := by
  rcases complementPts_cases hu with ⟨-, -, rfl⟩ | ⟨-, -, rfl⟩ | ⟨-, -, rfl⟩ |
    ⟨hx, hr0, hl0, performed, c1, ho, rfl⟩
  · exact hdist
  · exact hdist
  · exact hdist
  have hd1 := opPts_distinct h hdist (hknown hx hr0 hl0) ho
  by_cases hp : performed ∧ id ≠ emptyPointsToId
  · rw [if_pos hp]
    exact distinct_setOp (distinct_setOp (distinct_setOp hd1))
  · rw [if_neg hp]
    exact hd1

theorem intersectPts_distinct (hknown : IntersectKnown c lhs rhs)
    (hu : c.intersectPts lhs rhs = .ok (id, c')) :
    Distinct c' := by
  rcases intersectPts_cases hu with ⟨-, -, rfl⟩ | ⟨-, -, rfl⟩ | ⟨h0, hx, performed, c1, ho, rfl⟩
  · exact hdist
  · exact hdist
  have hd1 := opPts_distinct h hdist (hknown h0 hx) ho
  by_cases hp : performed ∧ id ≠ emptyPointsToId
  · rw [if_pos hp]
    exact distinct_setOp_if (distinct_setOp_if (distinct_setOp_if (distinct_setOp_if hd1)))
  · rw [if_neg hp]
    exact hd1

end

omit [SetDataSet D] in
theorem distinct_fresh : Distinct (fresh : PersistentPointsToCache D) := by
  have hzero : ∀ i S, (fresh : PersistentPointsToCache D).denOf i = some S → i = 0 := by
    intro i S hi
    obtain ⟨d, hd, -⟩ := Option.map_eq_some_iff.mp hi
    have hlt : i < 1 := (Array.getElem?_eq_some_iff.mp hd).1
    exact Nat.lt_one_iff.mp hlt
  intro i j S hi hj
  rw [hzero i S hi, hzero j S hj]

end Known

-- ── The two stores

variable {Key α D : Type} [DecidableEq Key] [Hashable Key] [DecidableEq α] [Hashable α]
  [DataSet D α]

structure PersistentDiffPTData (Key α D : Type) [DecidableEq Key] [Hashable Key]
    [DecidableEq α] [Hashable α] [DataSet D α] where
  persPTData : PersistentPTData Key α D
  diffPtsMap : Std.HashMap Key PointsToID
  propaPtsMap : Std.HashMap Key PointsToID

namespace PersistentDiffPTData

def init (cache : PersistentPointsToCache D) (reversePT : Bool) : PersistentDiffPTData Key α D where
  persPTData := PersistentPTData.init cache reversePT
  diffPtsMap := ∅
  propaPtsMap := ∅

section

variable (p : PersistentDiffPTData Key α D)

def ptCache : PersistentPointsToCache D := p.persPTData.ptCache

def getPts (var : Key) : Except PtsError D :=
  p.persPTData.getPts var

def getDiffPts (var : Key) : Except PtsError D :=
  p.ptCache.getActualPts (p.diffPtsMap.getD var emptyPointsToId)

/-- What is marked as propagated; the code has no getter for it. -/
def getPropaPts (var : Key) : Except PtsError D :=
  p.ptCache.getActualPts (p.propaPtsMap.getD var emptyPointsToId)

def computeDiffPts (var : Key) (all : D) :
    Except PtsError (Bool × PersistentDiffPTData Key α D) := do
  let propaId := p.propaPtsMap.getD var emptyPointsToId
  let (allId, ptCache) ← p.ptCache.emplacePts all
  let (diffId, ptCache) ← ptCache.complementPts allId propaId
  return (decide (diffId ≠ emptyPointsToId),
    { persPTData := { p.persPTData with ptCache := ptCache }
      diffPtsMap := p.diffPtsMap.insert var diffId
      propaPtsMap := p.propaPtsMap.insert var allId })

def updatePropaPtsMap (src dst : Key) : Except PtsError (PersistentDiffPTData Key α D) := do
  let dstId := p.propaPtsMap.getD dst emptyPointsToId
  let srcId := p.propaPtsMap.getD src emptyPointsToId
  let (id, ptCache) ← p.ptCache.intersectPts dstId srcId
  return { p with
    persPTData := { p.persPTData with ptCache := ptCache }
    propaPtsMap := p.propaPtsMap.insert dst id }

def clearPropaPts (var : Key) : PersistentDiffPTData Key α D :=
  { p with propaPtsMap := p.propaPtsMap.insert var emptyPointsToId }

end

end PersistentDiffPTData

structure MutableDiffPTData (Key α D : Type) [DecidableEq Key] [Hashable Key]
    [DecidableEq α] [Hashable α] [DataSet D α] where
  mutPTData : MutablePTData Key α D
  diffPtsMap : Std.HashMap Key D
  propaPtsMap : Std.HashMap Key D

namespace MutableDiffPTData

def init (reversePT : Bool) : MutableDiffPTData Key α D where
  mutPTData := MutablePTData.init reversePT
  diffPtsMap := ∅
  propaPtsMap := ∅

section

variable (m : MutableDiffPTData Key α D)

def getPts (var : Key) : D := m.mutPTData.getPts var

def getDiffPts (var : Key) : D :=
  m.diffPtsMap.getD var DataSet.empty

def getPropaPts (var : Key) : D :=
  m.propaPtsMap.getD var DataSet.empty

def computeDiffPts (var : Key) (all : D) : Bool × MutableDiffPTData Key α D :=
  let diff := DataSet.sub all (m.getPropaPts var)
  (!(DataSet.elems diff).isEmpty,
    { m with
      diffPtsMap := m.diffPtsMap.insert var diff
      propaPtsMap := m.propaPtsMap.insert var all })

def updatePropaPtsMap (src dst : Key) : MutableDiffPTData Key α D :=
  { m with
    propaPtsMap := m.propaPtsMap.insert dst (DataSet.inter (m.getPropaPts dst) (m.getPropaPts src)) }

def clearPropaPts (var : Key) : MutableDiffPTData Key α D :=
  { m with propaPtsMap := m.propaPtsMap.insert var DataSet.empty }

end

end MutableDiffPTData

-- ── Calls, and the machine both stores are for

/-- A call on a store. The solver computes the difference of the current points-to set, and
    forwards a difference by adding it to another key. -/
inductive DiffCall (Key α D : Type) where
  | pts (call : PtsCall Key α D)
  | forward (src dst : Key)
  | computeDiffPts (var : Key)
  | updatePropaPtsMap (src dst : Key)
  | clearPropaPts (var : Key)

/-- One call on the persistent store. -/
def persDiffStep (p : PersistentDiffPTData Key α D) :
    DiffCall Key α D → Except PtsError (Option Bool × PersistentDiffPTData Key α D)
  | .pts call =>
    (persStep p.persPTData call).map fun r => (r.1, { p with persPTData := r.2 })
  | .forward src dst => do
      let diff ← p.getDiffPts src
      let r ← persStep p.persPTData (.unionPtsData dst diff)
      return (r.1, { p with persPTData := r.2 })
  | .computeDiffPts var => do
      let all ← p.getPts var
      let r ← p.computeDiffPts var all
      return (some r.1, r.2)
  | .updatePropaPtsMap src dst => (p.updatePropaPtsMap src dst).map fun p => (none, p)
  | .clearPropaPts var => .ok (none, p.clearPropaPts var)

def mutDiffStep (m : MutableDiffPTData Key α D) :
    DiffCall Key α D → Option Bool × MutableDiffPTData Key α D
  | .pts call =>
    ((mutStep m.mutPTData call).1, { m with mutPTData := (mutStep m.mutPTData call).2 })
  | .forward src dst =>
    let r := mutStep m.mutPTData (.unionPtsData dst (m.getDiffPts src))
    (r.1, { m with mutPTData := r.2 })
  | .computeDiffPts var => ((m.computeDiffPts var (m.getPts var)).map some id)
  | .updatePropaPtsMap src dst => (none, m.updatePropaPtsMap src dst)
  | .clearPropaPts var => (none, m.clearPropaPts var)

/-- The abstract store: for every key what it points to, what of that is marked as propagated,
    and the last difference. -/
structure AbsDiff (Key α : Type) where
  pts : Key → Set α
  marked : Key → Set α
  diff : Key → Set α

open Classical in
/-- One call on the abstract store. -/
noncomputable def absDiffStep (a : AbsDiff Key α) : DiffCall Key α D → Option Bool × AbsDiff Key α
  | .pts call => ((absStep a.pts call).1, { a with pts := (absStep a.pts call).2 })
  | .forward src dst =>
    ((absUnion a.pts dst (a.diff src)).1, { a with pts := (absUnion a.pts dst (a.diff src)).2 })
  | .computeDiffPts var =>
    (some (decide (a.pts var \ a.marked var ≠ ∅)),
      { a with
        marked := update a.marked var (a.pts var)
        diff := update a.diff var (a.pts var \ a.marked var) })
  | .updatePropaPtsMap src dst =>
    (none, { a with marked := update a.marked dst (a.marked dst ∩ a.marked src) })
  | .clearPropaPts var => (none, { a with marked := update a.marked var ∅ })

-- ── The mutable store refines the abstract one

/-- The mutable store `m` stands for the abstract store `a`. -/
structure MutDiffRep (m : MutableDiffPTData Key α D) (a : AbsDiff Key α) : Prop where
  pts : MutRep m.mutPTData a.pts
  marked : ∀ k, den (m.getPropaPts k) = a.marked k
  diff : ∀ k, den (m.getDiffPts k) = a.diff k

/-- The `|=` of a call, if it has one, tells whether it changes anything. -/
def MutableDiffPTData.CallTells (m : MutableDiffPTData Key α D) : DiffCall Key α D → Prop
  | .pts call => m.mutPTData.CallTells call
  | .forward src dst => TellsChange (m.getPts dst) (m.getDiffPts src)
  | _ => True

section Refinement

variable [SetDataSet D]

theorem mutDiffRep_init (reversePT : Bool) :
    MutDiffRep (MutableDiffPTData.init reversePT : MutableDiffPTData Key α D)
      ⟨fun _ => ∅, fun _ => ∅, fun _ => ∅⟩ := by
  refine ⟨mutRep_init reversePT, fun k => ?_, fun k => ?_⟩
  · simp [MutableDiffPTData.getPropaPts, MutableDiffPTData.init]
  · simp [MutableDiffPTData.getDiffPts, MutableDiffPTData.init]

/-- **The mutable store refines the abstract store**, call by call. -/
theorem mutDiffStep_refines {m : MutableDiffPTData Key α D} {a : AbsDiff Key α}
    (h : MutDiffRep m a) (call : DiffCall Key α D) :
    (m.CallTells call → (mutDiffStep m call).1 = (absDiffStep a call).1) ∧
      MutDiffRep (mutDiffStep m call).2 (absDiffStep a call).2 := by
  cases call with
  | pts call =>
    obtain ⟨hflag, hrep⟩ := mutStep_refines h.pts call
    exact ⟨hflag, hrep, h.marked, h.diff⟩
  | forward src dst =>
    obtain ⟨hflag, hrep⟩ := mutStep_refines h.pts (.unionPtsData dst (m.getDiffPts src))
    rw [absStep, h.diff] at hflag hrep
    exact ⟨hflag, hrep, h.marked, h.diff⟩
  | computeDiffPts var =>
    have hdiff : den (DataSet.sub (m.getPts var) (m.getPropaPts var)) =
        a.pts var \ a.marked var := by
      rw [SetDataSet.den_sub, h.marked]
      exact congrArg (· \ a.marked var) (h.pts.pts var)
    refine ⟨fun _ => ?_, h.pts, ?_, ?_⟩
    · show some (!(DataSet.elems (DataSet.sub (m.getPts var) (m.getPropaPts var))).isEmpty) = _
      rw [absDiffStep, ← hdiff, some_inj, Bool.eq_iff_iff, decide_eq_true_iff,
        Bool.not_eq_true', List.isEmpty_eq_false_iff, Ne, Ne, not_iff_not]
      constructor
      · intro hnil
        ext x
        rw [mem_den, hnil]
        simp
      · intro hempty
        refine List.eq_nil_iff_forall_not_mem.mpr fun x hx => ?_
        have : x ∈ (∅ : Set α) := hempty ▸ hx
        exact this
    · intro k
      rw [absDiffStep, ← h.pts.pts var]
      exact den_getD_insert _ a.marked var _ h.marked k
    · intro k
      rw [absDiffStep, ← hdiff]
      exact den_getD_insert _ a.diff var _ h.diff k
  | updatePropaPtsMap src dst =>
    refine ⟨fun _ => rfl, h.pts, fun k => ?_, h.diff⟩
    rw [absDiffStep, ← h.marked dst, ← h.marked src, ← SetDataSet.den_inter]
    exact den_getD_insert _ a.marked dst _ h.marked k
  | clearPropaPts var =>
    refine ⟨fun _ => rfl, h.pts, fun k => ?_, h.diff⟩
    rw [absDiffStep, ← SetDataSet.den_empty (D := D)]
    exact den_getD_insert _ a.marked var _ h.marked k

-- ── The persistent store refines the abstract one

/-- The persistent store `p` stands for the abstract store `a`. -/
structure PersDiffRep (p : PersistentDiffPTData Key α D) (a : AbsDiff Key α) : Prop where
  pts : PersRep p.persPTData a.pts
  marked : ∀ k, p.ptCache.denOf (p.propaPtsMap.getD k emptyPointsToId) = some (a.marked k)
  diff : ∀ k, p.ptCache.denOf (p.diffPtsMap.getD k emptyPointsToId) = some (a.diff k)

variable {p p' : PersistentDiffPTData Key α D} {a : AbsDiff Key α}

theorem persDiffRep_init (reversePT : Bool) :
    PersDiffRep (PersistentDiffPTData.init fresh reversePT : PersistentDiffPTData Key α D)
      ⟨fun _ => ∅, fun _ => ∅, fun _ => ∅⟩ := by
  have hempty : ∀ k : Key, (fresh : PersistentPointsToCache D).denOf
      ((∅ : Std.HashMap Key PointsToID).getD k emptyPointsToId) = some ∅ := by
    intro k
    rw [Std.HashMap.getD_empty]
    exact inv_fresh.empty
  exact ⟨persRep_init inv_fresh reversePT, hempty, hempty⟩

theorem PersDiffRep.pts_step (h : PersDiffRep p a) {pers : PersistentPTData Key α D}
    {f : Key → Set α} (hrep : PersRep pers f)
    (hkeeps : Keeps p.ptCache.denOf pers.ptCache.denOf) :
    PersDiffRep { p with persPTData := pers } { a with pts := f } :=
  ⟨hrep, fun k => hkeeps _ _ (h.marked k), fun k => hkeeps _ _ (h.diff k)⟩

theorem den_of_getActualPts {c : PersistentPointsToCache D} {id : PointsToID} {d : D} {S : Set α}
    (hd : c.getActualPts id = .ok d) (hS : c.denOf id = some S) : den d = S :=
  some.inj ((getActualPts_ok hd).symm.trans hS)

/-- **The persistent store refines the abstract store**, call by call. -/
theorem persDiffStep_ok (h : PersDiffRep p a) {call : DiffCall Key α D} {o : Option Bool}
    (hs : persDiffStep p call = .ok (o, p')) :
    (Distinct p'.ptCache → o = (absDiffStep a call).1) ∧ PersDiffRep p' (absDiffStep a call).2 := by
  cases call with
  | pts call =>
    obtain ⟨⟨b, pers⟩, hu, hr⟩ := map_ok hs
    cases hr
    obtain ⟨hflag, hgrow⟩ := persStep_ok h.pts hu
    exact ⟨hflag, h.pts_step hgrow.rep hgrow.keeps⟩
  | forward src dst =>
    obtain ⟨diff, hdiff, hs⟩ := bind_ok.mp hs
    obtain ⟨⟨b, pers⟩, hu, hr⟩ := bind_ok.mp hs
    cases hr
    obtain ⟨hflag, hgrow⟩ := persStep_ok h.pts hu
    rw [absStep, den_of_getActualPts hdiff (h.diff src)] at hflag hgrow
    exact ⟨hflag, h.pts_step hgrow.rep hgrow.keeps⟩
  | computeDiffPts var =>
    obtain ⟨all, hall, hs⟩ := bind_ok.mp hs
    obtain ⟨⟨b, q⟩, hc, hr⟩ := bind_ok.mp hs
    cases hr
    obtain ⟨⟨allId, c1⟩, hc1, hc⟩ := bind_ok.mp hc
    obtain ⟨⟨diffId, c2⟩, hc2, hr⟩ := bind_ok.mp hc
    cases hr
    obtain ⟨hg1, hallId⟩ := emplacePts_ok h.pts.inv hc1
    rw [den_of_getActualPts hall (h.pts.pts var)] at hallId
    obtain ⟨hg2, hden⟩ := complementPts_ok hg1.inv hc2
    have hdiffId : c2.denOf diffId = some (a.pts var \ a.marked var) :=
      hden _ _ hallId (hg1.keeps _ _ (h.marked var))
    have hkeeps : Keeps p.ptCache.denOf c2.denOf := hg1.keeps.trans hg2.keeps
    refine ⟨fun hdist => ?_, (h.pts.grow hg1).grow hg2, fun k => ?_, fun k => ?_⟩
    · rw [absDiffStep]
      refine congrArg some ?_
      rw [Bool.eq_iff_iff, decide_eq_true_iff, decide_eq_true_iff, Ne, Ne, not_iff_not]
      constructor
      · rintro rfl
        exact mem_unique hdiffId hg2.inv.empty
      · intro hempty
        rw [hempty] at hdiffId
        exact hdist _ _ _ hdiffId hg2.inv.empty
    · exact denOf_getD_insert (fun k => hkeeps _ _ (h.marked k)) var (hg2.keeps _ _ hallId) k
    · exact denOf_getD_insert (fun k => hkeeps _ _ (h.diff k)) var hdiffId k
  | updatePropaPtsMap src dst =>
    obtain ⟨q, hu, hr⟩ := map_ok hs
    cases hr
    obtain ⟨⟨id, c⟩, hc, hr⟩ := bind_ok.mp hu
    cases hr
    obtain ⟨hg, hden⟩ := intersectPts_ok h.pts.inv hc
    refine ⟨fun _ => rfl, h.pts.grow hg, fun k => ?_, fun k => hg.keeps _ _ (h.diff k)⟩
    exact denOf_getD_insert (fun k => hg.keeps _ _ (h.marked k)) dst
      (hden _ _ (h.marked dst) (h.marked src)) k
  | clearPropaPts var =>
    cases hs
    refine ⟨fun _ => rfl, h.pts, fun k => ?_, h.diff⟩
    exact denOf_getD_insert h.marked var h.pts.inv.empty k

theorem persDiffStep_error (h : PersDiffRep p a) {call : DiffCall Key α D} {e : PtsError}
    (hs : persDiffStep p call = .error e) : e = .idsExhausted := by
  have hget : ∀ {id : PointsToID} {S : Set α}, p.ptCache.denOf id = some S →
      p.ptCache.getActualPts id ≠ .error e := by
    intro id S hS herr
    exact absurd ((getActualPts_error herr).2.symm.trans hS).symm (some_ne_none S)
  cases call with
  | pts call => exact (persStep_error h.pts (map_error hs)).1
  | forward src dst =>
    rcases bind_error.mp hs with hd | ⟨diff, -, hs⟩
    · exact absurd hd (hget (h.diff src))
    · rcases bind_error.mp hs with hu | ⟨r, -, hr⟩
      · exact (persStep_error h.pts hu).1
      · cases hr
  | computeDiffPts var =>
    rcases bind_error.mp hs with hd | ⟨all, hall, hs⟩
    · exact absurd hd (hget (h.pts.pts var))
    rcases bind_error.mp hs with hc | ⟨r, -, hr⟩
    · rcases bind_error.mp hc with hc1 | ⟨⟨allId, c1⟩, hc1, hc⟩
      · exact (emplacePts_error h.pts.inv hc1).1
      obtain ⟨hg1, hallId⟩ := emplacePts_ok h.pts.inv hc1
      rcases bind_error.mp hc with hc2 | ⟨⟨diffId, c2⟩, -, hr⟩
      · rcases complementPts_error hg1.inv hc2 with ⟨-, hl | hr⟩ | hfull
        · exact absurd (hl.symm.trans hallId).symm (some_ne_none _)
        · exact absurd (hr.symm.trans (hg1.keeps _ _ (h.marked var))).symm (some_ne_none _)
        · exact hfull.1
      · cases hr
    · cases hr
  | updatePropaPtsMap src dst =>
    rcases bind_error.mp (map_error hs) with hc | ⟨⟨id, c⟩, -, hr⟩
    · rcases intersectPts_error h.pts.inv hc with ⟨-, hl | hr⟩ | hfull
      · exact absurd (hl.symm.trans (h.marked dst)).symm (some_ne_none _)
      · exact absurd (hr.symm.trans (h.marked src)).symm (some_ne_none _)
      · exact hfull.1
    · cases hr
  | clearPropaPts var => cases hs

-- ── Calls whose sets are recognised

/-- Interning a set and adding it to one key. -/
def EmplaceUnionKnown (p : PersistentPTData Key α D) (key : Key) (d : D) : Prop :=
  Known p.ptCache d ∧ ∀ id c, p.ptCache.emplacePts d = .ok (id, c) →
    UnionKnown c (p.ptsMap.getD key emptyPointsToId) id

/-- The sets that a call interns are recognised. -/
def PersistentPTData.CallKnown (p : PersistentPTData Key α D) : PtsCall Key α D → Prop
  | .addPts dstKey element =>
    EmplaceUnionKnown p dstKey (DataSet.set (DataSet.empty : D) element)
  | .unionPts dstKey srcKey =>
    UnionKnown p.ptCache (p.ptsMap.getD dstKey emptyPointsToId)
      (p.ptsMap.getD srcKey emptyPointsToId)
  | .unionPtsData dstKey srcData => EmplaceUnionKnown p dstKey srcData
  | .clearPts var element =>
    Known p.ptCache (DataSet.set (DataSet.empty : D) element) ∧ ∀ id c,
      p.ptCache.emplacePts (DataSet.set (DataSet.empty : D) element) = .ok (id, c) →
        ComplementKnown c (p.ptsMap.getD var emptyPointsToId) id
  | .clearFullPts _ => True

def PersistentDiffPTData.CallKnown (p : PersistentDiffPTData Key α D) : DiffCall Key α D → Prop
  | .pts call => p.persPTData.CallKnown call
  | .forward src dst => ∀ diff, p.getDiffPts src = .ok diff →
      p.persPTData.CallKnown (.unionPtsData dst diff)
  | .computeDiffPts var =>
    ComplementKnown p.ptCache (p.persPTData.ptsMap.getD var emptyPointsToId)
      (p.propaPtsMap.getD var emptyPointsToId)
  | .updatePropaPtsMap src dst =>
    IntersectKnown p.ptCache (p.propaPtsMap.getD dst emptyPointsToId)
      (p.propaPtsMap.getD src emptyPointsToId)
  | .clearPropaPts _ => True

theorem unionPtsFromId_distinct {q q' : PersistentPTData Key α D} (hinv : q.ptCache.Inv)
    (hdist : Distinct q.ptCache) {key : Key} {srcId : PointsToID} {b : Bool}
    (hknown : UnionKnown q.ptCache (q.ptsMap.getD key emptyPointsToId) srcId)
    (hu : q.unionPtsFromId key srcId = .ok (b, q')) : Distinct q'.ptCache := by
  obtain ⟨⟨newId, c⟩, hc, hu⟩ := bind_ok.mp hu
  have hd := unionPts_distinct hinv hdist hknown hc
  simp only at hu
  split at hu
  · split at hu
    · obtain ⟨d, -, hu⟩ := bind_ok.mp hu
      cases hu
      exact hd
    · cases hu
      exact hd
  · cases hu
    exact hd

theorem emplaceUnion_distinct {q q' : PersistentPTData Key α D} (hinv : q.ptCache.Inv)
    (hdist : Distinct q.ptCache) {key : Key} {d : D} {b : Bool}
    (hknown : EmplaceUnionKnown q key d)
    (hu : (do
      let (srcId, ptCache) ← q.ptCache.emplacePts d
      PersistentPTData.unionPtsFromId { q with ptCache := ptCache } key srcId) = .ok (b, q')) :
    Distinct q'.ptCache := by
  obtain ⟨⟨srcId, c⟩, hc, hu⟩ := bind_ok.mp hu
  exact unionPtsFromId_distinct (emplacePts_ok hinv hc).1.inv
    (emplacePts_distinct hinv hdist hknown.1 hc) (hknown.2 srcId c hc) hu

/-- **Step lemma** of the points-to calls: no set gets a second id. -/
theorem persStep_distinct {q q' : PersistentPTData Key α D} {f : Key → Set α} (h : PersRep q f)
    (hdist : Distinct q.ptCache) {call : PtsCall Key α D} {o : Option Bool}
    (hknown : q.CallKnown call) (hs : persStep q call = .ok (o, q')) : Distinct q'.ptCache := by
  cases call with
  | addPts dstKey element =>
    obtain ⟨⟨b, q1⟩, hu, hr⟩ := map_ok hs
    cases hr
    exact emplaceUnion_distinct h.inv hdist hknown hu
  | unionPts dstKey srcKey =>
    obtain ⟨⟨b, q1⟩, hu, hr⟩ := map_ok hs
    cases hr
    exact unionPtsFromId_distinct h.inv hdist hknown hu
  | unionPtsData dstKey srcData =>
    obtain ⟨⟨b, q1⟩, hu, hr⟩ := map_ok hs
    cases hr
    exact emplaceUnion_distinct h.inv hdist hknown hu
  | clearPts var element =>
    obtain ⟨q1, hu, hr⟩ := map_ok hs
    cases hr
    obtain ⟨⟨rmId, c1⟩, hc1, hu⟩ := bind_ok.mp hu
    obtain ⟨⟨compId, c2⟩, hc2, hu⟩ := bind_ok.mp hu
    have hd2 := complementPts_distinct (emplacePts_ok h.inv hc1).1.inv
      (emplacePts_distinct h.inv hdist hknown.1 hc1) (hknown.2 rmId c1 hc1) hc2
    simp only at hu
    split at hu
    · cases hu
      unfold PersistentPTData.clearRevPts
      split_ifs <;> exact hd2
    · cases hu
      exact hd2
  | clearFullPts var =>
    obtain ⟨q1, hu, hr⟩ := map_ok hs
    cases hr
    obtain ⟨d, -, hu⟩ := bind_ok.mp hu
    cases hu
    unfold PersistentPTData.clearRevPts
    split_ifs <;> exact hdist

theorem emplacePts_stored {c c' : PersistentPointsToCache D} (h : c.Inv) {id id' : PointsToID}
    {d : D} (hd : c.getActualPts id = .ok d) (he : c.emplacePts d = .ok (id', c')) :
    id' = id ∧ c' = c := by
  have hid : c.ptsToId[d]? = some id := by
    refine h.interns.id_of_value id d ?_
    unfold getActualPts at hd
    cases hstored : c.idToPts[id]? with
    | none => rw [hstored] at hd; exact nomatch hd
    | some d' => rw [hstored] at hd; rw [Except.ok.inj hd]
  unfold emplacePts at he
  rw [hid] at he
  cases he
  exact ⟨rfl, rfl⟩

/-- **Step lemma**: no set gets a second id. -/
theorem persDiffStep_distinct (h : PersDiffRep p a) (hdist : Distinct p.ptCache)
    {call : DiffCall Key α D} {o : Option Bool} (hknown : p.CallKnown call)
    (hs : persDiffStep p call = .ok (o, p')) : Distinct p'.ptCache := by
  cases call with
  | pts call =>
    obtain ⟨⟨b, pers⟩, hu, hr⟩ := map_ok hs
    cases hr
    exact persStep_distinct h.pts hdist hknown hu
  | forward src dst =>
    obtain ⟨diff, hdiff, hs⟩ := bind_ok.mp hs
    obtain ⟨⟨b, pers⟩, hu, hr⟩ := bind_ok.mp hs
    cases hr
    exact persStep_distinct h.pts hdist (hknown diff hdiff) hu
  | computeDiffPts var =>
    obtain ⟨all, hall, hs⟩ := bind_ok.mp hs
    obtain ⟨⟨b, q⟩, hc, hr⟩ := bind_ok.mp hs
    cases hr
    obtain ⟨⟨allId, c1⟩, hc1, hc⟩ := bind_ok.mp hc
    obtain ⟨⟨diffId, c2⟩, hc2, hr⟩ := bind_ok.mp hc
    cases hr
    obtain ⟨rfl, rfl⟩ := emplacePts_stored h.pts.inv hall hc1
    exact complementPts_distinct h.pts.inv hdist hknown hc2
  | updatePropaPtsMap src dst =>
    obtain ⟨q, hu, hr⟩ := map_ok hs
    cases hr
    obtain ⟨⟨id, c⟩, hc, hr⟩ := bind_ok.mp hu
    cases hr
    exact intersectPts_distinct h.pts.inv hdist hknown hc
  | clearPropaPts var =>
    cases hs
    exact hdist

-- ── Runs of both stores

/-- A call whose sets are recognised by the hash map of the persistent store, and whose `|=` in
    the mutable one tells whether it changes anything. -/
def StepOk (p : PersistentDiffPTData Key α D) (m : MutableDiffPTData Key α D)
    (call : DiffCall Key α D) : Prop := p.CallKnown call ∧ m.CallTells call

/-- What has been sent on from every key, when the solver forwards each difference. -/
def sendDiff (call : DiffCall Key α D) (m : MutableDiffPTData Key α D) (sent : Key → Set α) :
    Key → Set α :=
  match call with
  | .computeDiffPts var => update sent var (sent var ∪ den (m.getDiffPts var))
  | _ => sent

/-- Both stores and what has been sent, after any calls that meet the condition. -/
inductive Runs : PersistentDiffPTData Key α D → MutableDiffPTData Key α D → (Key → Set α) → Prop
  | init (reversePT : Bool) :
      Runs (PersistentDiffPTData.init fresh reversePT) (MutableDiffPTData.init reversePT) fun _ => ∅
  | step {p p' : PersistentDiffPTData Key α D} {m : MutableDiffPTData Key α D}
      {sent : Key → Set α} {call : DiffCall Key α D} {o : Option Bool} (hr : Runs p m sent)
      (hok : StepOk p m call) (hs : persDiffStep p call = .ok (o, p')) :
      Runs p' (mutDiffStep m call).2 (sendDiff call (mutDiffStep m call).2 sent)

/-- Both stores stand for one abstract store, no set has two ids, and what is marked has been
    sent. -/
structure DiffInv (p : PersistentDiffPTData Key α D) (m : MutableDiffPTData Key α D)
    (sent : Key → Set α) (a : AbsDiff Key α) : Prop where
  persRep : PersDiffRep p a
  mutRep : MutDiffRep m a
  distinct : Distinct p.ptCache
  sent : ∀ k, a.marked k ⊆ sent k

variable {m : MutableDiffPTData Key α D} {sent : Key → Set α} {call : DiffCall Key α D}
  {o : Option Bool}

/-- **Step lemma**: the invariant is kept, and both stores answer as the abstract one. -/
theorem DiffInv.step (h : DiffInv p m sent a) (hok : StepOk p m call)
    (hs : persDiffStep p call = .ok (o, p')) :
    o = (absDiffStep a call).1 ∧ (mutDiffStep m call).1 = (absDiffStep a call).1 ∧
      DiffInv p' (mutDiffStep m call).2 (sendDiff call (mutDiffStep m call).2 sent)
        (absDiffStep a call).2 := by
  obtain ⟨hflag, hpers⟩ := persDiffStep_ok h.persRep hs
  obtain ⟨hmflag, hmut⟩ := mutDiffStep_refines h.mutRep call
  have hdist := persDiffStep_distinct h.persRep h.distinct hok.1 hs
  refine ⟨hflag hdist, hmflag hok.2, hpers, hmut, hdist, fun k => ?_⟩
  cases call with
  | pts call => exact h.sent k
  | forward src dst => exact h.sent k
  | computeDiffPts var =>
    rw [sendDiff, hmut.diff var]
    show update a.marked var (a.pts var) k ⊆ update sent var
      (sent var ∪ update a.diff var (a.pts var \ a.marked var) var) k
    by_cases hk : k = var
    · subst hk
      rw [update_self, update_self, update_self]
      intro x hx
      by_cases hmarked : x ∈ a.marked k
      · exact .inl (h.sent k hmarked)
      · exact .inr ⟨hx, hmarked⟩
    · rw [update_of_ne hk, update_of_ne hk]
      exact h.sent k
  | updatePropaPtsMap src dst =>
    show update a.marked dst (a.marked dst ∩ a.marked src) k ⊆ sent k
    by_cases hk : k = dst
    · subst hk
      rw [update_self]
      exact Set.inter_subset_left.trans (h.sent k)
    · rw [update_of_ne hk]
      exact h.sent k
  | clearPropaPts var =>
    show update a.marked var ∅ k ⊆ sent k
    by_cases hk : k = var
    · subst hk
      rw [update_self]
      exact Set.empty_subset _
    · rw [update_of_ne hk]
      exact h.sent k

/-- **Run lemma.** -/
theorem Runs.inv (hr : Runs p m sent) : ∃ a, DiffInv p m sent a := by
  induction hr with
  | init reversePT =>
    exact ⟨_, persDiffRep_init reversePT, mutDiffRep_init reversePT, distinct_fresh,
      fun _ => .refl _⟩
  | step _ hok hs ih =>
    obtain ⟨a, h⟩ := ih
    exact ⟨_, (h.step hok hs).2.2⟩

/-- What both stores show of a key is the same. -/
structure SameSets (p : PersistentDiffPTData Key α D) (m : MutableDiffPTData Key α D) : Prop where
  getPts : ∀ k, ∃ d, p.getPts k = .ok d ∧ den d = den (m.getPts k)
  getDiffPts : ∀ k, ∃ d, p.getDiffPts k = .ok d ∧ den d = den (m.getDiffPts k)
  getPropaPts : ∀ k, ∃ d, p.getPropaPts k = .ok d ∧ den d = den (m.getPropaPts k)

theorem exists_getActualPts {c : PersistentPointsToCache D} {id : PointsToID} {S T : Set α}
    (hS : c.denOf id = some S) (hT : T = S) : ∃ d, c.getActualPts id = .ok d ∧ den d = T := by
  cases hd : c.getActualPts id with
  | error e => exact absurd ((getActualPts_error hd).2.symm.trans hS).symm (some_ne_none S)
  | ok d => exact ⟨d, rfl, (den_of_getActualPts hd hS).trans hT.symm⟩

theorem DiffInv.sameSets (h : DiffInv p m sent a) : SameSets p m :=
  ⟨fun k => exists_getActualPts (h.persRep.pts.pts k) (h.mutRep.pts.pts k),
    fun k => exists_getActualPts (h.persRep.diff k) (h.mutRep.diff k),
    fun k => exists_getActualPts (h.persRep.marked k) (h.mutRep.marked k)⟩

def DiffCallSpec (m : MutableDiffPTData Key α D) (call : DiffCall Key α D) (o : Option Bool)
    (m' : MutableDiffPTData Key α D) : Prop :=
  match call with
  | .computeDiffPts var =>
    (∃ b, o = some b ∧ (b = true ↔ den (m'.getDiffPts var) ≠ ∅)) ∧
    den (m'.getDiffPts var) = den (m.getPts var) \ den (m.getPropaPts var) ∧
    den (m'.getPropaPts var) = den (m.getPts var)
  | .updatePropaPtsMap src dst =>
    den (m'.getPropaPts dst) = den (m.getPropaPts dst) ∩ den (m.getPropaPts src)
  | .clearPropaPts var => den (m'.getPropaPts var) = ∅
  | _ => True

theorem DiffInv.callSpec (h : DiffInv p m sent a) (call : DiffCall Key α D) :
    DiffCallSpec m call (absDiffStep a call).1 (mutDiffStep m call).2 := by
  have hmut := (mutDiffStep_refines h.mutRep call).2
  have hpts : ∀ k, den (m.getPts k) = a.pts k := h.mutRep.pts.pts
  cases call with
  | pts call => exact trivial
  | forward src dst => exact trivial
  | computeDiffPts var =>
    have hdiff := (hmut.diff var).trans (update_self var _ a.diff)
    refine ⟨⟨_, rfl, ?_⟩, ?_, ?_⟩
    · rw [hdiff]
      exact decide_eq_true_iff
    · rw [hdiff, hpts, h.mutRep.marked]
    · exact ((hmut.marked var).trans (update_self var _ a.marked)).trans (hpts var).symm
  | updatePropaPtsMap src dst =>
    refine ((hmut.marked dst).trans (update_self dst _ a.marked)).trans ?_
    rw [h.mutRep.marked, h.mutRep.marked]
  | clearPropaPts var => exact (hmut.marked var).trans (update_self var _ a.marked)

end Refinement

-- ── Lawful sets

section Lawful

variable [LawfulDataSet D]

theorem known_of_lawful (c : PersistentPointsToCache D) (d : D) : Known c d :=
  fun d' _ heq => (LawfulDataSet.beq_iff d' d).mpr heq

/-- **Every call on lawful sets meets the condition.** -/
theorem stepOk_of_lawful (p : PersistentDiffPTData Key α D) (m : MutableDiffPTData Key α D)
    (call : DiffCall Key α D) : StepOk p m call := by
  have hop : ∀ (c : PersistentPointsToCache D) (lhs rhs : PointsToID)
      (operands : PointsToID × PointsToID) (dataOp : D → D → D) (name : OpCacheName),
      OpKnown c lhs rhs operands dataOp name :=
    fun c _ _ _ _ _ _ l r _ _ => known_of_lawful c _
  have hunion : ∀ (c : PersistentPointsToCache D) (lhs rhs : PointsToID), UnionKnown c lhs rhs :=
    fun c _ _ _ _ => hop c _ _ _ _ _
  have hcomp : ∀ (c : PersistentPointsToCache D) (lhs rhs : PointsToID),
      ComplementKnown c lhs rhs := fun c _ _ _ _ _ => hop c _ _ _ _ _
  have hpts : ∀ call : PtsCall Key α D, p.persPTData.CallKnown call := by
    intro call
    cases call with
    | addPts dstKey element => exact ⟨known_of_lawful _ _, fun _ c _ => hunion c _ _⟩
    | unionPts dstKey srcKey => exact hunion _ _ _
    | unionPtsData dstKey srcData => exact ⟨known_of_lawful _ _, fun _ c _ => hunion c _ _⟩
    | clearPts var element => exact ⟨known_of_lawful _ _, fun _ c _ => hcomp c _ _⟩
    | clearFullPts var => exact trivial
  cases call with
  | pts call => exact ⟨hpts call, callTells_of_lawful _ call⟩
  | forward src dst => exact ⟨fun _ _ => hpts _, LawfulDataSet.unionWith_fst _ _⟩
  | computeDiffPts var => exact ⟨hcomp _ _ _, trivial⟩
  | updatePropaPtsMap src dst => exact ⟨fun _ _ => hop _ _ _ _ _ _, trivial⟩
  | clearPropaPts var => exact ⟨trivial, trivial⟩

end Lawful

end SvfPtsStore
