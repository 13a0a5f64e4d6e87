import SvfModel.DFPTDataProofs

/-!
# The flow-sensitive stores agree

The mutable and the persistent backing of the flow-sensitive stores, and what the four stores
have in common. Either backing denotes sets (`mutableSpec`, `persistentSpec`), so every store
refines the abstract machine of its incrementality; `df_stores_agree` reads the agreement off.
-/

set_option linter.unusedSectionVars false

namespace SvfDFPts

open Set
open SvfPts SvfRun SvfPtsCache SvfPtsCache.PersistentPointsToCache SvfPtsStore Option
open LawfulDataSet (den_empty den_reset den_set)
open Std.HashMap (getD_empty getD_eq_fallback getD_insert)

variable {Key LocID D V : Type} [DecidableEq Key] [Hashable Key] [DecidableEq LocID]
  [Hashable LocID] [DataSet D Key]

abbrev DFMap (LocID Key V : Type) [DecidableEq LocID] [Hashable LocID] [DecidableEq Key]
    [Hashable Key] := Std.HashMap LocID (Std.HashMap Key V)

section

variable (m : DFMap LocID Key V)

def DFMap.get (loc : LocID) (var : Key) (dflt : V) : V :=
  (m.getD loc ∅).getD var dflt

def DFMap.set (loc : LocID) (var : Key) (v : V) : DFMap LocID Key V :=
  m.insert loc ((m.getD loc ∅).insert var v)

theorem DFMap.get_set (l loc : LocID) (w var : Key) (v dflt : V) :
    (m.set l w v).get loc var dflt = if l = loc ∧ w = var then v else m.get loc var dflt := by
  rw [DFMap.get, DFMap.set, getD_insert]
  by_cases hl : l = loc
  · subst hl
    rw [if_pos (beq_self_eq_true l), getD_insert]
    by_cases hv : w = var
    · rw [if_pos (beq_iff_eq.mpr hv), if_pos ⟨rfl, hv⟩]
    · rw [if_neg (mt beq_iff_eq.mp hv), if_neg fun h => hv h.2]
      rfl
  · rw [if_neg (mt beq_iff_eq.mp hl), if_neg fun h => hl h.1]
    rfl

end

theorem DFMap.mem_keys_of_get {m : DFMap LocID Key V} {loc : LocID} {var : Key} (dflt : V)
    (h : m.get loc var dflt ≠ dflt) : var ∈ (m.getD loc ∅).keys := by
  rw [Std.HashMap.mem_keys]
  by_contra hnot
  exact h (getD_eq_fallback hnot)

theorem DFMap.get_of_not_contains {m : DFMap LocID Key V} {loc : LocID}
    (h : m.contains loc = false) (var : Key) (dflt : V) : m.get loc var dflt = dflt := by
  have hnot : loc ∉ m := by
    rw [← Std.HashMap.contains_iff_mem, h]
    exact Bool.false_ne_true
  rw [DFMap.get, getD_eq_fallback hnot, getD_empty]

theorem DFMap.get_empty (loc : LocID) (var : Key) (dflt : V) :
    DFMap.get (∅ : DFMap LocID Key V) loc var dflt = dflt := by
  rw [DFMap.get, getD_empty, getD_empty]

-- ── Mutable sets

structure MutableDFPTData (Key LocID D : Type) [DecidableEq Key] [Hashable Key]
    [DecidableEq LocID] [Hashable LocID] [DataSet D Key] where
  mutPTData : MutablePTData Key Key D
  dfInPtsMap : DFMap LocID Key D
  dfOutPtsMap : DFMap LocID Key D

namespace MutableDFPTData

def init (reversePT : Bool) : MutableDFPTData Key LocID D where
  mutPTData := MutablePTData.init reversePT
  dfInPtsMap := ∅
  dfOutPtsMap := ∅

section

variable (s : MutableDFPTData Key LocID D)

def getSlot : Slot Key LocID → D
  | .pts var => s.mutPTData.getPts var
  | .dfIn loc var => s.dfInPtsMap.get loc var DataSet.empty
  | .dfOut loc var => s.dfOutPtsMap.get loc var DataSet.empty

def setSlot : Slot Key LocID → D → MutableDFPTData Key LocID D
  | .pts var, d =>
    { s with mutPTData := { s.mutPTData with ptsMap := s.mutPTData.ptsMap.insert var d } }
  | .dfIn loc var, d => { s with dfInPtsMap := s.dfInPtsMap.set loc var d }
  | .dfOut loc var, d => { s with dfOutPtsMap := s.dfOutPtsMap.set loc var d }

/-- `operator[]` makes an empty set where there is none. -/
def touch (slot : Slot Key LocID) : MutableDFPTData Key LocID D := s.setSlot slot (s.getSlot slot)

def addPts (dstKey element : Key) : Bool × MutableDFPTData Key LocID D :=
  let (changed, d) := DataSet.testAndSet (s.getSlot (.pts dstKey)) element
  (changed, s.setSlot (.pts dstKey) d)

def unionPtsSet (dst : Slot Key LocID) (srcDataSet : D) : Bool × MutableDFPTData Key LocID D :=
  let (changed, d) := DataSet.unionWith (s.getSlot dst) srcDataSet
  (changed, s.setSlot dst d)

def unionPts (dst src : Slot Key LocID) : Bool × MutableDFPTData Key LocID D :=
  let s := s.touch src
  s.unionPtsSet dst (s.getSlot src)

def unionTLV (dstVar : Key) (srcLoc : LocID) (srcVar : Key) : Bool × MutableDFPTData Key LocID D :=
  let s := s.touch (.dfIn srcLoc srcVar)
  let (changed, mutPTData) := s.mutPTData.unionPtsData dstVar (s.getSlot (.dfIn srcLoc srcVar))
  (changed, { s with mutPTData := mutPTData })

end

end MutableDFPTData

open MutableDFPTData

instance instDFBackingMutable : DFBacking (MutableDFPTData Key LocID D) Key LocID D where
  addPts s dstKey element := .ok (s.addPts dstKey element)
  unionPts s dstKey srcKey := .ok (s.unionPts (.pts dstKey) (.pts srcKey))
  unionPtsData s dstKey src := .ok (s.unionPtsSet (.pts dstKey) src)
  unionSlots s dst src := .ok (s.unionPts dst src)
  unionTLV s dstVar srcLoc srcVar := .ok (s.unionTLV dstVar srcLoc srcVar)
  hasDFInSet s loc := s.dfInPtsMap.contains loc
  hasDFOutSet s loc := s.dfOutPtsMap.contains loc
  dfInVars s loc := (s.dfInPtsMap.getD loc ∅).keys

/-- The `UpdatedVarMap` of the mutable class keeps a `DataSet`. -/
instance instVarSetDataSet : VarSet D Key where
  empty := DataSet.empty
  set := DataSet.set
  reset := DataSet.reset
  test d v := decide (v ∈ DataSet.elems d)
  elems := DataSet.elems

abbrev MutableIncDFPTData (Key LocID D : Type) [DecidableEq Key] [Hashable Key]
    [DecidableEq LocID] [Hashable LocID] [DataSet D Key] :=
  IncDFPTData (MutableDFPTData Key LocID D) D LocID

def MutableIncDFPTData.init (reversePT : Bool) : MutableIncDFPTData Key LocID D where
  base := MutableDFPTData.init reversePT
  outUpdatedVarMap := ∅
  inUpdatedVarMap := ∅

-- ── Shared sets

structure PersistentDFPTData (Key LocID D : Type) [DecidableEq Key] [Hashable Key]
    [DecidableEq LocID] [Hashable LocID] [DataSet D Key] where
  persPTData : PersistentPTData Key Key D
  dfInPtsMap : DFMap LocID Key PointsToID
  dfOutPtsMap : DFMap LocID Key PointsToID

namespace PersistentDFPTData

def init (cache : PersistentPointsToCache D) (reversePT : Bool) :
    PersistentDFPTData Key LocID D where
  persPTData := PersistentPTData.init cache reversePT
  dfInPtsMap := ∅
  dfOutPtsMap := ∅

section

variable (s : PersistentDFPTData Key LocID D)

def ptCache : PersistentPointsToCache D :=
  s.persPTData.ptCache

def getPtId : Slot Key LocID → PointsToID
  | .pts var => s.persPTData.ptsMap.getD var emptyPointsToId
  | .dfIn loc var => s.dfInPtsMap.get loc var emptyPointsToId
  | .dfOut loc var => s.dfOutPtsMap.get loc var emptyPointsToId

def setPtId : Slot Key LocID → PointsToID → PersistentDFPTData Key LocID D
  | .pts var, id =>
    { s with persPTData := { s.persPTData with ptsMap := s.persPTData.ptsMap.insert var id } }
  | .dfIn loc var, id => { s with dfInPtsMap := s.dfInPtsMap.set loc var id }
  | .dfOut loc var, id => { s with dfOutPtsMap := s.dfOutPtsMap.set loc var id }

def touch (slot : Slot Key LocID) :
    PersistentDFPTData Key LocID D := s.setPtId slot (s.getPtId slot)

def getSlot (slot : Slot Key LocID) : Except PtsError D :=
  s.ptCache.getActualPts (s.getPtId slot)

def unionPtsThroughIds (dst src : Slot Key LocID) :
    Except PtsError (Bool × PersistentDFPTData Key LocID D) := do
  let s := s.touch src
  let oldDst := s.getPtId dst
  let (newDst, ptCache) ← s.ptCache.unionPts oldDst (s.getPtId src)
  let s := { s with persPTData := { s.persPTData with ptCache := ptCache } }
  return (decide (oldDst ≠ newDst), s.setPtId dst newDst)

/-- A call on the store of the top-level variables. -/
def onPts (r : Except PtsError (Bool × PersistentPTData Key Key D)) :
    Except PtsError (Bool × PersistentDFPTData Key LocID D) :=
  r.map fun (changed, persPTData) => (changed, { s with persPTData := persPTData })

end

end PersistentDFPTData

open PersistentDFPTData

instance instDFBackingPersistent : DFBacking (PersistentDFPTData Key LocID D) Key LocID D where
  addPts s dstKey element := s.onPts (s.persPTData.addPts dstKey element)
  unionPts s dstKey srcKey := s.onPts (s.persPTData.unionPts dstKey srcKey)
  unionPtsData s dstKey src := s.onPts (s.persPTData.unionPtsData dstKey src)
  unionSlots s dst src := s.unionPtsThroughIds dst src
  unionTLV s dstVar srcLoc srcVar := s.unionPtsThroughIds (.pts dstVar) (.dfIn srcLoc srcVar)
  hasDFInSet s loc := s.dfInPtsMap.contains loc
  hasDFOutSet s loc := s.dfOutPtsMap.contains loc
  dfInVars s loc := (s.dfInPtsMap.getD loc ∅).keys

/-- The `UpdatedVarMap` of the persistent class keeps a `KeySet`. -/
instance instVarSetKeySet : VarSet (Std.HashSet Key) Key where
  empty := ∅
  set := fun vars var => vars.insert var
  reset := fun vars var => vars.erase var
  test := fun vars var => vars.contains var
  elems := fun vars => vars.toList

abbrev PersistentIncDFPTData (Key LocID D : Type) [DecidableEq Key] [Hashable Key]
    [DecidableEq LocID] [Hashable LocID] [DataSet D Key] :=
  IncDFPTData (PersistentDFPTData Key LocID D) (Std.HashSet Key) LocID

def PersistentIncDFPTData.init (cache : PersistentPointsToCache D) (reversePT : Bool) :
    PersistentIncDFPTData Key LocID D where
  base := PersistentDFPTData.init cache reversePT
  outUpdatedVarMap := ∅
  inUpdatedVarMap := ∅

-- ── The backings denote sets

section Specs

variable [LawfulDataSet D]

instance instLawfulVarSetDataSet : LawfulVarSet D where
  elems_empty := by
    have h : den (DataSet.empty : D) = ∅ := den_empty
    exact List.eq_nil_iff_forall_not_mem.mpr fun v hv => (h ▸ mem_den.mpr hv : v ∈ (∅ : Set Key))
  mem_set m v w := by
    show v ∈ DataSet.elems (DataSet.set m w) ↔ _
    rw [← mem_den, den_set, mem_insert_iff, mem_den]
    rfl
  mem_reset m v w := by
    show v ∈ DataSet.elems (DataSet.reset m w) ↔ _
    rw [← mem_den, den_reset, mem_sdiff, mem_singleton_iff, mem_den]
    rfl
  test_iff m v := decide_eq_true_iff

instance instLawfulVarSetKeySet : LawfulVarSet (Std.HashSet Key) where
  elems_empty := Std.HashSet.toList_empty
  mem_set m v w := by
    show v ∈ (m.insert w).toList ↔ v = w ∨ v ∈ m.toList
    rw [Std.HashSet.mem_toList, Std.HashSet.mem_toList, Std.HashSet.mem_insert, beq_iff_eq, eq_comm]
  mem_reset m v w := by
    show v ∈ (m.erase w).toList ↔ v ∈ m.toList ∧ v ≠ w
    rw [Std.HashSet.mem_toList, Std.HashSet.mem_toList, Std.HashSet.mem_erase, beq_eq_false_iff_ne,
      and_comm, ne_comm]
  test_iff m v := by
    show m.contains v = true ↔ v ∈ m.toList
    rw [Std.HashSet.mem_toList, Std.HashSet.contains_iff_mem]

def Slot.held (ptsMap : Std.HashMap Key V) (dfIn dfOut : DFMap LocID Key V) (dflt : V) :
    Slot Key LocID → V
  | .pts var => ptsMap.getD var dflt
  | .dfIn loc var => dfIn.get loc var dflt
  | .dfOut loc var => dfOut.get loc var dflt

theorem Slot.held_set (ptsMap : Std.HashMap Key V) (dfIn dfOut : DFMap LocID Key V) (dflt v : V)
    (slot slot' : Slot Key LocID) :
    (match slot with
      | .pts var => held (ptsMap.insert var v) dfIn dfOut dflt slot'
      | .dfIn loc var => held ptsMap (dfIn.set loc var v) dfOut dflt slot'
      | .dfOut loc var => held ptsMap dfIn (dfOut.set loc var v) dflt slot') =
      if slot' = slot then v else held ptsMap dfIn dfOut dflt slot' := by
  cases slot with
  | pts var =>
    cases slot' with
    | pts var' =>
      refine getD_insert.trans (if_congr ?_ rfl rfl)
      rw [beq_iff_eq, Slot.pts.injEq, eq_comm]
    | dfIn loc var' => exact (if_neg nofun).symm
    | dfOut loc var' => exact (if_neg nofun).symm
  | dfIn loc var =>
    cases slot' with
    | pts var' => exact (if_neg nofun).symm
    | dfIn loc' var' =>
      refine (DFMap.get_set ..).trans (if_congr ?_ rfl rfl)
      rw [Slot.dfIn.injEq, eq_comm (a := loc), eq_comm (a := var)]
    | dfOut loc' var' => exact (if_neg nofun).symm
  | dfOut loc var =>
    cases slot' with
    | pts var' => exact (if_neg nofun).symm
    | dfIn loc' var' => exact (if_neg nofun).symm
    | dfOut loc' var' =>
      refine (DFMap.get_set ..).trans (if_congr ?_ rfl rfl)
      rw [Slot.dfOut.injEq, eq_comm (a := loc), eq_comm (a := var)]

section

variable (s : MutableDFPTData Key LocID D) (slot slot' : Slot Key LocID)

theorem getSlot_setSlot (d : D) :
    (s.setSlot slot d).getSlot slot' = if slot' = slot then d else s.getSlot slot' := by
  have hheld : ∀ t : MutableDFPTData Key LocID D, t.getSlot slot' =
      slot'.held t.mutPTData.ptsMap t.dfInPtsMap t.dfOutPtsMap DataSet.empty := fun t => by
    cases slot' <;> rfl
  rw [hheld, hheld, ← Slot.held_set]
  cases slot <;> rfl

theorem getSlot_touch :
    (s.touch slot).getSlot slot' = s.getSlot slot' := by
  rw [MutableDFPTData.touch, getSlot_setSlot]
  by_cases h : slot' = slot
  · rw [if_pos h, h]
  · rw [if_neg h]

end

variable {s : MutableDFPTData Key LocID D} {f : Slot Key LocID → Set Key} {S : Set Key}
  {srcId : PointsToID} {k : Key}

def MutDenotes (s : MutableDFPTData Key LocID D) (f : Slot Key LocID → Set Key) : Prop :=
  ∀ slot, den (s.getSlot slot) = f slot

section

variable (h : MutDenotes s f)
include h

theorem MutDenotes.set (slot : Slot Key LocID) (d : D) :
    MutDenotes (s.setSlot slot d) (Function.update f slot (den d)) := by
  intro slot'
  rw [getSlot_setSlot]
  by_cases hs : slot' = slot
  · subst hs
    rw [if_pos rfl, Function.update_self]
  · rw [if_neg hs, Function.update_of_ne hs, h]

theorem MutDenotes.touch (slot : Slot Key LocID) : MutDenotes (s.touch slot) f := by
  intro slot'
  rw [getSlot_touch, h]

theorem MutDenotes.unionPtsSet (dst : Slot Key LocID) (d : D) :
    Unions (fun _ => False) MutDenotes f dst (den d) (.ok (s.unionPtsSet dst d)) := by
  have hb : (DataSet.unionWith (s.getSlot dst) d).1 ↔ ¬ den d ⊆ f dst := by
    rw [LawfulDataSet.unionWith_fst, h]
  have hd : den (DataSet.unionWith (s.getSlot dst) d).2 = f dst ∪ den d := by
    rw [LawfulDataSet.unionWith_snd, h]
  refine Unions.ok hb ?_
  rw [← hd]
  exact h.set dst _

theorem MutDenotes.unionPts (dst src : Slot Key LocID) :
    Unions (fun _ => False) MutDenotes f dst (f src) (.ok (s.unionPts dst src)) := by
  have htouch := h.touch src
  rw [← htouch src]
  exact htouch.unionPtsSet dst _

theorem MutDenotes.unionTLV (dstVar : Key) (srcLoc : LocID) (srcVar : Key) :
    Unions (fun _ => False) MutDenotes f (.pts dstVar) (f (.dfIn srcLoc srcVar))
      (.ok (s.unionTLV dstVar srcLoc srcVar)) := by
  have htouch := h.touch (.dfIn srcLoc srcVar)
  have hset := htouch.unionPtsSet (.pts dstVar) ((s.touch (.dfIn srcLoc srcVar)).getSlot
    (.dfIn srcLoc srcVar))
  rw [htouch] at hset
  obtain ⟨hb, hR⟩ := hset.1 _ _ rfl
  -- the reverse sets are no slot
  have hpts : ∀ (m : MutablePTData Key Key D) (pts : List Key) (k : Key),
      (m.addRevPts pts k).ptsMap = m.ptsMap := by
    intro m pts k
    rw [MutablePTData.addRevPts]
    split_ifs
    · rfl
    · rfl
  have hunion : ∀ (m : MutablePTData Key Key D) (d : D),
      (m.unionPtsData dstVar d).1 = (DataSet.unionWith (m.getPts dstVar) d).1 ∧
      (m.unionPtsData dstVar d).2.ptsMap =
        m.ptsMap.insert dstVar (DataSet.unionWith (m.getPts dstVar) d).2 := by
    intro m d
    constructor
    · show (DataSet.unionWith ((m.addRevPts _ _).getPts dstVar) d).1 = _
      rw [getPts_addRevPts]
    · show (m.addRevPts _ _).ptsMap.insert dstVar
        (DataSet.unionWith ((m.addRevPts _ _).getPts dstVar) d).2 = _
      rw [getPts_addRevPts, hpts]
  refine Unions.ok ?_ fun slot => ?_
  · rw [← hb]
    exact iff_of_eq (congrArg (· = true) (hunion _ _).1)
  · rw [← hR slot]
    cases slot with
    | pts var => exact congrArg (fun m => den (Std.HashMap.getD m var DataSet.empty)) (hunion _ _).2
    | dfIn loc var => rfl
    | dfOut loc var => rfl

theorem MutDenotes.addPts (k e : Key) :
    Unions (fun _ => False) MutDenotes f (.pts k) {e} (.ok (s.addPts k e)) := by
  have hb : (DataSet.testAndSet (s.getSlot (.pts k)) e).1 ↔ ¬ {e} ⊆ f (.pts k) := by
    rw [LawfulDataSet.testAndSet_fst, h, singleton_subset_iff]
  have hd : den (DataSet.testAndSet (s.getSlot (.pts k)) e).2 = f (.pts k) ∪ {e} := by
    rw [LawfulDataSet.testAndSet_snd, h, union_comm]
    rfl
  refine Unions.ok hb ?_
  rw [← hd]
  exact h.set _ _

end

/-- **The mutable backing denotes sets**, and never fails. -/
theorem mutableSpec :
    BackingSpec (fun _ => False) (MutDenotes : MutableDFPTData Key LocID D → _ → Prop) where
  addPts h k e := h.addPts k e
  unionPts h dst src := h.unionPts _ _
  unionPtsData h dst d := h.unionPtsSet _ _
  unionSlots h dst src := h.unionPts _ _
  unionTLV h dst loc var := h.unionTLV _ _ _
  hasDFInSet h loc hin var := by
    rw [← h, MutableDFPTData.getSlot, DFMap.get_of_not_contains hin, den_empty]
  hasDFOutSet h loc hout var := by
    rw [← h, MutableDFPTData.getSlot, DFMap.get_of_not_contains hout, den_empty]
  dfInVars h loc var hne := by
    refine DFMap.mem_keys_of_get DataSet.empty fun heq => ?_
    rw [← h, MutableDFPTData.getSlot, heq, den_empty] at hne
    exact not_nonempty_empty hne

theorem getPtId_setPtId (s : PersistentDFPTData Key LocID D) (slot slot' : Slot Key LocID)
    (id : PointsToID) :
    (s.setPtId slot id).getPtId slot' = if slot' = slot then id else s.getPtId slot' := by
  have hheld : ∀ t : PersistentDFPTData Key LocID D, t.getPtId slot' =
      slot'.held t.persPTData.ptsMap t.dfInPtsMap t.dfOutPtsMap emptyPointsToId := fun t => by
    cases slot' <;> rfl
  rw [hheld, hheld, ← Slot.held_set]
  cases slot <;> rfl

theorem ptCache_setPtId (s : PersistentDFPTData Key LocID D) (slot : Slot Key LocID)
    (id : PointsToID) : (s.setPtId slot id).ptCache = s.ptCache := by
  cases slot with
  | pts var => rfl
  | dfIn loc var => rfl
  | dfOut loc var => rfl

structure PersDenotes (s : PersistentDFPTData Key LocID D) (f : Slot Key LocID → Set Key) :
    Prop where
  inv : s.ptCache.Inv
  ids : ∀ slot, s.ptCache.denOf (s.getPtId slot) = some (f slot)

theorem PersDenotes.touch {s : PersistentDFPTData Key LocID D} (h : PersDenotes s f)
    (slot : Slot Key LocID) : PersDenotes (s.touch slot) f := by
  constructor
  · rw [PersistentDFPTData.touch, ptCache_setPtId]
    exact h.inv
  · intro slot'
    rw [PersistentDFPTData.touch, ptCache_setPtId, getPtId_setPtId]
    by_cases hs : slot' = slot
    · rw [if_pos hs, hs, h.ids]
    · rw [if_neg hs, h.ids]

/-- Putting the id of a union into a slot: the id changes exactly if the set does, as lawful
    sets have one id. -/
theorem PersDenotes.union {s t : PersistentDFPTData Key LocID D} (h : PersDenotes s f)
    {dst : Slot Key LocID} {srcId newId : PointsToID} {c : PersistentPointsToCache D}
    (hsrc : s.ptCache.denOf srcId = some S)
    (hu : s.ptCache.unionPts (s.getPtId dst) srcId = .ok (newId, c)) (hc : t.ptCache = c)
    (hids : ∀ slot, t.getPtId slot = if slot = dst then newId else s.getPtId slot) :
    (newId ≠ s.getPtId dst ↔ ¬ S ⊆ f dst) ∧ PersDenotes t (Function.update f dst (f dst ∪ S)) := by
  obtain ⟨hg, hden⟩ := unionPts_ok h.inv hu
  have hnew : c.denOf newId = some (f dst ∪ S) := hden _ _ (h.ids dst) hsrc
  have hold : ∀ slot, c.denOf (s.getPtId slot) = some (f slot) := fun slot =>
    hg.keeps _ _ (h.ids slot)
  refine ⟨not_congr ?_, ?_, fun slot => ?_⟩
  · constructor
    · intro heq
      rw [heq, hold] at hnew
      exact union_eq_left.mp (some.inj hnew).symm
    · intro hsub
      rw [union_eq_left.mpr hsub] at hnew
      exact distinct_of_inv hg.inv _ _ _ hnew (hold dst)
  · rw [hc]
    exact hg.inv
  · rw [hc, hids]
    by_cases hs : slot = dst
    · subst hs
      rw [if_pos rfl, Function.update_self]
      exact hnew
    · rw [if_neg hs, Function.update_of_ne hs]
      exact hold slot

theorem PersDenotes.union_error {s : PersistentDFPTData Key LocID D} (h : PersDenotes s f)
    {dst : Slot Key LocID} {e : PtsError} (hsrc : s.ptCache.denOf srcId = some S)
    (hu : s.ptCache.unionPts (s.getPtId dst) srcId = .error e) : e = .idsExhausted := by
  rcases unionPts_error h.inv hu with ⟨-, hl | hr⟩ | hfull
  · exact absurd (hl.symm.trans (h.ids dst)).symm (some_ne_none _)
  · exact absurd (hr.symm.trans hsrc).symm (some_ne_none _)
  · exact hfull.1

theorem PersDenotes.unionPtsThroughIds {s : PersistentDFPTData Key LocID D} (h : PersDenotes s f)
    (dst src : Slot Key LocID) :
    Unions (· = .idsExhausted) PersDenotes f dst (f src) (s.unionPtsThroughIds dst src) := by
  have ht := h.touch src
  constructor
  · intro b t hr
    obtain ⟨⟨newId, c⟩, hu, hr⟩ := bind_ok.mp hr
    cases hr
    obtain ⟨hb, hR⟩ := ht.union (t := PersistentDFPTData.setPtId { s.touch src with
      persPTData := { (s.touch src).persPTData with ptCache := c } } dst newId)
      (ht.ids src) hu (ptCache_setPtId _ _ _) fun slot => getPtId_setPtId _ _ _ _
    refine ⟨?_, hR⟩
    rw [decide_eq_true_iff, ne_comm]
    exact hb
  · intro e hr
    rcases bind_error.mp hr with hu | ⟨⟨newId, c⟩, -, hr⟩
    · exact ht.union_error (ht.ids src) hu
    · cases hr

/-- What `unionPtsFromId` does, apart from the reverse sets. -/
theorem unionPtsFromId_run {p p' : PersistentPTData Key Key D} {b : Bool}
    (hu : p.unionPtsFromId k srcId = .ok (b, p')) :
    ∃ newId, p.ptCache.unionPts (p.ptsMap.getD k emptyPointsToId) srcId = .ok (newId, p'.ptCache) ∧
      b = decide (newId ≠ p.ptsMap.getD k emptyPointsToId) ∧
      ∀ j, p'.ptsMap.getD j emptyPointsToId =
        if j = k then newId else p.ptsMap.getD j emptyPointsToId := by
  obtain ⟨⟨newId, c⟩, hc, hu⟩ := bind_ok.mp hu
  have hinsert : ∀ j, (p.ptsMap.insert k newId).getD j emptyPointsToId =
      if j = k then newId else p.ptsMap.getD j emptyPointsToId := by
    intro j
    rw [getD_insert]
    refine if_congr ?_ rfl rfl
    rw [beq_iff_eq, eq_comm]
  refine ⟨newId, ?_⟩
  by_cases hch : newId = p.ptsMap.getD k emptyPointsToId
  · simp only [hch, ne_eq, not_true_eq_false, decide_false, Bool.false_eq_true, if_false] at hu
    cases hu
    refine ⟨hc, ?_, fun j => ?_⟩
    · rw [decide_eq_false (not_not.mpr hch)]
    · by_cases hj : j = k
      · rw [if_pos hj, hch, hj]
      · rw [if_neg hj]
  · have hdec : decide (newId ≠ p.ptsMap.getD k emptyPointsToId) := decide_eq_true hch
    simp only [hdec, if_true] at hu
    cases hrev : p.rev with
    | false =>
      simp only [hrev, Bool.false_eq_true, if_false] at hu
      cases hu
      exact ⟨hc, hdec.symm, hinsert⟩
    | true =>
      simp only [hrev, if_true] at hu
      obtain ⟨d, -, hu⟩ := bind_ok.mp hu
      cases hu
      exact ⟨hc, hdec.symm, hinsert⟩

theorem getPtId_onPts (s : PersistentDFPTData Key LocID D) {p : PersistentPTData Key Key D}
    {newId : PointsToID} (hp : ∀ j, p.ptsMap.getD j emptyPointsToId =
      if j = k then newId else s.persPTData.ptsMap.getD j emptyPointsToId) (slot : Slot Key LocID) :
    ({ s with persPTData := p } : PersistentDFPTData Key LocID D).getPtId slot =
      if slot = .pts k then newId else s.getPtId slot := by
  cases slot with
  | pts var =>
    refine (hp var).trans (if_congr ?_ rfl rfl)
    rw [Slot.pts.injEq]
  | dfIn loc var => exact (if_neg nofun).symm
  | dfOut loc var => exact (if_neg nofun).symm

section

variable {s : PersistentDFPTData Key LocID D} (h : PersDenotes s f) (k : Key)
include h

theorem PersDenotes.unionPtsFromId (hsrc : s.ptCache.denOf srcId = some S) :
    Unions (· = .idsExhausted) PersDenotes f (.pts k) S
      (s.onPts (s.persPTData.unionPtsFromId k srcId)) := by
  constructor
  · intro b t hr
    obtain ⟨⟨b', p'⟩, hu, hr⟩ := map_ok hr
    cases hr
    obtain ⟨newId, hc, rfl, hids⟩ := unionPtsFromId_run hu
    have hc' : s.ptCache.unionPts (s.getPtId (.pts k)) srcId = .ok (newId, _) := hc
    have hids' : ∀ slot, PersistentDFPTData.getPtId { s with persPTData := p' } slot =
        if slot = .pts k then newId else s.getPtId slot := getPtId_onPts s hids
    obtain ⟨hb, hR⟩ := h.union hsrc hc' rfl hids'
    exact ⟨decide_eq_true_iff.trans hb, hR⟩
  · intro e hr
    have hfail : s.ptCache.unionPts (s.getPtId (.pts k)) srcId = .error e :=
      unionPtsFromId_fails h.inv hsrc (map_error hr)
    exact h.union_error hsrc hfail

/-- Interning a set first, as `addPts` and the `unionPts` of a set do. -/
theorem PersDenotes.emplaceUnion (d : D) :
    Unions (· = .idsExhausted) PersDenotes f (.pts k) (den d) (s.onPts (do
      let (srcId, ptCache) ← s.ptCache.emplacePts d
      PersistentPTData.unionPtsFromId { s.persPTData with ptCache := ptCache } k srcId)) := by
  have hgrown : ∀ (srcId : PointsToID) (c : PersistentPointsToCache D),
      s.ptCache.emplacePts d = .ok (srcId, c) →
      Unions (· = .idsExhausted) PersDenotes f (.pts k) (den d)
        (PersistentDFPTData.onPts { s with persPTData := { s.persPTData with ptCache := c } }
          (PersistentPTData.unionPtsFromId { s.persPTData with ptCache := c } k srcId)) := by
    intro srcId c hc
    obtain ⟨hg, hid⟩ := emplacePts_ok h.inv hc
    have h' : PersDenotes { s with persPTData := { s.persPTData with ptCache := c } } f :=
      ⟨hg.inv, fun slot => by
        refine Eq.trans ?_ (hg.keeps _ _ (h.ids slot))
        cases slot with
        | pts var => rfl
        | dfIn loc var => rfl
        | dfOut loc var => rfl⟩
    exact h'.unionPtsFromId k hid
  constructor
  · intro b t hr
    obtain ⟨⟨b', p'⟩, hu, hr⟩ := map_ok hr
    obtain ⟨⟨srcId, c⟩, hc, hu⟩ := bind_ok.mp hu
    refine (hgrown srcId c hc).1 b t ?_
    dsimp only at hu
    rw [PersistentDFPTData.onPts, hu]
    exact congrArg Except.ok hr
  · intro e hr
    rcases bind_error.mp (map_error hr) with hc | ⟨⟨srcId, c⟩, hc, hu⟩
    · exact (emplacePts_error h.inv hc).1
    · refine (hgrown srcId c hc).2 e ?_
      dsimp only at hu
      rw [PersistentDFPTData.onPts, hu]
      rfl

end

/-- **The persistent backing denotes sets**, and only fails when its ids are exhausted. -/
theorem persistentSpec : BackingSpec (· = .idsExhausted)
      (PersDenotes : PersistentDFPTData Key LocID D → _ → Prop) where
  addPts h k e := by
    have hd : den (DataSet.set (DataSet.empty : D) e) = {e} := by
      rw [den_set, den_empty, insert_empty_eq]
    rw [← hd]
    exact h.emplaceUnion k _
  unionPts h dst src := h.unionPtsFromId dst (h.ids (.pts src))
  unionPtsData h dst d := h.emplaceUnion dst d
  unionSlots h dst src := h.unionPtsThroughIds _ _
  unionTLV h dst loc var := h.unionPtsThroughIds _ _
  hasDFInSet h loc hin var := by
    have hid := h.ids (.dfIn loc var)
    rw [PersistentDFPTData.getPtId, DFMap.get_of_not_contains hin, h.inv.empty] at hid
    exact (some.inj hid).symm
  hasDFOutSet h loc hout var := by
    have hid := h.ids (.dfOut loc var)
    rw [PersistentDFPTData.getPtId, DFMap.get_of_not_contains hout, h.inv.empty] at hid
    exact (some.inj hid).symm
  dfInVars h loc var hne := by
    refine DFMap.mem_keys_of_get emptyPointsToId fun heq => ?_
    have hid := h.ids (.dfIn loc var)
    rw [PersistentDFPTData.getPtId, heq, h.inv.empty] at hid
    rw [← some.inj hid] at hne
    exact not_nonempty_empty hne

end Specs

-- ── Agreement

section Agreement

theorem run_refines {τ : Type} {E : PtsError → Prop} {R : τ → DFState Key LocID → Prop}
    {inc : Bool} {step : τ → DFCall Key LocID D → Except PtsError (Option Bool × τ)}
    (hstep : ∀ t a c, R t a → Refines E R inc a c (step t c)) {t : τ}
    (h : R t DFState.empty) (calls : List (DFCall Key LocID D)) :
    (∀ outs t', runM step t calls = .ok (outs, t') →
      outs = (run (absStep inc) DFState.empty calls).1 ∧ R t' (absAfter inc calls)) ∧
    ∀ e, runM step t calls = .error e → E e := by
  constructor
  · intro outs t' hrun
    exact runM_sim (R := R) (fun t a c o t' hR hs => (hstep t a c hR).1 o t' hs) calls t t' _
      outs h hrun
  · intro e hrun
    have hok : ∀ t c o t', (∃ a, R t a) → step t c = .ok (o, t') →
        (∃ a, R t' a) ∧ (fun _ : τ => 0) t' ≤ (fun _ : τ => 0) t + 0 :=
      fun t c o t' ⟨a, hR⟩ hs => ⟨⟨_, ((hstep t a c hR).1 o t' hs).2⟩, le_rfl⟩
    have herr : ∀ t c e, (∃ a, R t a) → step t c = .error e → E e :=
      fun t c e ⟨a, hR⟩ hs => (hstep t a c hR).2 e hs
    exact runM_error (I := fun t => ∃ a, R t a) (E := fun e (_ : ℕ) => E e) (k := 0)
      (fun _ _ _ _ he => he) hok herr calls t e ⟨_, h⟩ hrun

variable [LawfulDataSet D]

theorem mutDenotes_init (reversePT : Bool) :
    MutDenotes (MutableDFPTData.init reversePT : MutableDFPTData Key LocID D)
      (DFState.empty : DFState Key LocID).sets := by
  intro slot
  cases slot with
  | pts var =>
    show den (Std.HashMap.getD ∅ var DataSet.empty) = ∅
    rw [getD_empty, den_empty]
  | dfIn loc var =>
    show den (DFMap.get ∅ loc var DataSet.empty) = ∅
    rw [DFMap.get_empty, den_empty]
  | dfOut loc var =>
    show den (DFMap.get ∅ loc var DataSet.empty) = ∅
    rw [DFMap.get_empty, den_empty]

theorem persDenotes_init {cache : PersistentPointsToCache D} (h : cache.Inv) (reversePT : Bool) :
    PersDenotes (PersistentDFPTData.init cache reversePT : PersistentDFPTData Key LocID D)
      (DFState.empty : DFState Key LocID).sets := by
  refine ⟨h, fun slot => ?_⟩
  show cache.denOf _ = some ∅
  rw [← h.empty]
  congr 1
  cases slot with
  | pts var => exact getD_empty
  | dfIn loc var => exact DFMap.get_empty loc var emptyPointsToId
  | dfOut loc var => exact DFMap.get_empty loc var emptyPointsToId

theorem showsInc_init {σ M : Type} [VarSet M Key] [LawfulVarSet M]
    {Rep : σ → (Slot Key LocID → Set Key) → Prop} {s : σ}
    (h : Rep s (DFState.empty : DFState Key LocID).sets) :
    ShowsInc Rep (IncDFPTData.mk s ∅ ∅ : IncDFPTData σ M LocID) DFState.empty := by
  have hnone : ∀ loc, marks (∅ : Std.HashMap LocID M) loc = ∅ := by
    intro loc
    ext v
    rw [marks, getD_empty, LawfulVarSet.elems_empty]
    exact iff_of_false List.not_mem_nil id
  exact ⟨h, hnone, hnone, fun _ _ hv => hv.elim, fun _ _ hv => hv.elim⟩

theorem mutable_run (reversePT : Bool) (calls : List (DFCall Key LocID D)) :
    ∃ m, runM DFPTData.step (MutableDFPTData.init reversePT : MutableDFPTData Key LocID D) calls =
        .ok ((run (absStep false) DFState.empty calls).1, m) ∧
      MutDenotes m (absAfter false calls).sets := by
  obtain ⟨hok, herr⟩ := run_refines (R := ShowsSets MutDenotes)
    (fun t a c h => step_refines mutableSpec h c) (mutDenotes_init reversePT) calls
  cases hrun : runM DFPTData.step
      (MutableDFPTData.init reversePT : MutableDFPTData Key LocID D) calls with
  | error e => exact (herr e hrun).elim
  | ok r =>
    obtain ⟨houts, hR⟩ := hok r.1 r.2 hrun
    exact ⟨r.2, congrArg Except.ok (Prod.ext houts rfl), hR⟩

theorem mutableInc_run (reversePT : Bool) (calls : List (DFCall Key LocID D)) :
    ∃ m, runM IncDFPTData.step
        (MutableIncDFPTData.init reversePT : MutableIncDFPTData Key LocID D) calls =
          .ok ((run (absStep true) DFState.empty calls).1, m) ∧
      ShowsInc MutDenotes m (absAfter true calls) := by
  obtain ⟨hok, herr⟩ := run_refines (R := ShowsInc (M := D) MutDenotes)
    (fun t a c h => incStep_refines mutableSpec h c) (showsInc_init (mutDenotes_init reversePT))
    calls
  cases hrun : runM IncDFPTData.step
      (MutableIncDFPTData.init reversePT : MutableIncDFPTData Key LocID D) calls with
  | error e => exact (herr e hrun).elim
  | ok r =>
    obtain ⟨houts, hR⟩ := hok r.1 r.2 hrun
    exact ⟨r.2, congrArg Except.ok (Prod.ext houts rfl), hR⟩

/-- The points-to sets of a persistent and of a mutable store are the same: those of the
    top-level variables and, for every location, the IN and OUT sets. -/
def SameSets (p : PersistentDFPTData Key LocID D) (m : MutableDFPTData Key LocID D) : Prop :=
  ∀ slot, ∃ d, p.getSlot slot = .ok d ∧ den d = den (m.getSlot slot)

theorem sameSets_of_denotes {p : PersistentDFPTData Key LocID D}
    {m : MutableDFPTData Key LocID D} {f : Slot Key LocID → Set Key} (hp : PersDenotes p f)
    (hm : MutDenotes m f) : SameSets p m := by
  intro slot
  cases hd : p.getSlot slot with
  | error e =>
    have hnone := (getActualPts_error hd).2
    exact absurd (hnone.symm.trans (hp.ids slot)).symm (some_ne_none _)
  | ok d =>
    have hden := (getActualPts_ok hd).symm.trans (hp.ids slot)
    exact ⟨d, rfl, (some.inj hden).trans (hm slot).symm⟩

/-- No variable is skipped whose set is not in its target: it has new data, or the target has
    its set. -/
def Settled (m : MutableIncDFPTData Key LocID D) : DFCall Key LocID D → Prop
  | .updateDFInFromIn srcLoc srcVar dstLoc dstVar =>
    m.varHasNewDFInPts srcLoc srcVar = true ∨
      den (m.base.getSlot (.dfIn srcLoc srcVar)) ⊆ den (m.base.getSlot (.dfIn dstLoc dstVar))
  | .updateDFInFromOut srcLoc srcVar dstLoc dstVar =>
    m.varHasNewDFOutPts srcLoc srcVar = true ∨
      den (m.base.getSlot (.dfOut srcLoc srcVar)) ⊆ den (m.base.getSlot (.dfIn dstLoc dstVar))
  | .updateDFOutFromIn srcLoc srcVar dstLoc dstVar =>
    m.varHasNewDFInPts srcLoc srcVar = true ∨
      den (m.base.getSlot (.dfIn srcLoc srcVar)) ⊆ den (m.base.getSlot (.dfOut dstLoc dstVar))
  | .updateAllDFOutFromIn loc singleton strongUpdates =>
    ∀ var, ¬ (strongUpdates = true ∧ var = singleton) →
      m.varHasNewDFInPts loc var = true ∨
        den (m.base.getSlot (.dfIn loc var)) ⊆ den (m.base.getSlot (.dfOut loc var))
  | .updateTLVPts srcLoc srcVar dstVar =>
    m.varHasNewDFInPts srcLoc srcVar = true ∨
      den (m.base.getSlot (.dfIn srcLoc srcVar)) ⊆ den (m.base.getSlot (.pts dstVar))
  | _ => True

omit [LawfulDataSet D] in
theorem not_skips_single {a : DFState Key LocID} {c : DFCall Key LocID D}
    {dst : Slot Key LocID} {S : Set Key} {G : Prop} (h : WritesOne true a c dst S G) :
    ¬ Skips a c ↔ G ∨ S ⊆ a.sets dst := by
  have hgate : ∀ slot, gate a c slot ↔ G := fun slot =>
    ⟨fun hg => (h.gate_eq slot).mp fun _ => hg, fun hG => (h.gate_eq slot).mpr hG rfl⟩
  rw [← not_iff_not, not_not, not_or]
  constructor
  · rintro ⟨slot, hg, hs⟩
    rw [h.adds_eq] at hs
    obtain ⟨x, ⟨rfl, hx⟩, hnot⟩ := not_subset.mp hs
    exact ⟨mt (hgate slot).mpr hg, fun hsub => hnot (hsub hx)⟩
  · rintro ⟨hG, hs⟩
    refine ⟨dst, mt (hgate dst).mp hG, fun hsub => hs fun x hx => hsub ?_⟩
    rw [h.adds_eq]
    exact ⟨rfl, hx⟩

omit [LawfulDataSet D] in
theorem not_skips_updateAll {a : DFState Key LocID} {loc : LocID} {singleton : Key}
    {strongUpdates : Bool} :
    ¬ Skips a (.updateAllDFOutFromIn loc singleton strongUpdates : DFCall Key LocID D) ↔
      ∀ var, ¬ (strongUpdates ∧ var = singleton) →
        var ∈ a.inUpd loc ∨ a.sets (.dfIn loc var) ⊆ a.sets (.dfOut loc var) := by
  constructor
  · intro h var hvar
    by_contra hc
    obtain ⟨hv, hs⟩ := not_or.mp hc
    refine h ⟨.dfOut loc var, fun hg => hv (hg var rfl), fun hsub => hs fun x hx => hsub ?_⟩
    exact ⟨var, rfl, hvar, hx⟩
  · rintro h ⟨slot, hg, hs⟩
    obtain ⟨x, ⟨var, rfl, hvar, hx⟩, hnot⟩ := not_subset.mp hs
    rcases h var hvar with hv | hsub
    · refine hg fun w hw => ?_
      rw [← (Slot.dfOut.inj hw).2]
      exact hv
    · exact hnot (hsub hx)

theorem settled_iff {m : MutableIncDFPTData Key LocID D} {a : DFState Key LocID}
    (h : ShowsInc MutDenotes m a) (c : DFCall Key LocID D) : Settled m c ↔ ¬ Skips a c := by
  have hopen : (∀ slot, gate a c slot) → (True ↔ ¬ Skips a c) := fun hg =>
    iff_of_true trivial fun ⟨slot, hnot, _⟩ => hnot (hg slot)
  cases c with
  | addPts dstKey element => exact hopen fun _ => trivial
  | unionPts dstKey srcKey => exact hopen fun _ => trivial
  | unionPtsData dstKey srcDataSet => exact hopen fun _ => trivial
  | updateDFInFromIn srcLoc srcVar dstLoc dstVar =>
    rw [not_skips_single (G := srcVar ∈ a.inUpd srcLoc) (WritesOne.inc rfl fun _ => .rfl), Settled,
      varHasNewDFInPts_iff h, h.sets, h.sets]
  | updateDFInFromOut srcLoc srcVar dstLoc dstVar =>
    rw [not_skips_single (G := srcVar ∈ a.outUpd srcLoc) (WritesOne.inc rfl fun _ => .rfl), Settled,
      varHasNewDFOutPts_iff h, h.sets, h.sets]
  | updateDFOutFromIn srcLoc srcVar dstLoc dstVar =>
    rw [not_skips_single (G := srcVar ∈ a.inUpd srcLoc) (WritesOne.inc rfl fun _ => .rfl), Settled,
      varHasNewDFInPts_iff h, h.sets, h.sets]
  | updateAllDFInFromOut srcLoc srcVar dstLoc dstVar => exact hopen fun _ => trivial
  | updateAllDFInFromIn srcLoc srcVar dstLoc dstVar => exact hopen fun _ => trivial
  | updateAllDFOutFromIn loc singleton strongUpdates =>
    rw [not_skips_updateAll, Settled]
    refine forall_congr' fun var => imp_congr_right fun _ => ?_
    rw [varHasNewDFInPts_iff h, h.sets, h.sets]
  | updateTLVPts srcLoc srcVar dstVar =>
    rw [not_skips_single (G := srcVar ∈ a.inUpd srcLoc) (WritesOne.inc rfl fun _ => .rfl), Settled,
      varHasNewDFInPts_iff h, h.sets, h.sets]
  | updateATVPts srcVar dstLoc dstVar => exact hopen fun _ => trivial
  | clearAllDFOutUpdatedVar loc => exact hopen fun _ => trivial

/-- **The flow-sensitive stores agree.** Over a cache with any earlier history, for every sequence
    of calls, the persistent and the mutable store of the same incrementality return the same
    flags and end with the same sets; the persistent run only stops early when the ids are
    exhausted. The incremental sets are among the others, and in a run they are the same after
    every call exactly if no call skips a variable whose set is not in its target. -/
theorem df_stores_agree {earlier : List (CacheCall D)} {ids : List PointsToID}
    {cache : PersistentPointsToCache D}
    (hcache : runM SvfPtsCache.step (fresh : PersistentPointsToCache D)
      earlier = .ok (ids, cache))
    (reversePT : Bool) (calls : List (DFCall Key LocID D)) :
    (∀ outs p, runM DFPTData.step
        (PersistentDFPTData.init cache reversePT : PersistentDFPTData Key LocID D) calls =
          .ok (outs, p) →
      ∃ m, runM DFPTData.step
        (MutableDFPTData.init reversePT : MutableDFPTData Key LocID D) calls = .ok (outs, m) ∧
        SameSets p m) ∧
    (∀ outs p, runM IncDFPTData.step
        (PersistentIncDFPTData.init cache reversePT : PersistentIncDFPTData Key LocID D) calls =
          .ok (outs, p) →
      ∃ m, runM IncDFPTData.step
        (MutableIncDFPTData.init reversePT : MutableIncDFPTData Key LocID D) calls =
          .ok (outs, m) ∧ SameSets p.base m.base) ∧
    (∀ e, runM DFPTData.step
        (PersistentDFPTData.init cache reversePT : PersistentDFPTData Key LocID D) calls =
          .error e ∨
      runM IncDFPTData.step
        (PersistentIncDFPTData.init cache reversePT : PersistentIncDFPTData Key LocID D) calls =
          .error e → e = .idsExhausted) ∧
    (∃ outs m outs' m', runM DFPTData.step
        (MutableDFPTData.init reversePT : MutableDFPTData Key LocID D) calls = .ok (outs, m) ∧
      runM IncDFPTData.step
        (MutableIncDFPTData.init reversePT : MutableIncDFPTData Key LocID D) calls =
          .ok (outs', m') ∧
      ∀ slot, den (m'.base.getSlot slot) ⊆ den (m.getSlot slot)) ∧
    ((∀ pre, pre <+: calls → ∀ outs m outs' m', runM DFPTData.step
        (MutableDFPTData.init reversePT : MutableDFPTData Key LocID D) pre = .ok (outs, m) →
      runM IncDFPTData.step
        (MutableIncDFPTData.init reversePT : MutableIncDFPTData Key LocID D) pre =
          .ok (outs', m') →
      ∀ slot, den (m'.base.getSlot slot) = den (m.getSlot slot)) ↔
      ∀ pre c, pre ++ [c] <+: calls → ∀ outs' m', runM IncDFPTData.step
        (MutableIncDFPTData.init reversePT : MutableIncDFPTData Key LocID D) pre =
          .ok (outs', m') → Settled m' c) := by
  have hinv : cache.Inv := runM_inv (I := Inv)
    (fun _ _ _ _ hI hs => step_inv hI hs) earlier fresh cache ids inv_fresh hcache
  obtain ⟨hpers, hpersErr⟩ := run_refines (R := ShowsSets PersDenotes)
    (fun t a c h => step_refines persistentSpec h c)
    (persDenotes_init hinv reversePT : PersDenotes
      (PersistentDFPTData.init cache reversePT : PersistentDFPTData Key LocID D) _) calls
  obtain ⟨hinc, hincErr⟩ := run_refines (R := ShowsInc (M := Std.HashSet Key) PersDenotes)
    (fun t a c h => incStep_refines persistentSpec h c)
    (showsInc_init (persDenotes_init hinv reversePT : PersDenotes
      (PersistentDFPTData.init cache reversePT : PersistentDFPTData Key LocID D) _)) calls
  obtain ⟨m, hm, hmR⟩ := mutable_run reversePT calls
  obtain ⟨m', hm', hmR'⟩ := mutableInc_run reversePT calls
  refine ⟨fun outs p hrun => ?_, fun outs p hrun => ?_, fun e he => ?_,
    ⟨_, m, _, m', hm, hm', fun slot => ?_⟩, ?_⟩
  · obtain ⟨rfl, hR⟩ := hpers outs p hrun
    exact ⟨m, hm, sameSets_of_denotes hR hmR⟩
  · obtain ⟨rfl, hR⟩ := hinc outs p hrun
    exact ⟨m', hm', sameSets_of_denotes hR.sets hmR'.sets⟩
  · exact he.elim (hpersErr e) (hincErr e)
  · rw [hmR slot, hmR'.sets slot]
    exact absAfter_le calls slot
  · refine Iff.trans ?_ ((absAfter_eq_iff calls).trans ?_)
    · refine forall_congr' fun pre => imp_congr_right fun _ => ?_
      obtain ⟨n, hn, hnR⟩ := mutable_run reversePT pre
      obtain ⟨n', hn', hnR'⟩ := mutableInc_run reversePT pre
      constructor
      · intro h
        funext slot
        rw [← hnR'.sets slot, ← hnR slot]
        exact h _ n _ n' hn hn' slot
      · intro heq outs t outs' t' ht ht' slot
        obtain ⟨-, rfl⟩ := Prod.mk.inj (Except.ok.inj (ht.symm.trans hn))
        obtain ⟨-, rfl⟩ := Prod.mk.inj (Except.ok.inj (ht'.symm.trans hn'))
        rw [hnR slot, hnR'.sets slot, heq]
    · refine forall_congr' fun pre => forall_congr' fun c => imp_congr_right fun _ => ?_
      obtain ⟨n', hn', hnR'⟩ := mutableInc_run reversePT pre
      constructor
      · intro h outs' t' ht'
        obtain ⟨-, rfl⟩ := Prod.mk.inj (Except.ok.inj (ht'.symm.trans hn'))
        exact (settled_iff hnR' c).mpr h
      · intro h
        exact (settled_iff hnR' c).mp (h _ n' hn')

theorem df_stores_agree_fresh_cache : ∃ outs m outs' m',
      runM DFPTData.step (MutableDFPTData.init false : MutableDFPTData ℕ ℕ (Finset ℕ))
        [.addPts 1 5, .updateATVPts 1 1 7] = .ok (outs, m) ∧
      runM IncDFPTData.step (MutableIncDFPTData.init false : MutableIncDFPTData ℕ ℕ (Finset ℕ))
        [.addPts 1 5, .updateATVPts 1 1 7] = .ok (outs', m') ∧
      ∀ slot, den (m'.base.getSlot slot) ⊆ den (m.getSlot slot) := by
  have hcache : runM SvfPtsCache.step (fresh : PersistentPointsToCache (Finset ℕ)) [] =
      .ok ([], fresh) := rfl
  let calls : List (DFCall ℕ ℕ (Finset ℕ)) := [.addPts 1 5, .updateATVPts 1 1 7]
  exact (df_stores_agree hcache false calls).2.2.2.1

/-- Once the marks of a location are cleared its OUT sets no longer reach the IN sets of the
    incremental store, while the other store still copies them. -/
theorem df_stores_differ_after_clear : ∃ outs m outs' m',
      runM DFPTData.step (MutableDFPTData.init false : MutableDFPTData ℕ ℕ (Finset ℕ))
        [.addPts 1 5, .updateATVPts 1 1 7, .clearAllDFOutUpdatedVar 1,
          .updateDFInFromOut 1 7 2 7] = .ok (outs, m) ∧
      runM IncDFPTData.step (MutableIncDFPTData.init false : MutableIncDFPTData ℕ ℕ (Finset ℕ))
        [.addPts 1 5, .updateATVPts 1 1 7, .clearAllDFOutUpdatedVar 1,
          .updateDFInFromOut 1 7 2 7] = .ok (outs', m') ∧
      5 ∈ den (m.getSlot (.dfIn 2 7)) ∧ den (m'.base.getSlot (.dfIn 2 7)) = ∅ := by
  let calls : List (DFCall ℕ ℕ (Finset ℕ)) :=
    [.addPts 1 5, .updateATVPts 1 1 7, .clearAllDFOutUpdatedVar 1, .updateDFInFromOut 1 7 2 7]
  obtain ⟨m, hm, hmR⟩ := mutable_run false calls
  obtain ⟨m', hm', hmR'⟩ := mutableInc_run false calls
  refine ⟨_, m, _, m', hm, hm', ?_, ?_⟩
  · rw [hmR]
    simp [calls, absAfter, run, absStep, absSets, adds, Writes, single, DFState.empty]
  · rw [hmR'.sets]
    simp [calls, absAfter, run, absStep, absSets, adds, Writes, single, DFState.empty, gate, Changes, consumesOut]

end Agreement

end SvfDFPts
