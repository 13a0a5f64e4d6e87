import SvfModel.PtsStoreProofs

/-!
# The four flow-sensitive points-to stores

A flow-sensitive store keeps, next to the points-to sets of the top-level variables, an IN and
an OUT set for every location and variable. There are four of them. The mutable ones update
sets in place and the persistent ones share sets through a `PersistentPointsToCache`; each comes
with and without a record of the variables that have new points-to data, by which the incremental
ones skip a propagation.

The heart is one abstract machine, `absStep`: every call unites sets into slots, the incremental
machine only where the gate of the call is open, and marks what changes. What a store asks of
its sets is a `DFBacking`, and for whatever backing denotes sets (`BackingSpec`) both classes
refine that machine (`step_refines`, `incStep_refines`). So the persistent and the mutable store
of the same incrementality agree on every run, and the incremental sets are compared with the
others on the machine: they are the same exactly as long as no call skips a set that its target
does not have.
-/

set_option linter.unusedSectionVars false

namespace SvfDFPts

open SvfPts SvfRun SvfPtsCache SvfPtsCache.PersistentPointsToCache SvfPtsStore List Set

-- ── Calls

/-- A points-to set of a flow-sensitive store. -/
inductive Slot (Key LocID : Type) where
  | pts (var : Key)
  | dfIn (loc : LocID) (var : Key)
  | dfOut (loc : LocID) (var : Key)
  deriving DecidableEq

/-- A call on a flow-sensitive store. -/
inductive DFCall (Key LocID D : Type) where
  | addPts (dstKey element : Key)
  | unionPts (dstKey srcKey : Key)
  | unionPtsData (dstKey : Key) (srcDataSet : D)
  | updateDFInFromIn (srcLoc : LocID) (srcVar : Key) (dstLoc : LocID) (dstVar : Key)
  | updateDFInFromOut (srcLoc : LocID) (srcVar : Key) (dstLoc : LocID) (dstVar : Key)
  | updateDFOutFromIn (srcLoc : LocID) (srcVar : Key) (dstLoc : LocID) (dstVar : Key)
  | updateAllDFInFromOut (srcLoc : LocID) (srcVar : Key) (dstLoc : LocID) (dstVar : Key)
  | updateAllDFInFromIn (srcLoc : LocID) (srcVar : Key) (dstLoc : LocID) (dstVar : Key)
  | updateAllDFOutFromIn (loc : LocID) (singleton : Key) (strongUpdates : Bool)
  | updateTLVPts (srcLoc : LocID) (srcVar dstVar : Key)
  | updateATVPts (srcVar : Key) (dstLoc : LocID) (dstVar : Key)
  | clearAllDFOutUpdatedVar (loc : LocID)

-- ── What a store keeps its sets in

/-- The part of a flow-sensitive store that its backing decides. `unionSlots` is `|=` on two
    sets, or `unionPtsThroughIds`; `unionTLV` is the union in the `updateTLVPts` of the
    incremental class; `dfInVars` is the keys of `dfInPtsMap[loc]`. -/
class DFBacking (σ : Type) (Key LocID D : outParam Type) where
  addPts : σ → Key → Key → Except PtsError (Bool × σ)
  unionPts : σ → Key → Key → Except PtsError (Bool × σ)
  unionPtsData : σ → Key → D → Except PtsError (Bool × σ)
  unionSlots : σ → Slot Key LocID → Slot Key LocID → Except PtsError (Bool × σ)
  unionTLV : σ → Key → LocID → Key → Except PtsError (Bool × σ)
  hasDFInSet : σ → LocID → Bool
  hasDFOutSet : σ → LocID → Bool
  dfInVars : σ → LocID → List Key

variable {Key LocID D σ τ M : Type} [DecidableEq Key] [Hashable Key] [DecidableEq LocID]
  [Hashable LocID]

/-- `for (var : vars) { if (strongUpdates && var == singleton) continue;
    if (update(var)) changed = true; }`. -/
def copyVars (update : τ → Key → Except PtsError (Bool × τ)) (singleton : Key)
    (strongUpdates : Bool) : List Key → Bool → τ → Except PtsError (Bool × τ)
  | [], changed, s => .ok (changed, s)
  | var :: vars, changed, s =>
    if strongUpdates = true ∧ var = singleton then
      copyVars update singleton strongUpdates vars changed s
    else do
      let (c, s) ← update s var
      copyVars update singleton strongUpdates vars (changed || c) s

-- ── The classes without a record of what is new

namespace DFPTData

variable [DFBacking σ Key LocID D]

open DFBacking

section

variable (s : σ)

def updateDFInFromIn (srcLoc : LocID) (srcVar : Key) (dstLoc : LocID) (dstVar : Key) :
    Except PtsError (Bool × σ) := unionSlots s (.dfIn dstLoc dstVar) (.dfIn srcLoc srcVar)

def updateDFInFromOut (srcLoc : LocID) (srcVar : Key) (dstLoc : LocID) (dstVar : Key) :
    Except PtsError (Bool × σ) := unionSlots s (.dfIn dstLoc dstVar) (.dfOut srcLoc srcVar)

def updateDFOutFromIn (srcLoc : LocID) (srcVar : Key) (dstLoc : LocID) (dstVar : Key) :
    Except PtsError (Bool × σ) := unionSlots s (.dfOut dstLoc dstVar) (.dfIn srcLoc srcVar)

def updateAllDFInFromOut (srcLoc : LocID) (srcVar : Key) (dstLoc : LocID)
    (dstVar : Key) : Except PtsError (Bool × σ) := updateDFInFromOut s srcLoc srcVar dstLoc dstVar

def updateAllDFInFromIn (srcLoc : LocID) (srcVar : Key) (dstLoc : LocID)
    (dstVar : Key) : Except PtsError (Bool × σ) := updateDFInFromIn s srcLoc srcVar dstLoc dstVar

def updateAllDFOutFromIn (loc : LocID) (singleton : Key) (strongUpdates : Bool) :
    Except PtsError (Bool × σ) :=
  if hasDFInSet s loc then
    copyVars (fun s var => updateDFOutFromIn s loc var loc var) singleton strongUpdates
      (dfInVars s loc) false s
  else .ok (false, s)

def updateTLVPts (srcLoc : LocID) (srcVar dstVar : Key) : Except PtsError (Bool × σ) :=
  unionSlots s (.pts dstVar) (.dfIn srcLoc srcVar)

def updateATVPts (srcVar : Key) (dstLoc : LocID) (dstVar : Key) :
    Except PtsError (Bool × σ) := unionSlots s (.dfOut dstLoc dstVar) (.pts srcVar)

/-- A call with its return value, if it has one. -/
def step : DFCall Key LocID D → Except PtsError (Option Bool × σ)
  | .addPts dstKey element => (addPts s dstKey element).map (Prod.map some id)
  | .unionPts dstKey srcKey => (unionPts s dstKey srcKey).map (Prod.map some id)
  | .unionPtsData dstKey srcDataSet => (unionPtsData s dstKey srcDataSet).map (Prod.map some id)
  | .updateDFInFromIn srcLoc srcVar dstLoc dstVar =>
    (updateDFInFromIn s srcLoc srcVar dstLoc dstVar).map (Prod.map some id)
  | .updateDFInFromOut srcLoc srcVar dstLoc dstVar =>
    (updateDFInFromOut s srcLoc srcVar dstLoc dstVar).map (Prod.map some id)
  | .updateDFOutFromIn srcLoc srcVar dstLoc dstVar =>
    (updateDFOutFromIn s srcLoc srcVar dstLoc dstVar).map (Prod.map some id)
  | .updateAllDFInFromOut srcLoc srcVar dstLoc dstVar =>
    (updateAllDFInFromOut s srcLoc srcVar dstLoc dstVar).map (Prod.map some id)
  | .updateAllDFInFromIn srcLoc srcVar dstLoc dstVar =>
    (updateAllDFInFromIn s srcLoc srcVar dstLoc dstVar).map (Prod.map some id)
  | .updateAllDFOutFromIn loc singleton strongUpdates =>
    (updateAllDFOutFromIn s loc singleton strongUpdates).map (Prod.map some id)
  | .updateTLVPts srcLoc srcVar dstVar =>
    (updateTLVPts s srcLoc srcVar dstVar).map (Prod.map some id)
  | .updateATVPts srcVar dstLoc dstVar =>
    (updateATVPts s srcVar dstLoc dstVar).map (Prod.map some id)
  | .clearAllDFOutUpdatedVar _ => .ok (none, s)

end

end DFPTData

-- ── The incremental classes

/-- What an `UpdatedVarMap` keeps for a location: a `DataSet` in the mutable class, a `KeySet`
    in the persistent one. -/
class VarSet (M : Type) (Key : outParam Type) where
  empty : M
  set : M → Key → M
  reset : M → Key → M
  test : M → Key → Bool
  elems : M → List Key

/-- A store with the variables of each location that have new data in its IN and OUT set. -/
structure IncDFPTData (σ M LocID : Type) [DecidableEq LocID] [Hashable LocID] where
  base : σ
  outUpdatedVarMap : Std.HashMap LocID M
  inUpdatedVarMap : Std.HashMap LocID M

namespace IncDFPTData

variable [DFBacking σ Key LocID D] [VarSet M Key]

open DFBacking

section

variable (map : Std.HashMap LocID M)

def setUpdated (loc : LocID) (var : Key) : Std.HashMap LocID M :=
  map.insert loc (VarSet.set (map.getD loc VarSet.empty) var)

def removeUpdated (loc : LocID) (var : Key) : Std.HashMap LocID M :=
  match map[loc]? with
  | none => map
  | some vars => map.insert loc (VarSet.reset vars var)

def isUpdated (loc : LocID) (var : Key) : Bool :=
  match map[loc]? with
  | none => false
  | some vars => VarSet.test vars var

end

section

variable (s : IncDFPTData σ M LocID)

section

variable (loc : LocID)

def setVarDFInSetUpdated (var : Key) :
    IncDFPTData σ M LocID := { s with inUpdatedVarMap := setUpdated s.inUpdatedVarMap loc var }

def removeVarFromDFInUpdatedSet (var : Key) :
    IncDFPTData σ M LocID := { s with inUpdatedVarMap := removeUpdated s.inUpdatedVarMap loc var }

def varHasNewDFInPts (var : Key) : Bool :=
  isUpdated s.inUpdatedVarMap loc var

def getDFInUpdatedVar : M × IncDFPTData σ M LocID :=
  let vars := s.inUpdatedVarMap.getD loc VarSet.empty
  (vars, { s with inUpdatedVarMap := s.inUpdatedVarMap.insert loc vars })

def setVarDFOutSetUpdated (var : Key) :
    IncDFPTData σ M LocID := { s with outUpdatedVarMap := setUpdated s.outUpdatedVarMap loc var }

def removeVarFromDFOutUpdatedSet (var : Key) : IncDFPTData σ M LocID :=
  { s with outUpdatedVarMap := removeUpdated s.outUpdatedVarMap loc var }

def varHasNewDFOutPts (var : Key) : Bool :=
  isUpdated s.outUpdatedVarMap loc var

def getDFOutUpdatedVar : M × IncDFPTData σ M LocID :=
  let vars := s.outUpdatedVarMap.getD loc VarSet.empty
  (vars, { s with outUpdatedVarMap := s.outUpdatedVarMap.insert loc vars })

end

def unionIntoDFIn (dstLoc : LocID) (dstVar : Key)
    (src : Slot Key LocID) : Except PtsError (Bool × IncDFPTData σ M LocID) := do
  let (changed, base) ← unionSlots s.base (.dfIn dstLoc dstVar) src
  let s := { s with base := base }
  return (changed, if changed then s.setVarDFInSetUpdated dstLoc dstVar else s)

def unionIntoDFOut (dstLoc : LocID) (dstVar : Key)
    (src : Slot Key LocID) : Except PtsError (Bool × IncDFPTData σ M LocID) := do
  let (changed, base) ← unionSlots s.base (.dfOut dstLoc dstVar) src
  let s := { s with base := base }
  return (changed, if changed then s.setVarDFOutSetUpdated dstLoc dstVar else s)

section

variable (srcLoc : LocID)

def updateDFInFromIn (srcVar : Key)
    (dstLoc : LocID) (dstVar : Key) : Except PtsError (Bool × IncDFPTData σ M LocID) :=
  if s.varHasNewDFInPts srcLoc srcVar then s.unionIntoDFIn dstLoc dstVar (.dfIn srcLoc srcVar)
  else .ok (false, s)

def updateDFInFromOut (srcVar : Key)
    (dstLoc : LocID) (dstVar : Key) : Except PtsError (Bool × IncDFPTData σ M LocID) :=
  if s.varHasNewDFOutPts srcLoc srcVar then s.unionIntoDFIn dstLoc dstVar (.dfOut srcLoc srcVar)
  else .ok (false, s)

def updateDFOutFromIn (srcVar : Key)
    (dstLoc : LocID) (dstVar : Key) : Except PtsError (Bool × IncDFPTData σ M LocID) :=
  if s.varHasNewDFInPts srcLoc srcVar then
    (s.removeVarFromDFInUpdatedSet srcLoc srcVar).unionIntoDFOut dstLoc dstVar
      (.dfIn srcLoc srcVar)
  else .ok (false, s)

def updateAllDFInFromOut (srcVar : Key)
    (dstLoc : LocID) (dstVar : Key) : Except PtsError (Bool × IncDFPTData σ M LocID) :=
  s.unionIntoDFIn dstLoc dstVar (.dfOut srcLoc srcVar)

def updateAllDFInFromIn (srcVar : Key)
    (dstLoc : LocID) (dstVar : Key) : Except PtsError (Bool × IncDFPTData σ M LocID) :=
  s.unionIntoDFIn dstLoc dstVar (.dfIn srcLoc srcVar)

end

def updateAllDFOutFromIn (loc : LocID) (singleton : Key)
    (strongUpdates : Bool) : Except PtsError (Bool × IncDFPTData σ M LocID) :=
  if hasDFInSet s.base loc then
    let (pts, s) := s.getDFInUpdatedVar loc
    copyVars (fun s var => updateDFOutFromIn s loc var loc var) singleton strongUpdates
      (VarSet.elems pts) false s
  else .ok (false, s)

def updateTLVPts (srcLoc : LocID) (srcVar dstVar : Key) :
    Except PtsError (Bool × IncDFPTData σ M LocID) :=
  if s.varHasNewDFInPts srcLoc srcVar then do
    let s := s.removeVarFromDFInUpdatedSet srcLoc srcVar
    let (changed, base) ← unionTLV s.base dstVar srcLoc srcVar
    return (changed, { s with base := base })
  else .ok (false, s)

def updateATVPts (srcVar : Key) (dstLoc : LocID) (dstVar : Key) :
    Except PtsError (Bool × IncDFPTData σ M LocID) := s.unionIntoDFOut dstLoc dstVar (.pts srcVar)

def clearAllDFOutUpdatedVar (loc : LocID) : IncDFPTData σ M LocID :=
  if hasDFOutSet s.base loc then
    let (pts, s) := s.getDFOutUpdatedVar loc
    (VarSet.elems pts).foldl (fun s var => s.removeVarFromDFOutUpdatedSet loc var) s
  else s

/-- A call on the sets of the top-level variables. -/
def onBase (r : Except PtsError (Bool × σ)) : Except PtsError (Bool × IncDFPTData σ M LocID) :=
  r.map fun (changed, base) => (changed, { s with base := base })

def step : DFCall Key LocID D → Except PtsError (Option Bool × IncDFPTData σ M LocID)
  | .addPts dstKey element =>
    (s.onBase (addPts s.base dstKey element)).map (Prod.map some id)
  | .unionPts dstKey srcKey =>
    (s.onBase (unionPts s.base dstKey srcKey)).map (Prod.map some id)
  | .unionPtsData dstKey srcDataSet =>
    (s.onBase (unionPtsData s.base dstKey srcDataSet)).map (Prod.map some id)
  | .updateDFInFromIn srcLoc srcVar dstLoc dstVar =>
    (s.updateDFInFromIn srcLoc srcVar dstLoc dstVar).map (Prod.map some id)
  | .updateDFInFromOut srcLoc srcVar dstLoc dstVar =>
    (s.updateDFInFromOut srcLoc srcVar dstLoc dstVar).map (Prod.map some id)
  | .updateDFOutFromIn srcLoc srcVar dstLoc dstVar =>
    (s.updateDFOutFromIn srcLoc srcVar dstLoc dstVar).map (Prod.map some id)
  | .updateAllDFInFromOut srcLoc srcVar dstLoc dstVar =>
    (s.updateAllDFInFromOut srcLoc srcVar dstLoc dstVar).map (Prod.map some id)
  | .updateAllDFInFromIn srcLoc srcVar dstLoc dstVar =>
    (s.updateAllDFInFromIn srcLoc srcVar dstLoc dstVar).map (Prod.map some id)
  | .updateAllDFOutFromIn loc singleton strongUpdates =>
    (s.updateAllDFOutFromIn loc singleton strongUpdates).map (Prod.map some id)
  | .updateTLVPts srcLoc srcVar dstVar =>
    (s.updateTLVPts srcLoc srcVar dstVar).map (Prod.map some id)
  | .updateATVPts srcVar dstLoc dstVar =>
    (s.updateATVPts srcVar dstLoc dstVar).map (Prod.map some id)
  | .clearAllDFOutUpdatedVar loc => .ok (none, s.clearAllDFOutUpdatedVar loc)

end

end IncDFPTData

-- ── The abstract machine

section Machine

variable {v v' : Key} {l : LocID} {dst : Slot Key LocID} {S : Set Key} {G : Prop}

/-- A set for every slot, and the variables of each location whose IN and OUT set has new
    data. -/
@[ext] structure DFState (Key LocID : Type) where
  sets : Slot Key LocID → Set Key
  inUpd : LocID → Set Key
  outUpd : LocID → Set Key

theorem pts_ne_dfOut : Slot.pts v ≠ .dfOut l v' := by
  intro h
  cases h

theorem pts_ne_dfIn : Slot.pts v ≠ .dfIn l v' := by
  intro h
  cases h

theorem dfIn_ne_dfOut {l l' : LocID} : Slot.dfIn l v ≠ .dfOut l' v' := by
  intro h
  cases h

/-- `S` for one slot, nothing for the others. -/
def single (dst : Slot Key LocID) (S : Set Key) (slot : Slot Key LocID) : Set Key :=
  {x | slot = dst ∧ x ∈ S}

variable [DataSet D Key]

/-- What a call unites into the slots. -/
def adds (f : Slot Key LocID → Set Key) : DFCall Key LocID D → Slot Key LocID → Set Key
  | .addPts dstKey element => single (.pts dstKey) {element}
  | .unionPts dstKey srcKey => single (.pts dstKey) (f (.pts srcKey))
  | .unionPtsData dstKey srcDataSet => single (.pts dstKey) (den srcDataSet)
  | .updateDFInFromIn srcLoc srcVar dstLoc dstVar =>
    single (.dfIn dstLoc dstVar) (f (.dfIn srcLoc srcVar))
  | .updateDFInFromOut srcLoc srcVar dstLoc dstVar =>
    single (.dfIn dstLoc dstVar) (f (.dfOut srcLoc srcVar))
  | .updateDFOutFromIn srcLoc srcVar dstLoc dstVar =>
    single (.dfOut dstLoc dstVar) (f (.dfIn srcLoc srcVar))
  | .updateAllDFInFromOut srcLoc srcVar dstLoc dstVar =>
    single (.dfIn dstLoc dstVar) (f (.dfOut srcLoc srcVar))
  | .updateAllDFInFromIn srcLoc srcVar dstLoc dstVar =>
    single (.dfIn dstLoc dstVar) (f (.dfIn srcLoc srcVar))
  | .updateAllDFOutFromIn loc singleton strongUpdates => fun slot =>
    {x | ∃ var, slot = .dfOut loc var ∧ ¬ (strongUpdates = true ∧ var = singleton) ∧
      x ∈ f (.dfIn loc var)}
  | .updateTLVPts srcLoc srcVar dstVar =>
    single (.pts dstVar) (f (.dfIn srcLoc srcVar))
  | .updateATVPts srcVar dstLoc dstVar => single (.dfOut dstLoc dstVar) (f (.pts srcVar))
  | .clearAllDFOutUpdatedVar _ => fun _ => ∅

/-- Where the incremental machine lets a call write. -/
def gate (a : DFState Key LocID) : DFCall Key LocID D → Slot Key LocID → Prop
  | .updateDFInFromIn srcLoc srcVar _ _, _ => srcVar ∈ a.inUpd srcLoc
  | .updateDFInFromOut srcLoc srcVar _ _, _ => srcVar ∈ a.outUpd srcLoc
  | .updateDFOutFromIn srcLoc srcVar _ _, _ => srcVar ∈ a.inUpd srcLoc
  | .updateTLVPts srcLoc srcVar _, _ => srcVar ∈ a.inUpd srcLoc
  | .updateAllDFOutFromIn loc _ _, slot => ∀ var, slot = .dfOut loc var → var ∈ a.inUpd loc
  | _, _ => True

/-- The IN marks that a call takes away. -/
def consumesIn : DFCall Key LocID D → LocID → Key → Prop
  | .updateDFOutFromIn srcLoc srcVar _ _, loc, var => loc = srcLoc ∧ var = srcVar
  | .updateTLVPts srcLoc srcVar _, loc, var => loc = srcLoc ∧ var = srcVar
  | .updateAllDFOutFromIn l singleton strongUpdates, loc, var =>
    loc = l ∧ ¬ (strongUpdates = true ∧ var = singleton)
  | _, _, _ => False

/-- The OUT marks that a call takes away. -/
def consumesOut : DFCall Key LocID D → LocID → Prop
  | .clearAllDFOutUpdatedVar l, loc => loc = l
  | _, _ => False

def returns : DFCall Key LocID D → Bool
  | .clearAllDFOutUpdatedVar _ => false
  | _ => true

def Writes (inc : Bool) (a : DFState Key LocID) (c : DFCall Key LocID D)
    (slot : Slot Key LocID) : Prop := inc = true → gate a c slot

def Changes (inc : Bool) (a : DFState Key LocID) (c : DFCall Key LocID D)
    (slot : Slot Key LocID) : Prop := Writes inc a c slot ∧ ¬ adds a.sets c slot ⊆ a.sets slot

def absSets (inc : Bool) (a : DFState Key LocID) (c : DFCall Key LocID D) : DFState Key LocID where
  sets slot := a.sets slot ∪ {x | Writes inc a c slot ∧ x ∈ adds a.sets c slot}
  inUpd loc := {var | var ∈ a.inUpd loc ∧ ¬ consumesIn c loc var ∨ Changes inc a c (.dfIn loc var)}
  outUpd loc := {var | var ∈ a.outUpd loc ∧ ¬ consumesOut c loc ∨ Changes inc a c (.dfOut loc var)}

open Classical in
/-- One call on the abstract machine: a call tells whether it changes a set. -/
noncomputable def absStep (inc : Bool) (a : DFState Key LocID) (c : DFCall Key LocID D) :
    Option Bool × DFState Key LocID :=
  (if returns c then some (decide (∃ slot, Changes inc a c slot)) else none, absSets inc a c)

-- Calls that write to one slot.

structure WritesOne (inc : Bool) (a : DFState Key LocID) (c : DFCall Key LocID D)
    (dst : Slot Key LocID) (S : Set Key) (G : Prop) : Prop where
  adds_eq : adds a.sets c = single dst S
  gate_eq : ∀ slot, Writes inc a c slot ↔ G

section

variable {inc : Bool} {a : DFState Key LocID} {c : DFCall Key LocID D}
  (h : WritesOne inc a c dst S G)
include h

theorem WritesOne.changes (slot : Slot Key LocID) :
    Changes inc a c slot ↔ G ∧ slot = dst ∧ ¬ S ⊆ a.sets dst := by
  rw [Changes, h.gate_eq, h.adds_eq]
  refine and_congr_right fun _ => ?_
  constructor
  · intro hsub
    obtain ⟨x, ⟨rfl, hx⟩, hnot⟩ := not_subset.mp hsub
    exact ⟨rfl, fun hS => hnot (hS hx)⟩
  · rintro ⟨rfl, hsub⟩ hsingle
    exact hsub fun x hx => hsingle ⟨rfl, hx⟩

theorem WritesOne.sets_open (hG : G) :
    (absSets inc a c).sets = Function.update a.sets dst (a.sets dst ∪ S) := by
  funext slot
  show a.sets slot ∪ {x | Writes inc a c slot ∧ x ∈ adds a.sets c slot} = _
  rw [h.adds_eq]
  by_cases hs : slot = dst
  · subst hs
    rw [Function.update_self]
    ext x
    simp only [mem_union, mem_ofPred_eq, h.gate_eq, hG, single, true_and]
  · rw [Function.update_of_ne hs]
    ext x
    simp only [mem_union, mem_ofPred_eq, single, hs, false_and, and_false, or_false]

theorem WritesOne.sets_shut (hG : ¬ G) : (absSets inc a c).sets = a.sets := by
  funext slot
  show a.sets slot ∪ {x | Writes inc a c slot ∧ x ∈ adds a.sets c slot} = _
  ext x
  simp only [mem_union, mem_ofPred_eq, h.gate_eq, hG, false_and, or_false]

theorem WritesOne.flag :
    (∃ slot, Changes inc a c slot) ↔ G ∧ ¬ S ⊆ a.sets dst := by
  simp only [h.changes]
  exact ⟨fun ⟨_, hG, _, hS⟩ => ⟨hG, hS⟩, fun ⟨hG, hS⟩ => ⟨dst, hG, rfl, hS⟩⟩

end

section

variable {a : DFState Key LocID} {c : DFCall Key LocID D} (h : adds a.sets c = single dst S)
include h

theorem WritesOne.nonInc :
    WritesOne false a c dst S True :=
  ⟨h, fun _ => ⟨fun _ => trivial, nofun⟩⟩

theorem WritesOne.inc (hgate : ∀ slot, gate a c slot ↔ G) : WritesOne true a c dst S G :=
  ⟨h, fun slot => ⟨fun hw => (hgate slot).mp (hw rfl), fun hG _ => (hgate slot).mpr hG⟩⟩

end

-- The call that copies a whole IN set to the OUT set, one variable after the other.

def copied (inc : Bool) (a : DFState Key LocID) (loc : LocID) (P : Set Key) :
    DFState Key LocID where
  sets slot := a.sets slot ∪ {x | ∃ var ∈ P, slot = .dfOut loc var ∧
    (inc = true → var ∈ a.inUpd loc) ∧ x ∈ a.sets (.dfIn loc var)}
  inUpd l := {var | var ∈ a.inUpd l ∧ ¬ (l = loc ∧ var ∈ P)}
  outUpd l := {var | var ∈ a.outUpd l ∨ l = loc ∧ var ∈ P ∧
    (inc = true → var ∈ a.inUpd loc) ∧ ¬ a.sets (.dfIn loc var) ⊆ a.sets (.dfOut loc var)}

def CopyChanges (inc : Bool) (a : DFState Key LocID) (loc : LocID) (P : Set Key) : Prop :=
  ∃ var ∈ P, (inc = true → var ∈ a.inUpd loc) ∧
    ¬ a.sets (.dfIn loc var) ⊆ a.sets (.dfOut loc var)

theorem copied_dfIn (inc : Bool) (a : DFState Key LocID) (loc l : LocID) (P : Set Key)
    (var : Key) : (copied inc a loc P).sets (.dfIn l var) = a.sets (.dfIn l var) := by
  ext x
  show x ∈ a.sets _ ∪ _ ↔ _
  simp only [mem_union, mem_ofPred_eq, reduceCtorEq, false_and, and_false, exists_false, or_false]

theorem copied_dfOut (inc : Bool) (a : DFState Key LocID) (loc : LocID) (P : Set Key)
    (var : Key) (x : Key) : x ∈ (copied inc a loc P).sets (.dfOut loc var) ↔
      x ∈ a.sets (.dfOut loc var) ∨
        var ∈ P ∧ (inc → var ∈ a.inUpd loc) ∧ x ∈ a.sets (.dfIn loc var) := by
  show x ∈ a.sets _ ∪ _ ↔ _
  simp only [mem_union, mem_ofPred_eq, Slot.dfOut.injEq, true_and]
  refine or_congr_right ⟨?_, fun h => ⟨var, h.1, rfl, h.2⟩⟩
  rintro ⟨v, hv, rfl, h⟩
  exact ⟨hv, h⟩

section

variable {inc : Bool} {a : DFState Key LocID} {P : Set Key}

theorem mem_copied_sets {loc : LocID} {slot : Slot Key LocID} {x : Key} :
    x ∈ (copied inc a loc P).sets slot ↔
      x ∈ a.sets slot ∨ ∃ var ∈ P, slot = .dfOut loc var ∧
        (inc → var ∈ a.inUpd loc) ∧ x ∈ a.sets (.dfIn loc var) := Iff.rfl

theorem mem_copied_inUpd {loc l : LocID} {v : Key} :
    v ∈ (copied inc a loc P).inUpd l ↔ v ∈ a.inUpd l ∧ ¬ (l = loc ∧ v ∈ P) :=
  .rfl

theorem mem_copied_outUpd {loc l : LocID} {v : Key} :
    v ∈ (copied inc a loc P).outUpd l ↔ v ∈ a.outUpd l ∨ l = loc ∧ v ∈ P ∧
      (inc → v ∈ a.inUpd loc) ∧ ¬ a.sets (.dfIn loc v) ⊆ a.sets (.dfOut loc v) := Iff.rfl

end

theorem copied_writesOne (inc : Bool) (a : DFState Key LocID) (loc : LocID) (P : Set Key)
    (var : Key) :
    WritesOne inc (copied inc a loc P) (.updateDFOutFromIn loc var loc var : DFCall Key LocID D)
      (.dfOut loc var) (a.sets (.dfIn loc var)) (inc → var ∈ a.inUpd loc ∧ var ∉ P) := by
  constructor
  · rw [← copied_dfIn inc a loc loc P var]
    rfl
  · intro slot
    show (inc → var ∈ a.inUpd loc ∧ ¬ (loc = loc ∧ var ∈ P)) ↔ _
    rw [eq_self, true_and]

theorem copied_finds {inc : Bool} {a : DFState Key LocID} {loc : LocID} {P : Set Key}
    {var : Key} (hG : inc → var ∈ a.inUpd loc ∧ var ∉ P) :
    ¬ a.sets (.dfIn loc var) ⊆ (copied inc a loc P).sets (.dfOut loc var) ↔
      ¬ a.sets (.dfIn loc var) ⊆ a.sets (.dfOut loc var) ∧ var ∉ P := by
  by_cases hP : var ∈ P
  · refine iff_of_false (not_not.mpr fun x hx => ?_) fun h => h.2 hP
    exact (copied_dfOut inc a loc P var x).mpr (.inr ⟨hP, fun hi => (hG hi).1, hx⟩)
  · have heq : (copied inc a loc P).sets (.dfOut loc var) = a.sets (.dfOut loc var) := by
      ext x
      rw [copied_dfOut]
      exact ⟨fun h => h.resolve_right fun h => hP h.1, .inl⟩
    rw [heq]
    exact ⟨fun h => ⟨h, hP⟩, And.left⟩

section

variable (inc : Bool) (a : DFState Key LocID) (loc : LocID) (P : Set Key) (var : Key)

theorem copied_insert :
    absSets inc (copied inc a loc P) (.updateDFOutFromIn loc var loc var : DFCall Key LocID D) =
      copied inc a loc (insert var P) := by
  have hone := copied_writesOne (D := D) inc a loc P var
  ext1
  case sets =>
    funext slot
    ext x
    rw [absSets, mem_union, mem_ofPred_eq, hone.gate_eq, hone.adds_eq, mem_copied_sets,
      mem_copied_sets]
    constructor
    · rintro ((hx | ⟨v, hv, hx⟩) | ⟨hG, rfl, hx⟩)
      · exact .inl hx
      · exact .inr ⟨v, .inr hv, hx⟩
      · exact .inr ⟨var, .inl rfl, rfl, fun hi => (hG hi).1, hx⟩
    · rintro (hx | ⟨v, rfl | hv, hs, hi, hx⟩)
      · exact .inl (.inl hx)
      · by_cases hP : v ∈ P
        · exact .inl (.inr ⟨v, hP, hs, hi, hx⟩)
        · exact .inr ⟨fun h => ⟨hi h, hP⟩, hs, hx⟩
      · exact .inl (.inr ⟨v, hv, hs, hi, hx⟩)
  case inUpd =>
    funext l
    ext v
    rw [absSets, mem_ofPred_eq, hone.changes, mem_copied_inUpd, mem_copied_inUpd, consumesIn,
      mem_insert_iff]
    have hslot : Slot.dfIn l v ≠ .dfOut loc var := dfIn_ne_dfOut
    tauto
  case outUpd =>
    funext l
    ext v
    have hout : ¬ consumesOut (.updateDFOutFromIn loc var loc var : DFCall Key LocID D) l := id
    rw [absSets, mem_ofPred_eq, hone.changes, and_iff_left hout, mem_copied_outUpd,
      mem_copied_outUpd, mem_insert_iff, Slot.dfOut.injEq]
    constructor
    · rintro ((hv | hv) | ⟨hG, ⟨rfl, rfl⟩, hs⟩)
      · exact .inl hv
      · exact .inr ⟨hv.1, .inr hv.2.1, hv.2.2⟩
      · exact .inr ⟨rfl, .inl rfl, fun hi => (hG hi).1, ((copied_finds hG).mp hs).1⟩
    · rintro (hv | ⟨rfl, rfl | hv, hi, hs⟩)
      · exact .inl (.inl hv)
      · by_cases hP : v ∈ P
        · exact .inl (.inr ⟨rfl, hP, hi, hs⟩)
        · have hG : inc → v ∈ a.inUpd l ∧ v ∉ P := fun h => ⟨hi h, hP⟩
          exact .inr ⟨hG, ⟨rfl, rfl⟩, (copied_finds hG).mpr ⟨hs, hP⟩⟩
      · exact .inl (.inr ⟨rfl, hv, hi, hs⟩)

theorem copyChanges_insert :
    CopyChanges inc a loc (insert var P) ↔ CopyChanges inc a loc P ∨
      ∃ slot, Changes inc (copied inc a loc P)
        (.updateDFOutFromIn loc var loc var : DFCall Key LocID D) slot := by
  rw [(copied_writesOne (D := D) inc a loc P var).flag]
  constructor
  · rintro ⟨v, rfl | hv, hi, hs⟩
    · by_cases hP : v ∈ P
      · exact .inl ⟨v, hP, hi, hs⟩
      · have hG : inc → v ∈ a.inUpd loc ∧ v ∉ P := fun h => ⟨hi h, hP⟩
        exact .inr ⟨hG, (copied_finds hG).mpr ⟨hs, hP⟩⟩
    · exact .inl ⟨v, hv, hi, hs⟩
  · rintro (⟨v, hv, h⟩ | ⟨hG, hs⟩)
    · exact ⟨v, .inr hv, h⟩
    · exact ⟨var, .inl rfl, fun hi => (hG hi).1, ((copied_finds hG).mp hs).1⟩

end

/-- The variables that `updateAllDFOutFromIn` does not skip. -/
def unskipped (singleton : Key) (strongUpdates : Bool) : Set Key :=
  {var | ¬ (strongUpdates = true ∧ var = singleton)}

/-- `P` has the variables that are not skipped and whose copying does something. -/
def Enough (inc : Bool) (a : DFState Key LocID) (loc : LocID) (U P : Set Key) : Prop :=
  P ⊆ U ∧ ∀ var ∈ U, (inc = true → var ∈ a.inUpd loc) → (a.sets (.dfIn loc var)).Nonempty → var ∈ P

variable {inc : Bool} {a : DFState Key LocID} {loc : LocID} {singleton : Key}
  {strongUpdates : Bool} {P : Set Key}

theorem Enough.sets (h : Enough inc a loc (unskipped singleton strongUpdates) P) :
    (copied inc a loc P).sets = (absSets inc a
        (.updateAllDFOutFromIn loc singleton strongUpdates : DFCall Key LocID D)).sets := by
  funext slot
  ext x
  rw [absSets, mem_union, mem_ofPred_eq, mem_copied_sets]
  refine or_congr_right ?_
  constructor
  · rintro ⟨v, hv, rfl, hi, hx⟩
    refine ⟨fun hinc w hw => ?_, v, rfl, h.1 hv, hx⟩
    rw [← (Slot.dfOut.inj hw).2]
    exact hi hinc
  · rintro ⟨hw, v, rfl, hv, hx⟩
    have hi : inc → v ∈ a.inUpd loc := fun hinc => hw hinc v rfl
    exact ⟨v, h.2 v hv hi ⟨x, hx⟩, rfl, hi, hx⟩

theorem changes_updateAll {v : Key} :
    Changes inc a (.updateAllDFOutFromIn loc singleton strongUpdates : DFCall Key LocID D)
        (.dfOut l v) ↔
      l = loc ∧ v ∈ unskipped singleton strongUpdates ∧ (inc → v ∈ a.inUpd loc) ∧
        ¬ a.sets (.dfIn loc v) ⊆ a.sets (.dfOut loc v) := by
  constructor
  · rintro ⟨hw, hs⟩
    obtain ⟨x, ⟨w, hslot, hv, hx⟩, hnot⟩ := not_subset.mp hs
    obtain ⟨rfl, rfl⟩ := Slot.dfOut.inj hslot
    exact ⟨rfl, hv, fun hinc => hw hinc v rfl, fun hsub => hnot (hsub hx)⟩
  · rintro ⟨rfl, hv, hi, hs⟩
    refine ⟨fun hinc w hw => ?_, fun hsub => hs fun x hx => hsub ⟨v, rfl, hv, hx⟩⟩
    rw [← (Slot.dfOut.inj hw).2]
    exact hi hinc

theorem not_changes_updateAll {slot : Slot Key LocID} (hslot : ∀ l v, slot ≠ .dfOut l v) :
    ¬ Changes inc a (.updateAllDFOutFromIn loc singleton strongUpdates : DFCall Key LocID D)
      slot := by
  rintro ⟨-, hs⟩
  obtain ⟨x, ⟨w, h, _⟩, -⟩ := not_subset.mp hs
  exact hslot loc w h

theorem nonempty_of_not_subset {S T : Set Key} (h : ¬ S ⊆ T) : S.Nonempty := by
  obtain ⟨x, hx, -⟩ := not_subset.mp h
  exact ⟨x, hx⟩

theorem Enough.flag (h : Enough inc a loc (unskipped singleton strongUpdates) P) :
    CopyChanges inc a loc P ↔ ∃ slot, Changes inc a
      (.updateAllDFOutFromIn loc singleton strongUpdates : DFCall Key LocID D) slot := by
  constructor
  · rintro ⟨v, hv, hi, hs⟩
    exact ⟨.dfOut loc v, changes_updateAll.mpr ⟨rfl, h.1 hv, hi, hs⟩⟩
  · rintro ⟨slot, hc⟩
    cases slot with
    | pts v => exact absurd hc (not_changes_updateAll fun _ _ => pts_ne_dfOut)
    | dfIn l v => exact absurd hc (not_changes_updateAll fun _ _ => dfIn_ne_dfOut)
    | dfOut l v =>
      obtain ⟨rfl, hv, hi, hs⟩ := changes_updateAll.mp hc
      exact ⟨v, h.2 v hv hi (nonempty_of_not_subset hs), hi, hs⟩

theorem Enough.state (h : Enough inc a loc (unskipped singleton strongUpdates) P)
    (hmarked : ∀ var ∈ unskipped singleton strongUpdates, var ∈ a.inUpd loc → var ∈ P) :
    copied inc a loc P = absSets inc a
        (.updateAllDFOutFromIn loc singleton strongUpdates : DFCall Key LocID D) := by
  ext1
  case sets => exact h.sets
  case inUpd =>
    funext l
    ext v
    have hnot : ¬ Changes inc a (.updateAllDFOutFromIn loc singleton strongUpdates :
        DFCall Key LocID D) (.dfIn l v) := not_changes_updateAll fun _ _ => dfIn_ne_dfOut
    rw [absSets, mem_ofPred_eq, mem_copied_inUpd, or_iff_left hnot]
    refine and_congr_right fun hv => not_congr ⟨fun hc => ⟨hc.1, h.1 hc.2⟩, ?_⟩
    rintro ⟨rfl, hu⟩
    exact ⟨rfl, hmarked v hu hv⟩
  case outUpd =>
    funext l
    ext v
    have hout : ¬ consumesOut
        (.updateAllDFOutFromIn loc singleton strongUpdates : DFCall Key LocID D) l := id
    rw [absSets, mem_ofPred_eq, mem_copied_outUpd, changes_updateAll, and_iff_left hout]
    refine or_congr_right (and_congr_right fun _ => ?_)
    constructor
    · exact fun hc => ⟨h.1 hc.1, hc.2⟩
    · exact fun hc => ⟨h.2 v hc.1 hc.2.1 (nonempty_of_not_subset hc.2.2), hc.2⟩

theorem copied_empty : copied inc a loc ∅ = a := by
  ext1
  case sets =>
    funext slot
    ext x
    rw [mem_copied_sets]
    exact ⟨fun h => h.resolve_right fun ⟨_, hv, _⟩ => hv, .inl⟩
  case inUpd =>
    funext l
    ext v
    rw [mem_copied_inUpd]
    exact ⟨And.left, fun h => ⟨h, fun hc => hc.2⟩⟩
  case outUpd =>
    funext l
    ext v
    rw [mem_copied_outUpd]
    exact ⟨fun h => h.resolve_right fun hc => hc.2.1, .inl⟩

end Machine

-- ── What is asked of a backing

section Refinement

variable [DataSet D Key]

/-- The result of uniting `S` into a slot: the flag tells whether that changes it, and a failure
    is one that `E` allows. -/
def Unions (E : PtsError → Prop) (Rep : σ → (Slot Key LocID → Set Key) → Prop)
    (f : Slot Key LocID → Set Key) (dst : Slot Key LocID) (S : Set Key)
    (r : Except PtsError (Bool × σ)) : Prop :=
  (∀ b s, r = .ok (b, s) →
    (b = true ↔ ¬ S ⊆ f dst) ∧ Rep s (Function.update f dst (f dst ∪ S))) ∧
  ∀ e, r = .error e → E e

theorem Unions.ok {E : PtsError → Prop} {Rep : σ → (Slot Key LocID → Set Key) → Prop}
    {f : Slot Key LocID → Set Key} {dst : Slot Key LocID} {S : Set Key} {r : Bool × σ}
    (hb : r.1 ↔ ¬ S ⊆ f dst) (hR : Rep r.2 (Function.update f dst (f dst ∪ S))) :
    Unions E Rep f dst S (.ok r) := by
  refine ⟨fun b s hr => ?_, fun e hr => nomatch hr⟩
  rw [Except.ok.inj hr] at hb hR
  exact ⟨hb, hR⟩

/-- `Rep s f` says that the slots of `s` denote `f`. -/
structure BackingSpec (E : PtsError → Prop) [DFBacking σ Key LocID D]
    (Rep : σ → (Slot Key LocID → Set Key) → Prop) : Prop where
  addPts : ∀ {s f}, Rep s f → ∀ k e,
    Unions E Rep f (.pts k) {e} (DFBacking.addPts s k e)
  unionPts : ∀ {s f}, Rep s f → ∀ dst src,
    Unions E Rep f (.pts dst) (f (.pts src)) (DFBacking.unionPts s dst src)
  unionPtsData : ∀ {s f}, Rep s f → ∀ dst d,
    Unions E Rep f (.pts dst) (den d) (DFBacking.unionPtsData s dst d)
  unionSlots : ∀ {s f}, Rep s f → ∀ dst src,
    Unions E Rep f dst (f src) (DFBacking.unionSlots s dst src)
  unionTLV : ∀ {s f}, Rep s f → ∀ dst loc var,
    Unions E Rep f (.pts dst) (f (.dfIn loc var)) (DFBacking.unionTLV s dst loc var)
  hasDFInSet : ∀ {s f}, Rep s f → ∀ loc, DFBacking.hasDFInSet s loc = false →
    ∀ var, f (.dfIn loc var) = ∅
  hasDFOutSet : ∀ {s f}, Rep s f → ∀ loc, DFBacking.hasDFOutSet s loc = false →
    ∀ var, f (.dfOut loc var) = ∅
  dfInVars : ∀ {s f}, Rep s f → ∀ loc var, (f (.dfIn loc var)).Nonempty →
    var ∈ DFBacking.dfInVars s loc

/-- A function that returns whether something changed does what the machine does. -/
def RefinesOp (E : PtsError → Prop) (R : τ → DFState Key LocID → Prop) (inc : Bool)
    (a : DFState Key LocID) (c : DFCall Key LocID D) (r : Except PtsError (Bool × τ)) : Prop :=
  (∀ b t, r = .ok (b, t) →
    (b = true ↔ ∃ slot, Changes inc a c slot) ∧ R t (absSets inc a c)) ∧
  ∀ e, r = .error e → E e

def Refines (E : PtsError → Prop) (R : τ → DFState Key LocID → Prop) (inc : Bool)
    (a : DFState Key LocID) (c : DFCall Key LocID D)
    (r : Except PtsError (Option Bool × τ)) : Prop :=
  (∀ o t, r = .ok (o, t) → o = (absStep inc a c).1 ∧ R t (absStep inc a c).2) ∧
  ∀ e, r = .error e → E e

variable {E : PtsError → Prop} {R : τ → DFState Key LocID → Prop}
  {Rep : σ → (Slot Key LocID → Set Key) → Prop} {inc : Bool} {a : DFState Key LocID}
  {c : DFCall Key LocID D}

theorem RefinesOp.refines {r : Except PtsError (Bool × τ)} (h : RefinesOp E R inc a c r)
    (hret : returns c) : Refines E R inc a c (r.map (Prod.map some id)) := by
  constructor
  · intro o t hr
    obtain ⟨⟨b, t'⟩, hok, hbt⟩ := map_ok hr
    cases hbt
    obtain ⟨hb, hR⟩ := h.1 b t' hok
    refine ⟨?_, hR⟩
    classical
    show some b = if returns c then some (decide (∃ slot, Changes inc a c slot)) else none
    rw [if_pos hret, Option.some_inj, Bool.eq_iff_iff, decide_eq_true_iff]
    exact hb
  · exact fun e hr => h.2 e (map_error hr)

/-- What a store without a record shows of the machine: the sets. -/
def ShowsSets (Rep : σ → (Slot Key LocID → Set Key) → Prop) (s : σ)
    (a : DFState Key LocID) : Prop := Rep s a.sets

theorem Unions.refinesOp {r : Except PtsError (Bool × σ)} {dst : Slot Key LocID} {S : Set Key}
    (h : Unions E Rep a.sets dst S r) (hone : adds a.sets c = single dst S) :
    RefinesOp E (ShowsSets Rep) false a c r := by
  have hw := WritesOne.nonInc hone
  refine ⟨fun b s hr => ?_, h.2⟩
  obtain ⟨hb, hR⟩ := h.1 b s hr
  rw [hw.flag, ShowsSets, hw.sets_open trivial, true_and]
  exact ⟨hb, hR⟩

/-- **The loop** of `updateAllDFOutFromIn`: when the variables in `P` have been copied, what is
    left copies the others of the list that are not skipped. -/
theorem copyVars_refines {loc : LocID} {update : τ → Key → Except PtsError (Bool × τ)}
    (hup : ∀ t b var, R t b →
      RefinesOp E R inc b (.updateDFOutFromIn loc var loc var : DFCall Key LocID D)
        (update t var)) (singleton : Key) (strongUpdates : Bool) :
    ∀ (vars : List Key) (changed : Bool) (t : τ) (P : Set Key), R t (copied inc a loc P) →
      (changed ↔ CopyChanges inc a loc P) →
      (∀ b t', copyVars update singleton strongUpdates vars changed t = .ok (b, t') →
        (b ↔ CopyChanges inc a loc (P ∪ {v | v ∈ vars ∧ v ∈ unskipped singleton strongUpdates})) ∧
        R t' (copied inc a loc (P ∪ {v | v ∈ vars ∧ v ∈ unskipped singleton strongUpdates}))) ∧
      ∀ e, copyVars update singleton strongUpdates vars changed t = .error e → E e := by
  intro vars
  induction vars with
  | nil =>
    intro changed t P hR hch
    have hP : P ∪ {v | v ∈ ([] : List Key) ∧ v ∈ unskipped singleton strongUpdates} = P := by
      ext v
      exact ⟨fun h => h.resolve_right fun h => not_mem_nil h.1, .inl⟩
    rw [hP]
    refine ⟨fun b t' hr => ?_, fun e hr => nomatch hr⟩
    cases hr
    exact ⟨hch, hR⟩
  | cons var vars ih =>
    intro changed t P hR hch
    rw [copyVars]
    by_cases hskip : strongUpdates ∧ var = singleton
    · rw [if_pos hskip]
      have hP : P ∪ {v | v ∈ var :: vars ∧ v ∈ unskipped singleton strongUpdates} =
          P ∪ {v | v ∈ vars ∧ v ∈ unskipped singleton strongUpdates} := by
        ext v
        refine or_congr_right (and_congr_left fun hv => ?_)
        rw [mem_cons]
        refine or_iff_right ?_
        rintro rfl
        exact hv hskip
      rw [hP]
      exact ih changed t P hR hch
    · rw [if_neg hskip]
      have hP : P ∪ {v | v ∈ var :: vars ∧ v ∈ unskipped singleton strongUpdates} =
          insert var P ∪ {v | v ∈ vars ∧ v ∈ unskipped singleton strongUpdates} := by
        ext v
        simp only [mem_union, mem_ofPred_eq, mem_cons, mem_insert_iff]
        constructor
        · rintro (hv | ⟨rfl | hv, hu⟩)
          · exact .inl (.inr hv)
          · exact .inl (.inl rfl)
          · exact .inr ⟨hv, hu⟩
        · rintro ((rfl | hv) | ⟨hv, hu⟩)
          · exact .inr ⟨.inl rfl, hskip⟩
          · exact .inl hv
          · exact .inr ⟨.inr hv, hu⟩
      rw [hP]
      obtain ⟨hok, herr⟩ := hup t _ var hR
      cases hu : update t var with
      | error e =>
        refine ⟨fun b t' hr => (nomatch hr), fun e' hr => ?_⟩
        rw [← Except.error.inj hr]
        exact herr e hu
      | ok r =>
        obtain ⟨c', t'⟩ := r
        obtain ⟨hc, hR'⟩ := hok c' t' hu
        rw [copied_insert] at hR'
        refine ih (changed || c') t' (insert var P) hR' ?_
        rw [Bool.or_eq_true, hch, hc, copyChanges_insert (D := D)]

-- ── The classes without a record refine the machine

section NonInc

variable [DFBacking σ Key LocID D]

open DFPTData

theorem updateAllDFOutFromIn_refines (spec : BackingSpec E Rep) {s : σ} (h : Rep s a.sets)
    (loc : LocID) (singleton : Key) (strongUpdates : Bool) :
    RefinesOp E (ShowsSets Rep) false a
      (.updateAllDFOutFromIn loc singleton strongUpdates : DFCall Key LocID D)
      (updateAllDFOutFromIn s loc singleton strongUpdates) := by
  rw [updateAllDFOutFromIn]
  by_cases hin : DFBacking.hasDFInSet s loc
  · rw [if_pos hin]
    have hup : ∀ t b var, ShowsSets Rep t b → RefinesOp E (ShowsSets Rep) false b
        (.updateDFOutFromIn loc var loc var : DFCall Key LocID D)
        (updateDFOutFromIn t loc var loc var) :=
      fun t b var ht => (spec.unionSlots ht _ _).refinesOp rfl
    have hstart : ShowsSets Rep s (copied false a loc ∅) := by
      rw [copied_empty]
      exact h
    obtain ⟨hok, herr⟩ := copyVars_refines hup singleton strongUpdates
      (DFBacking.dfInVars s loc) false s ∅ hstart
      (iff_of_false Bool.false_ne_true fun ⟨_, hv, _⟩ => hv)
    have henough : Enough false a loc (unskipped singleton strongUpdates)
        (∅ ∪ {v | v ∈ DFBacking.dfInVars s loc ∧ v ∈ unskipped singleton strongUpdates}) := by
      constructor
      · exact fun v hv => (hv.resolve_left id).2
      · exact fun v hu _ hne => .inr ⟨spec.dfInVars h loc v hne, hu⟩
    refine ⟨fun b t hr => ?_, herr⟩
    obtain ⟨hb, hR⟩ := hok b t hr
    rw [henough.flag (D := D)] at hb
    rw [ShowsSets, henough.sets (D := D)] at hR
    exact ⟨hb, hR⟩
  · rw [if_neg hin]
    have hempty := spec.hasDFInSet h loc (Bool.not_eq_true _ ▸ hin)
    have henough : Enough false a loc (unskipped singleton strongUpdates) ∅ := by
      refine ⟨empty_subset _, fun v _ _ hne => ?_⟩
      rw [hempty v] at hne
      exact absurd hne not_nonempty_empty
    refine ⟨fun b t hr => ?_, fun e hr => nomatch hr⟩
    cases hr
    rw [← henough.flag, ShowsSets, ← henough.sets, copied_empty]
    exact ⟨iff_of_false Bool.false_ne_true fun ⟨_, hv, _⟩ => hv, h⟩

/-- **A store without a record refines the machine.** -/
theorem step_refines (spec : BackingSpec E Rep) {s : σ} (h : Rep s a.sets)
    (c : DFCall Key LocID D) :
    Refines E (ShowsSets Rep) false a c (DFPTData.step s c) := by
  cases c with
  | addPts dstKey element =>
    exact ((spec.addPts h dstKey element).refinesOp rfl).refines rfl
  | unionPts dstKey srcKey => exact ((spec.unionPts h dstKey srcKey).refinesOp rfl).refines rfl
  | unionPtsData dstKey srcDataSet =>
    exact ((spec.unionPtsData h dstKey srcDataSet).refinesOp rfl).refines rfl
  | updateDFInFromIn srcLoc srcVar dstLoc dstVar =>
    exact ((spec.unionSlots h _ _).refinesOp rfl).refines rfl
  | updateDFInFromOut srcLoc srcVar dstLoc dstVar =>
    exact ((spec.unionSlots h _ _).refinesOp rfl).refines rfl
  | updateDFOutFromIn srcLoc srcVar dstLoc dstVar =>
    exact ((spec.unionSlots h _ _).refinesOp rfl).refines rfl
  | updateAllDFInFromOut srcLoc srcVar dstLoc dstVar =>
    exact ((spec.unionSlots h _ _).refinesOp rfl).refines rfl
  | updateAllDFInFromIn srcLoc srcVar dstLoc dstVar =>
    exact ((spec.unionSlots h _ _).refinesOp rfl).refines rfl
  | updateAllDFOutFromIn loc singleton strongUpdates =>
    exact (updateAllDFOutFromIn_refines spec h loc singleton strongUpdates).refines rfl
  | updateTLVPts srcLoc srcVar dstVar =>
    exact ((spec.unionSlots h _ _).refinesOp rfl).refines rfl
  | updateATVPts srcVar dstLoc dstVar =>
    exact ((spec.unionSlots h _ _).refinesOp rfl).refines rfl
  | clearAllDFOutUpdatedVar loc =>
    refine ⟨fun o t hr => ?_, fun e hr => nomatch hr⟩
    cases hr
    refine ⟨rfl, ?_⟩
    have hsets : (absSets false a (.clearAllDFOutUpdatedVar loc : DFCall Key LocID D)).sets =
        a.sets := by
      funext slot
      ext x
      exact ⟨fun hx => hx.resolve_right fun hx => hx.2, .inl⟩
    show Rep s (absSets false a _).sets
    rw [hsets]
    exact h

end NonInc

-- ── The incremental classes refine the machine

section Inc

variable [DFBacking σ Key LocID D] [VarSet M Key]

/-- A `VarSet` is a set of variables. -/
class LawfulVarSet (M : Type) {Key : Type} [VarSet M Key] : Prop where
  elems_empty : VarSet.elems (VarSet.empty : M) = []
  mem_set : ∀ (m : M) (v w : Key), v ∈ VarSet.elems (VarSet.set m w) ↔ v = w ∨ v ∈ VarSet.elems m
  mem_reset : ∀ (m : M) (v w : Key),
    v ∈ VarSet.elems (VarSet.reset m w) ↔ v ∈ VarSet.elems m ∧ v ≠ w
  test_iff : ∀ (m : M) (v : Key), VarSet.test m v = true ↔ v ∈ VarSet.elems m

def marks (map : Std.HashMap LocID M) (loc : LocID) : Set Key :=
  {v | v ∈ VarSet.elems (map.getD loc (VarSet.empty : M))}

variable [LawfulVarSet M]

open IncDFPTData

section

variable (map : Std.HashMap LocID M)

theorem marks_insert (l loc : LocID) (m : M) :
    marks (map.insert l m) loc = if l = loc then {v | v ∈ VarSet.elems m} else marks map loc := by
  rw [marks, Std.HashMap.getD_insert]
  by_cases h : l = loc
  · rw [if_pos (beq_iff_eq.mpr h), if_pos h]
  · rw [if_neg (mt beq_iff_eq.mp h), if_neg h]
    rfl

theorem mem_marks_setUpdated (l loc : LocID) (v w : Key) :
    v ∈ marks (setUpdated map l w) loc ↔ v ∈ marks map loc ∨ loc = l ∧ v = w := by
  rw [setUpdated, marks_insert]
  by_cases h : l = loc
  · subst h
    rw [if_pos rfl, mem_ofPred_eq, LawfulVarSet.mem_set, or_comm, eq_self, true_and]
    rfl
  · rw [if_neg h]
    exact ⟨.inl, fun hv => hv.resolve_right fun hv => h hv.1.symm⟩

theorem mem_marks_removeUpdated (l loc : LocID) (v w : Key) :
    v ∈ marks (removeUpdated map l w) loc ↔ v ∈ marks map loc ∧ ¬ (loc = l ∧ v = w) := by
  rw [removeUpdated]
  cases hl : map[l]? with
  | none =>
    refine ⟨fun hv => ⟨hv, ?_⟩, And.left⟩
    rintro ⟨rfl, rfl⟩
    rw [marks, Std.HashMap.getD_eq_getD_getElem?, hl, Option.getD_none,
      LawfulVarSet.elems_empty] at hv
    exact not_mem_nil hv
  | some m =>
    dsimp only
    rw [marks_insert]
    by_cases h : l = loc
    · subst h
      rw [if_pos rfl, mem_ofPred_eq, LawfulVarSet.mem_reset, marks,
        Std.HashMap.getD_eq_getD_getElem?, hl, eq_self, true_and]
      rfl
    · rw [if_neg h]
      exact ⟨fun hv => ⟨hv, fun hc => h hc.1.symm⟩, And.left⟩

theorem isUpdated_iff (loc : LocID) (v : Key) :
    isUpdated map loc v ↔ v ∈ marks map loc := by
  rw [isUpdated, marks, Std.HashMap.getD_eq_getD_getElem?]
  cases hl : map[loc]? with
  | none =>
    rw [Option.getD_none, LawfulVarSet.elems_empty]
    exact iff_of_false Bool.false_ne_true not_mem_nil
  | some m => exact LawfulVarSet.test_iff m v

end

/-- A marked variable has points-to data. -/
structure HasData (a : DFState Key LocID) : Prop where
  dfIn : ∀ loc v, v ∈ a.inUpd loc → (a.sets (.dfIn loc v)).Nonempty
  dfOut : ∀ loc v, v ∈ a.outUpd loc → (a.sets (.dfOut loc v)).Nonempty

omit [Hashable Key] [Hashable LocID] [DFBacking σ Key LocID D] in
/-- **Step lemma.** No call loses that. -/
theorem HasData.step (h : HasData a) (c : DFCall Key LocID D) : HasData (absSets inc a c) := by
  have hgrow : ∀ slot, (a.sets slot).Nonempty → ((absSets inc a c).sets slot).Nonempty :=
    fun slot hne => hne.mono subset_union_left
  have hchange : ∀ slot, Changes inc a c slot → ((absSets inc a c).sets slot).Nonempty := by
    rintro slot ⟨hw, hs⟩
    obtain ⟨x, hx, -⟩ := not_subset.mp hs
    exact ⟨x, .inr ⟨hw, hx⟩⟩
  constructor
  · rintro loc v (⟨hv, -⟩ | hv)
    · exact hgrow _ (h.dfIn loc v hv)
    · exact hchange _ hv
  · rintro loc v (⟨hv, -⟩ | hv)
    · exact hgrow _ (h.dfOut loc v hv)
    · exact hchange _ hv

structure ShowsInc (Rep : σ → (Slot Key LocID → Set Key) → Prop) (s : IncDFPTData σ M LocID)
    (a : DFState Key LocID) : Prop where
  sets : Rep s.base a.sets
  inUpd : ∀ loc, marks s.inUpdatedVarMap loc = a.inUpd loc
  outUpd : ∀ loc, marks s.outUpdatedVarMap loc = a.outUpd loc
  data : HasData a

/-- The store in the middle of a call: the marks that the call takes away are gone. -/
structure Taken (Rep : σ → (Slot Key LocID → Set Key) → Prop) (a : DFState Key LocID)
    (c : DFCall Key LocID D) (s : IncDFPTData σ M LocID) : Prop where
  sets : Rep s.base a.sets
  inUpd : ∀ loc, marks s.inUpdatedVarMap loc = {v | v ∈ a.inUpd loc ∧ ¬ consumesIn c loc v}
  outUpd : ∀ loc, marks s.outUpdatedVarMap loc = {v | v ∈ a.outUpd loc ∧ ¬ consumesOut c loc}
  data : HasData a

variable {s : IncDFPTData σ M LocID}

theorem ShowsInc.taken (h : ShowsInc Rep s a) (hin : ∀ loc v, ¬ consumesIn c loc v)
    (hout : ∀ loc, ¬ consumesOut c loc) : Taken Rep a c s where
  sets := h.sets
  inUpd loc := by
    rw [h.inUpd]
    ext v
    exact (and_iff_left (hin loc v)).symm
  outUpd loc := by
    rw [h.outUpd]
    ext v
    exact (and_iff_left (hout loc)).symm
  data := h.data

variable {S : Set Key} {G : Prop} {dstVar : Key}

theorem ShowsInc.taken_remove (h : ShowsInc Rep s a) {srcLoc : LocID} {srcVar : Key}
    (hin : ∀ loc v, consumesIn c loc v ↔ loc = srcLoc ∧ v = srcVar)
    (hout : ∀ loc, ¬ consumesOut c loc) :
    Taken Rep a c (s.removeVarFromDFInUpdatedSet srcLoc srcVar) where
  sets := h.sets
  inUpd loc := by
    ext v
    rw [mem_ofPred_eq, hin, ← h.inUpd]
    exact mem_marks_removeUpdated _ _ _ _ _
  outUpd loc := by
    ext v
    rw [mem_ofPred_eq, and_iff_left (hout loc), ← h.outUpd]
    rfl
  data := h.data

theorem absSets_shut {dst : Slot Key LocID} (hw : WritesOne true a c dst S G) (hG : ¬ G)
    (hin : ∀ loc v, consumesIn c loc v → v ∉ a.inUpd loc) (hout : ∀ loc, ¬ consumesOut c loc) :
    absSets true a c = a := by
  have hch : ∀ slot, ¬ Changes true a c slot := fun slot hc => hG ((hw.changes slot).mp hc).1
  ext1
  case sets => exact hw.sets_shut hG
  case inUpd =>
    funext loc
    ext v
    rw [absSets, mem_ofPred_eq, or_iff_left (hch _)]
    exact ⟨And.left, fun hv => ⟨hv, fun hc => hin loc v hc hv⟩⟩
  case outUpd =>
    funext loc
    ext v
    rw [absSets, mem_ofPred_eq, or_iff_left (hch _), and_iff_left (hout loc)]

theorem ShowsInc.shut (h : ShowsInc Rep s a) {dst : Slot Key LocID}
    (hw : WritesOne true a c dst S G) (hG : ¬ G)
    (hin : ∀ loc v, consumesIn c loc v → v ∉ a.inUpd loc) (hout : ∀ loc, ¬ consumesOut c loc) :
    RefinesOp E (ShowsInc Rep) true a c (.ok (false, s)) := by
  refine ⟨fun b t hr => ?_, fun e hr => nomatch hr⟩
  cases hr
  rw [hw.flag, absSets_shut hw hG hin hout]
  exact ⟨iff_of_false Bool.false_ne_true fun hc => hG hc.1, h⟩

section

variable (h : Taken Rep a c s)
include h

theorem Taken.done {t : IncDFPTData σ M LocID}
    (hsets : Rep t.base (absSets true a c).sets)
    (hin : ∀ loc v, v ∈ marks t.inUpdatedVarMap loc ↔
      v ∈ marks s.inUpdatedVarMap loc ∨ Changes true a c (.dfIn loc v))
    (hout : ∀ loc v, v ∈ marks t.outUpdatedVarMap loc ↔
      v ∈ marks s.outUpdatedVarMap loc ∨ Changes true a c (.dfOut loc v)) :
    ShowsInc Rep t (absSets true a c) where
  sets := hsets
  inUpd loc := by
    ext v
    rw [hin, h.inUpd]
    rfl
  outUpd loc := by
    ext v
    rw [hout, h.outUpd]
    rfl
  data := h.data.step c

/-- A union into a set of a location, with its mark: `mark` enters the set that is written. -/
theorem Taken.unionMarked (spec : BackingSpec E Rep)
    {dst src : Slot Key LocID} (hw : WritesOne true a c dst (a.sets src) G) (hG : G)
    (mark : IncDFPTData σ M LocID → IncDFPTData σ M LocID) (hbase : ∀ t, (mark t).base = t.base)
    (hin : ∀ t loc v, v ∈ marks (mark t).inUpdatedVarMap loc ↔
      v ∈ marks t.inUpdatedVarMap loc ∨ dst = .dfIn loc v)
    (hout : ∀ t loc v, v ∈ marks (mark t).outUpdatedVarMap loc ↔
      v ∈ marks t.outUpdatedVarMap loc ∨ dst = .dfOut loc v) :
    RefinesOp E (ShowsInc Rep) true a c (DFBacking.unionSlots s.base dst src >>= fun r =>
      .ok (r.1, if r.1 then mark { s with base := r.2 } else { s with base := r.2 })) := by
  obtain ⟨hok, herr⟩ := spec.unionSlots h.sets dst src
  constructor
  · intro b t hr
    obtain ⟨⟨b', base⟩, hu, hr⟩ := bind_ok.mp hr
    obtain ⟨hb, hR⟩ := hok b' base hu
    rw [← hw.sets_open hG] at hR
    cases hr
    have hch : ∀ slot, Changes true a c slot ↔ slot = dst ∧ b' := by
      intro slot
      rw [hw.changes, hb]
      exact and_iff_right hG
    refine ⟨hb.trans (hw.flag.trans (and_iff_right hG)).symm, ?_⟩
    cases b' with
    | false =>
      refine h.done hR (fun loc v => ?_) fun loc v => ?_
      · exact (or_iff_left fun hc => Bool.false_ne_true ((hch _).mp hc).2).symm
      · exact (or_iff_left fun hc => Bool.false_ne_true ((hch _).mp hc).2).symm
    | true =>
      refine h.done ((hbase _).symm ▸ hR) (fun loc v => ?_) fun loc v => ?_
      · exact (hin _ loc v).trans (or_congr_right (eq_comm.trans ((hch _).trans
          (and_iff_left rfl)).symm))
      · exact (hout _ loc v).trans (or_congr_right (eq_comm.trans ((hch _).trans
          (and_iff_left rfl)).symm))
  · intro e hr
    rcases bind_error.mp hr with hr | ⟨r, -, hr⟩
    · exact herr e hr
    · cases hr

theorem Taken.unionIntoDFIn (spec : BackingSpec E Rep) {dstLoc : LocID}
    {src : Slot Key LocID} (hw : WritesOne true a c (.dfIn dstLoc dstVar) (a.sets src) G) (hG : G) :
    RefinesOp E (ShowsInc Rep) true a c (s.unionIntoDFIn dstLoc dstVar src) := by
  refine h.unionMarked spec hw hG (fun t => t.setVarDFInSetUpdated dstLoc dstVar) (fun _ => rfl)
    (fun t loc v => ?_) fun t loc v => ?_
  · rw [eq_comm, Slot.dfIn.injEq]
    exact mem_marks_setUpdated _ _ _ _ _
  · exact (or_iff_left dfIn_ne_dfOut).symm

theorem Taken.unionIntoDFOut (spec : BackingSpec E Rep) {dstLoc : LocID}
    {src : Slot Key LocID} (hw : WritesOne true a c (.dfOut dstLoc dstVar) (a.sets src) G) (hG : G)
    :
    RefinesOp E (ShowsInc Rep) true a c (s.unionIntoDFOut dstLoc dstVar src) := by
  refine h.unionMarked spec hw hG (fun t => t.setVarDFOutSetUpdated dstLoc dstVar) (fun _ => rfl)
    (fun t loc v => ?_) fun t loc v => ?_
  · exact (or_iff_left fun hc => dfIn_ne_dfOut hc.symm).symm
  · rw [eq_comm, Slot.dfOut.injEq]
    exact mem_marks_setUpdated _ _ _ _ _

theorem Taken.unionIntoPts (hw : WritesOne true a c (.pts dstVar) S G)
    (hG : G) {r : Except PtsError (Bool × σ)} (hu : Unions E Rep a.sets (.pts dstVar) S r) :
    RefinesOp E (ShowsInc Rep) true a c (s.onBase r) := by
  have hch : ∀ slot, Changes true a c slot → slot = .pts dstVar :=
    fun slot hc => ((hw.changes slot).mp hc).2.1
  constructor
  · intro b t hr
    obtain ⟨⟨b', base⟩, hu', hr⟩ := map_ok hr
    obtain ⟨hb, hR⟩ := hu.1 b' base hu'
    rw [← hw.sets_open hG] at hR
    cases hr
    refine ⟨hb.trans (hw.flag.trans (and_iff_right hG)).symm, ?_⟩
    refine h.done hR (fun loc v => ?_) fun loc v => ?_
    · exact (or_iff_left fun hc => pts_ne_dfIn (hch _ hc).symm).symm
    · exact (or_iff_left fun hc => pts_ne_dfOut (hch _ hc).symm).symm
  · exact fun e hr => hu.2 e (map_error hr)

end

theorem varHasNewDFInPts_iff (h : ShowsInc Rep s a) (loc : LocID) (v : Key) :
    s.varHasNewDFInPts loc v ↔ v ∈ a.inUpd loc := by
  rw [varHasNewDFInPts, isUpdated_iff, h.inUpd]

theorem varHasNewDFOutPts_iff (h : ShowsInc Rep s a) (loc : LocID) (v : Key) :
    s.varHasNewDFOutPts loc v ↔ v ∈ a.outUpd loc := by
  rw [varHasNewDFOutPts, isUpdated_iff, h.outUpd]

section

variable (spec : BackingSpec E Rep)
include spec

section

variable (h : ShowsInc Rep s a) (srcLoc : LocID) (srcVar : Key) (dstLoc : LocID) (dstVar : Key)
include h

theorem updateDFInFromIn_refines :
    RefinesOp E (ShowsInc Rep) true a
      (.updateDFInFromIn srcLoc srcVar dstLoc dstVar : DFCall Key LocID D)
      (IncDFPTData.updateDFInFromIn s srcLoc srcVar dstLoc dstVar) := by
  have hw : WritesOne true a (.updateDFInFromIn srcLoc srcVar dstLoc dstVar : DFCall Key LocID D)
      (.dfIn dstLoc dstVar) (a.sets (.dfIn srcLoc srcVar)) (srcVar ∈ a.inUpd srcLoc) :=
    WritesOne.inc rfl fun _ => .rfl
  rw [IncDFPTData.updateDFInFromIn]
  by_cases hG : s.varHasNewDFInPts srcLoc srcVar
  · rw [if_pos hG]
    exact (h.taken (fun _ _ => id) fun _ => id).unionIntoDFIn spec hw
      ((varHasNewDFInPts_iff h _ _).mp hG)
  · rw [if_neg hG]
    exact h.shut hw (mt (varHasNewDFInPts_iff h _ _).mpr hG) (fun _ _ hc => hc.elim) fun _ => id

theorem updateDFInFromOut_refines :
    RefinesOp E (ShowsInc Rep) true a
      (.updateDFInFromOut srcLoc srcVar dstLoc dstVar : DFCall Key LocID D)
      (IncDFPTData.updateDFInFromOut s srcLoc srcVar dstLoc dstVar) := by
  have hw : WritesOne true a (.updateDFInFromOut srcLoc srcVar dstLoc dstVar : DFCall Key LocID D)
      (.dfIn dstLoc dstVar) (a.sets (.dfOut srcLoc srcVar)) (srcVar ∈ a.outUpd srcLoc) :=
    WritesOne.inc rfl fun _ => .rfl
  rw [IncDFPTData.updateDFInFromOut]
  by_cases hG : s.varHasNewDFOutPts srcLoc srcVar
  · rw [if_pos hG]
    exact (h.taken (fun _ _ => id) fun _ => id).unionIntoDFIn spec hw
      ((varHasNewDFOutPts_iff h _ _).mp hG)
  · rw [if_neg hG]
    exact h.shut hw (mt (varHasNewDFOutPts_iff h _ _).mpr hG) (fun _ _ hc => hc.elim) fun _ => id

theorem updateDFOutFromIn_refines :
    RefinesOp E (ShowsInc Rep) true a
      (.updateDFOutFromIn srcLoc srcVar dstLoc dstVar : DFCall Key LocID D)
      (IncDFPTData.updateDFOutFromIn s srcLoc srcVar dstLoc dstVar) := by
  have hw : WritesOne true a (.updateDFOutFromIn srcLoc srcVar dstLoc dstVar : DFCall Key LocID D)
      (.dfOut dstLoc dstVar) (a.sets (.dfIn srcLoc srcVar)) (srcVar ∈ a.inUpd srcLoc) :=
    WritesOne.inc rfl fun _ => .rfl
  rw [IncDFPTData.updateDFOutFromIn]
  by_cases hG : s.varHasNewDFInPts srcLoc srcVar
  · rw [if_pos hG]
    exact (h.taken_remove (fun _ _ => .rfl) fun _ => id).unionIntoDFOut spec hw
      ((varHasNewDFInPts_iff h _ _).mp hG)
  · rw [if_neg hG]
    have hnot : srcVar ∉ a.inUpd srcLoc := mt (varHasNewDFInPts_iff h _ _).mpr hG
    refine h.shut hw hnot ?_ fun _ => id
    rintro loc v ⟨rfl, rfl⟩
    exact hnot

end

theorem updateTLVPts_refines (h : ShowsInc Rep s a)
    (srcLoc : LocID) (srcVar dstVar : Key) :
    RefinesOp E (ShowsInc Rep) true a (.updateTLVPts srcLoc srcVar dstVar : DFCall Key LocID D)
      (IncDFPTData.updateTLVPts s srcLoc srcVar dstVar) := by
  have hw : WritesOne true a (.updateTLVPts srcLoc srcVar dstVar : DFCall Key LocID D)
      (.pts dstVar) (a.sets (.dfIn srcLoc srcVar)) (srcVar ∈ a.inUpd srcLoc) :=
    WritesOne.inc rfl fun _ => .rfl
  rw [IncDFPTData.updateTLVPts]
  by_cases hG : s.varHasNewDFInPts srcLoc srcVar
  · rw [if_pos hG]
    have htaken := h.taken_remove (c := (.updateTLVPts srcLoc srcVar dstVar :
      DFCall Key LocID D)) (fun _ _ => .rfl) fun _ => id
    have hu := spec.unionTLV htaken.sets dstVar srcLoc srcVar
    exact htaken.unionIntoPts hw ((varHasNewDFInPts_iff h _ _).mp hG) hu
  · rw [if_neg hG]
    have hnot : srcVar ∉ a.inUpd srcLoc := mt (varHasNewDFInPts_iff h _ _).mpr hG
    refine h.shut hw hnot ?_ fun _ => id
    rintro loc v ⟨rfl, rfl⟩
    exact hnot

end

theorem marks_touch (map : Std.HashMap LocID M) (l loc : LocID) :
    marks (map.insert l (map.getD l VarSet.empty)) loc = marks map loc := by
  rw [marks_insert]
  by_cases h : l = loc
  · subst h
    rw [if_pos rfl]
    rfl
  · rw [if_neg h]

theorem incUpdateAllDFOutFromIn_refines (spec : BackingSpec E Rep) (h : ShowsInc Rep s a)
    (loc : LocID) (singleton : Key) (strongUpdates : Bool) :
    RefinesOp E (ShowsInc Rep) true a
      (.updateAllDFOutFromIn loc singleton strongUpdates : DFCall Key LocID D)
      (IncDFPTData.updateAllDFOutFromIn s loc singleton strongUpdates) := by
  rw [IncDFPTData.updateAllDFOutFromIn]
  by_cases hin : DFBacking.hasDFInSet s.base loc
  · rw [if_pos hin]
    have htouch : ShowsInc Rep (s.getDFInUpdatedVar loc).2 (copied true a loc ∅) := by
      rw [copied_empty]
      exact ⟨h.sets, fun l => (marks_touch _ _ _).trans (h.inUpd l), h.outUpd, h.data⟩
    have hup : ∀ (t : IncDFPTData σ M LocID) b var, ShowsInc Rep t b →
        RefinesOp E (ShowsInc Rep) true b (.updateDFOutFromIn loc var loc var : DFCall Key LocID D)
          (IncDFPTData.updateDFOutFromIn t loc var loc var) :=
      fun t b var ht => updateDFOutFromIn_refines spec ht loc var loc var
    obtain ⟨hok, herr⟩ := copyVars_refines hup singleton strongUpdates
      (VarSet.elems (s.getDFInUpdatedVar loc).1) false (s.getDFInUpdatedVar loc).2 ∅ htouch
      (iff_of_false Bool.false_ne_true fun ⟨_, hv, _⟩ => hv)
    have hmarked : ∀ v ∈ unskipped singleton strongUpdates, v ∈ a.inUpd loc →
        v ∈ ∅ ∪ {v | v ∈ VarSet.elems (s.getDFInUpdatedVar loc).1 ∧
          v ∈ unskipped singleton strongUpdates} := by
      intro v hu hv
      rw [← h.inUpd] at hv
      exact .inr ⟨hv, hu⟩
    have henough : Enough true a loc (unskipped singleton strongUpdates)
        (∅ ∪ {v | v ∈ VarSet.elems (s.getDFInUpdatedVar loc).1 ∧
          v ∈ unskipped singleton strongUpdates}) :=
      ⟨fun v hv => (hv.resolve_left id).2, fun v hu hi _ => hmarked v hu (hi rfl)⟩
    refine ⟨fun b t hr => ?_, herr⟩
    obtain ⟨hb, hR⟩ := hok b t hr
    rw [henough.flag (D := D)] at hb
    rw [henough.state (D := D) hmarked] at hR
    exact ⟨hb, hR⟩
  · rw [if_neg hin]
    have hempty := spec.hasDFInSet h.sets loc (Bool.not_eq_true _ ▸ hin)
    -- nothing is marked where there is no data
    have hnone : ∀ v, v ∉ a.inUpd loc := by
      intro v hv
      have hne := h.data.dfIn loc v hv
      rw [hempty v] at hne
      exact not_nonempty_empty hne
    have henough : Enough true a loc (unskipped singleton strongUpdates) ∅ :=
      ⟨empty_subset _, fun v _ hi _ => (hnone v (hi rfl)).elim⟩
    refine ⟨fun b t hr => ?_, fun e hr => nomatch hr⟩
    cases hr
    rw [← henough.flag, ← henough.state fun v _ hv => (hnone v hv).elim, copied_empty]
    exact ⟨iff_of_false Bool.false_ne_true fun ⟨_, hv, _⟩ => hv, h⟩

theorem foldl_removeOut (loc : LocID) (vars : List Key) : ∀ s : IncDFPTData σ M LocID,
      (vars.foldl (fun s var => s.removeVarFromDFOutUpdatedSet loc var) s).base = s.base ∧
      (vars.foldl (fun s var => s.removeVarFromDFOutUpdatedSet loc var) s).inUpdatedVarMap =
        s.inUpdatedVarMap ∧
      ∀ l v, v ∈ marks (vars.foldl
          (fun s var => s.removeVarFromDFOutUpdatedSet loc var) s).outUpdatedVarMap l ↔
        v ∈ marks s.outUpdatedVarMap l ∧ ¬ (l = loc ∧ v ∈ vars) := by
  induction vars with
  | nil =>
    intro s
    exact ⟨rfl, rfl, fun l v => ⟨fun hv => ⟨hv, fun hc => not_mem_nil hc.2⟩, And.left⟩⟩
  | cons w vars ih =>
    intro s
    obtain ⟨hbase, hin, hout⟩ := ih (s.removeVarFromDFOutUpdatedSet loc w)
    refine ⟨hbase, hin, fun l v => (hout l v).trans ?_⟩
    rw [removeVarFromDFOutUpdatedSet, mem_marks_removeUpdated, mem_cons]
    tauto

theorem clearAllDFOutUpdatedVar_shows (spec : BackingSpec (D := D) E Rep)
    (h : ShowsInc Rep s a) (loc : LocID) :
    ShowsInc Rep (s.clearAllDFOutUpdatedVar loc)
      (absSets true a (.clearAllDFOutUpdatedVar loc : DFCall Key LocID D)) := by
  have hch : ∀ slot, ¬ Changes true a (.clearAllDFOutUpdatedVar loc : DFCall Key LocID D) slot :=
    fun slot hc => hc.2 (empty_subset _)
  have hsets : (absSets true a (.clearAllDFOutUpdatedVar loc : DFCall Key LocID D)).sets =
      a.sets := by
    funext slot
    ext x
    exact ⟨fun hx => hx.resolve_right fun hx => hx.2, .inl⟩
  rw [clearAllDFOutUpdatedVar]
  by_cases hout : DFBacking.hasDFOutSet s.base loc
  · rw [if_pos hout]
    obtain ⟨hbase, hin, hmarks⟩ := foldl_removeOut loc
      (VarSet.elems (s.getDFOutUpdatedVar loc).1) (s.getDFOutUpdatedVar loc).2
    constructor
    case sets =>
      rw [hbase, hsets]
      exact h.sets
    case inUpd =>
      intro l
      rw [hin]
      ext v
      rw [absSets, mem_ofPred_eq, or_iff_left (hch _), ← h.inUpd]
      exact (and_iff_left id).symm
    case outUpd =>
      intro l
      ext v
      have htouch : marks (s.getDFOutUpdatedVar loc).2.outUpdatedVarMap l =
          marks s.outUpdatedVarMap l := marks_touch _ _ _
      rw [hmarks, htouch, absSets, mem_ofPred_eq, or_iff_left (hch _), ← h.outUpd]
      refine and_congr_right fun hv => not_congr ⟨And.left, ?_⟩
      rintro rfl
      exact ⟨rfl, hv⟩
    case data => exact h.data.step _
  · rw [if_neg hout]
    have hempty := spec.hasDFOutSet h.sets loc (Bool.not_eq_true _ ▸ hout)
    constructor
    case sets =>
      rw [hsets]
      exact h.sets
    case inUpd =>
      intro l
      ext v
      rw [absSets, mem_ofPred_eq, or_iff_left (hch _), ← h.inUpd]
      exact (and_iff_left id).symm
    case outUpd =>
      intro l
      ext v
      rw [absSets, mem_ofPred_eq, or_iff_left (hch _), h.outUpd]
      refine ⟨fun hv => ⟨hv, ?_⟩, And.left⟩
      -- nothing is marked where there is no data
      rintro rfl
      have hne := h.data.dfOut l v hv
      rw [hempty v] at hne
      exact not_nonempty_empty hne
    case data => exact h.data.step _

/-- **An incremental store refines the machine.** -/
theorem incStep_refines (spec : BackingSpec E Rep) (h : ShowsInc Rep s a) (c : DFCall Key LocID D) :
    Refines E (ShowsInc Rep) true a c (IncDFPTData.step s c) := by
  cases c with
  | addPts dstKey element =>
    have hw : WritesOne true a (.addPts dstKey element : DFCall Key LocID D) (.pts dstKey)
        {element} True := WritesOne.inc rfl fun _ => .rfl
    exact ((h.taken (fun _ _ => id) fun _ => id).unionIntoPts hw trivial
      (spec.addPts h.sets dstKey element)).refines rfl
  | unionPts dstKey srcKey =>
    have hw : WritesOne true a (.unionPts dstKey srcKey : DFCall Key LocID D) (.pts dstKey)
        (a.sets (.pts srcKey)) True := WritesOne.inc rfl fun _ => .rfl
    exact ((h.taken (fun _ _ => id) fun _ => id).unionIntoPts hw trivial
      (spec.unionPts h.sets dstKey srcKey)).refines rfl
  | unionPtsData dstKey srcDataSet =>
    have hw : WritesOne true a (.unionPtsData dstKey srcDataSet : DFCall Key LocID D)
        (.pts dstKey) (den srcDataSet) True := WritesOne.inc rfl fun _ => .rfl
    exact ((h.taken (fun _ _ => id) fun _ => id).unionIntoPts hw trivial
      (spec.unionPtsData h.sets dstKey srcDataSet)).refines rfl
  | updateDFInFromIn srcLoc srcVar dstLoc dstVar =>
    exact (updateDFInFromIn_refines spec h srcLoc srcVar dstLoc dstVar).refines rfl
  | updateDFInFromOut srcLoc srcVar dstLoc dstVar =>
    exact (updateDFInFromOut_refines spec h srcLoc srcVar dstLoc dstVar).refines rfl
  | updateDFOutFromIn srcLoc srcVar dstLoc dstVar =>
    exact (updateDFOutFromIn_refines spec h srcLoc srcVar dstLoc dstVar).refines rfl
  | updateAllDFInFromOut srcLoc srcVar dstLoc dstVar =>
    have hw : WritesOne true a
        (.updateAllDFInFromOut srcLoc srcVar dstLoc dstVar : DFCall Key LocID D)
        (.dfIn dstLoc dstVar) (a.sets (.dfOut srcLoc srcVar)) True :=
      WritesOne.inc rfl fun _ => .rfl
    exact ((h.taken (fun _ _ => id) fun _ => id).unionIntoDFIn spec hw trivial).refines rfl
  | updateAllDFInFromIn srcLoc srcVar dstLoc dstVar =>
    have hw : WritesOne true a
        (.updateAllDFInFromIn srcLoc srcVar dstLoc dstVar : DFCall Key LocID D)
        (.dfIn dstLoc dstVar) (a.sets (.dfIn srcLoc srcVar)) True :=
      WritesOne.inc rfl fun _ => .rfl
    exact ((h.taken (fun _ _ => id) fun _ => id).unionIntoDFIn spec hw trivial).refines rfl
  | updateAllDFOutFromIn loc singleton strongUpdates =>
    exact (incUpdateAllDFOutFromIn_refines spec h loc singleton strongUpdates).refines rfl
  | updateTLVPts srcLoc srcVar dstVar =>
    exact (updateTLVPts_refines spec h srcLoc srcVar dstVar).refines rfl
  | updateATVPts srcVar dstLoc dstVar =>
    have hw : WritesOne true a (.updateATVPts srcVar dstLoc dstVar : DFCall Key LocID D)
        (.dfOut dstLoc dstVar) (a.sets (.pts srcVar)) True :=
      WritesOne.inc rfl fun _ => .rfl
    exact ((h.taken (fun _ _ => id) fun _ => id).unionIntoDFOut spec hw trivial).refines rfl
  | clearAllDFOutUpdatedVar loc =>
    refine ⟨fun o t hr => ?_, fun e hr => nomatch hr⟩
    cases hr
    exact ⟨rfl, clearAllDFOutUpdatedVar_shows spec h loc⟩

end Inc

end Refinement

-- ── The incremental machine and the other

section Comparison

variable [DataSet D Key] {a b : DFState Key LocID} {c : DFCall Key LocID D}

def Skips (a : DFState Key LocID) (c : DFCall Key LocID D) : Prop :=
  ∃ slot, ¬ gate a c slot ∧ ¬ adds a.sets c slot ⊆ a.sets slot

theorem adds_mono {f g : Slot Key LocID → Set Key} (h : ∀ slot, f slot ⊆ g slot)
    (c : DFCall Key LocID D) (slot : Slot Key LocID) : adds f c slot ⊆ adds g c slot := by
  have hsingle : ∀ (dst : Slot Key LocID) {S T : Set Key}, S ⊆ T →
      single dst S slot ⊆ single dst T slot := fun _ _ _ hST _ hx => ⟨hx.1, hST hx.2⟩
  cases c with
  | addPts dstKey element => exact subset_rfl
  | unionPts dstKey srcKey => exact hsingle _ (h _)
  | unionPtsData dstKey srcDataSet => exact subset_rfl
  | updateDFInFromIn srcLoc srcVar dstLoc dstVar => exact hsingle _ (h _)
  | updateDFInFromOut srcLoc srcVar dstLoc dstVar => exact hsingle _ (h _)
  | updateDFOutFromIn srcLoc srcVar dstLoc dstVar => exact hsingle _ (h _)
  | updateAllDFInFromOut srcLoc srcVar dstLoc dstVar => exact hsingle _ (h _)
  | updateAllDFInFromIn srcLoc srcVar dstLoc dstVar => exact hsingle _ (h _)
  | updateAllDFOutFromIn loc singleton strongUpdates =>
    exact fun x ⟨var, hs, hu, hx⟩ => ⟨var, hs, hu, h _ hx⟩
  | updateTLVPts srcLoc srcVar dstVar => exact hsingle _ (h _)
  | updateATVPts srcVar dstLoc dstVar => exact hsingle _ (h _)
  | clearAllDFOutUpdatedVar loc => exact subset_rfl

theorem absSets_le (h : ∀ slot, a.sets slot ⊆ b.sets slot) (c : DFCall Key LocID D)
    (slot : Slot Key LocID) : (absSets true a c).sets slot ⊆ (absSets false b c).sets slot := by
  rintro x (hx | ⟨-, hx⟩)
  · exact .inl (h slot hx)
  · exact .inr ⟨nofun, adds_mono h c slot hx⟩

theorem absSets_eq_iff (h : a.sets = b.sets) :
    (absSets true a c).sets = (absSets false b c).sets ↔ ¬ Skips a c := by
  constructor
  · rintro heq ⟨slot, hgate, hs⟩
    refine hs fun x hx => ?_
    have hx' : x ∈ (absSets false b c).sets slot := by
      rw [h] at hx
      exact .inr ⟨nofun, hx⟩
    rw [← heq] at hx'
    exact hx'.resolve_right fun hw => hgate (hw.1 rfl)
  · intro hskip
    funext slot
    refine Set.Subset.antisymm (absSets_le (fun _ => by rw [h]) c slot) ?_
    rintro x (hx | ⟨-, hx⟩)
    · rw [← h] at hx
      exact .inl hx
    · rw [← h] at hx
      by_cases hgate : gate a c slot
      · exact .inr ⟨fun _ => hgate, hx⟩
      · by_cases hs : adds a.sets c slot ⊆ a.sets slot
        · exact .inl (hs hx)
        · exact absurd ⟨slot, hgate, hs⟩ hskip

/-- No data and no marks. -/
def DFState.empty : DFState Key LocID where
  sets := fun _ => ∅
  inUpd := fun _ => ∅
  outUpd := fun _ => ∅

/-- The machine after a run. -/
noncomputable def absAfter (inc : Bool) (calls : List (DFCall Key LocID D)) :
    DFState Key LocID := (run (absStep inc) DFState.empty calls).2

theorem absAfter_concat (inc : Bool) (calls : List (DFCall Key LocID D)) (c : DFCall Key LocID D) :
    absAfter inc (calls ++ [c]) = absSets inc (absAfter inc calls) c :=
  congrArg Prod.snd (run_concat (absStep inc) DFState.empty calls c)

theorem absAfter_le (calls : List (DFCall Key LocID D)) (slot : Slot Key LocID) :
    (absAfter true calls).sets slot ⊆ (absAfter false calls).sets slot := by
  induction calls using List.reverseRecOn generalizing slot with
  | nil => exact subset_rfl
  | append_singleton calls c ih =>
    rw [absAfter_concat, absAfter_concat]
    exact absSets_le ih c slot

/-- **In a run the sets stay equal exactly as long as no call skips anything.** -/
theorem absAfter_eq_iff (calls : List (DFCall Key LocID D)) :
    (∀ pre, pre <+: calls → (absAfter true pre).sets = (absAfter false pre).sets) ↔
      ∀ pre c, pre ++ [c] <+: calls → ¬ Skips (absAfter true pre) c := by
  constructor
  · intro heq pre c hpre
    have hnow := heq pre ((prefix_append pre [c]).trans hpre)
    have hnext := heq (pre ++ [c]) hpre
    rw [absAfter_concat, absAfter_concat] at hnext
    exact (absSets_eq_iff hnow).mp hnext
  · intro hskip pre
    induction pre using List.reverseRecOn with
    | nil => exact fun _ => rfl
    | append_singleton pre c ih =>
      intro hpre
      have hnow := ih ((prefix_append pre [c]).trans hpre)
      rw [absAfter_concat, absAfter_concat]
      exact (absSets_eq_iff hnow).mpr (hskip pre c hpre)

end Comparison

end SvfDFPts
