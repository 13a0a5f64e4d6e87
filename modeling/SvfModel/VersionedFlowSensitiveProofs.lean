import SvfModel.LoopProofs
import SvfModel.MeldLabelProofs
import SvfModel.WorkListProofs

/-!
# Versioned flow-sensitive analysis: what a store does

Points-to sets are kept per variable and per object and version. At a store `*p = q` the
objects that `p` points to receive the value in the version that the store yields, and what
the store consumes is to go on into what it yields, unless it is overwritten.

The second loop runs over the table `consume`, and that has entries for the owners of
footprints only. An object that is mapped to another is left out. `processStore_sound_iff`
says exactly when that loses nothing, and `processStore_not_sound_twoStores` shows two
stores in a row where it loses a target.
-/

namespace SvfVersionedFlowSensitive

open SvfLoop SvfWorkList Finset

/-- A node of the worklist: one of the graph, or the dummy node that stands for an object
    and a version of it. -/
inductive WorkItem where
  | node (n : NodeID)
  | prop (o : NodeID) (v : Version)
deriving DecidableEq

/-- What the analysis asks about variables and objects. -/
structure SVFIR where
  isPointer : NodeID → Bool
  isConstantObj : NodeID → Bool
  isHeapMemObj : NodeID → Bool
  isArrayMemObj : NodeID → Bool
  isLocalVarInRecursiveFun : NodeID → Bool
  getBaseObj : NodeID → NodeID

/-- The state of the solve phase. -/
structure VersionedFlowSensitive where
  pts : NodeID → Finset NodeID
  vpts : NodeID × Version → Finset NodeID
  versionReliance : NodeID → Version → List Version
  isFieldInsensitive : NodeID → Bool
  getAllFieldsObjVars : NodeID → Finset NodeID
  svfgHasSU : Finset NodeID
  worklist : FIFOWorkList WorkItem

variable (pag : SVFIR) (svfg : SVFG) (tables : VersionTables)

-- ── versions

def getVersion (l o : NodeID) (lvm : NodeID → ObjToVersionMap) : Version :=
  ((lvm l).lookup (tables.equivalentObject o)).getD invalidVersion

def getConsume (l o : NodeID) : Version := getVersion tables l o tables.consume

def getYield (l o : NodeID) : Version :=
  if svfg.isStore l then getVersion tables l o tables.yield
  else getVersion tables l o tables.consume

namespace VersionedFlowSensitive

/-- `initialize()`: before the first node is processed. -/
def initialState : VersionedFlowSensitive where
  pts := fun _ => ∅
  vpts := fun _ => ∅
  versionReliance := tables.versionReliance
  isFieldInsensitive := fun _ => false
  getAllFieldsObjVars := fun _ => ∅
  svfgHasSU := ∅
  worklist := FIFOWorkList.empty

variable (s : VersionedFlowSensitive)

-- ── the operations

def unionPts (p : NodeID) (S : Finset NodeID) : VersionedFlowSensitive :=
  { s with pts := Function.update s.pts p (s.pts p ∪ S) }

def unionVPts (o : NodeID) (v : Version) (S : Finset NodeID) : Bool × VersionedFlowSensitive :=
  (decide (¬ S ⊆ s.vpts (o, v)),
    { s with vpts := Function.update s.vpts (o, v) (s.vpts (o, v) ∪ S) })

def pushIntoWorklist (i : WorkItem) : VersionedFlowSensitive :=
  { s with worklist := (s.worklist.push i).2 }

def pushStmts (o : NodeID) (v : Version) : VersionedFlowSensitive :=
  (elems (tables.stmtReliance o v)).foldl (fun s n => s.pushIntoWorklist (.node n)) s

def propagateVersionTo (o : NodeID) (v vp : Version) : VersionedFlowSensitive :=
  let (changed, s) := s.unionVPts o vp (s.vpts (o, v))
  if changed then (s.pushIntoWorklist (.prop o vp)).pushStmts tables o vp else s

def propagateVersion (o : NodeID) (v : Version) : VersionedFlowSensitive :=
  (s.versionReliance o v).foldl (fun s r => s.propagateVersionTo tables o v r) s

def isStrongUpdate (p : NodeID) : Option NodeID :=
  match elems (s.pts p) with
  | [singleton] =>
    if !pag.isHeapMemObj singleton && !pag.isArrayMemObj singleton
        && !s.isFieldInsensitive (pag.getBaseObj singleton)
        && !pag.isLocalVarInRecursiveFun singleton then
      some singleton
    else none
  | _ => none

/-- The local variables of `processStore`. -/
structure StoreLoop where
  state : VersionedFlowSensitive
  changed : Bool
  changedObjects : Finset NodeID

def StoreLoop.union (a : StoreLoop) (o : NodeID) (v : Version) (S : Finset NodeID) : StoreLoop :=
  let (changed, s) := a.state.unionVPts o v S
  if changed then ⟨s, true, insert o a.changedObjects⟩ else { a with state := s }

/-- The first loop, at one object of the pointer's points-to set. -/
def StoreLoop.write (l q : NodeID) (a : StoreLoop) (o : NodeID) : StoreLoop :=
  if pag.isConstantObj o then a
  else
    let y := getYield svfg tables l o
    if y ≠ invalidVersion then a.union o y (a.state.pts q) else a

def StoreLoop.update (l : NodeID) (singleton : Option NodeID) (a : StoreLoop)
    (oc : Sigma fun _ : NodeID => Version) : StoreLoop :=
  if singleton = some oc.1 then a
  else
    let y := getYield svfg tables l oc.1
    if y ≠ invalidVersion then a.union oc.1 y (a.state.vpts (oc.1, oc.2)) else a

/-- The last loop, at one changed object. -/
def propagateChanged (l o : NodeID) : VersionedFlowSensitive :=
  let y := getYield svfg tables l o
  (s.propagateVersion tables o y).pushStmts tables o y

def writeAll (l p q : NodeID) : StoreLoop :=
  if s.pts q ≠ ∅ ∧ pag.isPointer q = true then
    (elems (s.pts p)).foldl (StoreLoop.write pag svfg tables l q) ⟨s, false, ∅⟩
  else ⟨s, false, ∅⟩

def processStore (l p q : NodeID) : Bool × VersionedFlowSensitive :=
  if s.pts p = ∅ then (false, s)
  else
    let a := s.writeAll pag svfg tables l p q
    let singleton := a.state.isStrongUpdate pag p
    let hasSU := if singleton.isSome then insert l a.state.svfgHasSU else a.state.svfgHasSU.erase l
    let a := { a with state := { a.state with svfgHasSU := hasSU } }
    let a := (tables.consume l).entries.foldl (StoreLoop.update svfg tables l singleton) a
    (a.changed,
      (elems a.changedObjects).foldl (fun s o => s.propagateChanged svfg tables l o) a.state)

def loadObject (l p o : NodeID) : VersionedFlowSensitive :=
  let c := getConsume tables l o
  if c ≠ invalidVersion then s.unionPts p (s.vpts (o, c)) else s

def processLoad (l p q : NodeID) : VersionedFlowSensitive :=
  if pag.isPointer p then
    (elems (s.pts q)).foldl
      (fun (s : VersionedFlowSensitive) o =>
        if pag.isConstantObj o then s
        else
          let s := s.loadObject tables l p o
          if s.isFieldInsensitive o then
            (elems (s.getAllFieldsObjVars o)).foldl
              (fun (s : VersionedFlowSensitive) f => s.loadObject tables l p f) s
          else s)
      s
  else s

/-- `updateConnectedNodes`, for one object of one new indirect edge. -/
def updateConnected (src dst o : NodeID) : VersionedFlowSensitive :=
  let srcY := getYield svfg tables src o
  let dstC := getConsume tables dst o
  if srcY = invalidVersion ∨ dstC = invalidVersion then s
  else if dstC ∈ s.versionReliance o srcY then s
  else
    let reliance := Function.update s.versionReliance o
      (Function.update (s.versionReliance o) srcY (s.versionReliance o srcY ++ [dstC]))
    { s with versionReliance := reliance }.propagateVersionTo tables o srcY dstC

/-- What the solver may do next. The statements that only concern variables add to one of
    them (`top`) and may change what is known about fields (`memory`). -/
inductive Action where
  | top (p : NodeID) (objs : Finset NodeID)
  | memory (fieldInsensitive : NodeID → Bool) (fields : NodeID → Finset NodeID)
  | load (l : NodeID)
  | store (l : NodeID)
  | prop (o : NodeID) (v : Version)
  | connect (src dst o : NodeID)

def step : Action → VersionedFlowSensitive
  | .top p objs => s.unionPts p objs
  | .memory ins fields => { s with isFieldInsensitive := ins, getAllFieldsObjVars := fields }
  | .load l =>
    match svfg.getSVFGNode l with
    | .load p q => s.processLoad pag tables l p q
    | _ => s
  | .store l =>
    match svfg.getSVFGNode l with
    | .store p q => (s.processStore pag svfg tables l p q).2
    | _ => s
  | .prop o v => s.propagateVersion tables o v
  | .connect src dst o => s.updateConnected svfg tables src dst o

def run (actions : List Action) : VersionedFlowSensitive :=
  actions.foldl (step pag svfg tables) (initialState tables)

-- ── what the operations change

variable {pag svfg tables} {s}

/-- Nothing but versions of objects and the worklist has changed, as far as `processStore`
    asks. -/
structure SameTop (s t : VersionedFlowSensitive) : Prop where
  pts : t.pts = s.pts
  versionReliance : t.versionReliance = s.versionReliance
  isFieldInsensitive : t.isFieldInsensitive = s.isFieldInsensitive

theorem SameTop.refl (s : VersionedFlowSensitive) : SameTop s s := ⟨rfl, rfl, rfl⟩

theorem SameTop.trans {s t r : VersionedFlowSensitive} (h : SameTop s t) (h' : SameTop t r) :
    SameTop s r :=
  ⟨h'.pts.trans h.pts, h'.versionReliance.trans h.versionReliance,
    h'.isFieldInsensitive.trans h.isFieldInsensitive⟩

theorem SameTop.isStrongUpdate {t : VersionedFlowSensitive} (h : SameTop s t) (p : NodeID) :
    t.isStrongUpdate pag p = s.isStrongUpdate pag p := by
  rw [VersionedFlowSensitive.isStrongUpdate, VersionedFlowSensitive.isStrongUpdate, h.pts,
    h.isFieldInsensitive]

theorem unionVPts_vpts (s : VersionedFlowSensitive) (o : NodeID) (v : Version)
    (S : Finset NodeID) (k : NodeID × Version) :
    (s.unionVPts o v S).2.vpts k = if k = (o, v) then s.vpts (o, v) ∪ S else s.vpts k :=
  Function.update_apply ..

section

variable (tables : VersionTables) (s : VersionedFlowSensitive) (o : NodeID)

theorem pushStmts_eq (v : Version) : ∃ w, s.pushStmts tables o v = { s with worklist := w } := by
  rw [pushStmts]
  generalize elems (tables.stmtReliance o v) = l
  induction l generalizing s with
  | nil => exact ⟨s.worklist, rfl⟩
  | cons n l ih =>
    obtain ⟨w, hw⟩ := ih (s.pushIntoWorklist (.node n))
    exact ⟨w, hw⟩

theorem propagateVersionTo_eq (v vp : Version) :
    ∃ w, s.propagateVersionTo tables o v vp =
      { (s.unionVPts o vp (s.vpts (o, v))).2 with worklist := w } := by
  rw [propagateVersionTo]
  cases h : s.unionVPts o vp (s.vpts (o, v)) with
  | mk changed t =>
    cases changed with
    | true =>
      obtain ⟨w, hw⟩ := pushStmts_eq tables (t.pushIntoWorklist (.prop o vp)) o vp
      exact ⟨w, hw⟩
    | false => exact ⟨t.worklist, rfl⟩

end

/-- What `propagateVersion` may do to the versions of its object: nothing to `v`, and to
    another version nothing, or add `v`'s set. -/
structure Propagated (o : NodeID) (v : Version) (s t : VersionedFlowSensitive) : Prop where
  same : SameTop s t
  other : ∀ k : NodeID × Version, k.1 ≠ o → t.vpts k = s.vpts k
  self : t.vpts (o, v) = s.vpts (o, v)
  version : ∀ x, t.vpts (o, x) = s.vpts (o, x) ∨ t.vpts (o, x) = s.vpts (o, x) ∪ s.vpts (o, v)

theorem Propagated.refl (o : NodeID) (v : Version) (s : VersionedFlowSensitive) :
    Propagated o v s s :=
  ⟨SameTop.refl s, fun _ _ => rfl, rfl, fun _ => .inl rfl⟩

theorem Propagated.trans {o : NodeID} {v : Version} {s t r : VersionedFlowSensitive}
    (h : Propagated o v s t) (h' : Propagated o v t r) : Propagated o v s r where
  same := h.same.trans h'.same
  other := fun k hk => (h'.other k hk).trans (h.other k hk)
  self := h'.self.trans h.self
  version := fun x => by
    have hx := h.version x
    have hx' := h'.version x
    rw [h.self] at hx'
    rcases hx' with hx' | hx'
    · rw [hx']
      exact hx
    · rw [hx']
      rcases hx with hx | hx
      · rw [hx]
        exact .inr rfl
      · rw [hx, union_assoc, union_self]
        exact .inr rfl

theorem propagateVersionTo_propagated (s : VersionedFlowSensitive) (o : NodeID)
    (v vp : Version) : Propagated o v s (s.propagateVersionTo tables o v vp) := by
  obtain ⟨w, hw⟩ := propagateVersionTo_eq tables s o v vp
  have hvpts : ∀ k, (s.propagateVersionTo tables o v vp).vpts k =
      if k = (o, vp) then s.vpts (o, vp) ∪ s.vpts (o, v) else s.vpts k := by
    intro k
    rw [hw]
    exact unionVPts_vpts s o vp _ k
  refine ⟨?_, ?_, ?_, ?_⟩
  · rw [hw]
    exact ⟨rfl, rfl, rfl⟩
  · intro k hk
    rw [hvpts, if_neg]
    rintro rfl
    exact hk rfl
  · rw [hvpts]
    split
    · next heq => rw [← heq, union_self]
    · rfl
  · intro x
    rw [hvpts]
    split
    · next heq =>
        rw [heq]
        exact .inr rfl
    · exact .inl rfl

theorem propagateVersion_propagated (tables : VersionTables) (s : VersionedFlowSensitive)
    (o : NodeID) (v : Version) :
    Propagated o v s (s.propagateVersion tables o v) := by
  rw [propagateVersion]
  generalize s.versionReliance o v = l
  induction l generalizing s with
  | nil => exact Propagated.refl o v s
  | cons r l ih => exact (propagateVersionTo_propagated s o v r).trans (ih _)

theorem propagateChanged_propagated (svfg : SVFG) (tables : VersionTables)
    (s : VersionedFlowSensitive) (l o : NodeID) :
    Propagated o (getYield svfg tables l o) s (s.propagateChanged svfg tables l o) := by
  obtain ⟨w, hw⟩ := pushStmts_eq tables
    (s.propagateVersion tables o (getYield svfg tables l o)) o (getYield svfg tables l o)
  have h := propagateVersion_propagated tables s o (getYield svfg tables l o)
  rw [propagateChanged, hw]
  exact ⟨⟨h.same.pts, h.same.versionReliance, h.same.isFieldInsensitive⟩, h.other, h.self,
    h.version⟩

-- ── the three loops of a store

def view (o : NodeID) (s : VersionedFlowSensitive) (v : Version) : Finset NodeID := s.vpts (o, v)

theorem StoreLoop.union_state (a : StoreLoop) (o : NodeID) (v : Version) (S : Finset NodeID) :
    (a.union o v S).state = (a.state.unionVPts o v S).2 := by
  rw [StoreLoop.union]
  cases h : a.state.unionVPts o v S with
  | mk changed t =>
    cases changed with
    | true => rfl
    | false => rfl

theorem StoreLoop.union_view (a : StoreLoop) (o x : NodeID) (v : Version) (S : Finset NodeID) :
    view x (a.union o v S).state =
      if x = o then fun y => view x a.state y ∪ (if y = v then S else ∅) else view x a.state := by
  funext y
  show (a.union o v S).state.vpts (x, y) = _
  rw [StoreLoop.union_state, unionVPts_vpts]
  by_cases hx : x = o
  · subst hx
    rw [if_pos rfl]
    by_cases hy : y = v
    · subst hy
      rw [if_pos rfl, if_pos rfl]
      rfl
    · rw [if_neg (fun h => hy (Prod.mk.inj h).2), if_neg hy, union_empty]
      rfl
  · rw [if_neg (fun h => hx (Prod.mk.inj h).1), if_neg hx]
    rfl

theorem StoreLoop.union_same (a : StoreLoop) (o : NodeID) (v : Version) (S : Finset NodeID) :
    SameTop a.state (a.union o v S).state := by
  rw [StoreLoop.union_state]
  exact ⟨rfl, rfl, rfl⟩

/-- What the store `*p = q` writes into the object `o`: the value's points-to set, if `p`
    points to `o`, the object is not constant and the value is a pointer. -/
def stored (pag : SVFIR) (s : VersionedFlowSensitive) (p q o : NodeID) : Finset NodeID :=
  if o ∈ s.pts p ∧ pag.isConstantObj o = false ∧ pag.isPointer q = true then s.pts q else ∅

theorem StoreLoop.write_view (a : StoreLoop) (pag : SVFIR) (svfg : SVFG) (tables : VersionTables)
    (l q o x : NodeID) :
    view x (a.write pag svfg tables l q o).state =
      if x = o ∧ pag.isConstantObj o = false ∧ getYield svfg tables l o ≠ invalidVersion then
        fun v => view o a.state v ∪ (if v = getYield svfg tables l o then a.state.pts q else ∅)
      else view x a.state := by
  rw [StoreLoop.write]
  cases hc : pag.isConstantObj o with
  | true =>
    rw [if_pos rfl, if_neg (fun h => nomatch h.2.1)]
  | false =>
    rw [if_neg (by decide)]
    by_cases hy : getYield svfg tables l o ≠ invalidVersion
    · show view x (if _ then _ else _ : StoreLoop).state = _
      rw [if_pos hy, StoreLoop.union_view]
      by_cases hx : x = o
      · subst hx
        rw [if_pos rfl, if_pos ⟨rfl, rfl, hy⟩]
      · rw [if_neg hx, if_neg (fun h => hx h.1)]
    · show view x (if _ then _ else _ : StoreLoop).state = _
      rw [if_neg hy, if_neg (fun h => hy h.2.2)]

theorem StoreLoop.write_same (a : StoreLoop) (l q o : NodeID) :
    SameTop a.state (a.write pag svfg tables l q o).state := by
  rw [StoreLoop.write]
  split
  · exact SameTop.refl _
  · show SameTop a.state (if _ then _ else _ : StoreLoop).state
    split
    · exact StoreLoop.union_same a o _ _
    · exact SameTop.refl _

theorem writeAll_spec (pag : SVFIR) (svfg : SVFG) (tables : VersionTables)
    (s : VersionedFlowSensitive) (l p q : NodeID) :
    let a := s.writeAll pag svfg tables l p q
    SameTop s a.state ∧ ∀ o, getYield svfg tables l o ≠ invalidVersion → ∀ v, view o a.state v =
        view o s v ∪ (if v = getYield svfg tables l o then stored pag s p q o else ∅) := by
  rw [writeAll]
  by_cases hq : s.pts q ≠ ∅ ∧ pag.isPointer q
  · rw [if_pos hq]
    obtain ⟨hsame, hout, hin⟩ := foldl_local (f := StoreLoop.write pag svfg tables l q)
      (P := fun a => SameTop s a.state) id (fun o a => view o a.state)
      (fun a o h => h.trans (a.write_same l q o))
      (fun a o k _ hk => by
        show view k _ = _
        rw [StoreLoop.write_view, if_neg (fun h => hk h.1)])
      (elems (s.pts p)) ⟨s, false, ∅⟩ (by rw [List.map_id]; exact nodup_elems _) (SameTop.refl s)
    rw [List.map_id] at hout
    refine ⟨hsame, fun o hy v => ?_⟩
    by_cases ho : o ∈ s.pts p
    · obtain ⟨t, ht, hbefore, hafter⟩ := hin o (mem_elems.mpr ho)
      have hbefore' : view o t.state = view o s := hbefore
      have hround := t.write_view pag svfg tables l q o o
      refine (congrFun hafter v).trans ((congrFun hround v).trans ?_)
      cases hc : pag.isConstantObj o with
      | true =>
        have hnone : stored pag s p q o = ∅ :=
          if_neg (fun h => absurd (hc.symm.trans h.2.1) (by decide))
        rw [if_neg (fun h => nomatch h.2.1), hbefore', hnone, ite_self, union_empty]
      | false =>
        have hall : stored pag s p q o = s.pts q := if_pos ⟨ho, hc, hq.2⟩
        have hcond : o = o ∧ false = false ∧ getYield svfg tables l o ≠ invalidVersion :=
          ⟨rfl, rfl, hy⟩
        rw [if_pos hcond, hbefore', ht.pts, hall]
    · have hnone : stored pag s p q o = ∅ := if_neg (fun h => ho h.1)
      rw [hnone, ite_self, union_empty]
      exact congrFun (hout o (fun h => ho (mem_elems.mp h))) v
  · rw [if_neg hq]
    refine ⟨SameTop.refl s, fun o _ v => ?_⟩
    have hnone : stored pag s p q o = ∅ := by
      rw [stored]
      split
      · next h =>
          by_contra hne
          exact hq ⟨hne, h.2.2⟩
      · rfl
    rw [hnone, ite_self, union_empty]

theorem StoreLoop.update_view (a : StoreLoop) (svfg : SVFG) (tables : VersionTables) (l : NodeID)
    (singleton : Option NodeID) (oc : Sigma fun _ : NodeID => Version) (x : NodeID) :
    view x (a.update svfg tables l singleton oc).state =
      if x = oc.1 ∧ singleton ≠ some oc.1 ∧ getYield svfg tables l oc.1 ≠ invalidVersion then
        fun v => view oc.1 a.state v ∪
          (if v = getYield svfg tables l oc.1 then view oc.1 a.state oc.2 else ∅)
      else view x a.state := by
  rw [StoreLoop.update]
  by_cases hs : singleton = some oc.1
  · rw [if_pos hs, if_neg (fun h => h.2.1 hs)]
  · rw [if_neg hs]
    show view x (if _ then _ else _ : StoreLoop).state = _
    by_cases hy : getYield svfg tables l oc.1 ≠ invalidVersion
    · rw [if_pos hy, StoreLoop.union_view]
      by_cases hx : x = oc.1
      · rw [if_pos hx, if_pos ⟨hx, hs, hy⟩, hx]
        rfl
      · rw [if_neg hx, if_neg (fun h => hx h.1)]
    · rw [if_neg hy, if_neg (fun h => hy h.2.2)]

theorem StoreLoop.update_same (a : StoreLoop) (l : NodeID) (singleton : Option NodeID)
    (oc : Sigma fun _ : NodeID => Version) :
    SameTop a.state (a.update svfg tables l singleton oc).state := by
  rw [StoreLoop.update]
  split
  · exact SameTop.refl _
  · show SameTop a.state (if _ then _ else _ : StoreLoop).state
    split
    · exact StoreLoop.union_same a oc.1 _ _
    · exact SameTop.refl _

/-- The second loop: an object with an entry in `consume[l]` that is not overwritten is
    updated, an object without one keeps its versions. -/
theorem update_spec (svfg : SVFG) (tables : VersionTables) (a : StoreLoop) (l : NodeID)
    (singleton : Option NodeID) :
    let t := (tables.consume l).entries.foldl (StoreLoop.update svfg tables l singleton) a
    SameTop a.state t.state ∧
    (∀ o, o ∉ tables.consume l → view o t.state = view o a.state) ∧
    (∀ o c, (tables.consume l).lookup o = some c → singleton ≠ some o →
      getYield svfg tables l o ≠ invalidVersion → ∀ v, view o t.state v =
        view o a.state v ∪ (if v = getYield svfg tables l o then view o a.state c else ∅)) ∧
    ∀ o v, view o a.state v ⊆ view o t.state v := by
  have hnodup : ((tables.consume l).entries.map Sigma.fst).Nodup := (tables.consume l).nodupKeys
  obtain ⟨hsame, hout, hin⟩ := foldl_local (f := StoreLoop.update svfg tables l singleton)
    (P := fun t => SameTop a.state t.state) Sigma.fst (fun o t => view o t.state)
    (fun t oc h => h.trans (t.update_same l singleton oc))
    (fun t oc k _ hk => by
      show view k _ = _
      rw [StoreLoop.update_view, if_neg (fun h => hk h.1)])
    (tables.consume l).entries a hnodup (SameTop.refl a.state)
  have hround : ∀ o c, (tables.consume l).lookup o = some c → ∃ t : StoreLoop,
      view o t.state = view o a.state ∧
      view o ((tables.consume l).entries.foldl (StoreLoop.update svfg tables l singleton) a).state =
        view o (t.update svfg tables l singleton ⟨o, c⟩).state := by
    intro o c hc
    obtain ⟨t, -, hbefore, hafter⟩ := hin ⟨o, c⟩ (AList.mem_lookup_iff.mp hc)
    exact ⟨t, hbefore, hafter⟩
  refine ⟨hsame, ?_, ?_, ?_⟩
  · exact hout
  · intro o c hc hs hy v
    obtain ⟨t, hbefore, hafter⟩ := hround o c hc
    have hcond : o = o ∧ singleton ≠ some o ∧ getYield svfg tables l o ≠ invalidVersion :=
      ⟨rfl, hs, hy⟩
    rw [hafter, StoreLoop.update_view, if_pos hcond, hbefore]
  · intro o v
    by_cases ho : o ∈ tables.consume l
    · obtain ⟨c, hc⟩ := Option.isSome_iff_exists.mp (AList.lookup_isSome.mpr ho)
      obtain ⟨t, hbefore, hafter⟩ := hround o c hc
      show _ ⊆ view o (List.foldl _ a _).state v
      rw [hafter, StoreLoop.update_view, ← hbefore]
      split
      · exact subset_union_left
      · exact subset_rfl
    · exact (congrFun (hout o ho) v).ge

/-- The last loop: what an object's yielded version holds stays, and another version of the
    object stays or takes that over. -/
theorem propagateChanged_spec (svfg : SVFG) (tables : VersionTables) (s : VersionedFlowSensitive)
    (l : NodeID) (changedObjects : Finset NodeID) :
    let t := (elems changedObjects).foldl
      (fun (s : VersionedFlowSensitive) o => s.propagateChanged svfg tables l o) s
    SameTop s t ∧ ∀ o, view o t (getYield svfg tables l o) = view o s (getYield svfg tables l o) ∧
      ∀ x, view o t x = view o s x ∨
        view o t x = view o s x ∪ view o s (getYield svfg tables l o) := by
  have hone := fun (s : VersionedFlowSensitive) o => propagateChanged_propagated svfg tables s l o
  obtain ⟨hsame, hout, hin⟩ := foldl_local
    (f := fun (s : VersionedFlowSensitive) o => s.propagateChanged svfg tables l o)
    (P := fun t => SameTop s t) id view
    (fun t o h => h.trans (hone t o).same)
    (fun t o k _ hk => funext fun v => (hone t o).other (k, v) hk)
    (elems changedObjects) s (by rw [List.map_id]; exact nodup_elems _) (SameTop.refl s)
  rw [List.map_id] at hout
  refine ⟨hsame, fun o => ?_⟩
  by_cases ho : o ∈ elems changedObjects
  · obtain ⟨t, -, hbefore, hafter⟩ := hin o ho
    have hbefore' : view o t = view o s := hbefore
    have hafter' : view o ((elems changedObjects).foldl
        (fun (s : VersionedFlowSensitive) o => s.propagateChanged svfg tables l o) s) =
      view o (t.propagateChanged svfg tables l o) := hafter
    show view o (List.foldl _ s _) _ = _ ∧ ∀ x, view o (List.foldl _ s _) x = _ ∨ _
    rw [hafter', ← hbefore']
    exact ⟨(hone t o).self, (hone t o).version⟩
  · have hsameview := hout o ho
    exact ⟨congrFun hsameview _, fun x => .inl (congrFun hsameview x)⟩

-- ── what a store does to the versions of an object

section

variable (pag : SVFIR)

section

variable (svfg : SVFG) (tables : VersionTables) (s : VersionedFlowSensitive) (l p q : NodeID)
  (hp : s.pts p ≠ ∅)
include hp

theorem processStore_eq :
    ∃ a : StoreLoop, SameTop (s.writeAll pag svfg tables l p q).state a.state ∧
      (∀ o, view o a.state = view o (s.writeAll pag svfg tables l p q).state) ∧
      let b := (tables.consume l).entries.foldl (StoreLoop.update svfg tables l
          ((s.writeAll pag svfg tables l p q).state.isStrongUpdate pag p)) a
      (s.processStore pag svfg tables l p q).2 = (elems b.changedObjects).foldl
          (fun (s : VersionedFlowSensitive) o => s.propagateChanged svfg tables l o) b.state := by
  rw [processStore, if_neg hp]
  refine ⟨_, ?_, ?_, rfl⟩
  · exact ⟨rfl, rfl, rfl⟩
  · exact fun _ => rfl

theorem processStore_spec :
    let t := (s.processStore pag svfg tables l p q).2
    SameTop s t ∧ ∀ o, getYield svfg tables l o ≠ invalidVersion →
      stored pag s p q o ⊆ t.vpts (o, getYield svfg tables l o) ∧
      (getConsume tables l o ≠ invalidVersion → s.isStrongUpdate pag p ≠ some o →
        (t.vpts (o, getConsume tables l o) ⊆ t.vpts (o, getYield svfg tables l o) ↔
          tables.equivalentObject o = o ∨
          s.vpts (o, getConsume tables l o) ⊆
            s.vpts (o, getYield svfg tables l o) ∪ stored pag s p q o)) := by
  obtain ⟨hsame1, hwrite⟩ := writeAll_spec pag svfg tables s l p q
  obtain ⟨a, hsame, hview, ht⟩ := processStore_eq pag svfg tables s l p q hp
  obtain ⟨hsame2, hout, hin, hmono⟩ := update_spec svfg tables a l
    ((s.writeAll pag svfg tables l p q).state.isStrongUpdate pag p)
  rw [hsame1.isStrongUpdate] at ht hsame2 hout hin hmono
  generalize (tables.consume l).entries.foldl
    (StoreLoop.update svfg tables l (s.isStrongUpdate pag p)) a = b at ht hsame2 hout hin hmono
  obtain ⟨hsame3, hprop⟩ := propagateChanged_spec svfg tables b.state l b.changedObjects
  rw [← ht] at hsame3 hprop
  refine ⟨((hsame1.trans hsame).trans hsame2).trans hsame3, fun o hy => ?_⟩
  -- the versions of `o` after the first loop
  have hone : ∀ v, view o a.state v =
      view o s v ∪ (if v = getYield svfg tables l o then stored pag s p q o else ∅) := by
    intro v
    rw [hview]
    exact hwrite o hy v
  have hyone := hone (getYield svfg tables l o)
  rw [if_pos rfl] at hyone
  obtain ⟨hyield, hversion⟩ := hprop o
  refine ⟨?_, fun hc hsu => ?_⟩
  · show stored pag s p q o ⊆ view o _ (getYield svfg tables l o)
    rw [hyield]
    refine subset_trans ?_ (hmono o _)
    rw [hyone]
    exact subset_union_right
  -- the last loop does not change whether the one set is in the other
  have hlast : view o (s.processStore pag svfg tables l p q).2 (getConsume tables l o) ⊆
      view o (s.processStore pag svfg tables l p q).2 (getYield svfg tables l o) ↔
      view o b.state (getConsume tables l o) ⊆ view o b.state (getYield svfg tables l o) := by
    rw [hyield]
    rcases hversion (getConsume tables l o) with h | h
    · rw [h]
    · rw [h, union_subset_iff]
      exact and_iff_left subset_rfl
  refine hlast.trans ?_
  by_cases hcanon : tables.equivalentObject o = o
  · refine iff_of_true ?_ (.inl hcanon)
    have hlookup : (tables.consume l).lookup o = some (getConsume tables l o) := by
      rw [getConsume, getVersion, hcanon] at hc ⊢
      cases hl : (tables.consume l).lookup o with
      | none =>
        rw [hl] at hc
        exact absurd rfl hc
      | some c => rfl
    have htwo := hin o _ hlookup hsu hy
    rw [htwo, htwo, if_pos rfl]
    refine union_subset subset_union_right ?_
    split
    · exact subset_union_right
    · exact empty_subset _
  · have hnot : o ∉ tables.consume l := fun hm => hcanon (tables.canonical l o (.inl hm))
    rw [hout o hnot, or_iff_right hcanon, hyone, hone]
    split
    · next heq =>
        rw [heq]
        exact iff_of_true subset_rfl subset_union_left
    · rw [union_empty]
      exact .rfl

end

-- ── soundness at stores

/-- The state `s` is sound at `l`: if `l: *p = q` is a store whose pointer points to
    something, then the yielded version of every object of its chi set has what the store
    writes into the object and, unless the store overwrites the object, what the consumed
    version has. -/
def StoreSound (svfg : SVFG) (tables : VersionTables) (s : VersionedFlowSensitive)
    (l : NodeID) : Prop :=
  ∀ p q, svfg.getSVFGNode l = .store p q → s.pts p ≠ ∅ →
    ∀ o ∈ svfg.chi l, getYield svfg tables l o ≠ invalidVersion →
      stored pag s p q o ⊆ s.vpts (o, getYield svfg tables l o) ∧
      (getConsume tables l o ≠ invalidVersion → s.isStrongUpdate pag p ≠ some o →
        s.vpts (o, getConsume tables l o) ⊆ s.vpts (o, getYield svfg tables l o))

/-- Nothing is to be passed on at `l` for an object that is mapped to another: what its
    consumed version has, its yielded version has already or the store writes. -/
def MappedKept (svfg : SVFG) (tables : VersionTables) (s : VersionedFlowSensitive)
    (l : NodeID) : Prop :=
  ∀ p q, svfg.getSVFGNode l = .store p q → s.pts p ≠ ∅ →
    ∀ o ∈ svfg.chi l, tables.equivalentObject o ≠ o →
      getYield svfg tables l o ≠ invalidVersion → getConsume tables l o ≠ invalidVersion →
      s.isStrongUpdate pag p ≠ some o →
        s.vpts (o, getConsume tables l o) ⊆
          s.vpts (o, getYield svfg tables l o) ∪ stored pag s p q o

end

theorem step_store_eq {l p q : NodeID} (hl : svfg.getSVFGNode l = .store p q) :
    step pag svfg tables s (.store l) = (s.processStore pag svfg tables l p q).2 := by
  rw [step]
  show (match svfg.getSVFGNode l with | .store p q => _ | _ => _) = _
  rw [hl]

theorem SameTop.stored {t : VersionedFlowSensitive} (h : SameTop s t) (p q o : NodeID) :
    stored pag t p q o = stored pag s p q o := by
  rw [VersionedFlowSensitive.stored, VersionedFlowSensitive.stored, h.pts]

/-- In every run, the step of a store leaves a sound state if and only if, before it, nothing
    was to be passed on for the objects that are mapped to another. -/
theorem processStore_sound_iff (pag : SVFIR) (svfg : SVFG) (objectQueue : List NodeID)
    (actions : List Action) (l : NodeID) :
    StoreSound pag svfg (meldLabel svfg objectQueue)
        (step pag svfg (meldLabel svfg objectQueue)
          (run pag svfg (meldLabel svfg objectQueue) actions) (.store l)) l ↔
      MappedKept pag svfg (meldLabel svfg objectQueue)
        (run pag svfg (meldLabel svfg objectQueue) actions) l := by
  generalize meldLabel svfg objectQueue = tables
  generalize run pag svfg tables actions = s
  constructor
  · intro h p q hl hp o ho hmapped hy hc hsu
    obtain ⟨hsame, hspec⟩ := processStore_spec pag svfg tables s l p q hp
    rw [step_store_eq hl] at h
    have hsound := (h p q hl (by rw [hsame.pts]; exact hp) o ho hy).2 hc
      (by rw [hsame.isStrongUpdate]; exact hsu)
    exact (((hspec o hy).2 hc hsu).mp hsound).resolve_left hmapped
  · intro h p q hl hp o ho hy
    rw [step_store_eq hl] at hp ⊢
    by_cases hempty : s.pts p = ∅
    · -- the store returns at once
      have hret : (s.processStore pag svfg tables l p q).2 = s := by
        rw [processStore, if_pos hempty]
      rw [hret] at hp
      exact absurd hempty hp
    obtain ⟨hsame, hspec⟩ := processStore_spec pag svfg tables s l p q hempty
    rw [hsame.stored, hsame.isStrongUpdate]
    refine ⟨(hspec o hy).1, fun hc hsu => ((hspec o hy).2 hc hsu).mpr ?_⟩
    by_cases hmapped : tables.equivalentObject o = o
    · exact .inl hmapped
    · exact .inr (h p q hl hempty o ho hmapped hy hc hsu)

/-- `*10 = 11; *12 = 13; 14 = *12`, where `10` and `12` may point to `5` and to `6`. -/
def twoStores : SVFG where
  nodes := [0, 1, 2]
  getSVFGNode := fun
    | 0 => .store 10 11
    | 1 => .store 12 13
    | 2 => .load 14 12
    | _ => .other
  outEdges := fun
    | 0 => [⟨0, 0, 1, {5, 6}⟩]
    | 1 => [⟨1, 1, 2, {5, 6}⟩]
    | _ => []
  delta := fun _ => false
  deltaSource := fun _ => false
  ander := fun
    | 10 => {5, 6}
    | 11 => {7}
    | 12 => {5, 6}
    | 13 => {8}
    | _ => ∅

/-- Pointers to ordinary objects. -/
def allPointers : SVFIR :=
  ⟨fun _ => true, fun _ => false, fun _ => false, fun _ => false, fun _ => false, id⟩

/-- The first store puts `7` into `6`. The second may write something else, to `5` or to `6`,
    and after it `7` is gone from `6`, which is mapped to `5`. -/
theorem processStore_not_sound_twoStores :
    ¬ ∀ (pag : SVFIR) (svfg : SVFG) (objectQueue : List NodeID) (actions : List Action)
      (l : NodeID),
      StoreSound pag svfg (meldLabel svfg objectQueue)
        (step pag svfg (meldLabel svfg objectQueue)
          (run pag svfg (meldLabel svfg objectQueue) actions) (.store l)) l := by
  intro h
  have hlost := (h allPointers twoStores [5, 6]
    [.top 10 {5, 6}, .top 11 {7}, .top 12 {5, 6}, .top 13 {8}, .store 0] 1 12 13 rfl
    (by decide +kernel) 6 (by decide +kernel) (by decide +kernel)).2
    (by decide +kernel) (by decide +kernel)
  revert hlost
  decide +kernel

end VersionedFlowSensitive

end SvfVersionedFlowSensitive
