import SvfModel.IntervalExeStateProofs

/-!
# Joins of states over the global state

`IntervalExeState` and `ConsExeState` are overlays: what a state does not bind is read from a
global state that all states share, and what that does not bind has a default. `joinWith` looks
at the local tables only. The heart is `read_join_iff`: where a key is bound in one of the two
states alone, the join keeps that value, and so covers what the other state reads exactly if the
value covers the global binding or the default.

`IntervalExeState` reads the local table first. `ConsExeState` reads the global one first for
variables, where a join can do no harm, and the local one first for memory.
-/

set_option linter.unusedSectionVars false

namespace SvfInterval

open Option

-- ── One key of an overlay

section Overlay

variable {K V : Type} [DecidableEq K] {larger : V → V → Prop} {op : V → V → V}

/-- A value bound in one of two states alone covers what the other one reads. -/
def KeepsOther (larger : V → V → Prop) (v₁ v₂ : Option V) (read₁ read₂ : V) : Prop :=
  (∀ v, v₁ = some v → v₂ = none → larger v read₂) ∧
    ∀ v, v₁ = none → v₂ = some v → larger v read₁

/-- **A key after a join**, where a fallback is read if neither state binds it. -/
theorem read_join_iff (hrefl : ∀ v, larger v v) (hleft : ∀ v w, larger (op v w) v)
    (hright : ∀ v w, larger (op v w) w) (t1 t2 : Table K V) (k : K)
    {fallback fallback1 fallback2 : V} (h1 : larger fallback fallback1)
    (h2 : larger fallback fallback2) :
    larger (((joinTable op t1 t2).lookup k).getD fallback) ((t1.lookup k).getD fallback1) ∧
      larger (((joinTable op t1 t2).lookup k).getD fallback) ((t2.lookup k).getD fallback2) ↔
    KeepsOther larger (t1.lookup k) (t2.lookup k) ((t1.lookup k).getD fallback1)
      ((t2.lookup k).getD fallback2) := by
  rw [lookup_joinTable]
  cases t1.lookup k with
  | none =>
    cases t2.lookup k with
    | none =>
      refine iff_of_true ⟨h1, h2⟩ ⟨fun v hv => ?_, fun v _ hv => ?_⟩
      · cases hv.symm
      · cases hv.symm
    | some w =>
      constructor
      · rintro ⟨hw, -⟩
        refine ⟨nofun, fun v _ hv => ?_⟩
        rw [← some.inj hv]
        exact hw
      · intro h
        exact ⟨h.2 w rfl rfl, hrefl w⟩
  | some v =>
    cases t2.lookup k with
    | none =>
      constructor
      · rintro ⟨-, hv⟩
        refine ⟨fun w hw _ => ?_, nofun⟩
        rw [← some.inj hw]
        exact hv
      · intro h
        exact ⟨hrefl v, h.1 v rfl rfl⟩
    | some w =>
      refine iff_of_true ⟨hleft v w, hright v w⟩ ⟨fun u _ hu => ?_, fun u hu => ?_⟩
      · cases hu
      · cases hu

def Reads {σ V : Type} (larger : V → V → Prop) (joined s₁ s₂ : σ) (read : σ → V) : Prop :=
  larger (read joined) (read s₁) ∧ larger (read joined) (read s₂)

/-- An accessor that may fail an assertion. -/
def ReadsSome {σ V : Type} (larger : V → V → Prop) (joined s₁ s₂ : σ) (read : σ → Option V) :
    Prop :=
  ∀ v v₁ v₂, read joined = some v → read s₁ = some v₁ → read s₂ = some v₂ →
    larger v v₁ ∧ larger v v₂

theorem readsSome_iff {σ V : Type} {larger : V → V → Prop} {joined s₁ s₂ : σ}
    {read? : σ → Option V} {p : Prop} [Decidable p] {read : σ → V}
    (h : ∀ s, read? s = if p then some (read s) else none) :
    ReadsSome larger joined s₁ s₂ read? ↔ (p → Reads larger joined s₁ s₂ read) := by
  by_cases hp : p
  · have hvalue : ∀ s, read? s = some (read s) := fun s => (h s).trans (if_pos hp)
    rw [imp_iff_right hp]
    constructor
    · intro hsome
      exact hsome _ _ _ (hvalue _) (hvalue _) (hvalue _)
    · intro hreads v v1 v2 hv hv1 hv2
      rw [hvalue] at hv hv1 hv2
      rw [← some.inj hv, ← some.inj hv1, ← some.inj hv2]
      exact hreads
  · refine iff_of_true (fun v _ _ hv => ?_) fun h => absurd h hp
    rw [h, if_neg hp] at hv
    cases hv.symm

end Overlay

-- ── Addresses

abbrev Addrs := Finset UInt32

def AddressMask : UInt32 := 0x7f000000

def FlippedAddressMask : UInt32 := AddressMask ^^^ 0xffffffff

def isVirtualMemAddress (val : UInt32) : Bool := val &&& 0xff000000 == AddressMask

def getInternalID (idx : UInt32) : UInt32 := idx &&& FlippedAddressMask

/-- A set of addresses over-approximates its subsets. -/
def CoversAddrs (w v : Addrs) : Prop := v ⊆ w

theorem addrs_join_iff (t1 t2 : Table UInt32 Addrs) (k : UInt32)
    {fallback fallback1 fallback2 : Addrs} (h1 : CoversAddrs fallback fallback1)
    (h2 : CoversAddrs fallback fallback2) :
    CoversAddrs (((joinTable (· ∪ ·) t1 t2).lookup k).getD fallback)
        ((t1.lookup k).getD fallback1) ∧
      CoversAddrs (((joinTable (· ∪ ·) t1 t2).lookup k).getD fallback)
        ((t2.lookup k).getD fallback2) ↔
    KeepsOther CoversAddrs (t1.lookup k) (t2.lookup k) ((t1.lookup k).getD fallback1)
      ((t2.lookup k).getD fallback2) := by
  have hrefl : ∀ v, CoversAddrs v v := Finset.Subset.refl
  have hleft : ∀ v w : Addrs, CoversAddrs (v ∪ w) v := fun _ _ => Finset.subset_union_left
  have hright : ∀ v w : Addrs, CoversAddrs (v ∪ w) w := fun _ _ => Finset.subset_union_right
  exact read_join_iff hrefl hleft hright t1 t2 k h1 h2

-- ── `IntervalExeState`

abbrev IntervalExeState := IntervalESBase UInt32 UInt32

namespace IntervalExeState

-- An accessor returns a reference, and binds the default where there is nothing to refer to. It
-- is given with the global and the local state that it leaves.

section

variable (globalES s : IntervalExeState)

/-- `operator[]`. -/
def subscript (varId : UInt32) : IntervalValue × IntervalExeState × IntervalExeState :=
  match s.varToItvVal.lookup varId with
  | some v => (v, globalES, s)
  | none =>
    match globalES.varToItvVal.lookup varId with
    | some v => (v, globalES, s)
    | none => (IntervalValue.top,
        { globalES with varToItvVal := globalES.varToItvVal.insert varId IntervalValue.top }, s)

def getAddrs (id : UInt32) : Addrs × IntervalExeState × IntervalExeState :=
  match s.varToAddrs.lookup id with
  | some v => (v, globalES, s)
  | none =>
    match globalES.varToAddrs.lookup id with
    | some v => (v, globalES, s)
    | none => (∅, { globalES with varToAddrs := globalES.varToAddrs.insert id ∅ }, s)

def getLocVal (id : UInt32) : IntervalValue × IntervalExeState × IntervalExeState :=
  match s.locToItvVal.lookup id with
  | some v => (v, globalES, s)
  | none =>
    match globalES.locToItvVal.lookup id with
    | some v => (v, globalES, s)
    | none => (IntervalValue.top, globalES,
        { s with locToItvVal := s.locToItvVal.insert id IntervalValue.top })

def getLocAddrs (id : UInt32) : Addrs × IntervalExeState × IntervalExeState :=
  match s.locToAddrs.lookup id with
  | some v => (v, globalES, s)
  | none =>
    match globalES.locToAddrs.lookup id with
    | some v => (v, globalES, s)
    | none => (∅, globalES, { s with locToAddrs := s.locToAddrs.insert id ∅ })

/-- The location of an address is read as `getLocVal` reads it. Other numbers are asserted out. -/
def load (addr : UInt32) : Option (IntervalValue × IntervalExeState × IntervalExeState) :=
  if isVirtualMemAddress addr then some (getLocVal globalES s (getInternalID addr)) else none

def loadAddrs (addr : UInt32) : Option (Addrs × IntervalExeState × IntervalExeState) :=
  if isVirtualMemAddress addr then some (getLocAddrs globalES s (getInternalID addr)) else none

theorem subscript_value (varId : UInt32) :
    (subscript globalES s varId).1 = (s.varToItvVal.lookup varId).getD
      ((globalES.varToItvVal.lookup varId).getD IntervalValue.top) := by
  unfold subscript
  cases s.varToItvVal.lookup varId with
  | some v => rfl
  | none => cases globalES.varToItvVal.lookup varId <;> rfl

theorem getAddrs_value (id : UInt32) : (getAddrs globalES s id).1 = (s.varToAddrs.lookup id).getD
      ((globalES.varToAddrs.lookup id).getD ∅) := by
  unfold getAddrs
  cases s.varToAddrs.lookup id with
  | some v => rfl
  | none => cases globalES.varToAddrs.lookup id <;> rfl

theorem getLocVal_value (id : UInt32) : (getLocVal globalES s id).1 = (s.locToItvVal.lookup id).getD
      ((globalES.locToItvVal.lookup id).getD IntervalValue.top) := by
  unfold getLocVal
  cases s.locToItvVal.lookup id with
  | some v => rfl
  | none => cases globalES.locToItvVal.lookup id <;> rfl

theorem getLocAddrs_value (id : UInt32) :
    (getLocAddrs globalES s id).1 = (s.locToAddrs.lookup id).getD
      ((globalES.locToAddrs.lookup id).getD ∅) := by
  unfold getLocAddrs
  cases s.locToAddrs.lookup id with
  | some v => rfl
  | none => cases globalES.locToAddrs.lookup id <;> rfl

theorem load_value (addr : UInt32) : (load globalES s addr).map (·.1) = if isVirtualMemAddress addr
      then some (getLocVal globalES s (getInternalID addr)).1 else none := by
  rw [load, apply_ite (Option.map _), map_some, map_none]

theorem loadAddrs_value (addr : UInt32) :
    (loadAddrs globalES s addr).map (·.1) = if isVirtualMemAddress addr
      then some (getLocAddrs globalES s (getInternalID addr)).1 else none := by
  rw [loadAddrs, apply_ite (Option.map _), map_some, map_none]

end

/-- **The join over-approximates** what either state reads, over the global state. -/
structure JoinCovers (globalES s₁ s₂ : IntervalExeState) : Prop where
  subscript : ∀ k, Reads Contains (s₁.joinWith s₂) s₁ s₂ fun s => (subscript globalES s k).1
  getAddrs : ∀ k, Reads CoversAddrs (s₁.joinWith s₂) s₁ s₂ fun s => (getAddrs globalES s k).1
  getLocVal : ∀ k, Reads Contains (s₁.joinWith s₂) s₁ s₂ fun s => (getLocVal globalES s k).1
  getLocAddrs : ∀ k, Reads CoversAddrs (s₁.joinWith s₂) s₁ s₂ fun s => (getLocAddrs globalES s k).1
  load : ∀ addr, ReadsSome Contains (s₁.joinWith s₂) s₁ s₂ fun s => (load globalES s addr).map (·.1)
  loadAddrs : ∀ addr, ReadsSome CoversAddrs (s₁.joinWith s₂) s₁ s₂ fun s =>
    (loadAddrs globalES s addr).map (·.1)

theorem interval_join_iff (t1 t2 : Table UInt32 IntervalValue) (k : UInt32)
    (fallback : IntervalValue) :
    Contains (((joinTable IntervalValue.join_with t1 t2).lookup k).getD fallback)
        ((t1.lookup k).getD fallback) ∧
      Contains (((joinTable IntervalValue.join_with t1 t2).lookup k).getD fallback)
        ((t2.lookup k).getD fallback) ↔
    KeepsOther Contains (t1.lookup k) (t2.lookup k) ((t1.lookup k).getD fallback)
      ((t2.lookup k).getD fallback) :=
  read_join_iff contains_refl (fun _ _ _ hn => IntervalValue.contains_join_with (.inl hn))
    (fun _ _ _ hn => IntervalValue.contains_join_with (.inr hn)) t1 t2 k (contains_refl _)
    (contains_refl _)

/-- What one of the states binds alone covers what the other reads: the global binding, or the
    default. -/
structure BindsLarger (globalES s₁ s₂ : IntervalExeState) : Prop where
  vars : ∀ k, KeepsOther Contains (s₁.varToItvVal.lookup k) (s₂.varToItvVal.lookup k)
    (subscript globalES s₁ k).1 (subscript globalES s₂ k).1
  varAddrs : ∀ k, KeepsOther CoversAddrs (s₁.varToAddrs.lookup k) (s₂.varToAddrs.lookup k)
    (getAddrs globalES s₁ k).1 (getAddrs globalES s₂ k).1
  locs : ∀ k, KeepsOther Contains (s₁.locToItvVal.lookup k) (s₂.locToItvVal.lookup k)
    (getLocVal globalES s₁ k).1 (getLocVal globalES s₂ k).1
  locAddrs : ∀ k, KeepsOther CoversAddrs (s₁.locToAddrs.lookup k) (s₂.locToAddrs.lookup k)
    (getLocAddrs globalES s₁ k).1 (getLocAddrs globalES s₂ k).1

section

variable (globalES s₁ s₂ : IntervalExeState)

theorem subscript_join_iff (k : UInt32) :
    Reads Contains (s₁.joinWith s₂) s₁ s₂ (fun s => (subscript globalES s k).1) ↔
      KeepsOther Contains (s₁.varToItvVal.lookup k) (s₂.varToItvVal.lookup k)
        (subscript globalES s₁ k).1 (subscript globalES s₂ k).1 := by
  rw [Reads, subscript_value, subscript_value, subscript_value]
  exact interval_join_iff _ _ k _

theorem getAddrs_join_iff (k : UInt32) :
    Reads CoversAddrs (s₁.joinWith s₂) s₁ s₂ (fun s => (getAddrs globalES s k).1) ↔
      KeepsOther CoversAddrs (s₁.varToAddrs.lookup k) (s₂.varToAddrs.lookup k)
        (getAddrs globalES s₁ k).1 (getAddrs globalES s₂ k).1 := by
  rw [Reads, getAddrs_value, getAddrs_value, getAddrs_value]
  exact addrs_join_iff _ _ k (Finset.Subset.refl _) (Finset.Subset.refl _)

theorem getLocVal_join_iff (k : UInt32) :
    Reads Contains (s₁.joinWith s₂) s₁ s₂ (fun s => (getLocVal globalES s k).1) ↔
      KeepsOther Contains (s₁.locToItvVal.lookup k) (s₂.locToItvVal.lookup k)
        (getLocVal globalES s₁ k).1 (getLocVal globalES s₂ k).1 := by
  rw [Reads, getLocVal_value, getLocVal_value, getLocVal_value]
  exact interval_join_iff _ _ k _

theorem getLocAddrs_join_iff (k : UInt32) :
    Reads CoversAddrs (s₁.joinWith s₂) s₁ s₂ (fun s => (getLocAddrs globalES s k).1) ↔
      KeepsOther CoversAddrs (s₁.locToAddrs.lookup k) (s₂.locToAddrs.lookup k)
        (getLocAddrs globalES s₁ k).1 (getLocAddrs globalES s₂ k).1 := by
  rw [Reads, getLocAddrs_value, getLocAddrs_value, getLocAddrs_value]
  exact addrs_join_iff _ _ k (Finset.Subset.refl _) (Finset.Subset.refl _)

/-- **The join of `IntervalExeState`** covers what is read exactly where one-sided bindings do. -/
theorem joinCovers_iff : JoinCovers globalES s₁ s₂ ↔ BindsLarger globalES s₁ s₂ := by
  constructor
  · intro h
    exact ⟨fun k => (subscript_join_iff _ _ _ k).mp (h.subscript k),
      fun k => (getAddrs_join_iff _ _ _ k).mp (h.getAddrs k),
      fun k => (getLocVal_join_iff _ _ _ k).mp (h.getLocVal k),
      fun k => (getLocAddrs_join_iff _ _ _ k).mp (h.getLocAddrs k)⟩
  · intro h
    have hloc := fun k => (getLocVal_join_iff _ _ _ k).mpr (h.locs k)
    have hlocAddrs := fun k => (getLocAddrs_join_iff _ _ _ k).mpr (h.locAddrs k)
    refine ⟨fun k => (subscript_join_iff _ _ _ k).mpr (h.vars k),
      fun k => (getAddrs_join_iff _ _ _ k).mpr (h.varAddrs k), hloc, hlocAddrs, ?_, ?_⟩
    · exact fun addr => (readsSome_iff fun s => load_value globalES s addr).mpr fun _ => hloc _
    · exact fun addr => (readsSome_iff fun s => loadAddrs_value globalES s addr).mpr fun _ =>
        hlocAddrs _

end

end IntervalExeState

-- ── `ConsExeState`

/-- What `ConsExeState` uses of Z3 expressions: the constants it names, and the numerals. `eq` is
    equality of expressions. -/
class SingleAbsValues (E : Type) where
  topConstant : E
  bottomConstant : E
  nullExpr : E
  z3Expr2NumValue : E → Option UInt32

open SingleAbsValues

structure ConsExeState (E : Type) where
  varToVal : Table UInt32 E
  locToVal : Table UInt32 E
  varToAddrs : Table UInt32 Addrs
  locToAddrs : Table UInt32 Addrs

namespace ConsExeState

variable {E : Type} [DecidableEq E] [SingleAbsValues E]

/-- Both tables of values are joined by this, key by key. -/
def joinVal (v other : E) : E :=
  if v = topConstant ∨ other = topConstant then topConstant
  else if v = bottomConstant then other
  else if other = bottomConstant then v
  else if v ≠ other then topConstant
  else v

def joinWith (s rhs : ConsExeState E) : ConsExeState E where
  varToVal := joinTable joinVal s.varToVal rhs.varToVal
  locToVal := joinTable joinVal s.locToVal rhs.locToVal
  varToAddrs := joinTable (· ∪ ·) s.varToAddrs rhs.varToAddrs
  locToAddrs := joinTable (· ∪ ·) s.locToAddrs rhs.locToAddrs

def AboveVal (w v : E) : Prop := w = topConstant ∨ v = bottomConstant ∨ w = v

theorem joinVal_left (v w : E) : AboveVal (joinVal v w) v := by
  unfold joinVal
  split_ifs with htop hbot _ hne
  · exact .inl rfl
  · exact .inr (.inl hbot)
  · exact .inr (.inr rfl)
  · exact .inl rfl
  · exact .inr (.inr rfl)

theorem joinVal_right (v w : E) : AboveVal (joinVal v w) w := by
  unfold joinVal
  split_ifs with htop _ hbot hne
  · exact .inl rfl
  · exact .inr (.inr rfl)
  · exact .inr (.inl hbot)
  · exact .inl rfl
  · exact .inr (.inr (not_not.mp hne))

-- The global state comes first for variables, and is never changed. A default is bound in the
-- local state.

section

variable (globalConsES s : ConsExeState E)

/-- `operator[]`. -/
def subscript (varId : UInt32) : E × ConsExeState E :=
  match globalConsES.varToVal.lookup varId with
  | some v => (v, s)
  | none =>
    match s.varToVal.lookup varId with
    | some v => (v, s)
    | none => (nullExpr, { s with varToVal := s.varToVal.insert varId nullExpr })

def getAddrs (id : UInt32) : Addrs × ConsExeState E :=
  match globalConsES.varToAddrs.lookup id with
  | some v => (v, s)
  | none =>
    match s.varToAddrs.lookup id with
    | some v => (v, s)
    | none => (∅, { s with varToAddrs := s.varToAddrs.insert id ∅ })

/-- `load(objId)`, with a warning of a null dereference where there is no value. -/
def loadObj (objId : UInt32) : E :=
  match s.locToVal.lookup objId with
  | some v => v
  | none =>
    match globalConsES.locToVal.lookup objId with
    | some v => v
    | none => topConstant

def load (loc : E) : Option E :=
  match z3Expr2NumValue loc with
  | none => none
  | some virAddr =>
    if isVirtualMemAddress virAddr then some (loadObj globalConsES s (getInternalID virAddr))
    else none

/-- The address sets of a location; without any they are those of the null pointer. -/
def locAddrs (objId : UInt32) : Addrs × ConsExeState E :=
  match s.locToAddrs.lookup objId with
  | some v => (v, s)
  | none =>
    match globalConsES.locToAddrs.lookup objId with
    | some v => (v, s)
    | none => getAddrs globalConsES s 0

def loadAddrs (addr : UInt32) : Option (Addrs × ConsExeState E) :=
  if isVirtualMemAddress addr then some (locAddrs globalConsES s (getInternalID addr)) else none

theorem subscript_value (varId : UInt32) :
    (subscript globalConsES s varId).1 = (globalConsES.varToVal.lookup varId).getD
      ((s.varToVal.lookup varId).getD nullExpr) := by
  unfold subscript
  cases globalConsES.varToVal.lookup varId with
  | some v => rfl
  | none => cases s.varToVal.lookup varId <;> rfl

theorem getAddrs_value (id : UInt32) :
    (getAddrs globalConsES s id).1 = (globalConsES.varToAddrs.lookup id).getD
      ((s.varToAddrs.lookup id).getD ∅) := by
  unfold getAddrs
  cases globalConsES.varToAddrs.lookup id with
  | some v => rfl
  | none => cases s.varToAddrs.lookup id <;> rfl

theorem loadObj_value (objId : UInt32) :
    loadObj globalConsES s objId = (s.locToVal.lookup objId).getD
      ((globalConsES.locToVal.lookup objId).getD topConstant) := by
  unfold loadObj
  cases s.locToVal.lookup objId with
  | some v => rfl
  | none => cases globalConsES.locToVal.lookup objId <;> rfl

theorem locAddrs_value (objId : UInt32) :
    (locAddrs globalConsES s objId).1 = (s.locToAddrs.lookup objId).getD
      ((globalConsES.locToAddrs.lookup objId).getD (getAddrs globalConsES s 0).1) := by
  unfold locAddrs
  cases s.locToAddrs.lookup objId with
  | some v => rfl
  | none => cases globalConsES.locToAddrs.lookup objId <;> rfl

theorem load_value {loc : E} {virAddr : UInt32} (hnum : z3Expr2NumValue loc = some virAddr) :
    load globalConsES s loc = if isVirtualMemAddress virAddr
      then some (loadObj globalConsES s (getInternalID virAddr)) else none := by
  rw [load, hnum]

theorem loadAddrs_value (addr : UInt32) :
    (loadAddrs globalConsES s addr).map (·.1) = if isVirtualMemAddress addr
      then some (locAddrs globalConsES s (getInternalID addr)).1 else none := by
  rw [loadAddrs, apply_ite (Option.map _), map_some, map_none]

end

/-- **The join over-approximates** what either state reads, over the global state. -/
structure JoinCovers (globalConsES s₁ s₂ : ConsExeState E) : Prop where
  subscript : ∀ k, Reads AboveVal (s₁.joinWith s₂) s₁ s₂ fun s => (subscript globalConsES s k).1
  getAddrs : ∀ k, Reads CoversAddrs (s₁.joinWith s₂) s₁ s₂ fun s => (getAddrs globalConsES s k).1
  load : ∀ loc, ReadsSome AboveVal (s₁.joinWith s₂) s₁ s₂ fun s => load globalConsES s loc
  loadAddrs : ∀ addr, ReadsSome CoversAddrs (s₁.joinWith s₂) s₁ s₂ fun s =>
    (loadAddrs globalConsES s addr).map (·.1)

/-- What one of the states binds alone covers what the other reads: a variable that is not bound
    in the global state, the value and the addresses of a location that can be loaded. -/
structure BindsLarger (globalConsES s₁ s₂ : ConsExeState E) : Prop where
  vars : ∀ k, globalConsES.varToVal.lookup k = none →
    KeepsOther AboveVal (s₁.varToVal.lookup k) (s₂.varToVal.lookup k)
      (subscript globalConsES s₁ k).1 (subscript globalConsES s₂ k).1
  locs : ∀ loc virAddr, z3Expr2NumValue (loc : E) = some virAddr →
    isVirtualMemAddress virAddr = true →
    KeepsOther AboveVal (s₁.locToVal.lookup (getInternalID virAddr))
      (s₂.locToVal.lookup (getInternalID virAddr))
      (loadObj globalConsES s₁ (getInternalID virAddr))
      (loadObj globalConsES s₂ (getInternalID virAddr))
  locAddrs : ∀ addr, isVirtualMemAddress addr = true →
    KeepsOther CoversAddrs (s₁.locToAddrs.lookup (getInternalID addr))
      (s₂.locToAddrs.lookup (getInternalID addr))
      (locAddrs globalConsES s₁ (getInternalID addr)).1
      (locAddrs globalConsES s₂ (getInternalID addr)).1

theorem aboveVal_refl (v : E) : AboveVal v v := .inr (.inr rfl)

section

variable (globalConsES s₁ s₂ : ConsExeState E)

theorem subscript_join_iff (k : UInt32) :
    Reads AboveVal (s₁.joinWith s₂) s₁ s₂ (fun s => (subscript globalConsES s k).1) ↔
      (globalConsES.varToVal.lookup k = none →
        KeepsOther AboveVal (s₁.varToVal.lookup k) (s₂.varToVal.lookup k)
          (subscript globalConsES s₁ k).1 (subscript globalConsES s₂ k).1) := by
  rw [Reads, subscript_value, subscript_value, subscript_value]
  cases globalConsES.varToVal.lookup k with
  | some v =>
    refine iff_of_true ⟨aboveVal_refl v, aboveVal_refl v⟩ fun h => ?_
    cases h
  | none =>
    rw [imp_iff_right rfl]
    exact read_join_iff aboveVal_refl joinVal_left joinVal_right _ _ k (aboveVal_refl _)
      (aboveVal_refl _)

theorem getAddrs_reads (k : UInt32) :
    Reads CoversAddrs (s₁.joinWith s₂) s₁ s₂ fun s => (getAddrs globalConsES s k).1 := by
  rw [Reads, getAddrs_value, getAddrs_value, getAddrs_value]
  cases globalConsES.varToAddrs.lookup k with
  | some v => exact ⟨Finset.Subset.refl _, Finset.Subset.refl _⟩
  | none =>
    refine (addrs_join_iff _ _ k (Finset.Subset.refl _) (Finset.Subset.refl _)).mpr ?_
    refine ⟨fun v _ hnone => ?_, fun v hnone _ => ?_⟩
    · rw [hnone]
      exact Finset.empty_subset v
    · rw [hnone]
      exact Finset.empty_subset v

theorem loadObj_join_iff (k : UInt32) :
    Reads AboveVal (s₁.joinWith s₂) s₁ s₂ (fun s => loadObj globalConsES s k) ↔
      KeepsOther AboveVal (s₁.locToVal.lookup k) (s₂.locToVal.lookup k)
        (loadObj globalConsES s₁ k) (loadObj globalConsES s₂ k) := by
  rw [Reads, loadObj_value, loadObj_value, loadObj_value]
  exact read_join_iff aboveVal_refl joinVal_left joinVal_right _ _ k (aboveVal_refl _)
    (aboveVal_refl _)

theorem locAddrs_join_iff (k : UInt32) :
    Reads CoversAddrs (s₁.joinWith s₂) s₁ s₂ (fun s => (locAddrs globalConsES s k).1) ↔
      KeepsOther CoversAddrs (s₁.locToAddrs.lookup k) (s₂.locToAddrs.lookup k)
        (locAddrs globalConsES s₁ k).1 (locAddrs globalConsES s₂ k).1 := by
  -- the addresses of the null pointer, read last, are covered after the join
  obtain ⟨h1, h2⟩ := getAddrs_reads globalConsES s₁ s₂ 0
  rw [Reads, locAddrs_value, locAddrs_value, locAddrs_value]
  cases globalConsES.locToAddrs.lookup k with
  | some v => exact addrs_join_iff _ _ k (Finset.Subset.refl _) (Finset.Subset.refl _)
  | none => exact addrs_join_iff _ _ k h1 h2

/-- **The join of `ConsExeState`** covers what is read exactly where one-sided bindings do. -/
theorem joinCovers_iff : JoinCovers globalConsES s₁ s₂ ↔ BindsLarger globalConsES s₁ s₂ := by
  constructor
  · intro h
    refine ⟨fun k => (subscript_join_iff _ _ _ k).mp (h.subscript k), fun loc virAddr hnum haddr => ?_,
      fun addr haddr => ?_⟩
    · have hreads := (readsSome_iff fun s => load_value globalConsES s hnum).mp (h.load loc) haddr
      exact (loadObj_join_iff _ _ _ _).mp hreads
    · have hreads := (readsSome_iff fun s => loadAddrs_value globalConsES s addr).mp
        (h.loadAddrs addr) haddr
      exact (locAddrs_join_iff _ _ _ _).mp hreads
  · intro h
    refine ⟨fun k => (subscript_join_iff _ _ _ k).mpr (h.vars k), getAddrs_reads _ _ _, fun loc => ?_,
      fun addr => (readsSome_iff fun s => loadAddrs_value globalConsES s addr).mpr fun haddr =>
        (locAddrs_join_iff _ _ _ _).mpr (h.locAddrs addr haddr)⟩
    cases hnum : z3Expr2NumValue loc with
    | none =>
      intro v _ _ hv
      dsimp only at hv
      rw [load, hnum] at hv
      cases hv.symm
    | some virAddr =>
      exact (readsSome_iff fun s => load_value globalConsES s hnum).mpr fun haddr =>
        (loadObj_join_iff _ _ _ _).mpr (h.locs loc virAddr hnum haddr)

end

end ConsExeState

-- ── Both states

/-- **The join respects the global fallback** exactly where it has to do nothing for it: in
    either class, for every content of the global state, what the accessors read after a join
    over-approximates what they read in both states if and only if whatever one of the states
    binds alone covers what the other one reads. -/
theorem joinWith_respects_fallback_iff {E : Type} [DecidableEq E] [SingleAbsValues E] :
    (∀ globalES s₁ s₂ : IntervalExeState, IntervalExeState.JoinCovers globalES s₁ s₂ ↔
      IntervalExeState.BindsLarger globalES s₁ s₂) ∧
    ∀ globalConsES s₁ s₂ : ConsExeState E, ConsExeState.JoinCovers globalConsES s₁ s₂ ↔
      ConsExeState.BindsLarger globalConsES s₁ s₂ :=
  ⟨IntervalExeState.joinCovers_iff, ConsExeState.joinCovers_iff⟩

/-- Numbers as expressions, for examples: 0 is bottom, 1 top, 2 the null expression. -/
instance instSingleAbsValuesNat : SingleAbsValues ℕ where
  topConstant := 1
  bottomConstant := 0
  nullExpr := 2
  z3Expr2NumValue n := some (UInt32.ofNat n)

/-- The location 5 is 0 in the global state, and one of two branches stores 7 to it. After the
    join it is 7: the other branch's 0 is lost. In `ConsExeState` the constant 8 of the branch
    stays where it was 9. -/
theorem joinWith_loses_global :
    ¬ IntervalExeState.JoinCovers ⟨∅, AList.singleton 5 ⟨.numeral 0, .numeral 0⟩, ∅, ∅⟩
        ⟨∅, AList.singleton 5 ⟨.numeral 7, .numeral 7⟩, ∅, ∅⟩ ⟨∅, ∅, ∅, ∅⟩ ∧
      ¬ ConsExeState.JoinCovers (⟨∅, AList.singleton 5 9, ∅, ∅⟩ : ConsExeState ℕ)
        ⟨∅, AList.singleton 5 8, ∅, ∅⟩ ⟨∅, ∅, ∅, ∅⟩ := by
  constructor
  · intro h
    have hread := (h.getLocVal 5).2 0 (by decide)
    cases hread
  · intro h
    have hread := (h.load 2130706437 8 8 9 (by decide) (by decide) (by decide)).2
    exact absurd hread (by unfold ConsExeState.AboveVal; decide)

end SvfInterval
