import SvfModel.ExeStateJoinProofs

/-!
# `SVFIR2ItvExeState`: stores and loads

A variable or a location may be bound to an interval, to a set of addresses, or to both, in
the local state or else in the global one. A concrete state is represented if every value that
it holds is one of those that its variable or location is bound to.

A store writes the stored interval, or else the stored addresses, into every location that
the pointer may point to. The heart is `translateStore_spec`: in a location that is written,
the values of the stored sort are replaced and those of the other sort are kept. So a store is
sound exactly where nothing that another target holds is lost by that (`storeSound_iff`).
A load joins the intervals of all targets that have one, and only if no target has one the
addresses; it is sound exactly where the addresses that are left out are among those that the
loaded variable had before (`loadSound_iff`). Both are put together in **`transfer_sound_iff`**.
-/

namespace SvfInterval

open NumericLiteral List
open Function (update update_of_ne update_self)
open Option (getD_some isSome_iff_exists map_some)

-- ── Two tables, the local one first

section TwoTables

variable {V : Type}

section

variable (globals locals : Table UInt32 V)

def readTables (id : UInt32) : Option V :=
  (locals.lookup id).or (globals.lookup id)

/-- An assignment to the reference that an accessor returns: the local binding if there is one,
    or else the global one. The global and the local table after it. -/
def assignTables (id : UInt32) (v : V) : Table UInt32 V × Table UInt32 V :=
  if (locals.lookup id).isSome then (globals, locals.insert id v) else (globals.insert id v, locals)

theorem readTables_assign (id : UInt32) (v : V) (k : UInt32) :
    readTables (assignTables globals locals id v).1 (assignTables globals locals id v).2 k =
      if k = id then some v else readTables globals locals k := by
  rw [assignTables, readTables, readTables]
  by_cases hk : k = id
  · subst hk
    rw [if_pos rfl]
    cases hloc : locals.lookup k with
    | none =>
      rw [Option.isSome_none, if_neg Bool.false_ne_true, hloc, Option.none_or, AList.lookup_insert]
    | some w => rw [Option.isSome_some, if_pos rfl, AList.lookup_insert, Option.some_or]
  · rw [if_neg hk]
    cases hloc : (locals.lookup id).isSome with
    | true => rw [if_pos rfl, AList.lookup_insert_ne hk]
    | false => rw [if_neg Bool.false_ne_true, AList.lookup_insert_ne hk]

end

end TwoTables

/-- An order in which the addresses of a set are met. -/
structure Iteration where
  order : Addrs → List UInt32
  mem_order : ∀ {addrs : Addrs} {addr : UInt32}, addr ∈ order addrs ↔ addr ∈ addrs

namespace IntervalExeState

-- ── The tables of a state

section

variable (globalES s : IntervalExeState)

section

variable (id : UInt32)

def inVarToValTable : Bool :=
  (readTables globalES.varToItvVal s.varToItvVal id).isSome

def inVarToAddrsTable : Bool :=
  (readTables globalES.varToAddrs s.varToAddrs id).isSome

def inLocToValTable : Bool :=
  (readTables globalES.locToItvVal s.locToItvVal id).isSome

def inLocToAddrsTable : Bool :=
  (readTables globalES.locToAddrs s.locToAddrs id).isSome

end

end

def isNullPtr (addr : UInt32) : Bool := getInternalID addr == 0

def store (s : IntervalExeState) (addr : UInt32) (val : IntervalValue) : Option IntervalExeState :=
  if isVirtualMemAddress addr then
    if isNullPtr addr then some s
    else some { s with locToItvVal := s.locToItvVal.insert (getInternalID addr) val }
  else none

def storeAddrs (s : IntervalExeState) (addr : UInt32) (vaddrs : Addrs) : Option IntervalExeState :=
  if isVirtualMemAddress addr then
    if isNullPtr addr then some s
    else some { s with locToAddrs := s.locToAddrs.insert (getInternalID addr) vaddrs }
  else none

def assignVal (globalES s : IntervalExeState) (id : UInt32) (val : IntervalValue) :
    IntervalExeState × IntervalExeState :=
  let tables := assignTables globalES.varToItvVal s.varToItvVal id val
  ({ globalES with varToItvVal := tables.1 }, { s with varToItvVal := tables.2 })

def assignAddrs (globalES s : IntervalExeState) (id : UInt32) (addrs : Addrs) :
    IntervalExeState × IntervalExeState :=
  let tables := assignTables globalES.varToAddrs s.varToAddrs id addrs
  ({ globalES with varToAddrs := tables.1 }, { s with varToAddrs := tables.2 })

-- ── The transfer functions

/-- `translateStore(store)` for `*lhs = rhs`: the state after it. -/
def translateStore (it : Iteration) (globalES s : IntervalExeState) (lhs rhs : UInt32) :
    Option IntervalExeState :=
  if inVarToAddrsTable globalES s lhs then
    if inVarToValTable globalES s rhs then
      if (getAddrs globalES s lhs).1 = ∅ then none
      else (it.order (getAddrs globalES s lhs).1).foldlM
        (fun es addr => store es addr (subscript globalES es rhs).1) s
    else if inVarToAddrsTable globalES s rhs then
      if (getAddrs globalES s lhs).1 = ∅ then none
      else (it.order (getAddrs globalES s lhs).1).foldlM
        (fun es addr => if (getAddrs globalES es rhs).1 = ∅ then none
          else storeAddrs es addr (getAddrs globalES es rhs).1) s
    else some s
  else some s

/-- What the loop of `translateLoad` has collected. -/
structure Loaded where
  rhsItv : IntervalValue
  rhsAddr : Addrs
  isVal : Bool
  isAddr : Bool

/-- The body of the loop of `translateLoad`. A location that is bound is read without a change of
    the state. -/
def loadTarget (globalES s : IntervalExeState) (acc : Loaded) (addr : UInt32) : Option Loaded :=
  if inLocToValTable globalES s (getInternalID addr) then
    (load globalES s addr).map fun r =>
      { acc with rhsItv := acc.rhsItv.join_with r.1, isVal := true }
  else if inLocToAddrsTable globalES s (getInternalID addr) then
    (loadAddrs globalES s addr).map fun r =>
      { acc with rhsAddr := acc.rhsAddr ∪ r.1, isAddr := true }
  else some acc

def translateLoad (it : Iteration) (globalES s : IntervalExeState) (lhs rhs : UInt32) :
    Option (IntervalExeState × IntervalExeState) :=
  if inVarToAddrsTable globalES s rhs then
    if (getAddrs globalES s rhs).1 = ∅ then none
    else ((it.order (getAddrs globalES s rhs).1).foldlM (loadTarget globalES s)
        ⟨IntervalValue.bottom, ∅, false, false⟩).map fun acc =>
      if acc.isVal then assignVal globalES s lhs acc.rhsItv
      else if acc.isAddr then assignAddrs globalES s lhs acc.rhsAddr
      else (globalES, s)
  else some (globalES, s)

-- ── Concrete states

/-- A value is a number or a pointer. -/
inductive Value where
  | num (n : ℤ)
  | ptr (addr : UInt32)

/-- The variables and the objects of a program. Some hold nothing yet. -/
structure Concrete where
  var : UInt32 → Option Value
  mem : UInt32 → Option Value

/-- The values that a pair of bindings allows. -/
def allowed (itv : Option IntervalValue) (addrs : Option Addrs) : Set Value
  | .num n => ∃ v, itv = some v ∧ v.contains n = true
  | .ptr addr => ∃ A, addrs = some A ∧ addr ∈ A

theorem num_mem_allowed {itv : Option IntervalValue} {addrs : Option Addrs} {n : ℤ} :
    .num n ∈ allowed itv addrs ↔ ∃ v, itv = some v ∧ v.contains n := Iff.rfl

theorem ptr_mem_allowed {itv : Option IntervalValue} {addrs : Option Addrs} {addr : UInt32} :
    .ptr addr ∈ allowed itv addrs ↔ ∃ A, addrs = some A ∧ addr ∈ A := Iff.rfl

def varValues (globalES s : IntervalExeState) (id : UInt32) : Set Value :=
  allowed (readTables globalES.varToItvVal s.varToItvVal id)
    (readTables globalES.varToAddrs s.varToAddrs id)

def locValues (globalES s : IntervalExeState) (id : UInt32) : Set Value :=
  allowed (readTables globalES.locToItvVal s.locToItvVal id)
    (readTables globalES.locToAddrs s.locToAddrs id)

structure Represents (globalES s : IntervalExeState) (c : Concrete) : Prop where
  var : ∀ id v, c.var id = some v → v ∈ varValues globalES s id
  mem : ∀ id v, c.mem id = some v → v ∈ locValues globalES s id

def StoreStep (lhs rhs : UInt32) (c c' : Concrete) : Prop :=
  ∃ addr v, c.var lhs = some (.ptr addr) ∧ isNullPtr addr = false ∧ c.var rhs = some v ∧
    c' = { c with mem := update c.mem (getInternalID addr) (some v) }

def LoadStep (lhs rhs : UInt32) (c c' : Concrete) : Prop :=
  ∃ addr v, c.var rhs = some (.ptr addr) ∧ c.mem (getInternalID addr) = some v ∧
    c' = { c with var := update c.var lhs (some v) }

/-- A transfer function is sound where it has gone from one state to another. -/
def Sound (step : Concrete → Concrete → Prop) (globalES s : IntervalExeState)
    (out : IntervalExeState × IntervalExeState) : Prop :=
  ∀ c c', Represents globalES s c → step c c' → Represents out.1 out.2 c'

variable {globalES s : IntervalExeState} {lhs rhs : UInt32}

section

variable (globalES s : IntervalExeState)

section

variable (id : UInt32)

theorem getAddrs_eq :
    (getAddrs globalES s id).1 = (readTables globalES.varToAddrs s.varToAddrs id).getD ∅ := by
  rw [getAddrs_value, readTables]
  cases s.varToAddrs.lookup id <;> rfl

theorem subscript_eq : (subscript globalES s id).1 =
      (readTables globalES.varToItvVal s.varToItvVal id).getD IntervalValue.top := by
  rw [subscript_value, readTables]
  cases s.varToItvVal.lookup id <;> rfl

theorem getLocVal_eq : (getLocVal globalES s id).1 =
      (readTables globalES.locToItvVal s.locToItvVal id).getD IntervalValue.top := by
  rw [getLocVal_value, readTables]
  cases s.locToItvVal.lookup id <;> rfl

theorem getLocAddrs_eq :
    (getLocAddrs globalES s id).1 = (readTables globalES.locToAddrs s.locToAddrs id).getD ∅ := by
  rw [getLocAddrs_value, readTables]
  cases s.locToAddrs.lookup id <;> rfl

end

end

theorem ptr_mem_varValues {id addr : UInt32} :
    .ptr addr ∈ varValues globalES s id ↔ addr ∈ (getAddrs globalES s id).1 := by
  rw [getAddrs_eq, varValues, ptr_mem_allowed]
  cases readTables globalES.varToAddrs s.varToAddrs id with
  | none => exact iff_of_false (fun ⟨A, h, _⟩ => nomatch h) (Finset.notMem_empty addr)
  | some A => exact ⟨fun ⟨B, h, hB⟩ => Option.some.inj h ▸ hB, fun h => ⟨A, rfl, h⟩⟩

theorem bound_of_mem_varValues {id : UInt32} {v : Value} (h : v ∈ varValues globalES s id) :
    inVarToValTable globalES s id ∨ inVarToAddrsTable globalES s id := by
  cases v with
  | num n =>
    obtain ⟨itv, hitv, -⟩ := h
    exact .inl (isSome_iff_exists.mpr ⟨itv, hitv⟩)
  | ptr addr =>
    obtain ⟨A, hA, -⟩ := h
    exact .inr (isSome_iff_exists.mpr ⟨A, hA⟩)

theorem bound_of_mem_getAddrs {id addr : UInt32} (h : addr ∈ (getAddrs globalES s id).1) :
    inVarToAddrsTable globalES s id := by
  obtain ⟨A, hA, -⟩ := ptr_mem_varValues.mpr h
  exact isSome_iff_exists.mpr ⟨A, hA⟩

-- ── Stores

/-- The assertions that a store meets if both sides are bound. -/
structure StoreAsserts (globalES s : IntervalExeState) (lhs rhs : UInt32) : Prop where
  targets : (getAddrs globalES s lhs).1 ≠ ∅
  virtual : ∀ addr ∈ (getAddrs globalES s lhs).1, isVirtualMemAddress addr = true
  stored : inVarToValTable globalES s rhs = true ∨ (getAddrs globalES s rhs).1 ≠ ∅

section

variable (globalES s : IntervalExeState)

def StoreBound (lhs rhs : UInt32) : Prop :=
  inVarToAddrsTable globalES s lhs = true ∧
    (inVarToValTable globalES s rhs = true ∨ inVarToAddrsTable globalES s rhs = true)

/-- An object that a store through `lhs` writes. -/
def Target (lhs addr : UInt32) : Prop :=
  addr ∈ (getAddrs globalES s lhs).1 ∧ isNullPtr addr = false

def Replaced (rhs : UInt32) : Value → Bool
  | .num _ => inVarToValTable globalES s rhs
  | .ptr _ => !inVarToValTable globalES s rhs

end

/-- The locations of some addresses are written. -/
def writeCells {V : Type} (t : Table UInt32 V) (addrs : List UInt32) (v : V) : Table UInt32 V :=
  addrs.foldl (fun t addr => if isNullPtr addr then t else t.insert (getInternalID addr) v) t

theorem lookup_writeCells {V : Type} (v : V) (k : UInt32) (addrs : List UInt32) :
    ∀ t : Table UInt32 V, ((∃ addr ∈ addrs, isNullPtr addr = false ∧ getInternalID addr = k) →
        (writeCells t addrs v).lookup k = some v) ∧
      ((¬ ∃ addr ∈ addrs, isNullPtr addr = false ∧ getInternalID addr = k) →
        (writeCells t addrs v).lookup k = t.lookup k) := by
  induction addrs with
  | nil => exact fun t => ⟨fun ⟨_, h, _⟩ => absurd h not_mem_nil, fun _ => rfl⟩
  | cons addr addrs ih =>
    intro t
    obtain ⟨hin, hout⟩ := ih (if isNullPtr addr then t else t.insert (getInternalID addr) v)
    have hstep : writeCells t (addr :: addrs) v =
        writeCells (if isNullPtr addr then t else t.insert (getInternalID addr) v) addrs v := rfl
    rw [hstep]
    by_cases hrest : ∃ a ∈ addrs, isNullPtr a = false ∧ getInternalID a = k
    · refine ⟨fun _ => hin hrest, fun hno => absurd ?_ hno⟩
      obtain ⟨a, ha, hk⟩ := hrest
      exact ⟨a, mem_cons_of_mem addr ha, hk⟩
    · rw [hout hrest]
      constructor
      · rintro ⟨a, ha, hnull, hk⟩
        rcases mem_cons.mp ha with rfl | ha
        · rw [hnull, if_neg Bool.false_ne_true, ← hk, AList.lookup_insert]
        · exact absurd ⟨a, ha, hnull, hk⟩ hrest
      · intro hno
        cases hnull : isNullPtr addr with
        | true => rw [if_pos rfl]
        | false =>
          have hne : k ≠ getInternalID addr := fun hk => hno ⟨addr, mem_cons_self, hnull, hk.symm⟩
          rw [if_neg Bool.false_ne_true, AList.lookup_insert_ne hne]

theorem foldlM_writeCells {V : Type} (set : Table UInt32 V → IntervalExeState) (v : V)
    (step : IntervalExeState → UInt32 → Option IntervalExeState) (addrs : List UInt32)
    (hstep : ∀ addr ∈ addrs, ∀ t, step (set t) addr =
      some (set (if isNullPtr addr then t else t.insert (getInternalID addr) v))) :
    ∀ t, addrs.foldlM step (set t) = some (set (writeCells t addrs v)) := by
  induction addrs with
  | nil => exact fun t => rfl
  | cons addr addrs ih =>
    intro t
    have hrest := ih (forall_mem_cons.mp hstep).2
    rw [foldlM_cons, hstep addr mem_cons_self, Option.bind_eq_bind, Option.bind_some,
      hrest, writeCells, writeCells, foldl_cons]

section

variable (globalES s : IntervalExeState) (rhs : UInt32) (addrs : List UInt32)
  (h : ∀ addr ∈ addrs, isVirtualMemAddress addr)
include h

theorem storeLoop_eq :
    addrs.foldlM (fun es addr => store es addr (subscript globalES es rhs).1) s = some { s with
        locToItvVal := writeCells s.locToItvVal addrs (subscript globalES s rhs).1 } := by
  refine foldlM_writeCells (fun t => { s with locToItvVal := t }) _ _ addrs ?_ s.locToItvVal
  intro addr ha t
  -- the locations are no variables, so each step reads the same value
  rw [subscript_eq, store, if_pos (h addr ha), ← subscript_eq globalES s rhs]
  cases isNullPtr addr <;> rfl

theorem storeAddrsLoop_eq (hne : (getAddrs globalES s rhs).1 ≠ ∅) :
    addrs.foldlM (fun es addr => if (getAddrs globalES es rhs).1 = ∅ then none
        else storeAddrs es addr (getAddrs globalES es rhs).1) s =
      some { s with
        locToAddrs := writeCells s.locToAddrs addrs (getAddrs globalES s rhs).1 } := by
  refine foldlM_writeCells (fun t => { s with locToAddrs := t }) _ _ addrs ?_ s.locToAddrs
  intro addr ha t
  have hread : (getAddrs globalES { s with locToAddrs := t } rhs).1 = (getAddrs globalES s rhs).1 := by
    rw [getAddrs_eq, getAddrs_eq]
  rw [hread, if_neg hne, storeAddrs, if_pos (h addr ha)]
  cases isNullPtr addr <;> rfl

end

/-- The values after a store: the variables are as before, and so are the objects that are no
    targets. In a target the values of the stored sort are replaced. -/
structure Stored (globalES s : IntervalExeState) (lhs rhs : UInt32) (out : IntervalExeState) :
    Prop where
  vars : ∀ id, varValues globalES out id = varValues globalES s id
  mem : ∀ addr, Target globalES s lhs addr → ∀ v,
    v ∈ locValues globalES out (getInternalID addr) ↔
      if Replaced globalES s rhs v then v ∈ varValues globalES s rhs
      else v ∈ locValues globalES s (getInternalID addr)
  frame : ∀ k, (¬ ∃ addr, Target globalES s lhs addr ∧ getInternalID addr = k) →
    locValues globalES out k = locValues globalES s k

theorem readTables_writeCells {V : Type} (globals t : Table UInt32 V) (addrs : List UInt32) (v : V)
    (k : UInt32) :
    ((∃ addr ∈ addrs, isNullPtr addr = false ∧ getInternalID addr = k) →
      readTables globals (writeCells t addrs v) k = some v) ∧
    ((¬ ∃ addr ∈ addrs, isNullPtr addr = false ∧ getInternalID addr = k) →
      readTables globals (writeCells t addrs v) k = readTables globals t k) := by
  obtain ⟨hin, hout⟩ := lookup_writeCells v k addrs t
  refine ⟨fun h => ?_, fun h => ?_⟩
  · rw [readTables, hin h, Option.some_or]
  · rw [readTables, hout h, readTables]

/-- **A store** that meets its assertions writes its targets. -/
theorem translateStore_spec (it : Iteration) (hb : StoreBound globalES s lhs rhs)
    (ha : StoreAsserts globalES s lhs rhs) :
    ∃ out, translateStore it globalES s lhs rhs = some out ∧ Stored globalES s lhs rhs out := by
  have hvirtual : ∀ addr ∈ it.order (getAddrs globalES s lhs).1, isVirtualMemAddress addr :=
    fun addr hmem => ha.virtual addr (it.mem_order.mp hmem)
  have hwritten : ∀ k, (∃ addr, Target globalES s lhs addr ∧ getInternalID addr = k) ↔
      ∃ addr ∈ it.order (getAddrs globalES s lhs).1, isNullPtr addr = false ∧ getInternalID addr = k :=
    fun k => ⟨fun ⟨a, ⟨ht, hn⟩, hk⟩ => ⟨a, it.mem_order.mpr ht, hn, hk⟩,
      fun ⟨a, ht, hn, hk⟩ => ⟨a, ⟨it.mem_order.mp ht, hn⟩, hk⟩⟩
  rw [translateStore, if_pos hb.1]
  cases hval : inVarToValTable globalES s rhs with
  | true =>
    rw [if_pos rfl, if_neg ha.targets, storeLoop_eq globalES s rhs _ hvirtual]
    refine ⟨_, rfl, ⟨fun id => rfl, fun addr ht v => ?_, fun k hk => ?_⟩⟩
    · have hcell := (readTables_writeCells globalES.locToItvVal s.locToItvVal _
        (subscript globalES s rhs).1 _).1 ((hwritten _).mp ⟨addr, ht, rfl⟩)
      obtain ⟨itv, hitv⟩ := isSome_iff_exists.mp hval
      cases v with
      | num n =>
        rw [Replaced, hval, if_pos rfl]
        rw [locValues, varValues, num_mem_allowed, num_mem_allowed, hcell, subscript_eq, hitv,
          getD_some]
      | ptr x =>
        rw [Replaced, hval, if_neg (by decide)]
        exact .rfl
    · have hcell := (readTables_writeCells globalES.locToItvVal s.locToItvVal _
        (subscript globalES s rhs).1 _).2 (mt (hwritten k).mpr hk)
      rw [locValues, locValues, hcell]
  | false =>
    have hne := ha.stored.resolve_left (hval ▸ Bool.false_ne_true)
    have hbound := hb.2.resolve_left (hval ▸ Bool.false_ne_true)
    rw [if_neg Bool.false_ne_true, if_pos hbound, if_neg ha.targets,
      storeAddrsLoop_eq globalES s rhs _ hvirtual hne]
    refine ⟨_, rfl, ⟨fun id => rfl, fun addr ht v => ?_, fun k hk => ?_⟩⟩
    · have hcell := (readTables_writeCells globalES.locToAddrs s.locToAddrs _
        (getAddrs globalES s rhs).1 _).1 ((hwritten _).mp ⟨addr, ht, rfl⟩)
      cases v with
      | num n =>
        rw [Replaced, hval, if_neg Bool.false_ne_true]
        exact .rfl
      | ptr x =>
        rw [Replaced, hval, if_pos (by decide), ptr_mem_varValues]
        rw [locValues, ptr_mem_allowed, hcell]
        exact ⟨fun ⟨A, hA, hx⟩ => Option.some.inj hA ▸ hx, fun hx => ⟨_, rfl, hx⟩⟩
    · have hcell := (readTables_writeCells globalES.locToAddrs s.locToAddrs _
        (getAddrs globalES s rhs).1 _).2 (mt (hwritten k).mpr hk)
      rw [locValues, locValues, hcell]

/-- A store loses nothing: whatever may be stored into a target is among its values after the
    store, and what another target holds of the sort that is replaced is stored as well. -/
def StoreKeeps (globalES s : IntervalExeState) (lhs rhs : UInt32) : Prop :=
  ∀ addr v, Target globalES s lhs addr → v ∈ varValues globalES s rhs →
    (lhs = rhs → v = .ptr addr) →
    (Replaced globalES s rhs v = false → v ∈ locValues globalES s (getInternalID addr)) ∧
    ∀ other, Target globalES s lhs other → getInternalID other ≠ getInternalID addr →
      ∀ w ∈ locValues globalES s (getInternalID other), Replaced globalES s rhs w = true →
        w ∈ varValues globalES s rhs

theorem update_eq_some {f : UInt32 → Option Value} {k id : UInt32} {v w : Value} :
    update f k (some v) id = some w ↔ id = k ∧ v = w ∨ id ≠ k ∧ f id = some w := by
  by_cases hid : id = k
  · subst hid
    rw [update_self, Option.some_inj]
    exact ⟨fun h => .inl ⟨rfl, h⟩, fun h => (h.resolve_right fun hne => hne.1 rfl).2⟩
  · rw [update_of_ne hid]
    exact ⟨fun h => .inr ⟨hid, h⟩, fun h => (h.resolve_left fun heq => hid heq.1).2⟩

/-- The state in which nothing holds a value but the two variables and one object. -/
def holding (lhs rhs : UInt32) (addr : UInt32) (v : Value) (mem : UInt32 → Option Value) : Concrete where
  var := update (update (fun _ => none) lhs (some (.ptr addr))) rhs (some v)
  mem := mem

/-- **The soundness of a store**, from what it writes. -/
theorem Stored.sound_iff {out : IntervalExeState} (h : Stored globalES s lhs rhs out) :
    Sound (StoreStep lhs rhs) globalES s (globalES, out) ↔ StoreKeeps globalES s lhs rhs := by
  constructor
  · intro hsound addr v ht hv hsame
    have hlhs : ∀ mem, (holding lhs rhs addr v mem).var lhs = some (.ptr addr) := by
      intro mem
      refine update_eq_some.mpr ?_
      by_cases heq : lhs = rhs
      · exact .inl ⟨heq, hsame heq⟩
      · exact .inr ⟨heq, update_eq_some.mpr (.inl ⟨rfl, rfl⟩)⟩
    have hrhs : ∀ mem, (holding lhs rhs addr v mem).var rhs = some v :=
      fun mem => update_eq_some.mpr (.inl ⟨rfl, rfl⟩)
    have hvars : ∀ mem id w, (holding lhs rhs addr v mem).var id = some w →
        w ∈ varValues globalES s id := by
      intro mem id w hw
      rcases update_eq_some.mp hw with ⟨rfl, rfl⟩ | ⟨-, hw⟩
      · exact hv
      · rcases update_eq_some.mp hw with ⟨rfl, rfl⟩ | ⟨-, hw⟩
        · exact ptr_mem_varValues.mpr ht.1
        · cases hw.symm
    constructor
    · intro hrep
      have hrepr : Represents globalES s (holding lhs rhs addr v fun _ => none) := ⟨hvars _, nofun⟩
      have hout := (hsound _ _ hrepr ⟨addr, v, hlhs _, ht.2, hrhs _, rfl⟩).mem (getInternalID addr) v
        (update_eq_some.mpr (.inl ⟨rfl, rfl⟩))
      rwa [h.mem addr ht, if_neg (hrep ▸ Bool.false_ne_true)] at hout
    · intro other hother hne w hw hrep
      have hrepr : Represents globalES s (holding lhs rhs addr v
          (update (fun _ => none) (getInternalID other) (some w))) := by
        refine ⟨hvars _, fun id u hu => ?_⟩
        have hu' : update (fun _ => none) (getInternalID other) (some w) id = some u := hu
        rcases update_eq_some.mp hu' with ⟨rfl, rfl⟩ | ⟨-, hu⟩
        · exact hw
        · cases hu.symm
      have hheld : update (fun _ => none) (getInternalID other) (some w)
          (getInternalID other) = some w := update_self ..
      have hout := (hsound _ _ hrepr ⟨addr, v, hlhs _, ht.2, hrhs _, rfl⟩).mem (getInternalID other) w
        (update_eq_some.mpr (.inr ⟨hne, hheld⟩))
      rwa [h.mem other hother, if_pos hrep] at hout
  · rintro hkeeps c c' hc ⟨addr, v, hlhs, hnull, hrhs, rfl⟩
    have hv := hc.var rhs v hrhs
    have ht : Target globalES s lhs addr := ⟨ptr_mem_varValues.mp (hc.var lhs _ hlhs), hnull⟩
    obtain ⟨hself, hother⟩ := hkeeps addr v ht hv fun heq => by
      rw [heq] at hlhs
      exact Option.mem_unique hrhs hlhs
    refine ⟨fun id w hw => (h.vars id).symm ▸ hc.var id w hw, fun k w hw => ?_⟩
    rcases update_eq_some.mp hw with ⟨rfl, rfl⟩ | ⟨hk, hw⟩
    · refine (h.mem addr ht v).mpr ?_
      cases hrep : Replaced globalES s rhs v with
      | true => rw [if_pos rfl]; exact hv
      | false => rw [if_neg Bool.false_ne_true]; exact hself hrep
    · have hold := hc.mem k w hw
      by_cases hwritten : ∃ a, Target globalES s lhs a ∧ getInternalID a = k
      · obtain ⟨other, hto, rfl⟩ := hwritten
        refine (h.mem other hto w).mpr ?_
        cases hrep : Replaced globalES s rhs w with
        | true => rw [if_pos rfl]; exact hother other hto hk w hold hrep
        | false => rw [if_neg Bool.false_ne_true]; exact hold
      · exact (h.frame k hwritten).symm ▸ hold

/-- **A store** is sound exactly where it loses nothing. -/
theorem storeSound_iff (it : Iteration) (h : StoreBound globalES s lhs rhs → StoreAsserts globalES s lhs rhs) :
    ∃ out, translateStore it globalES s lhs rhs = some out ∧
      (Sound (StoreStep lhs rhs) globalES s (globalES, out) ↔ StoreKeeps globalES s lhs rhs) := by
  by_cases hb : StoreBound globalES s lhs rhs
  · obtain ⟨out, hout, hstored⟩ := translateStore_spec it hb (h hb)
    exact ⟨out, hout, hstored.sound_iff⟩
  · have hsame : translateStore it globalES s lhs rhs = some s := by
      rw [translateStore]
      by_cases hl : inVarToAddrsTable globalES s lhs
      · rw [if_pos hl, if_neg fun hv => hb ⟨hl, .inl hv⟩, if_neg fun ha => hb ⟨hl, .inr ha⟩]
      · rw [if_neg hl]
    have hempty : ∀ addr v, addr ∈ (getAddrs globalES s lhs).1 → v ∉ varValues globalES s rhs :=
      fun addr v ha hv => hb ⟨bound_of_mem_getAddrs ha, bound_of_mem_varValues hv⟩
    refine ⟨s, hsame, iff_of_true ?_ fun addr v ht hv => absurd hv (hempty addr v ht.1)⟩
    rintro c c' hc ⟨addr, v, hlhs, -, hrhs, -⟩
    exact absurd (hc.var rhs v hrhs) (hempty addr v (ptr_mem_varValues.mp (hc.var lhs _ hlhs)))

-- ── Loads

/-- The assertions of `translateLoad`. -/
structure LoadAsserts (globalES s : IntervalExeState) (rhs : UInt32) : Prop where
  targets : inVarToAddrsTable globalES s rhs = true → (getAddrs globalES s rhs).1 ≠ ∅
  virtual : ∀ addr ∈ (getAddrs globalES s rhs).1,
    inLocToValTable globalES s (getInternalID addr) = true ∨
      inLocToAddrsTable globalES s (getInternalID addr) = true → isVirtualMemAddress addr = true

/-- What has been collected covers the values of a target of one sort. -/
structure Collects (globalES s : IntervalExeState) (acc out : Loaded) (addrs : List UInt32) :
    Prop where
  isVal : out.isVal = true ↔ acc.isVal = true ∨
    ∃ addr ∈ addrs, inLocToValTable globalES s (getInternalID addr) = true
  isAddr : out.isAddr = true ↔ acc.isAddr = true ∨
    ∃ addr ∈ addrs, inLocToValTable globalES s (getInternalID addr) = false ∧
      inLocToAddrsTable globalES s (getInternalID addr) = true
  itv : ∀ n, (acc.rhsItv.contains n = true ∨ ∃ addr ∈ addrs,
    .num n ∈ locValues globalES s (getInternalID addr)) → out.rhsItv.contains n = true
  addr : ∀ x, (x ∈ acc.rhsAddr ∨ ∃ addr ∈ addrs,
    inLocToValTable globalES s (getInternalID addr) = false ∧
      .ptr x ∈ locValues globalES s (getInternalID addr)) → x ∈ out.rhsAddr

theorem Collects.cons {acc mid out : Loaded} {addr : UInt32} {addrs : List UInt32}
    (h : Collects globalES s acc mid [addr]) (h' : Collects globalES s mid out addrs) :
    Collects globalES s acc out (addr :: addrs) := by
  constructor
  case isVal =>
    rw [h'.isVal, h.isVal, or_assoc]
    simp only [mem_cons, not_mem_nil, or_false, exists_eq_left, exists_eq_or_imp]
  case isAddr =>
    rw [h'.isAddr, h.isAddr, or_assoc]
    simp only [mem_cons, not_mem_nil, or_false, exists_eq_left, exists_eq_or_imp]
  case itv =>
    rintro n (hn | ⟨a, ha, hn⟩)
    · exact h'.itv n (.inl (h.itv n (.inl hn)))
    · rcases mem_cons.mp ha with rfl | ha
      · exact h'.itv n (.inl (h.itv n (.inr ⟨a, mem_singleton_self a, hn⟩)))
      · exact h'.itv n (.inr ⟨a, ha, hn⟩)
  case addr =>
    rintro x (hx | ⟨a, ha, hx⟩)
    · exact h'.addr x (.inl (h.addr x (.inl hx)))
    · rcases mem_cons.mp ha with rfl | ha
      · exact h'.addr x (.inl (h.addr x (.inr ⟨a, mem_singleton_self a, hx⟩)))
      · exact h'.addr x (.inr ⟨a, ha, hx⟩)

theorem loadTarget_spec (acc : Loaded) (addr : UInt32)
    (hvirtual : inLocToValTable globalES s (getInternalID addr) ∨
      inLocToAddrsTable globalES s (getInternalID addr) → isVirtualMemAddress addr) :
    ∃ out, loadTarget globalES s acc addr = some out ∧ Collects globalES s acc out [addr] := by
  have hone : ∀ p : UInt32 → Prop, (∃ a ∈ [addr], p a) ↔ p addr := by
    intro p
    simp only [mem_singleton, exists_eq_left]
  rw [loadTarget]
  cases hval : inLocToValTable globalES s (getInternalID addr) with
  | true =>
    obtain ⟨itv, hitv⟩ := isSome_iff_exists.mp hval
    have hread : (getLocVal globalES s (getInternalID addr)).1 = itv := by
      rw [getLocVal_eq, hitv, getD_some]
    rw [if_pos rfl, load, if_pos (hvirtual (.inl hval)), map_some, hread]
    refine ⟨_, rfl, ⟨?_, ?_, fun n hn => ?_, fun x hx => ?_⟩⟩
    · exact iff_of_true rfl (.inr ((hone _).mpr hval))
    · refine (or_iff_left fun h => ?_).symm
      exact Bool.false_ne_true (((hone _).mp h).1.symm.trans hval)
    · refine IntervalValue.contains_join_with (hn.imp_right fun h => ?_)
      obtain ⟨w, hw, hin⟩ := (hone _).mp h
      exact Option.mem_unique hitv hw ▸ hin
    · refine hx.resolve_right fun h => ?_
      exact Bool.false_ne_true (((hone _).mp h).1.symm.trans hval)
  | false =>
    rw [if_neg Bool.false_ne_true]
    have hnum : ∀ n, .num n ∉ locValues globalES s (getInternalID addr) := by
      rintro n ⟨w, hw, -⟩
      exact Bool.false_ne_true (hval.symm.trans (isSome_iff_exists.mpr ⟨w, hw⟩))
    have hnoval : ∀ {p : Prop}, (p ∨ ∃ a ∈ [addr],
        inLocToValTable globalES s (getInternalID a)) ↔ p := fun {p} =>
      or_iff_left fun h => Bool.false_ne_true (hval.symm.trans ((hone _).mp h))
    cases haddr : inLocToAddrsTable globalES s (getInternalID addr) with
    | true =>
      obtain ⟨A, hA⟩ := isSome_iff_exists.mp haddr
      have hread : (getLocAddrs globalES s (getInternalID addr)).1 = A := by
        rw [getLocAddrs_eq, hA, getD_some]
      rw [if_pos rfl, loadAddrs, if_pos (hvirtual (.inr haddr)), map_some, hread]
      refine ⟨_, rfl, ⟨hnoval.symm, ?_, fun n hn => ?_, fun x hx => ?_⟩⟩
      · exact iff_of_true rfl (.inr ((hone _).mpr ⟨hval, haddr⟩))
      · exact hn.resolve_right fun h => hnum n ((hone _).mp h)
      · refine Finset.mem_union.mpr (hx.imp_right fun h => ?_)
        obtain ⟨-, B, hB, hin⟩ := (hone _).mp h
        exact Option.mem_unique hA hB ▸ hin
    | false =>
      rw [if_neg Bool.false_ne_true]
      refine ⟨acc, rfl, ⟨hnoval.symm, ?_, fun n hn => ?_, fun x hx => ?_⟩⟩
      · refine (or_iff_left fun h => ?_).symm
        exact Bool.false_ne_true (haddr.symm.trans ((hone _).mp h).2)
      · exact hn.resolve_right fun h => hnum n ((hone _).mp h)
      · refine hx.resolve_right fun h => ?_
        obtain ⟨-, B, hB, -⟩ := (hone _).mp h
        exact Bool.false_ne_true (haddr.symm.trans (isSome_iff_exists.mpr ⟨B, hB⟩))

/-- **The loop of a load** meets its assertions and collects. -/
theorem loadLoop_spec (addrs : List UInt32) : ∀ acc : Loaded,
    (∀ addr ∈ addrs, inLocToValTable globalES s (getInternalID addr) ∨
      inLocToAddrsTable globalES s (getInternalID addr) → isVirtualMemAddress addr) →
    ∃ out, addrs.foldlM (loadTarget globalES s) acc = some out ∧
      Collects globalES s acc out addrs := by
  induction addrs with
  | nil =>
    intro acc _
    refine ⟨acc, rfl, ⟨?_, ?_, ?_, ?_⟩⟩
    · exact (or_iff_left fun ⟨a, ha, _⟩ => absurd ha not_mem_nil).symm
    · exact (or_iff_left fun ⟨a, ha, _⟩ => absurd ha not_mem_nil).symm
    · exact fun n h => h.resolve_right fun ⟨a, ha, _⟩ => absurd ha not_mem_nil
    · exact fun x h => h.resolve_right fun ⟨a, ha, _⟩ => absurd ha not_mem_nil
  | cons addr addrs ih =>
    intro acc hvirtual
    obtain ⟨mid, hmid, hfirst⟩ := loadTarget_spec acc addr (hvirtual addr mem_cons_self)
    obtain ⟨out, hout, hrest⟩ := ih mid (forall_mem_cons.mp hvirtual).2
    refine ⟨out, ?_, hfirst.cons hrest⟩
    rw [foldlM_cons, hmid]
    exact hout

/-- The addresses that a load leaves out, as some target is bound to an interval, are among those
    of the loaded variable. -/
def LoadCovers (globalES s : IntervalExeState) (lhs rhs : UInt32) : Prop :=
  (∃ addr ∈ (getAddrs globalES s rhs).1,
    inLocToValTable globalES s (getInternalID addr) = true) →
  ∀ addr ∈ (getAddrs globalES s rhs).1, ∀ x,
    .ptr x ∈ locValues globalES s (getInternalID addr) → .ptr x ∈ varValues globalES s lhs

/-- A state after a load: nothing but the loaded variable has changed. -/
structure Framed (globalES s : IntervalExeState) (lhs : UInt32)
    (out : IntervalExeState × IntervalExeState) : Prop where
  vars : ∀ id, id ≠ lhs → varValues out.1 out.2 id = varValues globalES s id
  mem : ∀ id, locValues out.1 out.2 id = locValues globalES s id

section

variable (globalES s : IntervalExeState)

section

variable (lhs : UInt32)

theorem num_mem_assignVal (val : IntervalValue) (id : UInt32) (n : ℤ) :
    .num n ∈ varValues (assignVal globalES s lhs val).1 (assignVal globalES s lhs val).2 id ↔
      if id = lhs then val.contains n = true else .num n ∈ varValues globalES s id := by
  have hread := readTables_assign globalES.varToItvVal s.varToItvVal lhs val id
  rw [varValues, num_mem_allowed, assignVal, hread]
  by_cases hid : id = lhs
  · rw [if_pos hid, if_pos hid]
    exact ⟨fun ⟨w, hw, hn⟩ => Option.some.inj hw ▸ hn, fun hn => ⟨val, rfl, hn⟩⟩
  · rw [if_neg hid, if_neg hid]
    exact .rfl

theorem ptr_mem_assignAddrs (addrs : Addrs) (id x : UInt32) :
    .ptr x ∈ varValues (assignAddrs globalES s lhs addrs).1 (assignAddrs globalES s lhs addrs).2 id ↔
      if id = lhs then x ∈ addrs else .ptr x ∈ varValues globalES s id := by
  have hread := readTables_assign globalES.varToAddrs s.varToAddrs lhs addrs id
  rw [varValues, ptr_mem_allowed, assignAddrs, hread]
  by_cases hid : id = lhs
  · rw [if_pos hid, if_pos hid]
    exact ⟨fun ⟨w, hw, hx⟩ => Option.some.inj hw ▸ hx, fun hx => ⟨addrs, rfl, hx⟩⟩
  · rw [if_neg hid, if_neg hid]
    exact .rfl

theorem framed_assignVal (val : IntervalValue) :
    Framed globalES s lhs (assignVal globalES s lhs val) := by
  refine ⟨fun id hid => Set.ext fun v => ?_, fun id => rfl⟩
  cases v with
  | num n => rw [num_mem_assignVal, if_neg hid]
  | ptr x => exact .rfl

theorem framed_assignAddrs (addrs : Addrs) :
    Framed globalES s lhs (assignAddrs globalES s lhs addrs) := by
  refine ⟨fun id hid => Set.ext fun v => ?_, fun id => rfl⟩
  cases v with
  | num n => exact .rfl
  | ptr x => rw [ptr_mem_assignAddrs, if_neg hid]

end

end

/-- The state in which nothing holds a value but a pointer and its object. -/
def pointing (rhs addr : UInt32) (v : Value) : Concrete where
  var := update (fun _ => none) rhs (some (.ptr addr))
  mem := update (fun _ => none) (getInternalID addr) (some v)

theorem Framed.sound_iff {out : IntervalExeState × IntervalExeState}
    (h : Framed globalES s lhs out) : Sound (LoadStep lhs rhs) globalES s out ↔
      ∀ addr ∈ (getAddrs globalES s rhs).1, ∀ v ∈ locValues globalES s (getInternalID addr),
        v ∈ varValues out.1 out.2 lhs := by
  constructor
  · intro hsound addr ha v hv
    have hrepr : Represents globalES s (pointing rhs addr v) := by
      constructor
      · intro id w hw
        have hw' : update (fun _ => none) rhs (some (.ptr addr)) id = some w := hw
        rcases update_eq_some.mp hw' with ⟨rfl, rfl⟩ | ⟨-, hw⟩
        · exact ptr_mem_varValues.mpr ha
        · cases hw.symm
      · intro id w hw
        have hw' : update (fun _ => none) (getInternalID addr) (some v) id = some w := hw
        rcases update_eq_some.mp hw' with ⟨rfl, rfl⟩ | ⟨-, hw⟩
        · exact hv
        · cases hw.symm
    have hvar : update (fun _ => none) rhs (some (Value.ptr addr)) rhs =
        some (.ptr addr) := update_self ..
    have hmem : update (fun _ => none) (getInternalID addr) (some v) (getInternalID addr) =
        some v := update_self ..
    have hstep : LoadStep lhs rhs (pointing rhs addr v) _ := ⟨addr, v, hvar, hmem, rfl⟩
    exact (hsound _ _ hrepr hstep).var lhs v (update_eq_some.mpr (.inl ⟨rfl, rfl⟩))
  · rintro hall c c' hc ⟨addr, v, hrhs, hmem, rfl⟩
    have ha := ptr_mem_varValues.mp (hc.var rhs _ hrhs)
    refine ⟨fun id w hw => ?_, fun id w hw => (h.mem id).symm ▸ hc.mem id w hw⟩
    rcases update_eq_some.mp hw with ⟨rfl, rfl⟩ | ⟨hid, hw⟩
    · exact hall addr ha v (hc.mem _ v hmem)
    · exact (h.vars id hid).symm ▸ hc.var id w hw

/-- **A load** is sound exactly where the addresses that it leaves out are no new ones. -/
theorem loadSound_iff (it : Iteration) (h : LoadAsserts globalES s rhs) :
    ∃ out, translateLoad it globalES s lhs rhs = some out ∧
      (Sound (LoadStep lhs rhs) globalES s out ↔ LoadCovers globalES s lhs rhs) := by
  rw [translateLoad]
  by_cases hb : inVarToAddrsTable globalES s rhs
  · rw [if_pos hb, if_neg (h.targets hb)]
    obtain ⟨acc, hacc, hcol⟩ := loadLoop_spec (it.order (getAddrs globalES s rhs).1)
      ⟨IntervalValue.bottom, ∅, false, false⟩ fun a ha => h.virtual a (it.mem_order.mp ha)
    rw [hacc, map_some]
    refine ⟨_, rfl, ?_⟩
    have hitv : ∀ addr ∈ (getAddrs globalES s rhs).1, ∀ n,
        .num n ∈ locValues globalES s (getInternalID addr) → acc.rhsItv.contains n :=
      fun addr ha n hn => hcol.itv n (.inr ⟨addr, it.mem_order.mpr ha, hn⟩)
    have hval : acc.isVal ↔ ∃ addr ∈ (getAddrs globalES s rhs).1,
        inLocToValTable globalES s (getInternalID addr) := by
      rw [hcol.isVal, or_iff_right Bool.false_ne_true]
      simp only [it.mem_order]
    cases hv : acc.isVal with
    | true =>
      rw [if_pos rfl, (framed_assignVal globalES s lhs acc.rhsItv).sound_iff]
      constructor
      · exact fun hall _ addr ha x hx => hall addr ha _ hx
      · intro hcov addr ha v hin
        cases v with
        | num n =>
          rw [num_mem_assignVal, if_pos rfl]
          exact hitv addr ha n hin
        | ptr x => exact hcov (hval.mp hv) addr ha x hin
    | false =>
      have hno : ∀ addr ∈ (getAddrs globalES s rhs).1,
          inLocToValTable globalES s (getInternalID addr) = false := fun addr ha =>
        Bool.eq_false_iff.mpr fun hin =>
          Bool.false_ne_true (hv.symm.trans (hval.mpr ⟨addr, ha, hin⟩))
      have hptr : ∀ addr ∈ (getAddrs globalES s rhs).1, ∀ v,
          v ∈ locValues globalES s (getInternalID addr) → ∃ x, v = .ptr x ∧ x ∈ acc.rhsAddr := by
        intro addr ha v hin
        cases v with
        | num n =>
          obtain ⟨w, hw, -⟩ := hin
          exact absurd ((hno addr ha).symm.trans (isSome_iff_exists.mpr ⟨w, hw⟩)) Bool.false_ne_true
        | ptr x => exact ⟨x, rfl, hcol.addr x (.inr ⟨addr, it.mem_order.mpr ha, hno addr ha, hin⟩)⟩
      rw [if_neg Bool.false_ne_true]
      refine iff_of_true ?_ fun ⟨addr, ha, hin⟩ =>
        absurd ((hno addr ha).symm.trans hin) Bool.false_ne_true
      cases haddr : acc.isAddr with
      | true =>
        rw [if_pos rfl, (framed_assignAddrs globalES s lhs acc.rhsAddr).sound_iff]
        intro addr ha v hin
        obtain ⟨x, rfl, hx⟩ := hptr addr ha v hin
        rw [ptr_mem_assignAddrs, if_pos rfl]
        exact hx
      | false =>
        have hframed : Framed globalES s lhs (globalES, s) := ⟨fun _ _ => rfl, fun _ => rfl⟩
        rw [if_neg Bool.false_ne_true, hframed.sound_iff]
        intro addr ha v hin
        obtain ⟨x, rfl, -⟩ := hptr addr ha v hin
        obtain ⟨A, hA, -⟩ := hin
        have hbound : acc.isAddr := hcol.isAddr.mpr (.inr
          ⟨addr, it.mem_order.mpr ha, hno addr ha, isSome_iff_exists.mpr ⟨A, hA⟩⟩)
        cases haddr.symm.trans hbound
  · rw [if_neg hb]
    have hempty : ∀ addr, addr ∉ (getAddrs globalES s rhs).1 := fun addr ha =>
      hb (bound_of_mem_getAddrs ha)
    refine ⟨_, rfl, iff_of_true ?_ fun ⟨addr, ha, _⟩ => absurd ha (hempty addr)⟩
    rintro c c' hc ⟨addr, v, hrhs, -, -⟩
    exact absurd (ptr_mem_varValues.mp (hc.var rhs _ hrhs)) (hempty addr)

/-- **Stores and loads** meet their assertions, and are sound exactly where the store loses
    nothing that a target held, and where the load leaves out no new address. -/
theorem transfer_sound_iff (it : Iteration) {p q x y : UInt32}
    (hs : StoreBound globalES s p q → StoreAsserts globalES s p q)
    (hl : LoadAsserts globalES s y) :
    (∃ out, translateStore it globalES s p q = some out ∧
      (Sound (StoreStep p q) globalES s (globalES, out) ↔ StoreKeeps globalES s p q)) ∧
    ∃ out, translateLoad it globalES s x y = some out ∧
      (Sound (LoadStep x y) globalES s out ↔ LoadCovers globalES s x y) :=
  ⟨storeSound_iff it hs, loadSound_iff it hl⟩

/-- The addresses in increasing order. -/
def sorted : Iteration := ⟨fun addrs => addrs.sort (· ≤ ·), fun {_ _} => Finset.mem_sort _⟩

/-- The state in which nothing is bound. -/
def unbound : IntervalExeState := ⟨∅, ∅, ∅, ∅⟩

/-- Variable `1` points to some objects, variable `2` is one and object `4` is zero. -/
def pointingTo (addrs : Addrs) : IntervalExeState where
  varToItvVal := (∅ : Table UInt32 IntervalValue).insert 2 ⟨numeral 1, numeral 1⟩
  locToItvVal := (∅ : Table UInt32 IntervalValue).insert 4 ⟨numeral 0, numeral 0⟩
  varToAddrs := (∅ : Table UInt32 Addrs).insert 1 addrs
  locToAddrs := ∅

theorem getAddrs_pointingTo (addrs : Addrs) : (getAddrs unbound (pointingTo addrs) 1).1 = addrs := by
  rw [getAddrs_value, pointingTo, AList.lookup_insert, getD_some]

theorem storeAsserts_pointingTo {addrs : Addrs} (hne : addrs ≠ ∅)
    (h : ∀ addr ∈ addrs, isVirtualMemAddress addr) :
    StoreAsserts unbound (pointingTo addrs) 1 2 :=
  ⟨by rwa [getAddrs_pointingTo], by rwa [getAddrs_pointingTo], .inl rfl⟩

theorem transfer_sound_single :
    ∃ out, translateStore sorted unbound (pointingTo {0x7f000004}) 1 2 = some out ∧
      Sound (StoreStep 1 2) unbound (pointingTo {0x7f000004}) (unbound, out) := by
  have hvirtual : ∀ addr ∈ ({0x7f000004} : Addrs), isVirtualMemAddress addr := by
    intro addr ha
    rw [Finset.mem_singleton.mp ha]
    decide +kernel
  have hl : LoadAsserts unbound (pointingTo {0x7f000004}) 1 :=
    ⟨fun _ => by rw [getAddrs_pointingTo]; exact Finset.singleton_ne_empty _, fun addr ha _ => by
      rw [getAddrs_pointingTo] at ha
      exact hvirtual addr ha⟩
  obtain ⟨out, hout, hiff⟩ := (transfer_sound_iff sorted (x := 3)
    (fun _ => storeAsserts_pointingTo (Finset.singleton_ne_empty _) hvirtual) hl).1
  refine ⟨out, hout, hiff.mpr fun addr v ht hv _ => ⟨fun hrep => ?_, fun other ho hne => ?_⟩⟩
  · cases v with
    | num n => cases hrep.symm.trans rfl
    | ptr x =>
      obtain ⟨A, hA, -⟩ := hv
      cases hA.symm
  · have ha := ht.1
    have ho' := ho.1
    rw [getAddrs_pointingTo, Finset.mem_singleton] at ha ho'
    exact absurd (congrArg getInternalID (ho'.trans ha.symm)) hne

/-- A store of one through a pointer to two objects: both are one after it, although only one
    of them has been written. -/
theorem store_loses_old_value :
    ∃ out, translateStore sorted unbound (pointingTo {0x7f000003, 0x7f000004}) 1 2 = some out ∧
      ¬ Sound (StoreStep 1 2) unbound (pointingTo {0x7f000003, 0x7f000004}) (unbound, out) := by
  have hvirtual : ∀ addr ∈ ({0x7f000003, 0x7f000004} : Addrs), isVirtualMemAddress addr := by
    intro addr ha
    rcases Finset.mem_insert.mp ha with h | h
    · rw [h]
      decide +kernel
    · rw [Finset.mem_singleton.mp h]
      decide +kernel
  obtain ⟨out, hout, hiff⟩ := storeSound_iff sorted
    fun _ => storeAsserts_pointingTo (Finset.insert_ne_empty _ _) hvirtual
  refine ⟨out, hout, fun hsound => ?_⟩
  have hfirst : Target unbound (pointingTo {0x7f000003, 0x7f000004}) 1 0x7f000003 :=
    ⟨getAddrs_pointingTo _ ▸ Finset.mem_insert_self .., by decide +kernel⟩
  have hsecond : Target unbound (pointingTo {0x7f000003, 0x7f000004}) 1 0x7f000004 :=
    ⟨getAddrs_pointingTo _ ▸ Finset.mem_insert_of_mem (Finset.mem_singleton_self _),
      by decide +kernel⟩
  have hone : .num 1 ∈ varValues unbound (pointingTo {0x7f000003, 0x7f000004}) 2 :=
    ⟨⟨numeral 1, numeral 1⟩, rfl, rfl⟩
  have hid : getInternalID 0x7f000004 = 4 := by decide +kernel
  have hold : .num 0 ∈ locValues unbound (pointingTo {0x7f000003, 0x7f000004})
      (getInternalID 0x7f000004) := by
    rw [hid]
    exact ⟨⟨numeral 0, numeral 0⟩, rfl, rfl⟩
  have hother := (hiff.mp hsound _ _ hfirst hone nofun).2
  obtain ⟨itv, hitv, hzero⟩ := hother _ hsecond (by decide +kernel) _ hold rfl
  obtain rfl : ⟨numeral 1, numeral 1⟩ = itv := Option.some.inj hitv
  cases hzero

end IntervalExeState

end SvfInterval
