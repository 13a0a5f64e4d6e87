import SvfModel.StoreLoadProofs

/-!
# `SVFIR2ItvExeState`: what is loaded after some stores

A store replaces the binding of its kind in a location and leaves the other one, and a load asks
for an interval first. So after stores through pointers with one target the location of a load
has, of each kind, what the last store of that kind has left there (`runStores_spec`), and the
last store wins exactly if it has stored an interval, or if no interval was bound before to the
location or to the loaded variable, whose interval is asked for first as well
(**`lastStore_wins_iff`**).
-/

namespace SvfInterval

open List

namespace IntervalExeState

/-- What is read from a variable. -/
inductive Operand
  | itv (v : IntervalValue)
  | addrs (A : Addrs)
deriving DecidableEq

/-- The kind and the value of a variable, as the transfer functions ask for them. -/
def operand (globalES s : IntervalExeState) (id : UInt32) : Option Operand :=
  if inVarToValTable globalES s id then some (.itv (subscript globalES s id).1)
  else if inVarToAddrsTable globalES s id then some (.addrs (getAddrs globalES s id).1)
  else none

/-- Two of one kind, with the same numbers or addresses. -/
def Operand.Same : Option Operand → Option Operand → Prop
  | some (.itv v), some (.itv w) => ∀ n, v.contains n = true ↔ w.contains n = true
  | some (.addrs A), some (.addrs B) => A = B
  | _, _ => False

structure StoreOp where
  lhs : UInt32
  rhs : UInt32

def runStores (it : Iteration) (globalES s : IntervalExeState) (ops : List StoreOp) :
    Option IntervalExeState :=
  ops.foldlM (fun es op => translateStore it globalES es op.lhs op.rhs) s

/-- A store through a pointer with a single target. The rest is what is asserted. -/
structure Single (globalES s : IntervalExeState) (op : StoreOp) (addr : UInt32) : Prop where
  target : (getAddrs globalES s op.lhs).1 = {addr}
  virtual : isVirtualMemAddress addr = true
  stored : inVarToValTable globalES s op.rhs = true ∨ (getAddrs globalES s op.rhs).1 ≠ ∅

section

variable (globalES s : IntervalExeState)

def writes (o : UInt32) (op : StoreOp) : Bool :=
  decide (∃ addr ∈ (getAddrs globalES s op.lhs).1, isNullPtr addr = false ∧ getInternalID addr = o)

/-- The bindings of a location. -/
def cell (o : UInt32) : Option IntervalValue × Option Addrs :=
  (readTables globalES.locToItvVal s.locToItvVal o, readTables globalES.locToAddrs s.locToAddrs o)

/-- What a store does to the bindings of a location. -/
def storeCell (o : UInt32) (c : Option IntervalValue × Option Addrs)
    (op : StoreOp) : Option IntervalValue × Option Addrs :=
  if writes globalES s o op then
    if inVarToValTable globalES s op.rhs then (some (subscript globalES s op.rhs).1, c.2)
    else (c.1, some (getAddrs globalES s op.rhs).1)
  else c

end

/-- The variables are bound as before. -/
def SameVars (s es : IntervalExeState) : Prop :=
  es.varToItvVal = s.varToItvVal ∧ es.varToAddrs = s.varToAddrs

variable (it : Iteration) {globalES s es : IntervalExeState} {op : StoreOp} {addr o : UInt32}

/-- **One store** changes the locations that it writes. -/
theorem translateStore_single (hs : SameVars s es) (h : Single globalES s op addr) :
    ∃ out, translateStore it globalES es op.lhs op.rhs = some out ∧ SameVars s out ∧
      ∀ o, cell globalES out o = storeCell globalES s o (cell globalES es o) op := by
  obtain ⟨hitv, haddrs⟩ := hs
  have hval : ∀ id, inVarToValTable globalES es id = inVarToValTable globalES s id := fun id => by
    rw [inVarToValTable, hitv, inVarToValTable]
  have hsub : ∀ id, (subscript globalES es id).1 = (subscript globalES s id).1 := fun id => by
    rw [subscript_eq, hitv, subscript_eq]
  have hget : ∀ id, (getAddrs globalES es id).1 = (getAddrs globalES s id).1 := fun id => by
    rw [getAddrs_eq, haddrs, getAddrs_eq]
  have hlhs : inVarToAddrsTable globalES es op.lhs :=
    bound_of_mem_getAddrs (hget op.lhs ▸ h.target ▸ Finset.mem_singleton_self addr)
  have horder : ∀ a ∈ it.order (getAddrs globalES s op.lhs).1, isVirtualMemAddress a := by
    intro a ha
    rw [it.mem_order, h.target, Finset.mem_singleton] at ha
    exact ha ▸ h.virtual
  have hwrites : ∀ o, writes globalES s o op ↔
      ∃ a ∈ it.order (getAddrs globalES s op.lhs).1, isNullPtr a = false ∧ getInternalID a = o := by
    intro o
    rw [writes, decide_eq_true_eq]
    simp only [it.mem_order]
  have hne : (getAddrs globalES s op.lhs).1 ≠ ∅ := h.target ▸ Finset.singleton_ne_empty addr
  rw [translateStore, if_pos hlhs, hval, hget]
  cases hkind : inVarToValTable globalES s op.rhs with
  | true =>
    rw [if_pos rfl, if_neg hne, storeLoop_eq globalES es op.rhs _ horder, hsub]
    refine ⟨_, rfl, ⟨hitv, haddrs⟩, fun o => ?_⟩
    obtain ⟨hin, hout⟩ := readTables_writeCells globalES.locToItvVal es.locToItvVal
      (it.order (getAddrs globalES s op.lhs).1) (subscript globalES s op.rhs).1 o
    rw [storeCell, hkind, if_pos rfl]
    by_cases hw : writes globalES s o op
    · rw [if_pos hw, cell, hin ((hwrites o).mp hw), cell]
    · rw [if_neg hw, cell, hout (mt (hwrites o).mpr hw), cell]
  | false =>
    have hstored := h.stored.resolve_left (hkind ▸ Bool.false_ne_true)
    obtain ⟨a, ha⟩ := Finset.nonempty_iff_ne_empty.mpr hstored
    have hrhs : inVarToAddrsTable globalES es op.rhs := bound_of_mem_getAddrs (hget op.rhs ▸ ha)
    rw [if_neg Bool.false_ne_true, if_pos hrhs, if_neg hne,
      storeAddrsLoop_eq globalES es op.rhs _ horder (hget op.rhs ▸ hstored), hget]
    refine ⟨_, rfl, ⟨hitv, haddrs⟩, fun o => ?_⟩
    obtain ⟨hin, hout⟩ := readTables_writeCells globalES.locToAddrs es.locToAddrs
      (it.order (getAddrs globalES s op.lhs).1) (getAddrs globalES s op.rhs).1 o
    rw [storeCell, hkind, if_neg Bool.false_ne_true]
    by_cases hw : writes globalES s o op
    · rw [if_pos hw, cell, hin ((hwrites o).mp hw), cell]
    · rw [if_neg hw, cell, hout (mt (hwrites o).mpr hw), cell]

/-- **The run of the stores.** -/
theorem runStores_spec : ∀ (ops : List StoreOp) {es : IntervalExeState}, SameVars s es →
    (∀ op ∈ ops, ∃ addr, Single globalES s op addr) →
    ∃ out, runStores it globalES es ops = some out ∧ SameVars s out ∧
      ∀ o, cell globalES out o = ops.foldl (storeCell globalES s o) (cell globalES es o) := by
  intro ops
  induction ops with
  | nil => exact fun hs _ => ⟨_, rfl, hs, fun _ => rfl⟩
  | cons op ops ih =>
    intro es hs hops
    obtain ⟨addr, hop⟩ := hops op mem_cons_self
    obtain ⟨mid, hmid, hsame, hcell⟩ := translateStore_single it hs hop
    obtain ⟨out, hout, hsame', hcells⟩ := ih hsame (forall_mem_cons.mp hops).2
    refine ⟨out, ?_, hsame', fun o => ?_⟩
    · rw [runStores, foldlM_cons, hmid]
      exact hout
    · rw [hcells, hcell, foldl_cons]

theorem foldl_storeCell_of_not_writes : ∀ (ops : List StoreOp)
    (c : Option IntervalValue × Option Addrs), (∀ op ∈ ops, ¬ writes globalES s o op) →
    ops.foldl (storeCell globalES s o) c = c := by
  intro ops
  induction ops with
  | nil => exact fun c _ => rfl
  | cons op ops ih =>
    intro c h
    rw [foldl_cons, storeCell, if_neg (h op mem_cons_self)]
    exact ih c (forall_mem_cons.mp h).2

/-- An interval stays until the end of the stores. -/
theorem isSome_foldl_storeCell : ∀ (ops : List StoreOp) (c : Option IntervalValue × Option Addrs),
    (ops.foldl (storeCell globalES s o) c).1.isSome ↔ c.1.isSome ∨
      ∃ op ∈ ops, writes globalES s o op ∧ inVarToValTable globalES s op.rhs := by
  intro ops
  induction ops with
  | nil => exact fun c => (or_iff_left fun ⟨_, h, _⟩ => absurd h not_mem_nil).symm
  | cons op ops ih =>
    intro c
    simp only [foldl_cons, ih, mem_cons, exists_eq_or_imp, ← or_assoc]
    refine or_congr_left ?_
    rw [storeCell]
    split_ifs with hw hkind
    · exact iff_of_true rfl (.inr ⟨hw, hkind⟩)
    · exact (or_iff_left fun h => hkind h.2).symm
    · exact (or_iff_left fun h => hw h.1).symm

-- ── The load

theorem bottom_join_with (v : IntervalValue) :
    IntervalValue.bottom.join_with v = if v.isBottom then IntervalValue.bottom else v := by
  rw [IntervalValue.join_with, if_pos (show IntervalValue.bottom.isBottom = true from rfl)]

theorem contains_bottom_join (v : IntervalValue) (n : ℤ) :
    (IntervalValue.bottom.join_with v).contains n ↔ v.contains n := by
  rw [bottom_join_with]
  split_ifs with hv
  · exact iff_of_false (IntervalValue.not_contains_of_isBottom rfl)
      (IntervalValue.not_contains_of_isBottom hv)
  · exact .rfl

theorem bottom_join_twice (v : IntervalValue) :
    (IntervalValue.bottom.join_with v).join_with v = IntervalValue.bottom.join_with v := by
  have hself : ∀ a : NumericLiteral, NumericLiteral.min a a = a ∧ NumericLiteral.max a a = a :=
    fun a => ⟨ite_self _, ite_self _⟩
  rw [bottom_join_with]
  split_ifs with hv
  · rw [bottom_join_with, if_pos hv]
  · rw [IntervalValue.join_with, if_neg hv, if_neg hv, (hself _).1, (hself _).2]

theorem foldlM_same {A B : Type} {f : B → A → Option B} {a : A} {b r : B} (hf : f b a = some r)
    (hr : f r a = some r) : ∀ l : List A, l ≠ [] → (∀ x ∈ l, x = a) → l.foldlM f b = some r := by
  have hrest : ∀ l : List A, (∀ x ∈ l, x = a) → l.foldlM f r = some r := by
    intro l
    induction l with
    | nil => exact fun _ => rfl
    | cons x l ih =>
      intro hl
      rw [foldlM_cons, hl x mem_cons_self, hr]
      exact ih (forall_mem_cons.mp hl).2
  intro l hne hl
  cases l with
  | nil => exact absurd rfl hne
  | cons x l =>
    rw [foldlM_cons, hl x mem_cons_self, hf]
    exact hrest l (forall_mem_cons.mp hl).2

section Load

variable {it} {ptr dest a : UInt32} (hptr : (getAddrs globalES es ptr).1 = {a})
  (hvirtual : isVirtualMemAddress a = true)
include hptr

theorem translateLoad_single {r : Loaded}
    (hf : loadTarget globalES es ⟨IntervalValue.bottom, ∅, false, false⟩ a = some r)
    (hr : loadTarget globalES es r a = some r) : translateLoad it globalES es dest ptr =
      some (if r.isVal then assignVal globalES es dest r.rhsItv
        else if r.isAddr then assignAddrs globalES es dest r.rhsAddr else (globalES, es)) := by
  have hmem : ∀ x, x ∈ it.order (getAddrs globalES es ptr).1 ↔ x = a := fun x => by
    rw [it.mem_order, hptr, Finset.mem_singleton]
  have hbound : inVarToAddrsTable globalES es ptr :=
    bound_of_mem_getAddrs (hptr ▸ Finset.mem_singleton_self a)
  rw [translateLoad, if_pos hbound, if_neg (hptr ▸ Finset.singleton_ne_empty a),
    foldlM_same hf hr _ (ne_nil_of_mem ((hmem a).mpr rfl)) fun x hx => (hmem x).mp hx]
  rfl

include hvirtual

theorem translateLoad_itv {v : IntervalValue} (hv : (cell globalES es (getInternalID a)).1 = some v) :
    translateLoad it globalES es dest ptr =
      some (assignVal globalES es dest (IntervalValue.bottom.join_with v)) := by
  have hbound : inLocToValTable globalES es (getInternalID a) :=
    Option.isSome_iff_exists.mpr ⟨v, hv⟩
  have hread : (getLocVal globalES es (getInternalID a)).1 = v := by
    have hv : readTables globalES.locToItvVal es.locToItvVal (getInternalID a) = some v := hv
    rw [getLocVal_eq, hv, Option.getD_some]
  have hstep : ∀ acc, loadTarget globalES es acc a =
      some { acc with rhsItv := acc.rhsItv.join_with v, isVal := true } := fun acc => by
    rw [loadTarget, if_pos hbound, load, if_pos hvirtual, Option.map_some, hread]
  rw [translateLoad_single hptr (hstep _) (by rw [hstep, bottom_join_twice])]
  rfl

theorem translateLoad_addrs {A : Addrs} (hnone : (cell globalES es (getInternalID a)).1 = none)
    (hA : (cell globalES es (getInternalID a)).2 = some A) :
    translateLoad it globalES es dest ptr = some (assignAddrs globalES es dest A) := by
  have hfree : ¬ inLocToValTable globalES es (getInternalID a) := fun h =>
    absurd (Option.isSome_iff_ne_none.mp h) (not_not_intro hnone)
  have hbound : inLocToAddrsTable globalES es (getInternalID a) :=
    Option.isSome_iff_exists.mpr ⟨A, hA⟩
  have hread : (getLocAddrs globalES es (getInternalID a)).1 = A := by
    have hA : readTables globalES.locToAddrs es.locToAddrs (getInternalID a) = some A := hA
    rw [getLocAddrs_eq, hA, Option.getD_some]
  have hstep : ∀ acc, loadTarget globalES es acc a =
      some { acc with rhsAddr := acc.rhsAddr ∪ A, isAddr := true } := fun acc => by
    rw [loadTarget, if_neg hfree, if_pos hbound, loadAddrs, if_pos hvirtual, Option.map_some, hread]
  rw [translateLoad_single hptr (hstep _) (by rw [hstep, Finset.union_assoc, Finset.union_self])]
  exact congrArg (fun B => some (assignAddrs globalES es dest B)) (Finset.empty_union A)

end Load

theorem operand_assignVal (globalES s : IntervalExeState) (id : UInt32) (v : IntervalValue) :
    operand (assignVal globalES s id v).1 (assignVal globalES s id v).2 id = some (.itv v) := by
  have hread : readTables (assignVal globalES s id v).1.varToItvVal
      (assignVal globalES s id v).2.varToItvVal id = some v :=
    (readTables_assign _ _ id v id).trans (if_pos rfl)
  rw [operand, inVarToValTable, hread, subscript_eq, hread]
  rfl

theorem operand_assignAddrs (globalES s : IntervalExeState) (id : UInt32) (A : Addrs) :
    operand (assignAddrs globalES s id A).1 (assignAddrs globalES s id A).2 id =
      if inVarToValTable globalES s id then some (.itv (subscript globalES s id).1)
      else some (.addrs A) := by
  have hread : readTables (assignAddrs globalES s id A).1.varToAddrs
      (assignAddrs globalES s id A).2.varToAddrs id = some A :=
    (readTables_assign _ _ id A id).trans (if_pos rfl)
  rw [operand, inVarToAddrsTable, hread, getAddrs_eq, hread, subscript_eq, subscript_eq]
  rfl

/-- The last store of `op`, after those of `pre`, is an interval, or neither the location nor
    the loaded variable has been bound to one. -/
def Wins (globalES s : IntervalExeState) (o dest : UInt32) (pre : List StoreOp) (op : StoreOp) :
    Prop :=
  inVarToValTable globalES s op.rhs = true ∨
    inVarToValTable globalES s dest = false ∧ inLocToValTable globalES s o = false ∧
      ∀ op' ∈ pre, writes globalES s o op' = true → inVarToValTable globalES s op'.rhs = false

/-- The stores and the load have gone through, and every last store of the location is loaded
    exactly if it wins. -/
def LoadsLast (it : Iteration) (globalES s : IntervalExeState) (ops : List StoreOp)
    (a ptr dest : UInt32) : Prop :=
  ∃ es out, runStores it globalES s ops = some es ∧ translateLoad it globalES es dest ptr = some out ∧
    ∀ pre op post, ops = pre ++ op :: post → writes globalES s (getInternalID a) op = true →
      (∀ op' ∈ post, ¬ writes globalES s (getInternalID a) op' = true) →
      (Operand.Same (operand out.1 out.2 dest) (operand globalES s op.rhs) ↔
        Wins globalES s (getInternalID a) dest pre op)

theorem operand_of_addrs {id : UInt32} (hval : inVarToValTable globalES s id = false)
    (hne : (getAddrs globalES s id).1 ≠ ∅) :
    operand globalES s id = some (.addrs (getAddrs globalES s id).1) := by
  obtain ⟨x, hx⟩ := Finset.nonempty_iff_ne_empty.mpr hne
  rw [operand, hval, if_neg Bool.false_ne_true, if_pos (bound_of_mem_getAddrs hx)]

theorem foldl_storeCell_last {pre post : List StoreOp} (c : Option IntervalValue × Option Addrs)
    (hpost : ∀ op' ∈ post, ¬ writes globalES s o op') :
    (pre ++ op :: post).foldl (storeCell globalES s o) c =
      storeCell globalES s o (pre.foldl (storeCell globalES s o) c) op := by
  rw [foldl_append, foldl_cons, foldl_storeCell_of_not_writes post _ hpost]

/-- **The last store** through pointers with one target is what a load gives, its kind and its
    value, exactly if it has stored an interval or no interval is in its way. -/
theorem lastStore_wins_iff (it : Iteration) (globalES s : IntervalExeState) (ops : List StoreOp)
    (a ptr dest : UInt32) (hops : ∀ op ∈ ops, ∃ addr, Single globalES s op addr)
    (hptr : (getAddrs globalES s ptr).1 = {a}) (hvirtual : isVirtualMemAddress a = true) :
    LoadsLast it globalES s ops a ptr dest := by
  obtain ⟨es, hes, hsame, hcells⟩ := runStores_spec it ops ⟨rfl, rfl⟩ hops
  have hcell := hcells (getInternalID a)
  have hptr' : (getAddrs globalES es ptr).1 = {a} := by
    rw [getAddrs_eq, hsame.2, ← getAddrs_eq, hptr]
  have hdest : inVarToValTable globalES es dest = inVarToValTable globalES s dest := by
    rw [inVarToValTable, hsame.1, inVarToValTable]
  cases hitv : (cell globalES es (getInternalID a)).1 with
  | some v =>
    refine ⟨es, _, hes, translateLoad_itv hptr' hvirtual hitv, fun pre op post heq hw hpost => ?_⟩
    rw [hcell, heq, foldl_storeCell_last _ hpost, storeCell, if_pos hw] at hitv
    rw [operand_assignVal]
    cases hkind : inVarToValTable globalES s op.rhs with
    | true =>
      rw [hkind, if_pos rfl] at hitv
      rw [operand, hkind, if_pos rfl, Option.some.inj hitv]
      exact iff_of_true (contains_bottom_join v) (.inl hkind)
    | false =>
      obtain ⟨addr, hop⟩ := hops op (heq ▸ mem_append_right pre mem_cons_self)
      rw [hkind, if_neg Bool.false_ne_true] at hitv
      rw [operand_of_addrs hkind (hop.stored.resolve_left (hkind ▸ Bool.false_ne_true))]
      refine iff_of_false id ?_
      rintro (h | ⟨-, hloc, hpre⟩)
      · exact Bool.false_ne_true (hkind.symm.trans h)
      · rcases (isSome_foldl_storeCell pre _).mp (Option.isSome_iff_exists.mpr ⟨v, hitv⟩) with
          h | ⟨op', hmem, hw', hkind'⟩
        · exact Bool.false_ne_true (hloc.symm.trans h)
        · exact Bool.false_ne_true ((hpre op' hmem hw').symm.trans hkind')
  | none =>
    cases haddrs : (cell globalES es (getInternalID a)).2 with
    | none =>
      have hstep : loadTarget globalES es ⟨IntervalValue.bottom, ∅, false, false⟩ a =
          some ⟨IntervalValue.bottom, ∅, false, false⟩ := by
        have hval : ¬ inLocToValTable globalES es (getInternalID a) := fun h =>
          absurd (Option.isSome_iff_ne_none.mp h) (not_not_intro hitv)
        have haddr : ¬ inLocToAddrsTable globalES es (getInternalID a) := fun h =>
          absurd (Option.isSome_iff_ne_none.mp h) (not_not_intro haddrs)
        rw [loadTarget, if_neg hval, if_neg haddr]
      refine ⟨es, _, hes, translateLoad_single hptr' hstep hstep, fun pre op post heq hw hpost => ?_⟩
      rw [hcell, heq, foldl_storeCell_last _ hpost, storeCell, if_pos hw] at hitv haddrs
      split_ifs at hitv haddrs
    | some A =>
      refine ⟨es, _, hes, translateLoad_addrs hptr' hvirtual hitv haddrs,
        fun pre op post heq hw hpost => ?_⟩
      obtain ⟨addr, hop⟩ := hops op (heq ▸ mem_append_right pre mem_cons_self)
      rw [hcell, heq, foldl_storeCell_last _ hpost, storeCell, if_pos hw] at hitv haddrs
      cases hkind : inVarToValTable globalES s op.rhs with
      | true =>
        rw [hkind, if_pos rfl] at hitv
        cases hitv
      | false =>
        rw [hkind, if_neg Bool.false_ne_true] at hitv haddrs
        have hnone := mt (isSome_foldl_storeCell pre _).mpr
          (Option.isSome_iff_ne_none.not.mpr (not_not_intro hitv))
        rw [operand_assignAddrs, hdest, Wins, hkind, or_iff_right Bool.false_ne_true,
          operand_of_addrs hkind (hop.stored.resolve_left (hkind ▸ Bool.false_ne_true))]
        cases inVarToValTable globalES s dest with
        | true => exact iff_of_false id fun h => absurd h.1.symm Bool.false_ne_true
        | false =>
          refine iff_of_true (Option.some.inj haddrs).symm ⟨rfl, ?_, fun op' hmem hw' => ?_⟩
          · exact Bool.eq_false_iff.mpr fun h => hnone (.inl h)
          · exact Bool.eq_false_iff.mpr fun h => hnone (.inr ⟨op', hmem, hw', h⟩)

/-- Variable `1` points to object `4`, which is zero. -/
theorem single_pointingTo (rhs : UInt32)
    (h : inVarToValTable unbound (pointingTo {0x7f000004}) rhs ∨
      (getAddrs unbound (pointingTo {0x7f000004}) rhs).1 ≠ ∅) :
    Single unbound (pointingTo {0x7f000004}) ⟨1, rhs⟩ 0x7f000004 :=
  ⟨getAddrs_pointingTo _, by decide +kernel, h⟩

theorem lastStore_wins_number :
    LoadsLast sorted unbound (pointingTo {0x7f000004}) [⟨1, 2⟩] 0x7f000004 1 3 :=
  lastStore_wins_iff sorted unbound (pointingTo {0x7f000004}) [⟨1, 2⟩] 0x7f000004 1 3
    (fun op hop => ⟨0x7f000004, mem_singleton.mp hop ▸ single_pointingTo 2 (.inl rfl)⟩)
    (getAddrs_pointingTo _) (by decide +kernel)

/-- The address of the object is stored into it, but a load gives the number that it held. -/
theorem lastStore_hidden : ∃ es out,
    runStores sorted unbound (pointingTo {0x7f000004}) [⟨1, 1⟩] = some es ∧
      translateLoad sorted unbound es 3 1 = some out ∧
      ¬ Operand.Same (operand out.1 out.2 3) (operand unbound (pointingTo {0x7f000004}) 1) := by
  have hstored : (getAddrs unbound (pointingTo {0x7f000004}) 1).1 ≠ ∅ := by
    rw [getAddrs_pointingTo]
    exact Finset.singleton_ne_empty _
  have hops : ∀ op ∈ [⟨1, 1⟩], ∃ addr, Single unbound (pointingTo {0x7f000004}) op addr := fun op hop =>
    ⟨0x7f000004, mem_singleton.mp hop ▸ single_pointingTo 1 (.inr hstored)⟩
  obtain ⟨es, hes, hsame, hcell⟩ := runStores_spec sorted [⟨1, 1⟩] ⟨rfl, rfl⟩ hops
  have hid : getInternalID 0x7f000004 = 4 := by decide +kernel
  have hzero : (cell unbound es (getInternalID 0x7f000004)).1 = some ⟨.numeral 0, .numeral 0⟩ := by
    rw [hcell, hid, foldl_cons, foldl_nil, storeCell]
    split_ifs with hw hval
    · exact absurd hval (by decide +kernel)
    · rfl
    · rfl
  have hptr : (getAddrs unbound es 1).1 = {0x7f000004} := by
    rw [getAddrs_eq, hsame.2, ← getAddrs_eq, getAddrs_pointingTo]
  refine ⟨es, _, hes, translateLoad_itv hptr (by decide +kernel) hzero, ?_⟩
  rw [operand_assignVal, operand_of_addrs (by decide +kernel) hstored]
  exact id

end IntervalExeState

end SvfInterval
