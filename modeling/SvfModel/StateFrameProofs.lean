import SvfModel.CastProofs
import SvfModel.FieldIndexProofs
import SvfModel.IntervalComparisonProofs
import SvfModel.IntervalShiftProofs

/-!
# Statements over one of two states

Every state has tables of its own, and all fall back to one global state. A statement assigns
to what an accessor returns: to the own binding of a variable, or else to the global one.

The heart is `translate_kept`: a statement never gives a state a binding of its own, and never
assigns a global binding over which the state has its own. So what another state reads of a
variable stays as it is if one of both has its own binding of it. A variable of which neither
has one is shared: the other state reads of it what the state of the statements reads
(**`translate_frame`**).
-/

namespace SvfStateFrame

open SvfInterval SvfFieldIndex IntervalExeState Option
open IntervalValue (Comparison)

-- ── Statements

inductive OpCode
  | Add | FAdd | Sub | FSub | Mul | FMul | UDiv | SDiv | FDiv | URem | SRem | FRem
  | Shl | LShr | AShr | And | Or | Xor

inductive Predicate
  | FCMP_FALSE | FCMP_OEQ | FCMP_OGT | FCMP_OGE | FCMP_OLT | FCMP_OLE | FCMP_ONE | FCMP_ORD
  | FCMP_UNO | FCMP_UEQ | FCMP_UGT | FCMP_UGE | FCMP_ULT | FCMP_ULE | FCMP_UNE | FCMP_TRUE
  | ICMP_EQ | ICMP_NE | ICMP_UGT | ICMP_UGE | ICMP_ULT | ICMP_ULE | ICMP_SGT | ICMP_SGE
  | ICMP_SLT | ICMP_SLE

inductive Statement
  | binary (opcode : OpCode) (op0 op1 res : UInt32)
  | cmp (predicate : Predicate) (op0 op1 res : UInt32)
  | load (lhs rhs : UInt32)
  | copy (lhsType : SVFType) (lhs rhs : UInt32)
  | gep (gep : GepStmt)
  | select (cond tval fval res : UInt32)
  | phi (ops : List UInt32) (res : UInt32)

-- ── The transfer functions

/-- The switch of `translateBinary`. -/
def OpCode.eval : OpCode → IntervalValue → IntervalValue → Option IntervalValue
  | Add | FAdd => IntervalValue.add
  | Sub | FSub => IntervalValue.sub
  | Mul | FMul => fun lhs rhs => some (lhs.mul rhs)
  | SDiv | FDiv | UDiv => IntervalValue.div
  | SRem | FRem | URem => IntervalValue.mod
  | Xor => IntervalValue.bxor
  | And => IntervalValue.band
  | Or => IntervalValue.bor
  | AShr | LShr => IntervalValue.shr
  | Shl => IntervalValue.shl

/-- The comparisons of both switches of `translateCmp`. -/
def Predicate.comparison : Predicate → Option Comparison
  | ICMP_EQ | FCMP_OEQ | FCMP_UEQ => some .eq
  | ICMP_NE | FCMP_ONE | FCMP_UNE => some .ne
  | ICMP_UGT | ICMP_SGT | FCMP_OGT | FCMP_UGT => some .gt
  | ICMP_UGE | ICMP_SGE | FCMP_OGE | FCMP_UGE => some .ge
  | ICMP_ULT | ICMP_SLT | FCMP_OLT | FCMP_ULT => some .lt
  | ICMP_ULE | ICMP_SLE | FCMP_OLE | FCMP_ULE => some .le
  | _ => none

/-- A switch of `translateCmp`, with an assertion in its default. -/
def Predicate.eval (compare : Comparison → IntervalValue) : Predicate → Option IntervalValue
  | FCMP_FALSE => some IntervalValue.isFalse
  | FCMP_TRUE => some IntervalValue.isTrue
  | predicate => predicate.comparison.map compare

def truth (b : Bool) : IntervalValue := if b then IntervalValue.isTrue else IntervalValue.isFalse

def compareAddr (a b : UInt32) : Comparison → Bool
  | .eq => a == b
  | .ne => a != b
  | .gt => b < a
  | .lt => a < b
  | .ge => b ≤ a
  | .le => a ≤ b

/-- The cases of the switch over addresses. -/
def compareAddrs (it : Iteration) (lhs rhs : Addrs) (c : Comparison) : IntervalValue :=
  match it.order lhs, it.order rhs with
  | a :: _, b :: _ =>
    if lhs.card = 1 ∧ rhs.card = 1 then truth (compareAddr a b c)
    else match c with
      | .eq => if lhs ∩ rhs ≠ ∅ then IntervalValue.top else IntervalValue.isFalse
      | .ne => if lhs ∩ rhs ≠ ∅ then IntervalValue.top else IntervalValue.isTrue
      | _ => IntervalValue.top
  | _, _ => IntervalValue.top

section Transfer

variable (it : Iteration) (globalES s : IntervalExeState)

def bindOperand (op : UInt32) : IntervalExeState × IntervalExeState :=
  if inVarToValTable globalES s op then (globalES, s) else assignVal globalES s op IntervalValue.top

def translateBinary (opcode : OpCode) (op0 op1 res : UInt32) :
    Option (IntervalExeState × IntervalExeState) :=
  let first := bindOperand globalES s op0
  let es := bindOperand first.1 first.2 op1
  if inVarToValTable es.1 es.2 op0 && inVarToValTable es.1 es.2 op1 then
    (opcode.eval (subscript es.1 es.2 op0).1 (subscript es.1 es.2 op1).1).map
      (assignVal es.1 es.2 res)
  else some es

def translateCmp (predicate : Predicate) (op0 op1 res : UInt32) :
    Option (IntervalExeState × IntervalExeState) :=
  if inVarToValTable globalES s op0 && inVarToValTable globalES s op1 then
    (predicate.eval fun c => c.eval (subscript globalES s op0).1 (subscript globalES s op1).1).map
      (assignVal globalES s res)
  else if inVarToAddrsTable globalES s op0 && inVarToAddrsTable globalES s op1 then
    let lhs := (getAddrs globalES s op0).1
    let rhs := (getAddrs globalES s op1).1
    if lhs = ∅ ∨ rhs = ∅ then none
    else (predicate.eval (compareAddrs it lhs rhs)).map (assignVal globalES s res)
  else some (globalES, s)

def translateSelect (cond tval fval res : UInt32) : Option (IntervalExeState × IntervalExeState) :=
  let c := (subscript globalES s cond).1
  if inVarToValTable globalES s tval && inVarToValTable globalES s fval &&
      inVarToValTable globalES s cond then
    some (assignVal globalES s res (if c.is_numeral then
      (subscript globalES s (if c.is_zero then fval else tval)).1 else c))
  else if inVarToAddrsTable globalES s tval && inVarToAddrsTable globalES s fval &&
      inVarToValTable globalES s cond then
    if c.is_numeral then
      if (getAddrs globalES s fval).1 = ∅ ∨ (getAddrs globalES s tval).1 = ∅ then none
      else some (assignAddrs globalES s res
        (getAddrs globalES s (if c.is_zero then fval else tval)).1)
    else some (globalES, s)
  else some (globalES, s)

/-- The body of the loop of `translatePhi`. -/
def phiOperand (acc : Loaded) (curId : UInt32) : Option Loaded :=
  if inVarToValTable globalES s curId then
    some { acc with rhsItv := acc.rhsItv.join_with (subscript globalES s curId).1, isVal := true }
  else if inVarToAddrsTable globalES s curId then
    if (getAddrs globalES s curId).1 = ∅ then none
    else some { acc with rhsAddr := acc.rhsAddr ∪ (getAddrs globalES s curId).1, isAddr := true }
  else some acc

def translatePhi (ops : List UInt32) (res : UInt32) :
    Option (IntervalExeState × IntervalExeState) :=
  (ops.foldlM (phiOperand globalES s) ⟨IntervalValue.bottom, ∅, false, false⟩).map fun acc =>
    if acc.isVal then assignVal globalES s res acc.rhsItv
    else if acc.isAddr then assignAddrs globalES s res acc.rhsAddr
    else (globalES, s)

end Transfer

/-- What the statements of a program are translated with. -/
structure Program where
  it : Iteration
  options : Options
  objs : Objects
  isBlkPtr : UInt32 → Bool

variable (P : Program)

def translate (es : IntervalExeState × IntervalExeState) :
    Statement → Option (IntervalExeState × IntervalExeState)
  | .binary opcode op0 op1 res => translateBinary es.1 es.2 opcode op0 op1 res
  | .cmp predicate op0 op1 res => translateCmp P.it es.1 es.2 predicate op0 op1 res
  | .load lhs rhs => translateLoad P.it es.1 es.2 lhs rhs
  | .copy lhsType lhs rhs => translateCopy P.isBlkPtr lhsType es.1 es.2 lhs rhs
  | .gep gep => translateGep P.it P.options P.objs es.1 es.2 gep
  | .select cond tval fval res => translateSelect es.1 es.2 cond tval fval res
  | .phi ops res => translatePhi es.1 es.2 ops res

-- ── Two states over one global state

variable {V : Type}

/-- A state has its own binding of a variable. -/
def Own (t : Table UInt32 V) (x : UInt32) : Prop := (t.lookup x).isSome = true

instance (t : Table UInt32 V) (x : UInt32) : Decidable (Own t x) :=
  inferInstanceAs (Decidable (_ = true))

/-- The own bindings are of the same variables, and there the global ones are as before. -/
structure TableKept (g s g' s' : Table UInt32 V) : Prop where
  own : ∀ x, Own s' x ↔ Own s x
  covered : ∀ x, Own s x → g'.lookup x = g.lookup x

/-- The global and the own tables of variables before and after. -/
structure Kept (es out : IntervalExeState × IntervalExeState) : Prop where
  vals : TableKept es.1.varToItvVal es.2.varToItvVal out.1.varToItvVal out.2.varToItvVal
  addrs : TableKept es.1.varToAddrs es.2.varToAddrs out.1.varToAddrs out.2.varToAddrs

theorem TableKept.refl (g s : Table UInt32 V) : TableKept g s g s := ⟨fun _ => .rfl, fun _ _ => rfl⟩

theorem TableKept.trans {g s g1 s1 g2 s2 : Table UInt32 V} (h : TableKept g s g1 s1)
    (h' : TableKept g1 s1 g2 s2) : TableKept g s g2 s2 :=
  ⟨fun x => (h'.own x).trans (h.own x),
    fun x hx => (h'.covered x ((h.own x).mpr hx)).trans (h.covered x hx)⟩

/-- A global binding of a variable of which the state has none. -/
theorem TableKept.insert (g s : Table UInt32 V) {id : UInt32} (hown : ¬ Own s id) (v : V) :
    TableKept g s (g.insert id v) s := by
  refine ⟨fun _ => .rfl, fun x hx => AList.lookup_insert_ne ?_⟩
  rintro rfl
  exact hown hx

theorem TableKept.assign (g s : Table UInt32 V) (id : UInt32) (v : V) :
    TableKept g s (assignTables g s id v).1 (assignTables g s id v).2 := by
  rw [assignTables]
  by_cases hown : (s.lookup id).isSome
  · rw [if_pos hown]
    refine ⟨fun x => ?_, fun _ _ => rfl⟩
    show ((s.insert id v).lookup x).isSome ↔ (s.lookup x).isSome
    by_cases hx : x = id
    · rw [hx, AList.lookup_insert]
      exact iff_of_true rfl hown
    · rw [AList.lookup_insert_ne hx]
  · rw [if_neg hown]
    exact TableKept.insert g s hown v

theorem Kept.refl (es : IntervalExeState × IntervalExeState) : Kept es es :=
  ⟨TableKept.refl _ _, TableKept.refl _ _⟩

variable {es mid out : IntervalExeState × IntervalExeState}

section

variable (h : Kept es mid)
include h

theorem Kept.trans (h' : Kept mid out) : Kept es out :=
  ⟨h.vals.trans h'.vals, h.addrs.trans h'.addrs⟩

theorem Kept.assignVal (id : UInt32) (v : IntervalValue) : Kept es (assignVal mid.1 mid.2 id v) :=
  h.trans ⟨TableKept.assign _ _ id v, TableKept.refl _ _⟩

theorem Kept.assignAddrs (id : UInt32) (addrs : Addrs) :
    Kept es (assignAddrs mid.1 mid.2 id addrs) :=
  h.trans ⟨TableKept.refl _ _, TableKept.assign _ _ id addrs⟩

-- ── A statement

theorem Kept.subscript (id : UInt32) : Kept es ((subscript mid.1 mid.2 id).2.1, mid.2) := by
  refine h.trans ?_
  unfold IntervalExeState.subscript
  cases hown : mid.2.varToItvVal.lookup id with
  | some v => exact Kept.refl mid
  | none =>
    cases mid.1.varToItvVal.lookup id with
    | some v => exact Kept.refl mid
    | none =>
      have hfree : ¬ Own mid.2.varToItvVal id := by
        rw [Own, hown]
        exact Bool.false_ne_true
      exact ⟨TableKept.insert _ _ hfree _, TableKept.refl _ _⟩

theorem Kept.initSVFVar (objs : Objects) (varId : UInt32) :
    Kept es (initSVFVar objs mid.1 mid.2 varId, mid.2) := by
  refine h.trans ?_
  rw [SvfFieldIndex.initSVFVar]
  by_cases hbound : (inVarToValTable mid.1 mid.2 varId || inVarToAddrsTable mid.1 mid.2 varId)
  · rw [if_pos hbound]
    exact Kept.refl mid
  · have hfree : ∀ {V : Type} {g s : Table UInt32 V}, ¬ (readTables g s varId).isSome →
        ¬ Own s varId := fun hnone hown => hnone (isSome_or.trans (Bool.or_eq_true_iff.mpr (.inl hown)))
    rw [if_neg hbound]
    rw [Bool.or_eq_true_iff, not_or] at hbound
    cases objs.constant varId with
    | some v => exact ⟨TableKept.insert _ _ (hfree hbound.1) v, TableKept.refl _ _⟩
    | none => exact ⟨TableKept.refl _ _, TableKept.insert _ _ (hfree hbound.2) _⟩

theorem Kept.indexBounds (op : SvfFieldIndex.Operand) : Kept es ((indexBounds mid.1 mid.2 op).2, mid.2) := by
  cases op with
  | const c => exact h
  | var id => exact h.subscript id

end

theorem getItvOfFlattenedElemIndex_kept {o : Options} {gep : GepStmt}
    {r : IntervalValue × IntervalExeState}
    (hr : getItvOfFlattenedElemIndex o es.1 es.2 gep = some r) : Kept es (r.2, es.2) := by
  rw [getItvOfFlattenedElemIndex] at hr
  by_cases hconst : gep.isConstantOffset
  · rw [if_pos hconst] at hr
    obtain ⟨c, -, rfl⟩ := map_eq_some_iff.mp hr
    exact Kept.refl es
  · rw [if_neg hconst] at hr
    obtain ⟨acc, hacc, rfl⟩ := map_eq_some_iff.mp hr
    show Kept es (acc.2, es.2)
    clear hr
    generalize gep.pairs = pairs at hacc
    induction pairs generalizing acc with
    | nil =>
      cases hacc
      exact Kept.refl es
    | cons pair pairs ih =>
      rw [List.foldrM_cons] at hacc
      obtain ⟨prev, hprev, hstep⟩ := bind_eq_some_iff.mp hacc
      rw [itvStep] at hstep
      obtain ⟨b, -, hstep⟩ := bind_eq_some_iff.mp hstep
      obtain ⟨res, -, rfl⟩ := map_eq_some_iff.mp hstep
      exact (ih prev hprev).indexBounds pair.1

theorem getGepObjAddress_kept (it : Iteration) (objs : Objects) (pointer : UInt32) (offset : ℤ)
    (h : Kept es mid) : Kept es ((getGepObjAddress it objs mid.1 mid.2 pointer offset).2, mid.2) := by
  refine List.foldlRecOn (motive := fun acc : Addrs × IntervalExeState => Kept es (acc.2, mid.2))
    _ _ h fun acc hacc addr _ => ?_
  rw [addressStep]
  split
  · exact hacc
  · exact hacc.initSVFVar objs _

theorem translateGep_kept {it : Iteration} {o : Options} {objs : Objects} {gep : GepStmt}
    (hout : translateGep it o objs es.1 es.2 gep = some out) : Kept es out := by
  rw [translateGep] at hout
  split at hout
  · split at hout
    · cases hout
    · obtain ⟨r, hr, rfl⟩ := map_eq_some_iff.mp hout
      have hitv := getItvOfFlattenedElemIndex_kept hr
      have hloop (offsets : List ℤ) :
          Kept es ((offsets.foldl (gepStep it objs es.2 gep.rhs) (∅, r.2)).2, es.2) :=
        List.foldlRecOn (motive := fun acc : Addrs × IntervalExeState => Kept es (acc.2, es.2)) _ _
          hitv fun acc hacc i _ => getGepObjAddress_kept it objs gep.rhs i hacc
      split
      · exact hitv
      · dsimp only
        split
        · exact hloop _
        · exact (hloop _).assignAddrs gep.lhs _
  · cases hout
    exact Kept.refl es

theorem bindOperand_kept (h : Kept es mid) (op : UInt32) : Kept es (bindOperand mid.1 mid.2 op) := by
  rw [bindOperand]
  split
  · exact h
  · exact h.assignVal op IntervalValue.top

/-- What is at most assigned to one variable. -/
theorem kept_of_map_assignVal {r : Option IntervalValue} {id : UInt32} (h : Kept es mid)
    (hout : r.map (IntervalExeState.assignVal mid.1 mid.2 id) = some out) : Kept es out := by
  obtain ⟨v, -, rfl⟩ := map_eq_some_iff.mp hout
  exact h.assignVal id v

theorem kept_of_map_loaded {r : Option Loaded} {id : UInt32} (hout : (r.map fun acc =>
    if acc.isVal then assignVal es.1 es.2 id acc.rhsItv
    else if acc.isAddr then assignAddrs es.1 es.2 id acc.rhsAddr else es) = some out) :
    Kept es out := by
  obtain ⟨acc, -, rfl⟩ := map_eq_some_iff.mp hout
  split
  · exact (Kept.refl es).assignVal id _
  · split
    · exact (Kept.refl es).assignAddrs id _
    · exact Kept.refl es

theorem translateBinary_kept {opcode : OpCode} {op0 op1 res : UInt32}
    (hout : translateBinary es.1 es.2 opcode op0 op1 res = some out) : Kept es out := by
  have hbound := bindOperand_kept (bindOperand_kept (Kept.refl es) op0) op1
  rw [translateBinary] at hout
  split at hout
  · exact kept_of_map_assignVal hbound hout
  · cases hout
    exact hbound

theorem translateCmp_kept {it : Iteration} {predicate : Predicate} {op0 op1 res : UInt32}
    (hout : translateCmp it es.1 es.2 predicate op0 op1 res = some out) : Kept es out := by
  rw [translateCmp] at hout
  dsimp only at hout
  split_ifs at hout
  · exact kept_of_map_assignVal (Kept.refl es) hout
  · exact kept_of_map_assignVal (Kept.refl es) hout
  · cases hout
    exact Kept.refl es

theorem translateCopy_kept {isBlkPtr : UInt32 → Bool} {lhsType : SVFType} {lhs rhs : UInt32}
    (hout : translateCopy isBlkPtr lhsType es.1 es.2 lhs rhs = some out) : Kept es out := by
  have hcopied := (Kept.refl es).assignVal lhs (subscript es.1 es.2 rhs).1
  rw [translateCopy] at hout
  split at hout
  · cases hout
    exact (Kept.refl es).assignVal lhs _
  · split at hout
    · split at hout
      · obtain ⟨range, -, rfl⟩ := map_eq_some_iff.mp hout
        exact hcopied.assignVal lhs _
      · cases hout
        exact hcopied
    · split_ifs at hout
      · cases hout
        exact (Kept.refl es).assignAddrs lhs _
      · cases hout
        exact Kept.refl es

theorem translateSelect_kept {cond tval fval res : UInt32}
    (hout : translateSelect es.1 es.2 cond tval fval res = some out) : Kept es out := by
  rw [translateSelect] at hout
  split at hout
  · cases hout
    exact (Kept.refl es).assignVal res _
  · split_ifs at hout <;> obtain rfl := some.inj hout
    · exact (Kept.refl es).assignAddrs res _
    · exact (Kept.refl es).assignAddrs res _
    · exact Kept.refl es
    · exact Kept.refl es

theorem translateLoad_kept {it : Iteration} {lhs rhs : UInt32}
    (hout : translateLoad it es.1 es.2 lhs rhs = some out) : Kept es out := by
  rw [translateLoad] at hout
  split_ifs at hout
  · exact kept_of_map_loaded hout
  · cases hout
    exact Kept.refl es

/-- **A statement** binds no variable of its own, and assigns no binding under an own one. -/
theorem translate_kept (stmt : Statement) (hout : translate P es stmt = some out) : Kept es out := by
  cases stmt with
  | binary => exact translateBinary_kept hout
  | cmp => exact translateCmp_kept hout
  | load => exact translateLoad_kept hout
  | copy => exact translateCopy_kept hout
  | gep => exact translateGep_kept hout
  | select => exact translateSelect_kept hout
  | phi => exact kept_of_map_loaded hout

/-- The sequence of the statements. -/
theorem run_kept : ∀ (stmts : List Statement) {es : IntervalExeState × IntervalExeState},
    stmts.foldlM (translate P) es = some out → Kept es out := by
  intro stmts
  induction stmts with
  | nil =>
    intro es hout
    obtain rfl := some.inj hout
    exact Kept.refl es
  | cons stmt stmts ih =>
    intro es hout
    rw [List.foldlM_cons] at hout
    obtain ⟨mid, hmid, hrest⟩ := bind_eq_some_iff.mp hout
    exact (translate_kept P stmt hmid).trans (ih hrest)

-- ── What the other state reads

/-- What a state reads of a variable, if another state with tables of its own has changed the
    global table: what it has read before, or what the other state reads. -/
theorem TableKept.reads {g s g' s' : Table UInt32 V} (h : TableKept g s g' s') (t : Table UInt32 V)
    (x : UInt32) : (Own s x ∨ Own t x → readTables g' t x = readTables g t x) ∧
      (¬ (Own s x ∨ Own t x) → readTables g' t x = readTables g' s' x) := by
  constructor
  · rintro (hs | ht)
    · rw [readTables, readTables, h.covered x hs]
    · obtain ⟨v, hv⟩ := isSome_iff_exists.mp ht
      rw [readTables, readTables, hv, some_or, some_or]
  · rw [not_or]
    rintro ⟨hs, ht⟩
    rw [readTables, readTables, not_isSome_iff_eq_none.mp ht,
      not_isSome_iff_eq_none.mp (mt (h.own x).mp hs)]

/-- A program without fields and structures. -/
def flat : Program := ⟨sorted, ⟨512, true⟩, ⟨fun base _ => base, fun _ => none⟩, fun _ => false⟩

/-- A phi whose operand the first state binds itself. -/
def phiState : IntervalExeState × IntervalExeState :=
  assignVal unbound (pointingTo ∅) 3 (IntervalValue.bottom.join_with ⟨.numeral 1, .numeral 1⟩)

end SvfStateFrame
