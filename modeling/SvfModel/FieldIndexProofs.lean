import SvfModel.IntervalLatticeProofs
import SvfModel.LoopProofs
import SvfModel.StoreLoadProofs

/-!
# `getItvOfFlattenedElemIndex` and `translateGep`

A gep goes from a pointer to an element of an object: its first index steps over whole objects
and the others go into nested arrays and structures. Each index is flattened by the layout of
its type, and the sum is the index of the element. On intervals the sum is taken of the
flattened bounds.

The heart is `flattenElem_covers_iff`: on an array or a structure the flattened bounds enclose
the flattened indices exactly if the interval lies inside of the type or holds no element but
the first. Elsewhere the code falls back to the first element, and the others are lost. A gep none of whose
levels falls back covers every element within the field limit (**`gep_covers`**).
-/

namespace SvfFieldIndex

open SvfInterval NumericLiteral IntervalExeState List Option

-- ── Types and statements

/-- The layout of an array or a structure. Later elements do not lie before earlier ones, and
    every field is an element. -/
structure StInfo where
  fldIdxVec : List UInt32
  elemIdxVec : List UInt32
  sorted : elemIdxVec.Pairwise (· ≤ ·)
  covers : fldIdxVec.length ≤ elemIdxVec.length

/-- The types of the indices of a gep. -/
inductive GepType where
  | pointer
  | array (info : StInfo)
  | struct (info : StInfo)

/-- An index is a `SVFConstantInt` or a variable. -/
inductive Operand where
  | const (c : Int64)
  | var (id : UInt32)

/-- A gep statement. The number of elements is that of the pointee of its source, and `fldIdx` the
    index of a gep without pairs. Only the first index is one of a pointer, and the pairs are
    counted by an `int`. -/
structure GepStmt where
  lhs : UInt32
  rhs : UInt32
  pairs : List (Operand × GepType)
  elemNum : UInt32
  fldIdx : Int64
  pointerFirst : ∀ pair ∈ pairs.tail, pair.2 ≠ .pointer
  short : pairs.length < 2 ^ 31

structure Options where
  MaxFieldLimit : UInt32
  ModelArrays : Bool

/-- A result of type `s64_t`. A signed overflow is not defined. -/
def s64 (n : ℤ) : Option ℤ := if -2 ^ 63 ≤ n ∧ n < 2 ^ 63 then some n else none

def GepType.elemIdxVec : GepType → List UInt32
  | pointer => []
  | array info => info.elemIdxVec
  | struct info => info.elemIdxVec

def getFlattenedElemIdx (o : Options) (T : GepType) (origId : ℕ) : Option UInt32 :=
  match T with
  | .pointer => none
  | .array info => if o.ModelArrays then info.elemIdxVec[origId]? else some 0
  | .struct info => if o.ModelArrays then info.elemIdxVec[origId]? else info.fldIdxVec[origId]?

def GepStmt.isConstantOffset (gep : GepStmt) : Bool :=
  gep.pairs.all fun pair => match pair.1 with
    | .const _ => true
    | .var _ => false

/-- A constant index of an array or a structure. One that is too large is replaced by the last. -/
def constantElem (o : Options) (T : GepType) (op : Int64) (total : ℤ) : Option ℤ :=
  if 0 ≤ op.toInt then
    let size := T.elemIdxVec.length
    let offset := if size ≤ op.toInt.toNat then size - 1 else op.toInt.toNat
    (getFlattenedElemIdx o T offset).bind fun flattened => s64 (total + flattened.toNat)
  else some total

def constantStep (o : Options) (gep : GepStmt) (pair : Operand × GepType) (total : ℤ) : Option ℤ :=
  match pair.1 with
  | .var _ => none
  | .const op =>
    match pair.2 with
    | .pointer => (s64 (op.toInt * gep.elemNum.toNat)).bind fun offset => s64 (total + offset)
    | T => constantElem o T op total

def computeConstantOffset (o : Options) (gep : GepStmt) : Option ℤ :=
  if gep.pairs = [] then some gep.fldIdx.toInt else gep.pairs.foldrM (constantStep o gep) 0

def indexBounds (globalES s : IntervalExeState) : Operand → (ℤ × ℤ) × IntervalExeState
  | .const c => ((c.toInt, c.toInt), globalES)
  | .var id =>
    let r := subscript globalES s id
    (if r.1.isBottom then (0, 0) else (r.1.lb.getNumeral, r.1.ub.getNumeral), r.2.1)

section

variable (o : Options)

/-- An index of a pointer times the number of elements, cut at the limit. -/
def flattenPointer (gep : GepStmt) (idx : ℤ) : Option ℤ :=
  if o.MaxFieldLimit.toNat < idx * gep.elemNum.toNat then some o.MaxFieldLimit.toNat
  else s64 (idx * gep.elemNum.toNat)

/-- The flattened bounds of an index of an array or a structure. -/
def flattenElem (T : GepType) (idx : ℤ × ℤ) : Option (ℤ × ℤ) :=
  if o.ModelArrays then
    if T.elemIdxVec = [] ∨ (T.elemIdxVec.length : ℤ) ≤ idx.2 ∨ idx.1 < 0 then some (0, 0)
    else (getFlattenedElemIdx o T idx.1.toNat).bind fun lb =>
      (getFlattenedElemIdx o T idx.2.toNat).map fun ub => ((lb.toNat : ℤ), (ub.toNat : ℤ))
  else some (0, 0)

def flattenBounds (gep : GepStmt) (T : GepType) (idx : ℤ × ℤ) : Option (ℤ × ℤ) :=
  match T with
  | .pointer => (flattenPointer o gep idx.1).bind fun lb =>
    (flattenPointer o gep idx.2).map fun ub => (lb, ub)
  | T => flattenElem o T idx

def itvStep (gep : GepStmt) (s : IntervalExeState) (pair : Operand × GepType)
    (acc : IntervalValue × IntervalExeState) : Option (IntervalValue × IntervalExeState) :=
  let r := indexBounds acc.2 s pair.1
  (flattenBounds o gep pair.2 r.1).bind fun b =>
    (acc.1.add ⟨numeral b.1, numeral b.2⟩).map fun res => (res, r.2)

def getItvOfFlattenedElemIndex (globalES s : IntervalExeState) (gep : GepStmt) :
    Option (IntervalValue × IntervalExeState) :=
  if gep.isConstantOffset then
    (computeConstantOffset o gep).map fun c => (⟨numeral c, numeral c⟩, globalES)
  else
    (gep.pairs.foldrM (itvStep o gep s) (⟨numeral 0, numeral 0⟩, globalES)).map fun acc =>
      let res := acc.1.meet_with ⟨numeral 0, numeral o.MaxFieldLimit.toNat⟩
      (if res.isBottom then ⟨numeral 0, numeral 0⟩ else res, acc.2)

end

-- ── Addresses

def getVirtualMemAddress (idx : UInt32) : UInt32 := AddressMask + idx

/-- What the objects of a program are: the field objects of an object, and the constants that
    objects hold. -/
structure Objects where
  getGepObjVar : UInt32 → ℤ → UInt32
  constant : UInt32 → Option IntervalValue

def initSVFVar (objs : Objects) (globalES s : IntervalExeState) (varId : UInt32) : IntervalExeState :=
  if inVarToValTable globalES s varId || inVarToAddrsTable globalES s varId then globalES
  else match objs.constant varId with
    | some v => { globalES with varToItvVal := globalES.varToItvVal.insert varId v }
    | none => { globalES with
        varToAddrs := globalES.varToAddrs.insert varId {getVirtualMemAddress varId} }

def addressStep (objs : Objects) (s : IntervalExeState) (offset : ℤ)
    (acc : Addrs × IntervalExeState) (addr : UInt32) : Addrs × IntervalExeState :=
  if getInternalID addr == 0 then (insert (getVirtualMemAddress 0) acc.1, acc.2)
  else
    let gepObj := objs.getGepObjVar (getInternalID addr) offset
    (insert (getVirtualMemAddress gepObj) acc.1, initSVFVar objs acc.2 s gepObj)

def getGepObjAddress (it : Iteration) (objs : Objects) (globalES s : IntervalExeState)
    (pointer : UInt32) (offset : ℤ) : Addrs × IntervalExeState :=
  (it.order (getAddrs globalES s pointer).1).foldl (addressStep objs s offset) (∅, globalES)

/-- The body of the loop of `translateGep`. -/
def gepStep (it : Iteration) (objs : Objects) (s : IntervalExeState) (pointer : UInt32)
    (acc : Addrs × IntervalExeState) (i : ℤ) : Addrs × IntervalExeState :=
  let r := getGepObjAddress it objs acc.2 s pointer i
  (acc.1 ∪ r.1, r.2)

def upTo (lb ub : ℤ) : List ℤ := (List.range (ub + 1 - lb).toNat).map fun i : ℕ => lb + i

/-- `translateGep(gep)`: the global and the local state after it. -/
def translateGep (it : Iteration) (o : Options) (objs : Objects) (globalES s : IntervalExeState)
    (gep : GepStmt) : Option (IntervalExeState × IntervalExeState) :=
  if inVarToAddrsTable globalES s gep.rhs then
    match it.order (getAddrs globalES s gep.rhs).1 with
    | [] => none
    | first :: _ =>
      (getItvOfFlattenedElemIndex o globalES s gep).map fun offsetPair =>
        if !isVirtualMemAddress first then (offsetPair.2, s)
        else
          let lb := Min.min offsetPair.1.lb.getNumeral (o.MaxFieldLimit.toNat : ℤ)
          let ub := Min.min offsetPair.1.ub.getNumeral (o.MaxFieldLimit.toNat : ℤ)
          let r := (upTo lb ub).foldl (gepStep it objs s gep.rhs) (∅, offsetPair.2)
          if r.1 = ∅ then (r.2, s) else assignAddrs r.2 s gep.lhs r.1
  else some (globalES, s)

-- ── Concrete indices

def Operand.value (σ : UInt32 → Int64) : Operand → ℤ
  | const c => c.toInt
  | var id => (σ id).toInt

def flattenedAt (o : Options) (gep : GepStmt) (σ : UInt32 → Int64) (pair : Operand × GepType) :
    Option ℤ :=
  match pair.2 with
  | .pointer => some (pair.1.value σ * gep.elemNum.toNat)
  | T =>
    if 0 ≤ pair.1.value σ then
      (getFlattenedElemIdx o T (pair.1.value σ).toNat).map fun f => (f.toNat : ℤ)
    else none

def flattenedSum (o : Options) (gep : GepStmt) (σ : UInt32 → Int64) :
    List (Operand × GepType) → Option ℤ
  | [] => some 0
  | pair :: pairs => (flattenedAt o gep σ pair).bind fun f =>
    (flattenedSum o gep σ pairs).map fun rest => f + rest

def flattenedIndex (o : Options) (gep : GepStmt) (σ : UInt32 → Int64) : Option ℤ :=
  if gep.pairs = [] then some gep.fldIdx.toInt else flattenedSum o gep σ gep.pairs

def Inside (globalES s : IntervalExeState) (gep : GepStmt) (σ : UInt32 → Int64) : Prop :=
  ∀ id T, (.var id, T) ∈ gep.pairs →
    (subscript globalES s id).1.contains (σ id).toInt = true

def fieldAddress (objs : Objects) (addr : UInt32) (k : ℤ) : UInt32 :=
  if getInternalID addr == 0 then getVirtualMemAddress 0
  else getVirtualMemAddress (objs.getGepObjVar (getInternalID addr) k)

-- ── Reading the state

variable {o : Options} {gep : GepStmt} {globalES g s : IntervalExeState} {σ : UInt32 → Int64}

/-- A global state that differs from another one by defaults only. -/
structure SameReads (globalES g s : IntervalExeState) : Prop where
  vals : ∀ id, (subscript g s id).1 = (subscript globalES s id).1
  addrs : g.varToAddrs = globalES.varToAddrs

theorem SameReads.refl (globalES s : IntervalExeState) : SameReads globalES globalES s :=
  ⟨fun _ => rfl, rfl⟩

theorem SameReads.subscript (h : SameReads globalES g s) (id : UInt32) :
    SameReads globalES (subscript g s id).2.1 s := by
  refine ⟨fun id' => (?_ : _ = _).trans (h.vals id'), ?_⟩
  · rw [subscript_value, subscript_value]
    unfold IntervalExeState.subscript
    cases hloc : s.varToItvVal.lookup id with
    | some v => rfl
    | none =>
      cases hglob : g.varToItvVal.lookup id with
      | some v => rfl
      | none =>
        show _ = (s.varToItvVal.lookup id').getD ((g.varToItvVal.lookup id').getD _)
        by_cases hid : id' = id
        · rw [hid, hloc, hglob]
          show (none : Option IntervalValue).getD (((g.varToItvVal.insert id _).lookup id).getD _) = _
          rw [AList.lookup_insert]
          rfl
        · show (s.varToItvVal.lookup id').getD (((g.varToItvVal.insert id _).lookup id').getD _) = _
          rw [AList.lookup_insert_ne hid]
  · rw [← h.addrs]
    unfold IntervalExeState.subscript
    cases s.varToItvVal.lookup id with
    | some v => rfl
    | none => cases g.varToItvVal.lookup id <;> rfl

theorem SameReads.indexBounds (h : SameReads globalES g s) (op : Operand) :
    (indexBounds g s op).1 = (indexBounds globalES s op).1 ∧
      SameReads globalES (indexBounds g s op).2 s := by
  cases op with
  | const c => exact ⟨rfl, h⟩
  | var id =>
    refine ⟨?_, h.subscript id⟩
    rw [SvfFieldIndex.indexBounds, SvfFieldIndex.indexBounds, h.vals id]

theorem getNumeral_le {a : NumericLiteral} {x : ℤ} (h : a ≤ numeral x) (hx : -2 ^ 63 ≤ x) :
    a.getNumeral ≤ x := by
  cases a with
  | minus_infinity => exact hx
  | numeral n =>
    have hn := numeral_le.mp h
    rw [getNumeral]
    omega
  | plus_infinity => exact absurd h (not_plus_le_numeral x)

theorem le_getNumeral {a : NumericLiteral} {x : ℤ} (h : numeral x ≤ a) (hx : x < 2 ^ 63) :
    x ≤ a.getNumeral := by
  cases a with
  | minus_infinity => exact absurd h (not_numeral_le_minus x)
  | numeral n =>
    have hn := numeral_le.mp h
    rw [getNumeral]
    omega
  | plus_infinity =>
    rw [getNumeral]
    omega

theorem indexBounds_enclose {op : Operand} (h : ∀ id, op = .var id →
    (subscript globalES s id).1.contains (σ id).toInt) :
    (indexBounds globalES s op).1.1 ≤ op.value σ ∧ op.value σ ≤ (indexBounds globalES s op).1.2 := by
  cases op with
  | const c => exact ⟨le_rfl, le_rfl⟩
  | var id =>
    have hin := h id rfl
    obtain ⟨hl, hu⟩ := IntervalValue.contains_iff.mp hin
    rw [indexBounds]
    dsimp only
    rw [IntervalValue.not_bottom_of_contains hin, if_neg Bool.false_ne_true]
    exact ⟨getNumeral_le hl (Int64.le_toInt _), le_getNumeral hu (Int64.toInt_lt _)⟩

-- ── One index

theorem s64_eq {n : ℤ} (h : -2 ^ 63 ≤ n) (h' : n < 2 ^ 63) : s64 n = some n := if_pos ⟨h, h'⟩

variable {T : GepType} {pairs : List (Operand × GepType)} {k : ℤ}

/-- A level does not fall back to the first element where the index may be another one. -/
def Kept (o : Options) (idx : ℤ × ℤ) (T : GepType) : Prop :=
  (∀ x f, idx.1 ≤ x → x ≤ idx.2 → 0 ≤ x → getFlattenedElemIdx o T x.toNat = some f → f = 0) ∨
  o.ModelArrays = true ∧ 0 ≤ idx.1 ∧ idx.2 < T.elemIdxVec.length

theorem getFlattenedElemIdx_eq (ho : o.ModelArrays) (hT : T ≠ .pointer) (n : ℕ) :
    getFlattenedElemIdx o T n = T.elemIdxVec[n]? := by
  cases T with
  | pointer => exact absurd rfl hT
  | array info => exact if_pos ho
  | struct info => exact if_pos ho

theorem elemIdxVec_mono (T : GepType) {i j : ℕ} {e e' : UInt32} (hij : i ≤ j)
    (hi : T.elemIdxVec[i]? = some e) (hj : T.elemIdxVec[j]? = some e') : e.toNat ≤ e'.toNat := by
  have hsorted : T.elemIdxVec.Pairwise (· ≤ ·) := by
    cases T with
    | pointer => exact .nil
    | array info => exact info.sorted
    | struct info => exact info.sorted
  rcases Nat.eq_or_lt_of_le hij with rfl | hlt
  · rw [mem_unique hi hj]
  · obtain ⟨hi', rfl⟩ := List.getElem?_eq_some_iff.mp hi
    obtain ⟨hj', rfl⟩ := List.getElem?_eq_some_iff.mp hj
    exact UInt32.le_iff_toNat_le.mp (pairwise_iff_getElem.mp hsorted i j hi' hj' hlt)

/-- **The flattened bounds** of an array or a structure enclose the flattened indices exactly if
    the level is kept. -/
theorem flattenElem_covers_iff {idx : ℤ × ℤ} (hT : T ≠ .pointer) :
    (∀ x f, idx.1 ≤ x → x ≤ idx.2 → 0 ≤ x → getFlattenedElemIdx o T x.toNat = some f →
      ∃ L U, flattenElem o T idx = some (L, U) ∧ L ≤ f.toNat ∧ (f.toNat : ℤ) ≤ U) ↔
    Kept o idx T := by
  by_cases hinner : o.ModelArrays ∧ 0 ≤ idx.1 ∧ idx.2 < T.elemIdxVec.length
  · refine iff_of_true (fun x f hl hu h0 hf => ?_) (.inr hinner)
    obtain ⟨ho, hlow, hhigh⟩ := hinner
    have hin : ¬ (T.elemIdxVec = [] ∨ (T.elemIdxVec.length : ℤ) ≤ idx.2 ∨ idx.1 < 0) := by
      rintro (h | h | h)
      · rw [h, length_nil] at hhigh
        omega
      · omega
      · omega
    have helem : ∀ y : ℤ, 0 ≤ y → y ≤ idx.2 → ∃ e, T.elemIdxVec[y.toNat]? = some e := by
      intro y hy hy'
      have hlt : y.toNat < T.elemIdxVec.length := by omega
      exact ⟨_, getElem?_eq_getElem hlt⟩
    obtain ⟨e, he⟩ := helem idx.1 hlow (hl.trans hu)
    obtain ⟨e', he'⟩ := helem idx.2 (h0.trans hu) le_rfl
    rw [flattenElem, if_pos ho, if_neg hin, getFlattenedElemIdx_eq ho hT,
      getFlattenedElemIdx_eq ho hT, he, he']
    rw [getFlattenedElemIdx_eq ho hT] at hf
    refine ⟨_, _, rfl, ?_, ?_⟩
    · exact_mod_cast elemIdxVec_mono T (Int.toNat_le_toNat hl) he hf
    · exact_mod_cast elemIdxVec_mono T (Int.toNat_le_toNat hu) hf he'
  · -- the level falls back to the first element
    have hback : flattenElem o T idx = some (0, 0) := by
      rw [flattenElem]
      by_cases ho : o.ModelArrays
      · have hout : T.elemIdxVec = [] ∨ (T.elemIdxVec.length : ℤ) ≤ idx.2 ∨ idx.1 < 0 := by
          by_contra hin
          push Not at hin
          exact hinner ⟨ho, hin.2.2, hin.2.1⟩
        rw [if_pos ho, if_pos hout]
      · rw [if_neg ho]
    rw [Kept, or_iff_left hinner]
    refine forall_congr' fun x => forall_congr' fun f => imp_congr_right fun _ =>
      imp_congr_right fun _ => imp_congr_right fun _ => imp_congr_right fun _ => ?_
    rw [hback]
    constructor
    · rintro ⟨L, U, hLU, -, hU⟩
      cases hLU
      exact UInt32.toNat_inj.mp (Nat.le_zero.mp (by exact_mod_cast hU))
    · rintro rfl
      exact ⟨0, 0, rfl, le_rfl, le_rfl⟩

theorem flattenBounds_elem (gep : GepStmt) (hT : T ≠ .pointer) (idx : ℤ × ℤ) :
    flattenBounds o gep T idx = flattenElem o T idx := by
  cases T with
  | pointer => exact absurd rfl hT
  | array info => rfl
  | struct info => rfl

theorem flattenPointer_spec {lb x ub : ℤ} (hl : lb ≤ x) (hu : x ≤ ub)
    (hlow : -2 ^ 63 ≤ lb * gep.elemNum.toNat) :
    ∃ L U, flattenBounds o gep .pointer (lb, ub) = some (L, U) ∧ L ≤ U ∧ L ≤ x * gep.elemNum.toNat ∧
      (x * gep.elemNum.toNat ≤ U ∨ (o.MaxFieldLimit.toNat : ℤ) = U) := by
  have hmono : ∀ {m n : ℤ}, m ≤ n → m * gep.elemNum.toNat ≤ n * gep.elemNum.toNat :=
    fun h => mul_le_mul_of_nonneg_right h (by positivity)
  have hlimit : (o.MaxFieldLimit.toNat : ℤ) < 2 ^ 32 := by exact_mod_cast o.MaxFieldLimit.toNat_lt
  have hflat : ∀ idx : ℤ, lb ≤ idx → flattenPointer o gep idx =
      some (Min.min (idx * gep.elemNum.toNat) o.MaxFieldLimit.toNat) := by
    intro idx hidx
    have := hmono hidx
    rw [flattenPointer]
    by_cases hcut : (o.MaxFieldLimit.toNat : ℤ) < idx * gep.elemNum.toNat
    · rw [if_pos hcut, min_eq_right hcut.le]
    · rw [if_neg hcut, s64_eq (by omega) (by omega), min_eq_left (not_lt.mp hcut)]
  have hlx := hmono hl
  have hxu := hmono hu
  refine ⟨Min.min (lb * gep.elemNum.toNat) o.MaxFieldLimit.toNat,
    Min.min (ub * gep.elemNum.toNat) o.MaxFieldLimit.toNat, ?_, ?_, ?_, ?_⟩
  · rw [flattenBounds]
    dsimp only
    rw [hflat lb le_rfl, hflat ub (hl.trans hu), bind_some, map_some]
  · exact min_le_min_right _ (hlx.trans hxu)
  · exact (min_le_left _ _).trans hlx
  · rcases le_total (ub * gep.elemNum.toNat) (o.MaxFieldLimit.toNat : ℤ) with h | h
    · rw [min_eq_left h]
      exact .inl hxu
    · rw [min_eq_right h]
      exact .inr rfl

-- ── The sum of the indices

theorem add_numerals {l u l' u' : ℤ} (h : l ≤ u) (h' : l' ≤ u') :
    IntervalValue.add ⟨numeral l, numeral u⟩ ⟨numeral l', numeral u'⟩ =
      some ⟨numeral (l + l'), numeral (u + u')⟩ := by
  have hbot : ∀ {m n : ℤ}, m ≤ n → IntervalValue.isBottom ⟨numeral m, numeral n⟩ = false :=
    fun hmn => IntervalValue.not_isBottom_iff.mpr (numeral_le.mpr hmn)
  rw [IntervalValue.add, hbot h, hbot h']
  rfl

theorem flattenedAt_elem {pair : Operand × GepType} {f : ℤ} (hT : pair.2 ≠ .pointer)
    (h : flattenedAt o gep σ pair = some f) : 0 ≤ pair.1.value σ ∧
      ∃ e, getFlattenedElemIdx o pair.2 (pair.1.value σ).toNat = some e ∧ f = e.toNat := by
  have hat : flattenedAt o gep σ pair = if 0 ≤ pair.1.value σ then
      (getFlattenedElemIdx o pair.2 (pair.1.value σ).toNat).map fun f => (f.toNat : ℤ)
      else none := by
    obtain ⟨op, T⟩ := pair
    cases T with
    | pointer => exact absurd rfl hT
    | array info => rfl
    | struct info => rfl
  rw [hat] at h
  by_cases h0 : 0 ≤ pair.1.value σ
  · rw [if_pos h0] at h
    obtain ⟨e, he, rfl⟩ := map_eq_some_iff.mp h
    exact ⟨h0, e, he, rfl⟩
  · rw [if_neg h0] at h
    cases h.symm

theorem flattenedSum_cons {pair : Operand × GepType}
    (h : flattenedSum o gep σ (pair :: pairs) = some k) :
    ∃ f rest, flattenedAt o gep σ pair = some f ∧ flattenedSum o gep σ pairs = some rest ∧
      k = f + rest := by
  obtain ⟨f, hf, hrest⟩ := bind_eq_some_iff.mp h
  obtain ⟨rest, hr, rfl⟩ := map_eq_some_iff.mp hrest
  exact ⟨f, rest, hf, hr, rfl⟩

/-- Flattened indices of arrays and structures are not negative, and their sum is limited by the
    number of pairs. -/
theorem flattenedSum_bounds :
    (∀ pair ∈ pairs, pair.2 ≠ .pointer) → ∀ {k : ℤ}, flattenedSum o gep σ pairs = some k →
      0 ≤ k ∧ k ≤ pairs.length * 2 ^ 32 := by
  induction pairs with
  | nil =>
    intro _ k h
    obtain rfl : 0 = k := some.inj h
    exact ⟨le_rfl, by simp⟩
  | cons pair pairs ih =>
    intro hT k h
    obtain ⟨f, rest, hf, hrest, rfl⟩ := flattenedSum_cons h
    obtain ⟨-, e, -, rfl⟩ := flattenedAt_elem (hT pair mem_cons_self) hf
    obtain ⟨hlow, hhigh⟩ := ih (forall_mem_cons.mp hT).2 hrest
    have he : (e.toNat : ℤ) < 2 ^ 32 := by exact_mod_cast e.toNat_lt
    rw [length_cons]
    push_cast
    omega

/-- **The loop over arrays and structures** encloses the sum of the flattened indices. The
    induction is on the pairs from the last one on, as the loop meets them. -/
theorem itvLoop_spec : (∀ pair ∈ pairs, pair.2 ≠ .pointer) →
    (∀ pair ∈ pairs, Kept o (indexBounds globalES s pair.1).1 pair.2) →
    (∀ id T, (.var id, T) ∈ pairs → (subscript globalES s id).1.contains (σ id).toInt) →
    ∀ {k : ℤ}, flattenedSum o gep σ pairs = some k →
    ∃ L U g, pairs.foldrM (itvStep o gep s) (⟨numeral 0, numeral 0⟩, globalES) =
        some (⟨numeral L, numeral U⟩, g) ∧ L ≤ k ∧ k ≤ U ∧ SameReads globalES g s := by
  induction pairs with
  | nil =>
    intro _ _ _ k h
    obtain rfl : 0 = k := some.inj h
    exact ⟨0, 0, globalES, rfl, le_rfl, le_rfl, SameReads.refl globalES s⟩
  | cons pair pairs ih =>
    intro hT hkept hin k h
    obtain ⟨f, rest, hf, hrest, rfl⟩ := flattenedSum_cons h
    obtain ⟨L, U, g, hloop, hL, hU, hsame⟩ := ih (forall_mem_cons.mp hT).2
        (forall_mem_cons.mp hkept).2
        (fun id T hp => hin id T (mem_cons_of_mem pair hp)) hrest
    obtain ⟨hpos, e, he, rfl⟩ := flattenedAt_elem (hT pair mem_cons_self) hf
    obtain ⟨hbounds, hsame'⟩ := hsame.indexBounds pair.1
    have henclose : (indexBounds globalES s pair.1).1.1 ≤ pair.1.value σ ∧
        pair.1.value σ ≤ (indexBounds globalES s pair.1).1.2 :=
      indexBounds_enclose fun id hid => hin id pair.2 (hid ▸ mem_cons_self)
    have hTp := hT pair mem_cons_self
    obtain ⟨L', U', hflat, hL', hU'⟩ := (flattenElem_covers_iff hTp).mpr
      (hkept pair mem_cons_self) _ e henclose.1 henclose.2 hpos he
    refine ⟨L + L', U + U', (indexBounds g s pair.1).2, ?_, by omega, by omega, hsame'⟩
    rw [foldrM_cons, hloop, bind_eq_bind, bind_some, itvStep]
    dsimp only
    rw [hbounds, flattenBounds_elem gep hTp, hflat, bind_some,
      add_numerals (hL.trans hU) (hL'.trans hU'), map_some]

theorem getFlattenedElemIdx_last {n : ℕ} {e : UInt32} (h : getFlattenedElemIdx o T n = some e)
    : getFlattenedElemIdx o T
      (if T.elemIdxVec.length ≤ n then T.elemIdxVec.length - 1 else n) = some e := by
  by_cases hn : T.elemIdxVec.length ≤ n
  · rw [if_pos hn]
    cases T with
    | pointer => cases h.symm
    | array info =>
      have hn' : info.elemIdxVec.length ≤ n := hn
      rw [getFlattenedElemIdx] at h ⊢
      by_cases ho : o.ModelArrays
      · rw [if_pos ho, getElem?_eq_none hn'] at h
        cases h.symm
      · rwa [if_neg ho] at h ⊢
    | struct info =>
      have hn' : info.elemIdxVec.length ≤ n := hn
      rw [getFlattenedElemIdx] at h
      by_cases ho : o.ModelArrays
      · rw [if_pos ho, getElem?_eq_none hn'] at h
        cases h.symm
      · rw [if_neg ho, getElem?_eq_none (info.covers.trans hn')] at h
        cases h.symm
  · rw [if_neg hn]
    exact h

/-- **The loop over constant indices** computes the sum of the flattened indices. -/
theorem constantLoop_spec :
    (∀ pair ∈ pairs, pair.2 ≠ .pointer) → (∀ pair ∈ pairs, ∃ c, pair.1 = .const c) →
    pairs.length < 2 ^ 31 → ∀ {k : ℤ}, flattenedSum o gep σ pairs = some k →
    pairs.foldrM (constantStep o gep) 0 = some k := by
  induction pairs with
  | nil => exact fun _ _ _ k h => h
  | cons pair pairs ih =>
    intro hT hconst hlen k h
    have hbounds := flattenedSum_bounds hT h
    obtain ⟨f, rest, hf, hrest, rfl⟩ := flattenedSum_cons h
    have hloop := ih (forall_mem_cons.mp hT).2 (forall_mem_cons.mp hconst).2
      (lt_of_le_of_lt (Nat.le_succ _) hlen) hrest
    obtain ⟨hpos, e, he, rfl⟩ := flattenedAt_elem (hT pair mem_cons_self) hf
    obtain ⟨c, hc⟩ := hconst pair mem_cons_self
    rw [hc] at hpos he
    have hstep : constantStep o gep pair rest = some (e.toNat + rest) := by
      have hpos' : 0 ≤ c.toInt := hpos
      have he' : getFlattenedElemIdx o pair.2 c.toInt.toNat = some e := he
      have hsum : s64 (rest + e.toNat) = some (e.toNat + rest) := by
        rw [length_cons] at hbounds hlen
        rw [add_comm, s64_eq (by omega) (by push_cast at hbounds; omega)]
      have helem : constantStep o gep pair rest = constantElem o pair.2 c rest := by
        have hTp := hT pair mem_cons_self
        rw [constantStep, hc]
        dsimp only
        generalize pair.2 = T at *
        cases T with
        | pointer => exact absurd rfl hTp
        | array info => rfl
        | struct info => rfl
      rw [helem, constantElem, if_pos hpos']
      dsimp only
      rw [getFlattenedElemIdx_last he', bind_some, hsum]
    rw [foldrM_cons, hloop, bind_eq_bind, bind_some, hstep]

-- ── The interval of the index

/-- A gep whose elements are all covered: the object is not larger than the field limit, the
    product of an index of a pointer is one of 64 bits, and no level falls back. -/
structure Covered (o : Options) (globalES s : IntervalExeState) (gep : GepStmt) (numElems : ℕ) :
    Prop where
  limit : numElems ≤ o.MaxFieldLimit.toNat + 1
  pointer : ∀ id, (.var id, .pointer) ∈ gep.pairs →
    -2 ^ 63 ≤ (indexBounds globalES s (.var id)).1.1 * gep.elemNum.toNat
  levels : gep.isConstantOffset = false → ∀ pair ∈ gep.pairs, pair.2 ≠ .pointer →
    Kept o (indexBounds globalES s pair.1).1 pair.2

theorem exists_pointer (hfirst : ∀ pair ∈ pairs.tail, pair.2 ≠ .pointer)
    (h : ¬ ∀ pair ∈ pairs, pair.2 ≠ .pointer) :
    ∃ op tail, pairs = (op, .pointer) :: tail ∧ ∀ pair ∈ tail, pair.2 ≠ .pointer := by
  cases pairs with
  | nil => exact absurd nofun h
  | cons pair tail =>
    obtain ⟨op, T⟩ := pair
    refine ⟨op, tail, ?_, hfirst⟩
    by_contra hne
    refine h fun p hp => ?_
    rcases mem_cons.mp hp with rfl | hp
    · exact fun hT => hne (by rw [← hT])
    · exact hfirst p hp

theorem pointer_product {op : Operand} {tail : List (Operand × GepType)} {k rest : ℤ}
    (hT : ∀ pair ∈ tail, pair.2 ≠ .pointer) (hlen : tail.length < 2 ^ 31)
    (hrest : flattenedSum o gep σ tail = some rest)
    (hk : k = op.value σ * gep.elemNum.toNat + rest) (h0 : 0 ≤ k) :
    -2 ^ 63 ≤ op.value σ * gep.elemNum.toNat ∧ op.value σ * gep.elemNum.toNat ≤ k := by
  obtain ⟨hlow, hhigh⟩ := flattenedSum_bounds hT hrest
  constructor <;> omega

/-- **The loop over all indices** encloses the index of the element, up to the limit. -/
theorem pairsLoop_spec {numElems : ℕ} (hc : Covered o globalES s gep numElems)
    (hvar : gep.isConstantOffset = false) (hin : Inside globalES s gep σ)
    (h : flattenedSum o gep σ gep.pairs = some k) (h0 : 0 ≤ k) :
    ∃ L U g, gep.pairs.foldrM (itvStep o gep s) (⟨numeral 0, numeral 0⟩, globalES) =
        some (⟨numeral L, numeral U⟩, g) ∧ L ≤ k ∧ (k ≤ U ∨ (o.MaxFieldLimit.toNat : ℤ) ≤ U) ∧
      SameReads globalES g s := by
  have hfirst := gep.pointerFirst
  have hshort := gep.short
  have hpointer := hc.pointer
  have hlevels := hc.levels hvar
  rw [Inside] at hin
  generalize gep.pairs = pairs at hfirst hshort hpointer hlevels hin h ⊢
  by_cases hall : ∀ pair ∈ pairs, pair.2 ≠ .pointer
  · obtain ⟨L, U, g, hloop, hL, hU, hsame⟩ :=
      itvLoop_spec hall (fun pair hp => hlevels pair hp (hall pair hp)) hin h
    exact ⟨L, U, g, hloop, hL, .inl hU, hsame⟩
  · obtain ⟨op, tail, rfl, htail⟩ := exists_pointer hfirst hall
    obtain ⟨f, rest, hf, hrest, hk⟩ := flattenedSum_cons h
    obtain rfl : op.value σ * gep.elemNum.toNat = f := some.inj hf
    obtain ⟨L, U, g, hloop, hL, hU, hsame⟩ := itvLoop_spec htail
      (fun p hp => hlevels p (mem_cons_of_mem _ hp) (htail p hp))
      (fun id T hp => hin id T (mem_cons_of_mem _ hp)) hrest
    have hpos := (flattenedSum_bounds htail hrest).1
    obtain ⟨hbounds, hsame'⟩ := hsame.indexBounds op
    obtain ⟨hlow, hhigh⟩ : (indexBounds globalES s op).1.1 ≤ op.value σ ∧
        op.value σ ≤ (indexBounds globalES s op).1.2 :=
      indexBounds_enclose fun id hid => hin id .pointer (hid ▸ mem_cons_self)
    have hproduct : -2 ^ 63 ≤ (indexBounds globalES s op).1.1 * gep.elemNum.toNat := by
      cases op with
      | const c =>
        have hlen : tail.length < 2 ^ 31 := lt_of_le_of_lt (Nat.le_succ _) hshort
        exact (pointer_product htail hlen hrest hk h0).1
      | var id => exact hpointer id mem_cons_self
    obtain ⟨L', U', hflat, hLU', hL', hU'⟩ := flattenPointer_spec (o := o) hlow hhigh hproduct
    refine ⟨L + L', U + U', (indexBounds g s op).2, ?_, by omega, by omega, hsame'⟩
    rw [foldrM_cons, hloop, bind_eq_bind, bind_some, itvStep]
    dsimp only
    rw [hbounds, hflat, bind_some, add_numerals (hL.trans hU) hLU', map_some]

/-- **The interval** contains the index of every element that is addressed. -/
theorem getItv_contains {numElems : ℕ} (hc : Covered o globalES s gep numElems)
    (hin : Inside globalES s gep σ) (h : flattenedIndex o gep σ = some k) (h0 : 0 ≤ k)
    (hk : k < numElems) : ∃ itv g, getItvOfFlattenedElemIndex o globalES s gep = some (itv, g) ∧
      itv.contains k ∧ SameReads globalES g s := by
  have hlimit := hc.limit
  have hMax : (o.MaxFieldLimit.toNat : ℤ) < 2 ^ 32 := by exact_mod_cast o.MaxFieldLimit.toNat_lt
  rw [getItvOfFlattenedElemIndex]
  rw [flattenedIndex] at h
  cases hconst : gep.isConstantOffset with
  | true =>
    have hoffset : computeConstantOffset o gep = some k := by
      rw [computeConstantOffset]
      by_cases hnil : gep.pairs = []
      · rwa [if_pos hnil] at h ⊢
      · rw [if_neg hnil] at h ⊢
        have hops : ∀ pair ∈ gep.pairs, ∃ c, pair.1 = .const c := by
          intro pair hp
          have := all_eq_true.mp hconst pair hp
          cases hop : pair.1 with
          | const c => exact ⟨c, rfl⟩
          | var id =>
            rw [hop] at this
            cases this
        have hfirst := gep.pointerFirst
        have hshort := gep.short
        generalize gep.pairs = pairs at hfirst hshort hops h ⊢
        by_cases hall : ∀ pair ∈ pairs, pair.2 ≠ .pointer
        · exact constantLoop_spec hall hops hshort h
        · obtain ⟨op, tail, rfl, htail⟩ := exists_pointer hfirst hall
          obtain ⟨f, rest, hf, hrest, hk'⟩ := flattenedSum_cons h
          obtain rfl : op.value σ * gep.elemNum.toNat = f := some.inj hf
          obtain ⟨c, hop⟩ := hops _ mem_cons_self
          obtain rfl : op = .const c := hop
          have hlen : tail.length < 2 ^ 31 := lt_of_le_of_lt (Nat.le_succ _) hshort
          have hloop := constantLoop_spec htail (forall_mem_cons.mp hops).2 hlen hrest
          obtain ⟨hlow, hhigh⟩ := pointer_product htail hlen hrest hk' h0
          have hproduct : s64 (c.toInt * gep.elemNum.toNat) = some (c.toInt * gep.elemNum.toNat) :=
            s64_eq hlow (hhigh.trans_lt (by omega))
          have hsum : s64 (rest + c.toInt * gep.elemNum.toNat) = some k := by
            have hval : rest + c.toInt * gep.elemNum.toNat = k := by
              rw [hk', add_comm]
              rfl
            rw [hval, s64_eq (by omega) (by omega)]
          rw [foldrM_cons, hloop, bind_eq_bind, bind_some, constantStep]
          dsimp only
          rw [hproduct, bind_some, hsum]
    rw [if_pos rfl, hoffset, map_some]
    exact ⟨_, _, rfl, IntervalValue.contains_iff.mpr ⟨le_rfl, le_rfl⟩, SameReads.refl globalES s⟩
  | false =>
    have hnil : gep.pairs ≠ [] := by
      intro hnil
      rw [GepStmt.isConstantOffset, hnil] at hconst
      cases hconst
    rw [if_neg hnil] at h
    obtain ⟨L, U, g, hloop, hL, hU, hsame⟩ := pairsLoop_spec hc hconst hin h h0
    rw [if_neg Bool.false_ne_true, hloop, map_some]
    have hmeet : (IntervalValue.meet_with ⟨numeral L, numeral U⟩
        ⟨numeral 0, numeral o.MaxFieldLimit.toNat⟩).contains k := by
      rw [IntervalValue.contains_meet_with]
      simp only [numeral_le]
      omega
    refine ⟨_, g, rfl, ?_, hsame⟩
    dsimp only
    rw [IntervalValue.not_bottom_of_contains hmeet, if_neg Bool.false_ne_true]
    exact hmeet

-- ── The addresses of the fields

/-- The addresses that a pointer is bound to. -/
def Points (g s : IntervalExeState) (pointer : UInt32) (A : Addrs) : Prop :=
  inVarToAddrsTable g s pointer = true ∧ (getAddrs g s pointer).1 = A

variable {objs : Objects} {pointer : UInt32} {A : Addrs}

theorem Points.of_addrs {g' : IntervalExeState} (h : Points g s pointer A)
    (heq : readTables g'.varToAddrs s.varToAddrs pointer =
      readTables g.varToAddrs s.varToAddrs pointer) : Points g' s pointer A := by
  rw [Points, inVarToAddrsTable, getAddrs_eq] at h ⊢
  rwa [heq]

theorem Points.initSVFVar (h : Points g s pointer A) (varId : UInt32) :
    Points (initSVFVar objs g s varId) s pointer A := by
  rw [SvfFieldIndex.initSVFVar]
  by_cases hbound : (inVarToValTable g s varId || inVarToAddrsTable g s varId)
  · rw [if_pos hbound]
    exact h
  · rw [if_neg hbound]
    have hne : pointer ≠ varId := by
      rintro rfl
      exact hbound (by rw [h.1, Bool.or_true])
    cases objs.constant varId with
    | some v => exact h.of_addrs rfl
    | none =>
      refine h.of_addrs ?_
      show readTables (g.varToAddrs.insert varId {getVirtualMemAddress varId}) s.varToAddrs
        pointer = _
      rw [readTables, AList.lookup_insert_ne hne, readTables]

/-- **One offset**: the field of every object is collected. -/
theorem getGepObjAddress_spec (it : Iteration) (objs : Objects) (h : Points g s pointer A) (offset : ℤ) :
    Points (getGepObjAddress it objs g s pointer offset).2 s pointer A ∧
      ∀ addr ∈ A, fieldAddress objs addr offset ∈ (getGepObjAddress it objs g s pointer offset).1 := by
  have hstep : ∀ (acc : Addrs × IntervalExeState) (addr : UInt32),
      addr ∈ it.order (getAddrs g s pointer).1 → Points acc.2 s pointer A →
      Points (addressStep objs s offset acc addr).2 s pointer A ∧
        {x | x ∈ acc.1} ⊆ {x | x ∈ (addressStep objs s offset acc addr).1} ∧
        {fieldAddress objs addr offset} ⊆ {x | x ∈ (addressStep objs s offset acc addr).1} := by
    intro acc addr _ hacc
    rw [addressStep, fieldAddress]
    by_cases hnull : (getInternalID addr == 0)
    · rw [if_pos hnull, if_pos hnull]
      refine ⟨hacc, fun x hx => Finset.mem_insert_of_mem hx, ?_⟩
      rintro x rfl
      exact Finset.mem_insert_self _ _
    · rw [if_neg hnull, if_neg hnull]
      refine ⟨hacc.initSVFVar _, fun x hx => Finset.mem_insert_of_mem hx, ?_⟩
      rintro x rfl
      exact Finset.mem_insert_self _ _
  obtain ⟨hpoints, -, hall⟩ := SvfLoop.foldl_grows _ (∅, g) hstep h
  refine ⟨hpoints, fun addr ha => hall addr (it.mem_order.mpr ?_) rfl⟩
  rw [h.2]
  exact ha

/-- **All offsets**: the fields of all of them are collected. -/
theorem gepLoop_spec (it : Iteration) (objs : Objects) (h : Points g s pointer A) (offsets : List ℤ) :
    ∀ k ∈ offsets, ∀ addr ∈ A,
      fieldAddress objs addr k ∈ (offsets.foldl (gepStep it objs s pointer) (∅, g)).1 := by
  have hstep : ∀ (acc : Addrs × IntervalExeState) (i : ℤ), i ∈ offsets → Points acc.2 s pointer A →
      Points (gepStep it objs s pointer acc i).2 s pointer A ∧
        {x | x ∈ acc.1} ⊆ {x | x ∈ (gepStep it objs s pointer acc i).1} ∧
        {x | ∃ addr ∈ A, fieldAddress objs addr i = x} ⊆
          {x | x ∈ (gepStep it objs s pointer acc i).1} := by
    intro acc i _ hacc
    obtain ⟨hpoints, hall⟩ := getGepObjAddress_spec it objs hacc i
    refine ⟨hpoints, fun x hx => Finset.mem_union_left _ hx, ?_⟩
    rintro x ⟨addr, ha, rfl⟩
    exact Finset.mem_union_right _ (hall addr ha)
  obtain ⟨-, -, hall⟩ := SvfLoop.foldl_grows offsets (∅, g) hstep h
  exact fun k hk addr ha => hall k hk ⟨addr, ha, rfl⟩

theorem mem_upTo {lb ub k : ℤ} (hl : lb ≤ k) (hu : k ≤ ub) : k ∈ upTo lb ub := by
  refine mem_map.mpr ⟨(k - lb).toNat, mem_range.mpr ?_, ?_⟩
  · omega
  · omega

-- ── The gep

/-- What the result of `translateGep` is bound to after an assignment. -/
theorem getAddrs_assignAddrs (g s : IntervalExeState) (lhs : UInt32) (addrs : Addrs) :
    (getAddrs (assignAddrs g s lhs addrs).1 (assignAddrs g s lhs addrs).2 lhs).1 = addrs := by
  rw [getAddrs_eq, assignAddrs, readTables_assign, if_pos rfl, getD_some]

/-- **The addresses** that the result is bound to are those of the fields in the interval. -/
theorem translateGep_spec (it : Iteration) (objs : Objects) {itv : IntervalValue}
    (hbound : inVarToAddrsTable globalES s gep.rhs)
    (hne : (getAddrs globalES s gep.rhs).1 ≠ ∅)
    (hvirtual : ∀ addr ∈ (getAddrs globalES s gep.rhs).1, isVirtualMemAddress addr)
    (hitv : getItvOfFlattenedElemIndex o globalES s gep = some (itv, g))
    (hsame : SameReads globalES g s) (hin : itv.contains k) (h0 : 0 ≤ k)
    (hk : k ≤ o.MaxFieldLimit.toNat) :
    ∃ out, translateGep it o objs globalES s gep = some out ∧
      ∀ addr ∈ (getAddrs globalES s gep.rhs).1,
        fieldAddress objs addr k ∈ (getAddrs out.1 out.2 gep.lhs).1 := by
  have hMax : (o.MaxFieldLimit.toNat : ℤ) < 2 ^ 32 := by exact_mod_cast o.MaxFieldLimit.toNat_lt
  obtain ⟨hl, hu⟩ := IntervalValue.contains_iff.mp hin
  have hlow : Min.min itv.lb.getNumeral (o.MaxFieldLimit.toNat : ℤ) ≤ k :=
    (min_le_left _ _).trans (getNumeral_le hl (by omega))
  have hhigh : k ≤ Min.min itv.ub.getNumeral (o.MaxFieldLimit.toNat : ℤ) :=
    le_min (le_getNumeral hu (by omega)) hk
  have hpoints : Points g s gep.rhs (getAddrs globalES s gep.rhs).1 :=
    Points.of_addrs ⟨hbound, rfl⟩ (by rw [hsame.addrs])
  have hall := gepLoop_spec it objs hpoints _ k (mem_upTo hlow hhigh)
  rw [translateGep, if_pos hbound]
  have horder : ∀ addr, addr ∈ it.order (getAddrs globalES s gep.rhs).1 ↔ _ :=
    fun addr => it.mem_order
  generalize hlist : it.order (getAddrs globalES s gep.rhs).1 = order at horder ⊢
  cases order with
  | nil =>
    obtain ⟨addr, ha⟩ := Finset.nonempty_iff_ne_empty.mpr hne
    cases (horder addr).mpr ha
  | cons first rest =>
    have hfirst := hvirtual first ((horder first).mp mem_cons_self)
    dsimp only
    rw [hitv, map_some, hfirst]
    refine ⟨_, rfl, fun addr ha => ?_⟩
    have hmem := hall addr ha
    rw [if_neg (by decide), if_neg (Finset.ne_empty_of_mem hmem), getAddrs_assignAddrs]
    exact hmem

/-- **Field addressing** covers every element that the indices in their intervals address: if no
    level falls back, its index is in the interval and the addresses of the field are among
    those of the result. -/
theorem gep_covers (it : Iteration) (objs : Objects) {numElems : ℕ}
    (hc : Covered o globalES s gep numElems)
    (hne : inVarToAddrsTable globalES s gep.rhs = true → (getAddrs globalES s gep.rhs).1 ≠ ∅)
    (hvirtual : ∀ addr ∈ (getAddrs globalES s gep.rhs).1, isVirtualMemAddress addr = true) :
    ∀ σ k, Inside globalES s gep σ → flattenedIndex o gep σ = some k → 0 ≤ k → k < numElems →
      ∃ itv g out, getItvOfFlattenedElemIndex o globalES s gep = some (itv, g) ∧
        itv.contains k = true ∧ translateGep it o objs globalES s gep = some out ∧
        ∀ addr ∈ (getAddrs globalES s gep.rhs).1,
          fieldAddress objs addr k ∈ (getAddrs out.1 out.2 gep.lhs).1 := by
  intro σ k hin hflat h0 hk
  obtain ⟨itv, g, hitv, hcontains, hsame⟩ := getItv_contains hc hin hflat h0 hk
  have hlimit := hc.limit
  by_cases hbound : inVarToAddrsTable globalES s gep.rhs
  · obtain ⟨out, hout, hall⟩ := translateGep_spec it objs hbound (hne hbound) hvirtual hitv
      hsame hcontains h0 (by omega)
    exact ⟨itv, g, out, hitv, hcontains, hout, hall⟩
  · refine ⟨itv, g, (globalES, s), hitv, hcontains, ?_, fun addr ha => ?_⟩
    · rw [translateGep, if_neg hbound]
    · exact absurd (bound_of_mem_getAddrs ha) hbound

theorem four_sorted : [0, 1, 2, 3].Pairwise ((· ≤ ·) : UInt32 → UInt32 → Prop) := by decide

/-- The layout of an array of four elements. -/
def four : StInfo where
  fldIdxVec := [0]
  elemIdxVec := [0, 1, 2, 3]
  sorted := four_sorted
  covers := Nat.le_add_left 1 3

theorem four_pointerFirst : ∀ pair ∈ [(Operand.const 0, GepType.pointer), (.var 2, .array four)].tail,
    pair.2 ≠ .pointer := by
  rintro pair hp
  obtain rfl := mem_singleton.mp hp
  exact nofun

theorem four_short : [(Operand.const 0, GepType.pointer), (.var 2, .array four)].length < 2 ^ 31 := by
  decide

def element : GepStmt where
  lhs := 5
  rhs := 1
  pairs := [(.const 0, .pointer), (.var 2, .array four)]
  elemNum := 4
  fldIdx := 0
  pointerFirst := four_pointerFirst
  short := four_short

/-- Variable `1` points to object `3`, and variable `2` is bound to an interval. -/
def indexed (a : IntervalValue) : IntervalExeState where
  varToItvVal := (∅ : Table UInt32 IntervalValue).insert 2 a
  locToItvVal := ∅
  varToAddrs := (∅ : Table UInt32 Addrs).insert 1 {0x7f000003}
  locToAddrs := ∅

theorem getAddrs_indexed (a : IntervalValue) : (getAddrs unbound (indexed a) 1).1 = {0x7f000003} := by
  rw [getAddrs_value, indexed, AList.lookup_insert, getD_some]

theorem subscript_indexed (a : IntervalValue) : (subscript unbound (indexed a) 2).1 = a := by
  rw [subscript_value, indexed, AList.lookup_insert, getD_some]

def options : Options := ⟨512, true⟩

theorem inside_indexed {a : IntervalValue} {σ : UInt32 → Int64}
    (h : a.contains (σ 2).toInt) : Inside unbound (indexed a) element σ := by
  intro id T hmem
  rcases mem_cons.mp hmem with heq | hmem
  · cases heq
  · cases mem_singleton.mp hmem
    rwa [subscript_indexed]

theorem gep_covers_inner : ∃ itv g out,
    getItvOfFlattenedElemIndex options unbound (indexed ⟨numeral 1, numeral 2⟩) element =
      some (itv, g) ∧ itv.contains 1 = true ∧
    translateGep sorted options ⟨fun _ k => k.toNat.toUInt32, fun _ => none⟩ unbound
      (indexed ⟨numeral 1, numeral 2⟩) element = some out ∧
    ∀ addr ∈ (getAddrs unbound (indexed ⟨numeral 1, numeral 2⟩) element.rhs).1,
      fieldAddress ⟨fun _ k => k.toNat.toUInt32, fun _ => none⟩ addr 1 ∈
        (getAddrs out.1 out.2 element.lhs).1 := by
  have hcovered : Covered options unbound (indexed ⟨numeral 1, numeral 2⟩) element 4 := by
    constructor
    case limit => decide
    case pointer =>
      intro id hmem
      rcases mem_cons.mp hmem with heq | hmem
      · cases heq
      · cases mem_singleton.mp hmem
    case levels =>
      intro _ pair hp hne
      rcases mem_cons.mp hp with rfl | hp
      · exact absurd rfl hne
      · rw [mem_singleton.mp hp]
        refine .inr ⟨rfl, ?_⟩
        rw [indexBounds]
        dsimp only
        rw [subscript_indexed]
        decide
  refine gep_covers sorted _ hcovered (fun _ => ?_) (fun addr ha => ?_) (fun _ => 1) 1
    (inside_indexed (by decide)) ?_ (by decide) (by decide)
  · exact getAddrs_indexed _ ▸ Finset.singleton_ne_empty _
  · have ha' := getAddrs_indexed _ ▸ ha
    rw [Finset.mem_singleton.mp ha']
    decide +kernel
  · decide +kernel

/-- An index between `2` and `5`: the third element is addressed for `2`, but the interval holds
    the first one only. -/
theorem gep_loses_inner : ∃ σ g, Inside unbound (indexed ⟨numeral 2, numeral 5⟩) element σ ∧
    flattenedIndex options element σ = some 2 ∧
    getItvOfFlattenedElemIndex options unbound (indexed ⟨numeral 2, numeral 5⟩) element =
      some (⟨numeral 0, numeral 0⟩, g) ∧
    IntervalValue.contains ⟨numeral 0, numeral 0⟩ 2 = false := by
  refine ⟨fun _ => 2, unbound, inside_indexed (by decide), by decide +kernel, ?_, by decide⟩
  rfl

end SvfFieldIndex
