import SvfModel.IntervalLatticeProofs
import SvfModel.StoreLoadProofs

/-!
# `translateCopy`: casts of intervals

A copy into a variable of an integer type meets the interval with the range of the type. A cast
does something else: it keeps the low bits of a number, or extends them, and reads what comes
out as a number of the new type. On the numbers of an interval it is piecewise a translation.
The heart is `of_starts` and `of_ends`: a bound holds of all casts if it holds at the first and
at the last number of each piece. So the meet is sound exactly where at each of these ends the
cast has not left the interval, nor the range that the code takes for the type
(**`cast_sound_iff`**).
-/

namespace SvfInterval

open NumericLiteral

-- ── Integer types

structure SVFIntegerType where
  byteSize : UInt32
  signAndWidth : Int16

namespace SVFIntegerType

section

variable (t : SVFIntegerType)

def isSigned : Bool := t.signAndWidth < 0

def width : ℕ := t.signAndWidth.toInt.natAbs

/-- The number that some bits stand for. -/
def value (v : BitVec t.width) : ℤ := if t.isSigned then v.toInt else v.toNat

def bits (x : ℤ) : BitVec t.width := BitVec.ofInt t.width x

end

variable (t : SVFIntegerType)

theorem bits_value (v : BitVec t.width) : t.bits (t.value v) = v := by
  rw [bits, value]
  cases t.isSigned with
  | true => rw [if_pos rfl, BitVec.ofInt_toInt]
  | false => rw [if_neg Bool.false_ne_true, BitVec.ofInt_natCast, BitVec.ofNat_toNat, BitVec.setWidth_eq]

theorem value_bounds (v : BitVec t.width) : -2 ^ t.width ≤ t.value v ∧ t.value v ≤ 2 ^ t.width := by
  have hpos : (0 : ℤ) < 2 ^ t.width := by positivity
  rw [value]
  cases t.isSigned with
  | true =>
    rw [if_pos rfl]
    have hlow := BitVec.le_two_mul_toInt (x := v)
    have hhigh := BitVec.two_mul_toInt_lt (x := v)
    constructor <;> omega
  | false =>
    rw [if_neg Bool.false_ne_true]
    have hlt : (v.toNat : ℤ) < 2 ^ t.width := by exact_mod_cast v.isLt
    constructor <;> omega

end SVFIntegerType

inductive SVFType where
  | pointer
  | integer (t : SVFIntegerType)
  | function
  | struct
  | array
  | other

def getRangeLimitFromType : SVFType → Option IntervalValue
  | .integer t =>
    let bits := t.byteSize * 8
    if bits ≥ 32 then
      if t.isSigned then some ⟨numeral (-2147483648), numeral 2147483647⟩
      else some ⟨numeral 0, numeral 4294967295⟩
    else if bits == 16 then
      if t.isSigned then some ⟨numeral (-32768), numeral 32767⟩
      else some ⟨numeral 0, numeral 65535⟩
    else if bits == 8 then
      if t.isSigned then some ⟨numeral (-128), numeral 127⟩
      else some ⟨numeral 0, numeral 255⟩
    else some ⟨numeral 0, numeral 0⟩
  | .other => some ⟨numeral (-2147483648), numeral 2147483647⟩
  | _ => none

theorem exists_range (t : SVFIntegerType) : ∃ range, getRangeLimitFromType (.integer t) = some range := by
  rw [getRangeLimitFromType]
  split_ifs <;> exact ⟨_, rfl⟩

namespace IntervalExeState

/-- `translateCopy(copy)` for `lhs = rhs` with a left side of type `lhsType`: the global and the
    local state after it. -/
def translateCopy (isBlkPtr : UInt32 → Bool) (lhsType : SVFType)
    (globalES s : IntervalExeState) (lhs rhs : UInt32) :
    Option (IntervalExeState × IntervalExeState) :=
  if isBlkPtr lhs then some (assignVal globalES s lhs IntervalValue.top)
  else if inVarToValTable globalES s rhs then
    let copied := assignVal globalES s lhs (subscript globalES s rhs).1
    match lhsType with
    | .integer t => (getRangeLimitFromType (.integer t)).map fun range =>
      assignVal copied.1 copied.2 lhs ((subscript copied.1 copied.2 lhs).1.meet_with range)
    | _ => some copied
  else if inVarToAddrsTable globalES s rhs then
    if (getAddrs globalES s rhs).1 = ∅ then none
    else some (assignAddrs globalES s lhs (getAddrs globalES s rhs).1)
  else some (globalES, s)

theorem subscript_assignVal (globalES s : IntervalExeState) (id : UInt32) (val : IntervalValue) :
    (subscript (assignVal globalES s id val).1 (assignVal globalES s id val).2 id).1 = val := by
  rw [subscript_eq, assignVal, readTables_assign, if_pos rfl, Option.getD_some]

end IntervalExeState

-- ── Casts

/-- How a cast fills the bits of a wider type. A narrower type takes the low bits. -/
inductive Extension where
  | zero
  | sign

def Extension.cast {w : ℕ} : Extension → BitVec w → (w' : ℕ) → BitVec w'
  | zero, v, w' => v.setWidth w'
  | sign, v, w' => v.signExtend w'

section Casts

variable (ext : Extension) (src dst : SVFIntegerType) (a : IntervalValue)

def castInt (x : ℤ) : ℤ := dst.value (ext.cast (src.bits x) dst.width)

def CastSound (b : IntervalValue) : Prop :=
  ∀ v : BitVec src.width, a.contains (src.value v) = true →
    b.contains (dst.value (ext.cast v dst.width)) = true

/-- A number of the interval that the source type has. -/
def Holds (x : ℤ) : Prop := a.contains x = true ∧ src.value (src.bits x) = x

def GoesOn (x : ℤ) : Prop :=
  Holds src a x ∧ Holds src a (x + 1) ∧ castInt ext src dst (x + 1) = castInt ext src dst x + 1

/-- Where a piece of the cast starts it is not below, and where one ends it is not above the
    interval and the range. -/
structure EndsStay (range : IntervalValue) : Prop where
  starts : ∀ x, Holds src a x → ¬ GoesOn ext src dst a (x - 1) →
    a.lb ≤ numeral (castInt ext src dst x) ∧ range.lb ≤ numeral (castInt ext src dst x)
  ends : ∀ x, Holds src a x → ¬ GoesOn ext src dst a x →
    numeral (castInt ext src dst x) ≤ a.ub ∧ numeral (castInt ext src dst x) ≤ range.ub

variable {ext src dst a}

theorem Holds.bounds {x : ℤ} (h : Holds src a x) : -2 ^ src.width ≤ x ∧ x ≤ 2 ^ src.width := by
  have := src.value_bounds (src.bits x)
  rwa [h.2] at this

/-- **What holds at the starts** and goes up holds of every number. The induction is on the
    distance from the least number of the type. -/
theorem of_starts {P : ℤ → Prop} (hup : ∀ n, P n → P (n + 1))
    (h : ∀ x, Holds src a x → ¬ GoesOn ext src dst a (x - 1) → P (castInt ext src dst x)) :
    ∀ x, Holds src a x → P (castInt ext src dst x) := by
  have hdist : ∀ (n : ℕ) (x : ℤ), x + 2 ^ src.width = n → Holds src a x →
      P (castInt ext src dst x) := by
    intro n
    induction n with
    | zero =>
      intro x hx hh
      refine h x hh fun hgo => ?_
      have := hgo.1.bounds
      omega
    | succ n ih =>
      intro x hx hh
      by_cases hgo : GoesOn ext src dst a (x - 1)
      · have hprev := ih (x - 1) (by push_cast at hx; omega) hgo.1
        have hnext := hgo.2.2
        rw [sub_add_cancel] at hnext
        exact hnext ▸ hup _ hprev
      · exact h x hh hgo
  intro x hh
  have := hh.bounds
  exact hdist (x + 2 ^ src.width).toNat x (by omega) hh

/-- **What holds at the ends** and goes down holds of every number. -/
theorem of_ends {P : ℤ → Prop} (hdown : ∀ n, P (n + 1) → P n)
    (h : ∀ x, Holds src a x → ¬ GoesOn ext src dst a x → P (castInt ext src dst x)) :
    ∀ x, Holds src a x → P (castInt ext src dst x) := by
  have hdist : ∀ (n : ℕ) (x : ℤ), 2 ^ src.width - x = n → Holds src a x →
      P (castInt ext src dst x) := by
    intro n
    induction n with
    | zero =>
      intro x hx hh
      refine h x hh fun hgo => ?_
      have := hgo.2.1.bounds
      omega
    | succ n ih =>
      intro x hx hh
      by_cases hgo : GoesOn ext src dst a x
      · have hnext := ih (x + 1) (by push_cast at hx; omega) hgo.2.1
        exact hdown _ (hgo.2.2 ▸ hnext)
      · exact h x hh hgo
  intro x hh
  have := hh.bounds
  exact hdist (2 ^ src.width - x).toNat x (by omega) hh

theorem castSound_iff_holds {b : IntervalValue} :
    CastSound ext src dst a b ↔ ∀ x, Holds src a x → b.contains (castInt ext src dst x) := by
  constructor
  · rintro h x ⟨hx, hval⟩
    exact h (src.bits x) (hval.symm ▸ hx)
  · intro h v hv
    have := h (src.value v) ⟨hv, by rw [src.bits_value]⟩
    rwa [castInt, src.bits_value] at this

theorem castSound_meet_iff {range : IntervalValue} :
    CastSound ext src dst a (a.meet_with range) ↔ EndsStay ext src dst a range := by
  rw [castSound_iff_holds]
  simp only [IntervalValue.contains_meet_with]
  constructor
  · intro h
    exact ⟨fun x hx _ => ⟨(h x hx).1.1, (h x hx).2.1⟩, fun x hx _ => ⟨(h x hx).1.2, (h x hx).2.2⟩⟩
  · intro h x hx
    have hlow := of_starts (P := fun n => a.lb ≤ numeral n ∧ range.lb ≤ numeral n)
      (fun n hn => ⟨hn.1.trans (numeral_le.mpr (by omega)), hn.2.trans (numeral_le.mpr (by omega))⟩)
      h.starts x hx
    have hhigh := of_ends (P := fun n => numeral n ≤ a.ub ∧ numeral n ≤ range.ub)
      (fun n hn => ⟨(numeral_le.mpr (by omega)).trans hn.1, (numeral_le.mpr (by omega)).trans hn.2⟩)
      h.ends x hx
    exact ⟨⟨hlow.1, hhigh.1⟩, hlow.2, hhigh.2⟩

end Casts

namespace IntervalExeState

theorem translateCopy_integer (isBlkPtr : UInt32 → Bool) {globalES s : IntervalExeState}
    {lhs rhs : UInt32} {dst : SVFIntegerType} {range : IntervalValue}
    (hblk : isBlkPtr lhs = false) (h : inVarToValTable globalES s rhs)
    (hrange : getRangeLimitFromType (.integer dst) = some range) :
    ∃ out, translateCopy isBlkPtr (.integer dst) globalES s lhs rhs = some out ∧
      (subscript out.1 out.2 lhs).1 = (subscript globalES s rhs).1.meet_with range := by
  rw [translateCopy, hblk, if_neg Bool.false_ne_true, if_pos h]
  dsimp only
  rw [hrange, Option.map_some]
  exact ⟨_, rfl, by rw [subscript_assignVal, subscript_assignVal]⟩

/-- **A copy** of an interval into a variable of an integer type holds the cast of every value
    exactly if the variable is the black hole, or if the ends of the pieces stay. -/
theorem cast_sound_iff (isBlkPtr : UInt32 → Bool) {globalES s : IntervalExeState}
    (lhs : UInt32) {rhs : UInt32} (ext : Extension) (src dst : SVFIntegerType)
    (h : inVarToValTable globalES s rhs = true) :
    ∃ out range, translateCopy isBlkPtr (.integer dst) globalES s lhs rhs = some out ∧
      getRangeLimitFromType (.integer dst) = some range ∧
      (CastSound ext src dst (subscript globalES s rhs).1 (subscript out.1 out.2 lhs).1 ↔
        isBlkPtr lhs = true ∨ EndsStay ext src dst (subscript globalES s rhs).1 range) := by
  obtain ⟨range, hrange⟩ := exists_range dst
  cases hblk : isBlkPtr lhs with
  | true =>
    refine ⟨assignVal globalES s lhs IntervalValue.top, range, ?_, hrange, ?_⟩
    · rw [translateCopy, if_pos hblk]
    · rw [subscript_assignVal]
      exact iff_of_true (fun v _ => IntervalValue.contains_top _) (.inl rfl)
  | false =>
    obtain ⟨out, hout, hval⟩ := translateCopy_integer isBlkPtr hblk h hrange
    refine ⟨out, range, hout, hrange, ?_⟩
    rw [hval, castSound_meet_iff, or_iff_right Bool.false_ne_true]

def i32 : SVFIntegerType := ⟨4, -32⟩

def i8 : SVFIntegerType := ⟨1, -8⟩

theorem range_i8 : getRangeLimitFromType (.integer i8) = some ⟨numeral (-128), numeral 127⟩ := by
  decide +kernel

/-- Variable `2` is bound to an interval. -/
def binding (a : IntervalValue) : IntervalExeState where
  varToItvVal := (∅ : Table UInt32 IntervalValue).insert 2 a
  locToItvVal := ∅
  varToAddrs := ∅
  locToAddrs := ∅

theorem bound_binding (a : IntervalValue) : inVarToValTable unbound (binding a) 2 := rfl

theorem subscript_binding (a : IntervalValue) : (subscript unbound (binding a) 2).1 = a := by
  rw [subscript_value, binding, AList.lookup_insert, Option.getD_some]

theorem cast_sound_five : ∃ out, translateCopy (fun _ => false) (.integer i8) unbound
      (binding ⟨numeral 5, numeral 5⟩) 1 2 = some out ∧
    CastSound .sign i32 i8 ⟨numeral 5, numeral 5⟩ (subscript out.1 out.2 1).1 := by
  obtain ⟨out, range, hout, hrange, hiff⟩ := cast_sound_iff (fun _ => false) 1 .sign i32 i8
    (bound_binding ⟨numeral 5, numeral 5⟩)
  rw [subscript_binding] at hiff
  obtain rfl : ⟨numeral (-128), numeral 127⟩ = range := Option.mem_unique range_i8 hrange
  have hcast : ∀ x, Holds i32 ⟨numeral 5, numeral 5⟩ x → castInt .sign i32 i8 x = 5 := by
    intro x hx
    obtain ⟨hl, hu⟩ := IntervalValue.contains_iff.mp hx.1
    obtain rfl : x = 5 := le_antisymm (numeral_le.mp hu) (numeral_le.mp hl)
    decide +kernel
  refine ⟨out, hout, hiff.mpr (.inr ⟨fun x hx _ => ?_, fun x hx _ => ?_⟩)⟩
  · rw [hcast x hx]
    exact ⟨le_rfl, numeral_le.mpr (by decide)⟩
  · rw [hcast x hx]
    exact ⟨le_rfl, numeral_le.mpr (by decide)⟩

/-- `200` cast from `32` to `8` bits is `-56`; the copy of `[200, 200]` is bottom. -/
theorem cast_not_sound_wraps : ∃ out, translateCopy (fun _ => false) (.integer i8) unbound
      (binding ⟨numeral 200, numeral 200⟩) 1 2 = some out ∧
    (subscript out.1 out.2 1).1 = IntervalValue.bottom ∧
    ¬ CastSound .sign i32 i8 ⟨numeral 200, numeral 200⟩ (subscript out.1 out.2 1).1 := by
  have hblk : (fun _ : UInt32 => false) 1 = false := rfl
  obtain ⟨out, hout, hval⟩ := translateCopy_integer (fun _ => false) hblk
    (bound_binding ⟨numeral 200, numeral 200⟩) range_i8
  have hbottom : (subscript out.1 out.2 1).1 = IntervalValue.bottom := by
    rw [hval, subscript_binding]
    decide
  refine ⟨out, hout, hbottom, fun hsound => ?_⟩
  rw [hbottom] at hsound
  exact IntervalValue.not_contains_of_isBottom rfl (hsound (i32.bits 200) (by decide +kernel))

end IntervalExeState

end SvfInterval
