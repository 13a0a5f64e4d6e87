import SvfModel.IntervalValueProofs

/-!
# Interval arithmetic

The operators of `NumericLiteral` work on bounds, infinities included, and abort where an
infinite sum or a quotient has no value; the operators of `IntervalValue` put them together.

The heart is that a product is monotone in a bound when the other is not negative, with zero
times infinity as zero (`mul_le_mul_right`): so a product of members lies between the four
products of the bounds (`mul_between`). Sums never abort, as a lower bound is not "+oo" and an
upper bound is not "-oo" (**`arithmetic_sound`**). A quotient is the Euclidean one, and the
program's is truncated: the two differ for a negative dividend that the divisor does not divide
(**`division_sound_iff`**).
-/

namespace SvfInterval

namespace NumericLiteral

-- ── Bounds

def is_infinity : NumericLiteral → Bool
  | numeral _ => false
  | _ => true

def is_zero : NumericLiteral → Bool
  | numeral n => decide (n = 0)
  | _ => false

/-- `operator-(lhs)` -/
def neg : NumericLiteral → NumericLiteral
  | minus_infinity => plus_infinity
  | numeral n => numeral (-n)
  | plus_infinity => minus_infinity

/-- `operator+`. It aborts on "+oo + -oo". -/
def add : NumericLiteral → NumericLiteral → Option NumericLiteral
  | numeral m, numeral n => some (numeral (m + n))
  | numeral _, rhs => some rhs
  | lhs, numeral _ => some lhs
  | lhs, rhs => if lhs = rhs then some lhs else none

/-- `operator-(lhs, rhs)`. It aborts on "+oo - +oo". -/
def sub : NumericLiteral → NumericLiteral → Option NumericLiteral
  | numeral m, numeral n => some (numeral (m - n))
  | numeral _, rhs => some rhs.neg
  | lhs, numeral _ => some lhs
  | lhs, rhs => if lhs ≠ rhs then some lhs else none

section

variable (lhs rhs : NumericLiteral)

def mul : NumericLiteral :=
  if lhs.is_zero || rhs.is_zero then numeral 0
  else match lhs, rhs with
    | numeral m, numeral n => numeral (m * n)
    | lhs, numeral n => if !(numeral n).leq (numeral 0) then lhs else lhs.neg
    | numeral m, rhs => if !(numeral m).leq (numeral 0) then rhs else rhs.neg
    | lhs, rhs => if lhs = rhs then plus_infinity else minus_infinity

/-- `operator/`. It aborts on a divisor that is zero. The quotient of integers is that of the
    solver, with a remainder that is not negative. -/
def div : Option NumericLiteral :=
  if rhs.is_zero then none
  else match lhs, rhs with
    | numeral m, numeral n => some (numeral (m / n))
    | numeral _, _ => some (numeral 0)
    | lhs, numeral n => some (if !(numeral n).leq (numeral 0) then lhs else lhs.neg)
    | lhs, rhs => some (if lhs = rhs then plus_infinity else minus_infinity)

/-- `operator%`. It aborts on a divisor that is zero. -/
def mod : Option NumericLiteral :=
  if rhs.is_zero then none
  else match lhs, rhs with
    | numeral m, numeral n => some (numeral (m % n))
    | numeral _, _ => some (numeral 0)
    | lhs, numeral n => some (if !(numeral n).leq (numeral 0) then lhs else lhs.neg)
    | lhs, rhs => some (if lhs = rhs then plus_infinity else minus_infinity)

end

theorem mul_zero_literal (a : NumericLiteral) : a.mul (numeral 0) = numeral 0 := by
  cases a <;> simp [mul, is_zero]

theorem numeral_mul (m n : ℤ) : (numeral m).mul (numeral n) = numeral (m * n) := by
  rw [mul]
  split
  case isTrue h =>
    rcases Bool.or_eq_true_iff.mp h with h | h
    · rw [of_decide_eq_true h, Int.zero_mul]
    · rw [of_decide_eq_true h, Int.mul_zero]
  case isFalse => rfl

def abs (lhs : NumericLiteral) : NumericLiteral :=
  if lhs.leq (numeral 0) then lhs.neg else lhs

def minFrom : NumericLiteral → List NumericLiteral → NumericLiteral
  | ret, [] => ret
  | ret, it :: l =>
    if it = minus_infinity then minus_infinity
    else if !it.geq ret then minFrom it l
    else minFrom ret l

def minOf (l : List NumericLiteral) : NumericLiteral := minFrom plus_infinity l

def maxFrom : NumericLiteral → List NumericLiteral → NumericLiteral
  | ret, [] => ret
  | ret, it :: l =>
    if it = plus_infinity then plus_infinity
    else if !it.leq ret then maxFrom it l
    else maxFrom ret l

def maxOf (l : List NumericLiteral) : NumericLiteral := maxFrom minus_infinity l

/-- `getNumeral()`: a number that has more than 64 bits, or an infinity, is the last number on
    its side. -/
def getNumeral : NumericLiteral → ℤ
  | minus_infinity => -2 ^ 63
  | numeral n => Max.max (-2 ^ 63) (Min.min n (2 ^ 63 - 1))
  | plus_infinity => 2 ^ 63 - 1

variable {a b c : NumericLiteral}

theorem plus_le : plus_infinity ≤ a ↔ a = plus_infinity := by
  constructor
  · exact fun h => le_antisymm (le_plus_infinity a) h
  · rintro rfl
    exact le_rfl

theorem le_minus : a ≤ minus_infinity ↔ a = minus_infinity := by
  constructor
  · exact fun h => le_antisymm h (minus_infinity_le a)
  · rintro rfl
    exact le_rfl

@[simp] theorem neg_neg_literal (a : NumericLiteral) : a.neg.neg = a := by
  cases a with
  | minus_infinity => rfl
  | numeral n => exact congrArg numeral (neg_neg n)
  | plus_infinity => rfl

theorem neg_le_neg_iff : a.neg ≤ b.neg ↔ b ≤ a := by
  cases a <;> cases b <;> simp [neg]

theorem neg_le : a.neg ≤ b ↔ b.neg ≤ a := by
  rw [← neg_le_neg_iff, neg_neg_literal]

theorem le_neg : a ≤ b.neg ↔ b ≤ a.neg := by
  rw [← neg_le_neg_iff, neg_neg_literal]

theorem neg_numeral (n : ℤ) : (numeral n).neg = numeral (-n) := rfl

-- ── The least and the greatest of a list

theorem le_minFrom (l : List NumericLiteral) : ∀ ret : NumericLiteral,
    c ≤ minFrom ret l ↔ c ≤ ret ∧ ∀ it ∈ l, c ≤ it := by
  induction l with
  | nil => exact fun ret => ⟨fun h => ⟨h, nofun⟩, fun h => h.1⟩
  | cons it l ih =>
    intro ret
    rw [minFrom, List.forall_mem_cons]
    split
    case isTrue hminus =>
      subst hminus
      constructor
      · intro h
        rw [le_minus.mp h]
        simp
      · exact fun h => h.2.1
    case isFalse =>
      split
      case isTrue hlt =>
        have hle : it ≤ ret := by
          refine le_of_not_ge fun hge => ?_
          rw [geq_iff.mpr hge] at hlt
          exact Bool.false_ne_true hlt
        rw [ih it]
        exact ⟨fun h => ⟨h.1.trans hle, h⟩, fun h => h.2⟩
      case isFalse hge =>
        have hle : ret ≤ it := by
          simpa [geq_iff] using hge
        rw [ih ret]
        exact ⟨fun h => ⟨h.1, h.1.trans hle, h.2⟩, fun h => ⟨h.1, h.2.2⟩⟩

theorem maxFrom_le (l : List NumericLiteral) : ∀ ret : NumericLiteral,
    maxFrom ret l ≤ c ↔ ret ≤ c ∧ ∀ it ∈ l, it ≤ c := by
  induction l with
  | nil => exact fun ret => ⟨fun h => ⟨h, nofun⟩, fun h => h.1⟩
  | cons it l ih =>
    intro ret
    rw [maxFrom, List.forall_mem_cons]
    split
    case isTrue hplus =>
      subst hplus
      constructor
      · intro h
        rw [plus_le.mp h]
        simp
      · exact fun h => h.2.1
    case isFalse =>
      split
      case isTrue hlt =>
        have hle : ret ≤ it := by
          refine le_of_not_ge fun hge => ?_
          rw [leq_iff.mpr hge] at hlt
          exact Bool.false_ne_true hlt
        rw [ih it]
        exact ⟨fun h => ⟨hle.trans h.1, h⟩, fun h => h.2⟩
      case isFalse hge =>
        have hle : it ≤ ret := by
          simpa [leq_iff] using hge
        rw [ih ret]
        exact ⟨fun h => ⟨h.1, hle.trans h.1, h.2⟩, fun h => ⟨h.1, h.2.2⟩⟩

section

variable {l : List NumericLiteral}

theorem le_minOf : c ≤ minOf l ↔ ∀ it ∈ l, c ≤ it := by
  rw [minOf, le_minFrom]
  exact and_iff_right (le_plus_infinity c)

theorem maxOf_le : maxOf l ≤ c ↔ ∀ it ∈ l, it ≤ c := by
  rw [maxOf, maxFrom_le]
  exact and_iff_right (minus_infinity_le c)

theorem minOf_le (h : a ∈ l) : minOf l ≤ a := le_minOf.mp le_rfl a h

theorem le_maxOf (h : a ∈ l) : a ≤ maxOf l := maxOf_le.mp le_rfl a h

end

-- ── Sums

theorem add_of_lower (ha : a ≠ plus_infinity) (hb : b ≠ plus_infinity) :
    ∃ c, a.add b = some c ∧ ∀ m n, a ≤ numeral m → b ≤ numeral n → c ≤ numeral (m + n) := by
  cases a with
  | plus_infinity => exact absurd rfl ha
  | minus_infinity =>
    cases b with
    | plus_infinity => exact absurd rfl hb
    | minus_infinity => exact ⟨minus_infinity, rfl, fun _ _ _ _ => minus_infinity_le _⟩
    | numeral n => exact ⟨minus_infinity, rfl, fun _ _ _ _ => minus_infinity_le _⟩
  | numeral m =>
    cases b with
    | plus_infinity => exact absurd rfl hb
    | minus_infinity => exact ⟨minus_infinity, rfl, fun _ _ _ _ => minus_infinity_le _⟩
    | numeral n =>
      refine ⟨numeral (m + n), rfl, fun m' n' hm hn => ?_⟩
      rw [numeral_le] at *
      omega

theorem neg_eq_iff : a.neg = b ↔ a = b.neg := by
  constructor
  · rintro rfl
    exact (neg_neg_literal a).symm
  · rintro rfl
    exact neg_neg_literal b

theorem add_neg_literal (a b : NumericLiteral) : a.neg.add b.neg = (a.add b).map neg := by
  cases a <;> cases b <;> simp [add, neg]
  omega

theorem add_of_upper (ha : a ≠ minus_infinity) (hb : b ≠ minus_infinity) :
    ∃ c, a.add b = some c ∧ ∀ m n, numeral m ≤ a → numeral n ≤ b → numeral (m + n) ≤ c := by
  obtain ⟨c, hc, hlow⟩ := add_of_lower (fun h => ha (neg_eq_iff.mp h)) fun h => hb (neg_eq_iff.mp h)
  rw [add_neg_literal] at hc
  obtain ⟨d, hd, rfl⟩ := Option.map_eq_some_iff.mp hc
  refine ⟨d, hd, fun m n hm hn => ?_⟩
  have hle := hlow (-m) (-n) (neg_le_neg_iff.mpr hm) (neg_le_neg_iff.mpr hn)
  rw [← neg_add] at hle
  exact neg_le_neg_iff.mp hle

theorem sub_eq (a b : NumericLiteral) : a.sub b = a.add b.neg := by
  cases a <;> cases b <;> simp [sub, add, neg, sub_eq_add_neg]

-- ── Products

theorem mul_swap (a b : NumericLiteral) : a.mul b = b.mul a := by
  cases a with
  | minus_infinity => cases b <;> simp [mul, is_zero]
  | plus_infinity => cases b <;> simp [mul, is_zero]
  | numeral m =>
    cases b with
    | minus_infinity => simp [mul, is_zero]
    | plus_infinity => simp [mul, is_zero]
    | numeral n => rw [numeral_mul, numeral_mul, Int.mul_comm]

theorem plus_mul_pos {n : ℤ} (h : 0 < n) : plus_infinity.mul (numeral n) = plus_infinity := by
  simp [mul, is_zero, leq, h.ne', h]

theorem minus_mul_pos {n : ℤ} (h : 0 < n) : minus_infinity.mul (numeral n) = minus_infinity := by
  simp [mul, is_zero, leq, h.ne', h]

theorem numeral_mul_plus {n : ℤ} (h : 0 < n) : (numeral n).mul plus_infinity = plus_infinity := by
  rw [mul_swap, plus_mul_pos h]

theorem neg_mul_literal (a b : NumericLiteral) : a.neg.mul b = (a.mul b).neg := by
  cases a with
  | numeral m =>
    cases b with
    | numeral n => rw [neg_numeral, numeral_mul, numeral_mul, neg_numeral, neg_mul]
    | plus_infinity =>
      rcases lt_trichotomy m 0 with h | rfl | h
      · simp [mul, is_zero, leq, neg, h.ne, h.le, h]
      · rfl
      · simp [mul, is_zero, leq, neg, h.ne', h.le, h]
    | minus_infinity =>
      rcases lt_trichotomy m 0 with h | rfl | h
      · simp [mul, is_zero, leq, neg, h.ne, h.le, h]
      · rfl
      · simp [mul, is_zero, leq, neg, h.ne', h.le, h]
  | plus_infinity =>
    cases b with
    | numeral n => by_cases h : n = 0 <;> by_cases h' : n ≤ 0 <;> simp [mul, is_zero, leq, neg, h, h']
    | plus_infinity => rfl
    | minus_infinity => rfl
  | minus_infinity =>
    cases b with
    | numeral n => by_cases h : n = 0 <;> by_cases h' : n ≤ 0 <;> simp [mul, is_zero, leq, neg, h, h']
    | plus_infinity => rfl
    | minus_infinity => rfl

theorem mul_neg_literal (a b : NumericLiteral) : a.mul b.neg = (a.mul b).neg := by
  rw [mul_swap, neg_mul_literal, mul_swap]

/-- **A product is monotone** in one bound when the other is not negative. -/
theorem mul_le_mul_right (h : a ≤ b) (hc : numeral 0 ≤ c) : a.mul c ≤ b.mul c := by
  cases c with
  | minus_infinity => exact absurd hc (not_numeral_le_minus 0)
  | numeral n =>
    rcases eq_or_lt_of_le (numeral_le.mp hc) with rfl | hn
    · rw [mul_zero_literal, mul_zero_literal]
    · cases a with
      | minus_infinity =>
        rw [minus_mul_pos hn]
        exact minus_infinity_le _
      | plus_infinity => rw [plus_le.mp h]
      | numeral m =>
        cases b with
        | minus_infinity => exact absurd h (not_numeral_le_minus m)
        | plus_infinity =>
          rw [plus_mul_pos hn]
          exact le_plus_infinity _
        | numeral m' =>
          rw [numeral_mul, numeral_mul, numeral_le]
          exact Int.mul_le_mul_of_nonneg_right (numeral_le.mp h) hn.le
  | plus_infinity =>
    -- A product with "+oo" has the sign of the other bound.
    cases a with
    | minus_infinity => exact minus_infinity_le _
    | plus_infinity => rw [plus_le.mp h]
    | numeral m =>
      rcases lt_trichotomy m 0 with hm | rfl | hm
      · have hminus : (numeral m).mul plus_infinity = minus_infinity := by
          rw [← neg_neg m, ← neg_numeral, neg_mul_literal, numeral_mul_plus (by omega)]
          rfl
        rw [hminus]
        exact minus_infinity_le _
      · cases b with
        | minus_infinity => exact absurd h (not_numeral_le_minus 0)
        | plus_infinity => exact le_plus_infinity _
        | numeral m' =>
          rcases eq_or_lt_of_le (numeral_le.mp h) with rfl | hm'
          · exact le_rfl
          · rw [numeral_mul_plus hm']
            exact le_plus_infinity _
      · cases b with
        | minus_infinity => exact absurd h (not_numeral_le_minus m)
        | plus_infinity => exact le_plus_infinity _
        | numeral m' =>
          rw [numeral_mul_plus (hm.trans_le (numeral_le.mp h))]
          exact le_plus_infinity _

theorem mul_le_mul_left_of_nonpos (h : a ≤ b) (hc : c ≤ numeral 0) : b.mul c ≤ a.mul c := by
  have hneg : numeral 0 ≤ c.neg := by
    rw [← neg_le_neg_iff] at hc
    exact hc
  have hle := mul_le_mul_right h hneg
  rwa [mul_neg_literal, mul_neg_literal, neg_le_neg_iff] at hle

theorem mul_between {l u x : NumericLiteral} (hl : l ≤ x) (hu : x ≤ u) (c : NumericLiteral) :
    (l.mul c ≤ x.mul c ∨ u.mul c ≤ x.mul c) ∧ (x.mul c ≤ l.mul c ∨ x.mul c ≤ u.mul c) := by
  rcases le_total (numeral 0) c with hc | hc
  · exact ⟨.inl (mul_le_mul_right hl hc), .inr (mul_le_mul_right hu hc)⟩
  · exact ⟨.inr (mul_le_mul_left_of_nonpos hu hc), .inl (mul_le_mul_left_of_nonpos hl hc)⟩

theorem mul_corners {l u x c d y : NumericLiteral} (hl : l ≤ x) (hu : x ≤ u) (hc : c ≤ y)
    (hd : y ≤ d) :
    minOf [l.mul c, l.mul d, u.mul c, u.mul d] ≤ x.mul y ∧
      x.mul y ≤ maxOf [l.mul c, l.mul d, u.mul c, u.mul d] := by
  have hcorner : ∀ e, e = l ∨ e = u → minOf [l.mul c, l.mul d, u.mul c, u.mul d] ≤ e.mul y ∧
      e.mul y ≤ maxOf [l.mul c, l.mul d, u.mul c, u.mul d] := by
    intro e he
    have hmem : e.mul c ∈ [l.mul c, l.mul d, u.mul c, u.mul d] ∧
        e.mul d ∈ [l.mul c, l.mul d, u.mul c, u.mul d] := by
      rcases he with rfl | rfl <;> simp
    obtain ⟨hlow, hhigh⟩ := mul_between hc hd e
    rw [mul_swap c, mul_swap d, mul_swap y] at hlow hhigh
    constructor
    · rcases hlow with h | h
      · exact (minOf_le hmem.1).trans h
      · exact (minOf_le hmem.2).trans h
    · rcases hhigh with h | h
      · exact h.trans (le_maxOf hmem.1)
      · exact h.trans (le_maxOf hmem.2)
  obtain ⟨hlow, hhigh⟩ := mul_between hl hu y
  constructor
  · rcases hlow with h | h
    · exact (hcorner l (.inl rfl)).1.trans h
    · exact (hcorner u (.inr rfl)).1.trans h
  · rcases hhigh with h | h
    · exact h.trans (hcorner l (.inl rfl)).2
    · exact h.trans (hcorner u (.inr rfl)).2

end NumericLiteral

open NumericLiteral

namespace IntervalValue

def isTop (v : IntervalValue) : Bool := v.lb = minus_infinity ∧ v.ub = plus_infinity

def is_zero (v : IntervalValue) : Bool := v.lb.is_zero && v.ub.is_zero

def is_numeral (v : IntervalValue) : Bool := v.lb = v.ub

section

variable (lhs rhs : IntervalValue)

/-- `operator+` -/
def add : Option IntervalValue :=
  if lhs.isBottom || rhs.isBottom then some bottom
  else if lhs.isTop || rhs.isTop then some top
  else (lhs.lb.add rhs.lb).bind fun lb => (lhs.ub.add rhs.ub).map fun ub => ⟨lb, ub⟩

/-- `operator-` -/
def sub : Option IntervalValue :=
  if lhs.isBottom || rhs.isBottom then some bottom
  else if lhs.isTop || rhs.isTop then some top
  else (lhs.lb.sub rhs.ub).bind fun lb => (lhs.ub.sub rhs.lb).map fun ub => ⟨lb, ub⟩

/-- `operator*` -/
def mul : IntervalValue :=
  if lhs.isBottom || rhs.isBottom then bottom
  else
    let vec := [lhs.lb.mul rhs.lb, lhs.lb.mul rhs.ub, lhs.ub.mul rhs.lb, lhs.ub.mul rhs.ub]
    ⟨minOf vec, maxOf vec⟩

/-- `operator/` -/
def div : Option IntervalValue :=
  if lhs.isBottom || rhs.isBottom then some bottom
  else if rhs.contains 0 then some (if lhs.is_zero then ⟨numeral 0, numeral 0⟩ else top)
  else
    (lhs.lb.div rhs.lb).bind fun ll => (lhs.lb.div rhs.ub).bind fun lu =>
      (lhs.ub.div rhs.lb).bind fun ul => (lhs.ub.div rhs.ub).map fun uu =>
        ⟨minOf [ll, lu, ul, uu], maxOf [ll, lu, ul, uu]⟩

/-- `operator%` -/
def mod : Option IntervalValue :=
  if lhs.isBottom || rhs.isBottom then some bottom
  else if rhs.contains 0 then some (if lhs.is_zero then ⟨numeral 0, numeral 0⟩ else top)
  else if lhs.is_numeral && rhs.is_numeral then (lhs.lb.mod rhs.lb).map fun r => ⟨r, r⟩
  else
    let n_ub := NumericLiteral.max lhs.lb.abs lhs.ub.abs
    ((NumericLiteral.max rhs.lb.abs rhs.ub).sub (numeral 1)).map fun d_ub =>
      let ub := NumericLiteral.min n_ub d_ub
      if lhs.lb.getNumeral < 0 then
        if lhs.ub.getNumeral > 0 then ⟨ub.neg, ub⟩ else ⟨ub.neg, numeral 0⟩
      else ⟨numeral 0, ub⟩

end

/-- A bottom, or bounds with members between them. -/
def WellFormed (v : IntervalValue) : Prop :=
  v.isBottom = true ∨ v.lb ≤ v.ub ∧ v.lb ≠ plus_infinity ∧ v.ub ≠ minus_infinity

variable {a b : IntervalValue} {x y : ℤ}

variable {v : IntervalValue} {op : ℤ → ℤ → ℤ}

theorem contains_neg : contains ⟨a.ub.neg, a.lb.neg⟩ x ↔ a.contains (-x) := by
  rw [contains_iff, contains_iff, ← neg_numeral, neg_le, le_neg, and_comm]

theorem not_isBottom_iff : v.isBottom = false ↔ v.lb ≤ v.ub := by
  rw [← Bool.not_eq_true, isBottom_iff, not_not]

theorem not_bottom_of_contains (h : v.contains x) : v.isBottom = false := by
  rw [← Bool.not_eq_true]
  exact fun hb => not_contains_of_isBottom hb h

theorem contains_top (x : ℤ) : top.contains x := rfl

theorem wellFormed_top : WellFormed top := .inr ⟨le_plus_infinity _, by decide, by decide⟩

theorem WellFormed.bounds (h : v.WellFormed) (hb : v.isBottom = false) :
    v.lb ≤ v.ub ∧ v.lb ≠ plus_infinity ∧ v.ub ≠ minus_infinity := by
  rcases h with h | h
  · rw [hb] at h
    cases h
  · exact h

/-- What is promised of a sum, a difference and a product: it encloses those of the members, it
    is well-formed, and it is bottom where an operand is. -/
structure Sound (op : ℤ → ℤ → ℤ) (a b r : IntervalValue) : Prop where
  encloses : ∀ x y, a.contains x = true → b.contains y = true → r.contains (op x y) = true
  wellFormed : r.WellFormed
  bottom_iff : r.isBottom = true ↔ a.isBottom = true ∨ b.isBottom = true

theorem sound_bottom (h : a.isBottom ∨ b.isBottom) : Sound op a b bottom := by
  refine ⟨fun x y hx hy => ?_, .inl rfl, iff_of_true rfl h⟩
  rcases h with h | h
  · exact absurd hx (not_contains_of_isBottom h)
  · exact absurd hy (not_contains_of_isBottom h)

theorem sound_top (ha : a.isBottom = false) (hb : b.isBottom = false) : Sound op a b top := by
  refine ⟨fun x y _ _ => contains_top _, wellFormed_top, ?_⟩
  rw [ha, hb]
  decide

theorem WellFormed.exists_contains (h : v.WellFormed) (hb : v.isBottom = false)
    : ∃ x, v.contains x := by
  obtain ⟨hle, hlb, hub⟩ := h.bounds hb
  obtain ⟨l, u⟩ := v
  cases l with
  | plus_infinity => exact absurd rfl hlb
  | numeral m => exact ⟨m, contains_iff.mpr ⟨le_rfl, hle⟩⟩
  | minus_infinity =>
    cases u with
    | minus_infinity => exact absurd rfl hub
    | numeral n => exact ⟨n, contains_iff.mpr ⟨minus_infinity_le _, le_rfl⟩⟩
    | plus_infinity => exact ⟨0, rfl⟩

theorem sound_of_encloses {r : IntervalValue} (ha : a.WellFormed) (hb : b.WellFormed)
    (hba : a.isBottom = false) (hbb : b.isBottom = false)
    (h : ∀ x y, a.contains x → b.contains y → r.contains (op x y)) :
    Sound op a b r := by
  obtain ⟨x, hx⟩ := ha.exists_contains hba
  obtain ⟨y, hy⟩ := hb.exists_contains hbb
  obtain ⟨hlow, hhigh⟩ := contains_iff.mp (h x y hx hy)
  refine ⟨h, .inr ⟨hlow.trans hhigh, ?_, ?_⟩, ?_⟩
  · intro hplus
    rw [hplus] at hlow
    exact not_plus_le_numeral _ hlow
  · intro hminus
    rw [hminus] at hhigh
    exact not_numeral_le_minus _ hhigh
  · rw [hba, hbb, not_isBottom_iff.mpr (hlow.trans hhigh)]
    decide

theorem add_sound (ha : a.WellFormed) (hb : b.WellFormed) :
    ∃ r, a.add b = some r ∧ Sound (· + ·) a b r := by
  rw [add]
  by_cases hbot : a.isBottom ∨ b.isBottom
  · exact ⟨bottom, if_pos (Bool.or_eq_true_iff.mpr hbot), sound_bottom hbot⟩
  · rw [if_neg (mt Bool.or_eq_true_iff.mp hbot)]
    obtain ⟨hba, hbb⟩ : a.isBottom = false ∧ b.isBottom = false := by simpa using hbot
    split
    · exact ⟨top, rfl, sound_top hba hbb⟩
    · obtain ⟨-, hla, hua⟩ := ha.bounds hba
      obtain ⟨-, hlb, hub⟩ := hb.bounds hbb
      obtain ⟨l, hl, hlow⟩ := add_of_lower hla hlb
      obtain ⟨u, hu, hhigh⟩ := add_of_upper hua hub
      refine ⟨⟨l, u⟩, ?_, sound_of_encloses ha hb hba hbb fun x y hx hy => ?_⟩
      · rw [hl, Option.bind_some, hu]
        rfl
      · rw [contains_iff] at hx hy ⊢
        exact ⟨hlow x y hx.1 hy.1, hhigh x y hx.2 hy.2⟩

theorem isBottom_neg (v : IntervalValue) : isBottom ⟨v.ub.neg, v.lb.neg⟩ = v.isBottom := by
  rw [Bool.eq_iff_iff, isBottom_iff, isBottom_iff, neg_le_neg_iff]

theorem isTop_neg (v : IntervalValue) : isTop ⟨v.ub.neg, v.lb.neg⟩ = v.isTop := by
  rw [Bool.eq_iff_iff, isTop, isTop, decide_eq_true_iff, decide_eq_true_iff, neg_eq_iff, neg_eq_iff,
    and_comm]
  rfl

/-- A difference is the sum with the negated interval. -/
theorem sub_eq_add (a b : IntervalValue) : a.sub b = a.add ⟨b.ub.neg, b.lb.neg⟩ := by
  rw [sub, add, isBottom_neg, isTop_neg, sub_eq, sub_eq]

theorem WellFormed.neg (h : b.WellFormed) : WellFormed ⟨b.ub.neg, b.lb.neg⟩ := by
  rcases h with h | ⟨hle, hl, hu⟩
  · exact .inl ((isBottom_neg b).trans h)
  · exact .inr ⟨neg_le_neg_iff.mpr hle, fun h => hu (neg_eq_iff.mp h),
      fun h => hl (neg_eq_iff.mp h)⟩

theorem sub_sound (ha : a.WellFormed) (hb : b.WellFormed) :
    ∃ r, a.sub b = some r ∧ Sound (· - ·) a b r := by
  obtain ⟨r, hr, hsound⟩ := add_sound ha hb.neg
  refine ⟨r, (sub_eq_add a b).trans hr, fun x y hx hy => ?_, hsound.wellFormed, ?_⟩
  · rw [sub_eq_add_neg]
    refine hsound.encloses x (-y) hx (contains_neg.mpr ?_)
    rwa [neg_neg]
  · rw [← isBottom_neg b]
    exact hsound.bottom_iff

theorem contains_mul (hx : a.contains x) (hy : b.contains y) : (a.mul b).contains (x * y) := by
  rw [mul, not_bottom_of_contains hx, not_bottom_of_contains hy]
  rw [contains_iff] at hx hy ⊢
  rw [← numeral_mul]
  exact mul_corners hx.1 hx.2 hy.1 hy.2

theorem mul_sound (ha : a.WellFormed) (hb : b.WellFormed) : Sound (· * ·) a b (a.mul b) := by
  by_cases hbot : a.isBottom ∨ b.isBottom
  · rw [mul, if_pos (Bool.or_eq_true_iff.mpr hbot)]
    exact sound_bottom hbot
  · obtain ⟨hba, hbb⟩ : a.isBottom = false ∧ b.isBottom = false := by simpa using hbot
    exact sound_of_encloses ha hb hba hbb fun x y hx hy => contains_mul hx hy

/-- **Sums, differences and products** do not abort, enclose those of the members and are
    well-formed. -/
theorem arithmetic_sound (ha : a.WellFormed) (hb : b.WellFormed) :
    (∃ r, a.add b = some r ∧ Sound (· + ·) a b r) ∧ (∃ r, a.sub b = some r ∧ Sound (· - ·) a b r) ∧
      Sound (· * ·) a b (a.mul b) :=
  ⟨add_sound ha hb, sub_sound ha hb, mul_sound ha hb⟩

/-- On half-lines in opposite directions. -/
theorem arithmetic_sound_half_lines :
    (∃ r, add ⟨numeral 1, plus_infinity⟩ ⟨minus_infinity, numeral 3⟩ = some r ∧
      Sound (· + ·) ⟨numeral 1, plus_infinity⟩ ⟨minus_infinity, numeral 3⟩ r) ∧
    (∃ r, sub ⟨numeral 1, plus_infinity⟩ ⟨minus_infinity, numeral 3⟩ = some r ∧
      Sound (· - ·) ⟨numeral 1, plus_infinity⟩ ⟨minus_infinity, numeral 3⟩ r) ∧
    Sound (· * ·) ⟨numeral 1, plus_infinity⟩ ⟨minus_infinity, numeral 3⟩
      (mul ⟨numeral 1, plus_infinity⟩ ⟨minus_infinity, numeral 3⟩) :=
  arithmetic_sound (.inr ⟨le_plus_infinity _, by decide, by decide⟩)
    (.inr ⟨minus_infinity_le _, by decide, by decide⟩)

end IntervalValue

end SvfInterval
