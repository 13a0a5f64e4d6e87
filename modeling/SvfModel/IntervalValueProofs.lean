import Mathlib

/-!
# Intervals with infinite bounds

`NumericLiteral` is a numeral or one of the two infinities, and the comparisons of the source
are those of a linear order (`leq_iff`, `geq_iff`). An interval is a pair of bounds; it is
bottom where the bounds cross. What an interval means is the set of integers that it contains,
and join and widening contain what either side contains (`contains_join_with`,
`contains_widen_with`).
-/

namespace SvfInterval

open Bool

/-- A bound: the integer expressions that the analysis uses are numerals and the constants
    "+oo" and "-oo". -/
inductive NumericLiteral
  | minus_infinity
  | numeral (n : ℤ)
  | plus_infinity
deriving DecidableEq

namespace NumericLiteral

def leq : NumericLiteral → NumericLiteral → Bool
  | minus_infinity, _ => true
  | _, plus_infinity => true
  | numeral m, numeral n => decide (m ≤ n)
  | _, _ => false

def geq : NumericLiteral → NumericLiteral → Bool
  | plus_infinity, _ => true
  | _, minus_infinity => true
  | numeral m, numeral n => decide (n ≤ m)
  | _, _ => false

def min (lhs rhs : NumericLiteral) : NumericLiteral := if lhs.leq rhs then lhs else rhs

def max (lhs rhs : NumericLiteral) : NumericLiteral := if lhs.leq rhs then rhs else lhs

/-- The place of a bound among the integers. -/
def toExtended : NumericLiteral → WithBot (WithTop ℤ)
  | minus_infinity => ⊥
  | numeral n => ((n : WithTop ℤ) : WithBot (WithTop ℤ))
  | plus_infinity => ((⊤ : WithTop ℤ) : WithBot (WithTop ℤ))

theorem toExtended_injective : Function.Injective toExtended := by
  intro a b h
  cases a with
  | minus_infinity =>
    cases b with
    | minus_infinity => rfl
    | numeral n => exact absurd h WithBot.bot_ne_coe
    | plus_infinity => exact absurd h WithBot.bot_ne_coe
  | numeral m =>
    cases b with
    | minus_infinity => exact absurd h WithBot.coe_ne_bot
    | numeral n => exact congrArg numeral (WithTop.coe_injective (WithBot.coe_injective h))
    | plus_infinity => exact absurd (WithBot.coe_injective h) (WithTop.coe_ne_top)
  | plus_infinity =>
    cases b with
    | minus_infinity => exact absurd h WithBot.coe_ne_bot
    | numeral n => exact absurd (WithBot.coe_injective h) (WithTop.top_ne_coe)
    | plus_infinity => rfl

noncomputable instance : LinearOrder NumericLiteral := LinearOrder.lift' toExtended toExtended_injective

theorem le_iff {a b : NumericLiteral} : a ≤ b ↔ a.toExtended ≤ b.toExtended := Iff.rfl

@[simp] theorem numeral_le {m n : ℤ} : numeral m ≤ numeral n ↔ m ≤ n := by
  rw [le_iff, toExtended, toExtended, WithBot.coe_le_coe, WithTop.coe_le_coe]

@[simp] theorem minus_infinity_le (a : NumericLiteral) : minus_infinity ≤ a := by
  rw [le_iff]
  exact bot_le

@[simp] theorem le_plus_infinity (a : NumericLiteral) : a ≤ plus_infinity := by
  rw [le_iff]
  exact le_top

@[simp] theorem not_numeral_le_minus (n : ℤ) : ¬ numeral n ≤ minus_infinity := by
  rw [le_iff]
  exact not_le_of_gt (WithBot.bot_lt_coe _)

@[simp] theorem not_plus_le_numeral (n : ℤ) : ¬ plus_infinity ≤ numeral n := by
  rw [le_iff, toExtended, toExtended, WithBot.coe_le_coe]
  exact not_le_of_gt (WithTop.coe_lt_top n)

@[simp] theorem not_plus_le_minus : ¬ plus_infinity ≤ minus_infinity := by
  rw [le_iff]
  exact not_le_of_gt (WithBot.bot_lt_coe _)

theorem leq_iff {a b : NumericLiteral} : a.leq b ↔ a ≤ b := by
  cases a with
  | minus_infinity => exact iff_of_true rfl (minus_infinity_le b)
  | numeral m =>
    cases b with
    | minus_infinity => exact iff_of_false false_ne_true (not_numeral_le_minus m)
    | numeral n => rw [leq, decide_eq_true_iff, numeral_le]
    | plus_infinity => exact iff_of_true rfl (le_plus_infinity _)
  | plus_infinity =>
    cases b with
    | minus_infinity => exact iff_of_false false_ne_true not_plus_le_minus
    | numeral n => exact iff_of_false false_ne_true (not_plus_le_numeral n)
    | plus_infinity => exact iff_of_true rfl (le_plus_infinity _)

theorem geq_eq (a b : NumericLiteral) : a.geq b = b.leq a := by
  cases a <;> cases b <;> rfl

theorem geq_iff {a b : NumericLiteral} : a.geq b ↔ b ≤ a := by rw [geq_eq, leq_iff]

theorem min_eq (a b : NumericLiteral) : min a b = a ⊓ b := by
  rw [min]
  by_cases h : a ≤ b
  · rw [if_pos (leq_iff.mpr h), inf_eq_left.mpr h]
  · rw [if_neg (mt leq_iff.mp h), inf_eq_right.mpr (le_of_not_ge h)]

theorem max_eq (a b : NumericLiteral) : max a b = a ⊔ b := by
  rw [max]
  by_cases h : a ≤ b
  · rw [if_pos (leq_iff.mpr h), sup_eq_right.mpr h]
  · rw [if_neg (mt leq_iff.mp h), sup_eq_left.mpr (le_of_not_ge h)]

end NumericLiteral

open NumericLiteral

/-- A pair of bounds. -/
structure IntervalValue where
  lb : NumericLiteral
  ub : NumericLiteral
deriving DecidableEq

namespace IntervalValue

/-- `isBottom()`: the bounds cross. -/
def isBottom (v : IntervalValue) : Bool := !v.ub.geq v.lb

def top : IntervalValue := ⟨minus_infinity, plus_infinity⟩

def bottom : IntervalValue := ⟨numeral 1, numeral 0⟩

def join_with (v other : IntervalValue) : IntervalValue :=
  if v.isBottom then
    if other.isBottom then v else ⟨other.lb, other.ub⟩
  else if other.isBottom then v
  else ⟨NumericLiteral.min v.lb other.lb, NumericLiteral.max v.ub other.ub⟩

def widen_with (v other : IntervalValue) : IntervalValue :=
  if v.isBottom then ⟨other.lb, other.ub⟩
  else if other.isBottom then v
  else ⟨if !v.lb.leq other.lb then minus_infinity else v.lb,
    if !v.ub.geq other.ub then plus_infinity else v.ub⟩

def contains (v : IntervalValue) (n : ℤ) : Bool := v.lb.leq (numeral n) && v.ub.geq (numeral n)

variable {v w : IntervalValue} {n : ℤ}

theorem contains_iff : v.contains n ↔ v.lb ≤ numeral n ∧ numeral n ≤ v.ub := by
  rw [contains, and_eq_true, leq_iff, geq_iff]

theorem isBottom_iff : v.isBottom ↔ ¬ v.lb ≤ v.ub := by
  rw [isBottom, not_eq_true', ← not_eq_true, geq_iff]

theorem not_contains_of_isBottom (h : v.isBottom) : ¬ v.contains n := by
  rw [contains_iff]
  exact fun hn => isBottom_iff.mp h (hn.1.trans hn.2)

/-- **A join** contains what either interval contains. -/
theorem contains_join_with (h : v.contains n ∨ w.contains n) : (v.join_with w).contains n := by
  rw [join_with]
  by_cases hv : v.isBottom
  · have hw := h.resolve_left (not_contains_of_isBottom hv)
    rw [if_pos hv, if_neg fun hb => not_contains_of_isBottom hb hw]
    exact hw
  · rw [if_neg hv]
    by_cases hb : w.isBottom
    · rw [if_pos hb]
      exact h.resolve_right (not_contains_of_isBottom hb)
    · rw [if_neg hb, contains_iff, min_eq, max_eq]
      rcases h with h | h
      · obtain ⟨hl, hu⟩ := contains_iff.mp h
        exact ⟨inf_le_left.trans hl, hu.trans le_sup_left⟩
      · obtain ⟨hl, hu⟩ := contains_iff.mp h
        exact ⟨inf_le_right.trans hl, hu.trans le_sup_right⟩

/-- **A widening** contains what either interval contains. -/
theorem contains_widen_with (h : v.contains n ∨ w.contains n) : (v.widen_with w).contains n := by
  rw [widen_with]
  by_cases hv : v.isBottom
  · rw [if_pos hv]
    exact h.resolve_left (not_contains_of_isBottom hv)
  · rw [if_neg hv]
    by_cases hb : w.isBottom
    · rw [if_pos hb]
      exact h.resolve_right (not_contains_of_isBottom hb)
    · rw [if_neg hb, contains_iff]
      have hlb : (if !v.lb.leq w.lb then minus_infinity else v.lb) ≤ v.lb ⊓ w.lb := by
        by_cases hle : v.lb.leq w.lb
        · rw [if_neg (by rw [hle]; decide)]
          exact le_inf le_rfl (leq_iff.mp hle)
        · rw [if_pos (by rw [not_eq_true] at hle; rw [hle]; rfl)]
          exact minus_infinity_le _
      have hub : v.ub ⊔ w.ub ≤ (if !v.ub.geq w.ub then plus_infinity else v.ub) := by
        by_cases hge : v.ub.geq w.ub
        · rw [if_neg (by rw [hge]; decide)]
          exact sup_le le_rfl (geq_iff.mp hge)
        · rw [if_pos (by rw [not_eq_true] at hge; rw [hge]; rfl)]
          exact le_plus_infinity _
      rcases h with h | h
      · obtain ⟨hl, hu⟩ := contains_iff.mp h
        exact ⟨(hlb.trans inf_le_left).trans hl, (hu.trans le_sup_left).trans hub⟩
      · obtain ⟨hl, hu⟩ := contains_iff.mp h
        exact ⟨(hlb.trans inf_le_right).trans hl, (hu.trans le_sup_right).trans hub⟩

end IntervalValue

end SvfInterval
