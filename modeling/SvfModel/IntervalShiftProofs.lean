import SvfModel.IntervalLatticeProofs
import SvfModel.IntervalBitwiseProofs

/-!
# Interval shifts

`operator<<` multiplies by the powers of two of the amounts, `1 << i`, and `operator>>` shifts the
four corners, both with `int`s. `operator>>` calls itself on the two sides of zero: a side does
not contain zero, so that no call calls again (`not_calls_of_calls`).

The heart is that a quotient by a power of two moves towards zero or -1 with the amount and
grows with the number (`shr_le_shr`): so on either side of zero the least and the greatest are at
corners (`shr_between`), whenever a number that an `int` does not hold lies outside of them. The
amounts have to be at most 31, and at most 30 on the left, unless all are 31 and the interval is
its own opposite (**`shift_sound_of_fits`**).
-/

namespace SvfInterval

open List Option Bool
open NumericLiteral (le_neg neg_le)

-- ── Casts and quotients

def s32 (n : ℤ) : ℤ := (BitVec.ofInt 32 n).toInt

theorem s32_bounds (n : ℤ) : -2 ^ 31 ≤ s32 n ∧ s32 n < 2 ^ 31 :=
  ⟨BitVec.le_toInt _, BitVec.toInt_lt⟩

theorem s32_eq {n : ℤ} (h : -2 ^ 31 ≤ n) (h' : n < 2 ^ 31) : s32 n = n :=
  BitVec.toInt_ofInt_eq_self (by decide) h h'

theorem ediv_two_pow {s y : ℕ} (h : s ≤ y) (x : ℤ) : x / 2 ^ y = x / 2 ^ s / 2 ^ (y - s) := by
  rw [Int.ediv_ediv_of_nonneg (by positivity), ← pow_add, Nat.add_sub_of_le h]

theorem ediv_mono (x x' : ℤ) (h : x ≤ x') (y : ℕ) : x / 2 ^ y ≤ x' / 2 ^ y :=
  Int.ediv_le_ediv (by positivity) h

theorem ediv_le_ediv_of_nonneg {x : ℤ} (hx : 0 ≤ x) {y t : ℕ} (h : y ≤ t) :
    x / 2 ^ t ≤ x / 2 ^ y := by
  rw [ediv_two_pow h]
  exact Int.ediv_le_self _ (Int.ediv_nonneg hx (by positivity))

theorem ediv_le_ediv_of_neg {x : ℤ} (hx : x < 0) {s y : ℕ} (h : s ≤ y) : x / 2 ^ s ≤ x / 2 ^ y := by
  rw [ediv_two_pow h]
  have hpow : (0 : ℤ) < 2 ^ (y - s) := by positivity
  have hneg : x / 2 ^ s < 0 := Int.ediv_neg_of_neg_of_pos hx (by positivity)
  refine Int.le_ediv_of_mul_le hpow ?_
  nlinarith

namespace NumericLiteral

/-- `operator>>` on bounds. A width outside of the type is not defined. -/
def shr (lhs rhs : NumericLiteral) : Option NumericLiteral :=
  if lhs.is_zero then some lhs
  else if lhs.is_infinity then some lhs
  else if rhs.is_infinity then some (if lhs.geq (numeral 0) then numeral 0 else numeral (-1))
  else
    let i := s32 rhs.getNumeral
    if 0 ≤ i ∧ i < 32 then some (numeral (s32 lhs.getNumeral >>> i.toNat)) else none

variable {a b c : NumericLiteral} {x n : ℤ} {i : ℕ}

theorem s32_getNumeral (h : -2 ^ 31 ≤ n) (h' : n < 2 ^ 31) : s32 (numeral n).getNumeral = n := by
  rw [getNumeral_of_range (by omega), s32_eq h h']

theorem shr_numeral (hn : n ≠ 0) (hi : i ≤ 31) :
    (numeral n).shr (numeral i) = some (numeral (s32 (numeral n).getNumeral / 2 ^ i)) := by
  have hzero : (numeral n).is_zero = false := decide_eq_false hn
  rw [shr, hzero, s32_getNumeral (n := i) (by omega) (by omega)]
  simp only [is_infinity, false_eq_true, if_false]
  rw [if_pos ⟨by omega, by omega⟩, Int.toNat_natCast, Int.shiftRight_eq_div_pow]
  push_cast
  rfl

def Amount (A : NumericLiteral) : Prop := A = plus_infinity ∨ ∃ t : ℕ, t ≤ 31 ∧ A = numeral t

theorem exists_shr (L : NumericLiteral) {A : NumericLiteral} (hA : Amount A) :
    ∃ c, L.shr A = some c := by
  cases L with
  | minus_infinity => exact ⟨_, rfl⟩
  | plus_infinity => exact ⟨_, rfl⟩
  | numeral n =>
    by_cases hn : n = 0
    · subst hn
      exact ⟨_, rfl⟩
    · rcases hA with rfl | ⟨t, ht, rfl⟩
      · refine ⟨if (numeral n).geq (numeral 0) then numeral 0 else numeral (-1), ?_⟩
        simp [shr, is_zero, is_infinity, hn]
      · exact ⟨_, shr_numeral hn ht⟩

theorem shr_plus (hn : n ≠ 0) :
    (numeral n).shr plus_infinity = some (if 0 ≤ n then numeral 0 else numeral (-1)) := by
  simp [shr, is_zero, is_infinity, hn, geq]

/-- **A lower bound** shifted is below the shifted numbers. -/
theorem shr_le (hL : a = minus_infinity ∨ numeral (-2 ^ 31) ≤ a) (hx : a ≤ numeral x) (hi : i ≤ 31)
    (hc : a.shr (numeral i) = some c) : c ≤ numeral (x / 2 ^ i) := by
  cases a with
  | minus_infinity =>
    rw [← some.inj hc]
    exact minus_infinity_le _
  | plus_infinity => exact absurd hx (not_plus_le_numeral x)
  | numeral n =>
    have hn : -2 ^ 31 ≤ n := numeral_le.mp (hL.resolve_left (by simp))
    rw [numeral_le] at hx
    by_cases h0 : n = 0
    · subst h0
      rw [← some.inj hc, numeral_le]
      exact Int.ediv_nonneg hx (by positivity)
    · rw [shr_numeral h0 hi] at hc
      rw [← some.inj hc, numeral_le]
      refine ediv_mono _ _ ?_ i
      -- A number that is too large for the type is above its cast.
      by_cases hn' : n < 2 ^ 31
      · rwa [s32_getNumeral hn hn']
      · have := (s32_bounds (numeral n).getNumeral).2
        omega

theorem le_shr (hU : a = plus_infinity ∨ a ≤ numeral (2 ^ 31 - 1)) (hx : numeral x ≤ a)
    (hi : i ≤ 31) (hc : a.shr (numeral i) = some c) : numeral (x / 2 ^ i) ≤ c := by
  cases a with
  | plus_infinity =>
    rw [← some.inj hc]
    exact le_plus_infinity _
  | minus_infinity => exact absurd hx (not_numeral_le_minus x)
  | numeral n =>
    have hn : n ≤ 2 ^ 31 - 1 := numeral_le.mp (hU.resolve_left (by simp))
    rw [numeral_le] at hx
    by_cases h0 : n = 0
    · subst h0
      rw [← some.inj hc, numeral_le]
      have := ediv_mono x 0 hx i
      rwa [Int.zero_ediv] at this
    · rw [shr_numeral h0 hi] at hc
      rw [← some.inj hc, numeral_le]
      refine ediv_mono _ _ ?_ i
      by_cases hn' : -2 ^ 31 ≤ n
      · rwa [s32_getNumeral hn' (by omega)]
      · have := (s32_bounds (numeral n).getNumeral).1
        omega

theorem shr_plus_le (hx : a ≤ numeral x) (hc : a.shr plus_infinity = some c) : c ≤ numeral 0 := by
  cases a with
  | minus_infinity =>
    rw [← some.inj hc]
    exact minus_infinity_le _
  | plus_infinity => exact absurd hx (not_plus_le_numeral x)
  | numeral n =>
    by_cases h0 : n = 0
    · subst h0
      exact (some.inj hc).symm.le
    · rw [shr_plus h0] at hc
      rw [← some.inj hc]
      split <;> simp

theorem le_shr_plus (hx : numeral x ≤ a) (hc : a.shr plus_infinity = some c) :
    numeral (-1) ≤ c := by
  cases a with
  | plus_infinity =>
    rw [← some.inj hc]
    exact le_plus_infinity _
  | minus_infinity => exact absurd hx (not_numeral_le_minus x)
  | numeral n =>
    by_cases h0 : n = 0
    · subst h0
      rw [← some.inj hc]
      simp
    · rw [shr_plus h0] at hc
      rw [← some.inj hc]
      split <;> simp

/-- **The corners** enclose the quotients. -/
theorem shr_between {s : ℕ} {A l u ll lu ul uu : NumericLiteral} (hs : s ≤ 31) (hA : Amount A)
    (hl : l = minus_infinity ∨ numeral (-2 ^ 31) ≤ l) (hu : u = plus_infinity ∨ u ≤ numeral (2 ^ 31 - 1))
    (hll : l.shr (numeral s) = some ll) (hlu : l.shr A = some lu)
    (hul : u.shr (numeral s) = some ul) (huu : u.shr A = some uu)
    (hlx : l ≤ numeral x) (hxu : numeral x ≤ u) {y : ℕ} (hsy : s ≤ y) (hyA : numeral y ≤ A) :
    minOf [ll, lu, ul, uu] ≤ numeral (x / 2 ^ y) ∧ numeral (x / 2 ^ y) ≤ maxOf [ll, lu, ul, uu] := by
  rcases le_or_gt 0 x with hx | hx
  · constructor
    · refine (minOf_le (show lu ∈ [ll, lu, ul, uu] by simp)).trans ?_
      rcases hA with rfl | ⟨t, ht, rfl⟩
      · exact (shr_plus_le hlx hlu).trans (numeral_le.mpr (Int.ediv_nonneg hx (by positivity)))
      · have hyt : y ≤ t := by exact_mod_cast numeral_le.mp hyA
        exact (shr_le hl hlx ht hlu).trans (numeral_le.mpr (ediv_le_ediv_of_nonneg hx hyt))
    · refine le_trans ?_ (le_maxOf (show ul ∈ [ll, lu, ul, uu] by simp))
      exact (numeral_le.mpr (ediv_le_ediv_of_nonneg hx hsy)).trans (le_shr hu hxu hs hul)
  · constructor
    · refine (minOf_le (show ll ∈ [ll, lu, ul, uu] by simp)).trans ?_
      exact (shr_le hl hlx hs hll).trans (numeral_le.mpr (ediv_le_ediv_of_neg hx hsy))
    · refine le_trans ?_ (le_maxOf (show uu ∈ [ll, lu, ul, uu] by simp))
      rcases hA with rfl | ⟨t, ht, rfl⟩
      · refine (numeral_le.mpr ?_).trans (le_shr_plus hxu huu)
        have := Int.ediv_neg_of_neg_of_pos hx (b := 2 ^ y) (by positivity)
        omega
      · have hyt : y ≤ t := by exact_mod_cast numeral_le.mp hyA
        exact (numeral_le.mpr (ediv_le_ediv_of_neg hx hyt)).trans (le_shr hu hxu ht huu)

end NumericLiteral

namespace IntervalValue

open NumericLiteral

def amounts (rhs : IntervalValue) : IntervalValue :=
  rhs.meet_with ⟨numeral 0, plus_infinity⟩

/-- `operator<<` -/
def shl (lhs rhs : IntervalValue) : Option IntervalValue :=
  if lhs.isBottom || rhs.isBottom then some bottom
  else if lhs.isTop && rhs.isTop then some top
  else
    let shift := rhs.amounts
    if shift.isBottom then some bottom
    else
      (oneShl (s32 shift.lb.getNumeral)).bind fun lb =>
        (if shift.ub.is_infinity then some plus_infinity
          else (oneShl (s32 shift.ub.getNumeral)).map numeral).map fun ub =>
            lhs.mul ⟨numeral lb, ub⟩

/-- The operands that `operator>>` may call itself on. -/
inductive Calls : IntervalValue → IntervalValue → Prop
  | l {lhs : IntervalValue} (h : lhs.contains 0 = true) : Calls ⟨lhs.lb, numeral (-1)⟩ lhs
  | u {lhs : IntervalValue} (h : lhs.contains 0 = true) : Calls ⟨numeral 1, lhs.ub⟩ lhs

theorem not_contains_l (lb : NumericLiteral) : contains ⟨lb, numeral (-1)⟩ 0 = false := by
  rw [← not_eq_true, contains_iff]
  exact fun h => absurd (numeral_le.mp h.2) (by decide)

theorem not_contains_u (ub : NumericLiteral) : contains ⟨numeral 1, ub⟩ 0 = false := by
  rw [← not_eq_true, contains_iff]
  exact fun h => absurd (numeral_le.mp h.1) (by decide)

/-- `operator>>` -/
def shr (lhs rhs : IntervalValue) : Option IntervalValue :=
  if lhs.isBottom || rhs.isBottom then some bottom
  else if lhs.isTop && rhs.isTop then some top
  else
    let shift := rhs.amounts
    if shift.isBottom then some bottom
    else if h : lhs.contains 0 = true then
      (shr ⟨lhs.lb, numeral (-1)⟩ rhs).bind fun l => (shr ⟨numeral 1, lhs.ub⟩ rhs).map fun u =>
        (l.join_with u).join_with ⟨numeral 0, numeral 0⟩
    else
      (lhs.lb.shr shift.lb).bind fun ll => (lhs.lb.shr shift.ub).bind fun lu =>
        (lhs.ub.shr shift.lb).bind fun ul => (lhs.ub.shr shift.ub).map fun uu =>
          ⟨minOf [ll, lu, ul, uu], maxOf [ll, lu, ul, uu]⟩
termination_by if lhs.contains 0 then 1 else 0
decreasing_by
  · rw [h, not_contains_l]
    decide
  · rw [h, not_contains_u]
    decide

variable {a b v r : IntervalValue} {x y : ℤ}

theorem not_calls_of_calls (h : Calls v a) (w : IntervalValue) : ¬ Calls w v := by
  intro hw
  have hz : v.contains 0 = false := by
    cases h with
    | l => exact not_contains_l _
    | u => exact not_contains_u _
  cases hw with
  | l hc => cases hz.symm.trans hc
  | u hc => cases hz.symm.trans hc

theorem calls_wellFounded : WellFounded Calls :=
  ⟨fun a => Acc.intro a fun v hv => Acc.intro v fun w hw => absurd hw (not_calls_of_calls hv w)⟩

-- ── The amounts

theorem contains_amounts : b.amounts.contains y ↔ b.contains y ∧ 0 ≤ y := by
  have hmem : ∀ w : IntervalValue, w.contains y ↔ numeral y ∈ w.between := fun _ => contains_iff
  rw [hmem, amounts, between_meet_with, Set.mem_inter_iff, ← hmem, ← hmem]
  refine and_congr_right fun _ => ?_
  rw [contains_iff]
  exact (and_iff_left (le_plus_infinity _)).trans numeral_le

theorem exists_first (h : b.amounts.contains y) :
    ∃ s : ℕ, b.amounts.lb = numeral s ∧ (s : ℤ) ≤ y := by
  have hsub : numeral 0 ≤ b.amounts.lb := by
    refine ((subset_iff (w := ⟨numeral 0, plus_infinity⟩) (not_bottom_of_contains h)).mp ?_).1
    rw [amounts, between_meet_with]
    exact Set.inter_subset_right
  have hle := (contains_iff.mp h).1
  cases hlb : b.amounts.lb with
  | minus_infinity =>
    rw [hlb] at hsub
    exact absurd hsub (not_numeral_le_minus 0)
  | plus_infinity =>
    rw [hlb] at hle
    exact absurd hle (not_plus_le_numeral y)
  | numeral s =>
    rw [hlb, numeral_le] at hle
    rw [hlb, numeral_le] at hsub
    exact ⟨s.toNat, by rw [Int.toNat_of_nonneg hsub], by omega⟩

structure ShiftSound (a b : IntervalValue) : Prop where
  shl : ∀ x y, a.contains x = true → b.contains y = true → 0 ≤ y →
    ∃ r, a.shl b = some r ∧ r.contains (x * 2 ^ y.toNat) = true
  shr : ∀ x y, a.contains x = true → b.contains y = true → 0 ≤ y →
    ∃ r, a.shr b = some r ∧ r.contains (x / 2 ^ y.toNat) = true

/-- Amounts and bounds that the `int`s of the shifts hold. -/
structure Fits (a b : IntervalValue) : Prop where
  first : b.amounts.lb ≤ numeral 31
  last : b.amounts.ub = plus_infinity ∨ b.amounts.ub ≤ numeral 30 ∨
    b.amounts.lb = numeral 31 ∧ b.amounts.ub = numeral 31 ∧ a.lb.neg = a.ub
  lower : a.lb = minus_infinity ∨ numeral (-2 ^ 31) ≤ a.lb
  upper : a.ub = plus_infinity ∨ a.ub ≤ numeral (2 ^ 31 - 1)

theorem Fits.amount (h : Fits a b) (hy : b.amounts.contains y) : Amount b.amounts.ub := by
  obtain ⟨s, hs, hsy⟩ := exists_first hy
  have hyu := (contains_iff.mp hy).2
  have hnum : ∀ t : ℤ, b.amounts.ub = numeral t → t ≤ 31 → Amount b.amounts.ub := by
    intro t ht ht31
    rw [ht, numeral_le] at hyu
    exact .inr ⟨t.toNat, by omega, by rw [ht, Int.toNat_of_nonneg (by omega)]⟩
  rcases h.last with hu | hu | ⟨-, hu, -⟩
  · exact .inl hu
  · cases hub : b.amounts.ub with
    | minus_infinity =>
      rw [hub] at hyu
      exact absurd hyu (not_numeral_le_minus y)
    | plus_infinity => exact .inl rfl
    | numeral t =>
      rw [← hub]
      rw [hub, numeral_le] at hu
      exact hnum t hub (by omega)
  · exact hnum 31 hu le_rfl

-- ── Left shifts

/-- The power of two of an amount: for 31 it is negative. -/
def power (i : ℕ) : ℤ := if i = 31 then -2 ^ 31 else 2 ^ i

theorem oneShl_amount {i : ℕ} (h : i ≤ 31) :
    oneShl (s32 (numeral i).getNumeral) = some (power i) := by
  rw [s32_getNumeral (by omega) (by omega)]
  have hall : ∀ i < 32, oneShl (i : ℕ) = some (power i) := by decide
  exact hall i (by omega)

theorem power_le {i : ℕ} {y : ℕ} (h : i ≤ y) : power i ≤ 2 ^ y := by
  rw [power]
  split
  · exact le_trans (by decide) (pow_nonneg (by decide : (0 : ℤ) ≤ 2) y)
  · exact pow_le_pow_right₀ (by decide) h

theorem shl_eq {s : ℕ} {d : NumericLiteral} (ha : a.isBottom = false) (hb : b.isBottom = false)
    (htop : ¬ (a.isTop && b.isTop)) (hsh : b.amounts.isBottom = false)
    (hlb : b.amounts.lb = numeral s) (hs : s ≤ 31)
    (hd : (if b.amounts.ub.is_infinity then some plus_infinity
      else (oneShl (s32 b.amounts.ub.getNumeral)).map numeral) = some d) :
    a.shl b = some (a.mul ⟨numeral (power s), d⟩) := by
  rw [shl, ha, hb, if_neg (by decide), if_neg htop]
  simp only [hsh, hlb, oneShl_amount hs, hd]
  rfl

/-- **Left shifts** of fitting operands. -/
theorem Fits.shl_sound (h : Fits a b) (hx : a.contains x) (hy : b.contains y)
    (h0 : 0 ≤ y) : ∃ r, a.shl b = some r ∧ r.contains (x * 2 ^ y.toNat) := by
  have ha := not_bottom_of_contains hx
  have hb := not_bottom_of_contains hy
  have hy' := contains_amounts.mpr ⟨hy, h0⟩
  by_cases htop : (a.isTop && b.isTop)
  · refine ⟨top, ?_, contains_top _⟩
    rw [shl, ha, hb, if_neg (by decide), if_pos htop]
  · obtain ⟨s, hlb, hsy⟩ := exists_first hy'
    have hs : s ≤ 31 := by
      have := h.first
      rw [hlb, numeral_le] at this
      omega
    have heq := fun d => shl_eq (d := d) ha hb htop (not_bottom_of_contains hy') hlb hs
    have hpow : power s ≤ 2 ^ y.toNat := power_le (by omega)
    have hyu := (contains_iff.mp hy').2
    rcases h.amount hy' with hu | ⟨t, ht, hu⟩
    · refine ⟨_, heq plus_infinity (by rw [hu]; rfl), contains_mul hx ?_⟩
      exact contains_iff.mpr ⟨numeral_le.mpr hpow, le_plus_infinity _⟩
    · have hd := heq (numeral (power t)) (by rw [hu, oneShl_amount ht]; rfl)
      rw [hu, numeral_le] at hyu
      by_cases ht31 : t = 31
      · -- All amounts are 31: a product with the negative power is one of the opposite.
        have hsym : b.amounts.lb = numeral 31 ∧ a.lb.neg = a.ub := by
          rcases h.last with hu' | hu' | ⟨hl', -, hneg⟩
          · rw [hu] at hu'
            simp at hu'
          · rw [hu, numeral_le] at hu'
            omega
          · exact ⟨hl', hneg⟩
        have hs31 : s = 31 := by
          have := numeral.inj (hlb.symm.trans hsym.1)
          omega
        have hy31 : y.toNat = 31 := by omega
        refine ⟨_, hd, ?_⟩
        rw [hs31, ht31, hy31, show x * 2 ^ 31 = -x * power 31 by rw [power]; simp]
        refine contains_mul ?_ (contains_iff.mpr ⟨le_rfl, le_rfl⟩)
        rw [contains_iff] at hx ⊢
        rw [← neg_numeral]
        constructor
        · rw [← neg_neg_literal a.lb, hsym.2]
          exact neg_le_neg_iff.mpr hx.2
        · rw [← hsym.2]
          exact neg_le_neg_iff.mpr hx.1
      · refine ⟨_, hd, contains_mul hx (contains_iff.mpr ⟨numeral_le.mpr hpow, ?_⟩)⟩
        rw [numeral_le, power, if_neg ht31]
        exact pow_le_pow_right₀ (by decide) (by omega)

-- ── Right shifts

theorem shr_side (hv : v.isBottom = false) (hb : b.isBottom = false)
    (hsh : b.amounts.isBottom = false) (hz : v.contains 0 = false) :
    v.shr b = (v.lb.shr b.amounts.lb).bind fun ll => (v.lb.shr b.amounts.ub).bind fun lu =>
      (v.ub.shr b.amounts.lb).bind fun ul => (v.ub.shr b.amounts.ub).map fun uu =>
        ⟨minOf [ll, lu, ul, uu], maxOf [ll, lu, ul, uu]⟩ := by
  have htop : ¬ (v.isTop && b.isTop) := by
    intro htop
    obtain ⟨hl, hu⟩ := of_decide_eq_true (and_eq_true_iff.mp htop).1
    rw [← not_eq_true, contains_iff, hl, hu] at hz
    exact hz ⟨minus_infinity_le _, le_plus_infinity _⟩
  rw [shr, hv, hb, if_neg (by decide), if_neg htop]
  simp only [hsh, hz]
  rfl

theorem shr_zero (hv : v.isBottom = false) (hb : b.isBottom = false)
    (htop : ¬ (v.isTop && b.isTop)) (hsh : b.amounts.isBottom = false)
    (hz : v.contains 0) :
    v.shr b = (shr ⟨v.lb, numeral (-1)⟩ b).bind fun l => (shr ⟨numeral 1, v.ub⟩ b).map fun u =>
      (l.join_with u).join_with ⟨numeral 0, numeral 0⟩ := by
  rw [shr, hv, hb, if_neg (by decide), if_neg htop]
  simp only [hsh, hz]
  rfl

theorem shr_of_bottom (h : v.isBottom) : v.shr b = some bottom := by
  rw [shr, h, Bool.true_or, if_pos rfl]

/-- **One side of zero** is enclosed by the corners. -/
theorem Fits.side_sound (h : Fits a b) (hy : b.contains y) (h0 : 0 ≤ y)
    (hz : v.contains 0 = false) (hl : v.lb = minus_infinity ∨ numeral (-2 ^ 31) ≤ v.lb)
    (hu : v.ub = plus_infinity ∨ v.ub ≤ numeral (2 ^ 31 - 1)) :
    ∃ r, v.shr b = some r ∧ ∀ x, v.contains x → r.contains (x / 2 ^ y.toNat) := by
  cases hv : v.isBottom with
  | true => exact ⟨bottom, shr_of_bottom hv, fun x hx => absurd hx (not_contains_of_isBottom hv)⟩
  | false =>
    have hy' := contains_amounts.mpr ⟨hy, h0⟩
    obtain ⟨s, hlb, hsy⟩ := exists_first hy'
    have hs : s ≤ 31 := by
      have := h.first
      rw [hlb, numeral_le] at this
      omega
    have hA := h.amount hy'
    have hS : Amount (numeral s) := .inr ⟨s, hs, rfl⟩
    obtain ⟨ll, hll⟩ := exists_shr v.lb hS
    obtain ⟨lu, hlu⟩ := exists_shr v.lb hA
    obtain ⟨ul, hul⟩ := exists_shr v.ub hS
    obtain ⟨uu, huu⟩ := exists_shr v.ub hA
    refine ⟨⟨minOf [ll, lu, ul, uu], maxOf [ll, lu, ul, uu]⟩, ?_, fun x hx => ?_⟩
    · rw [shr_side hv (not_bottom_of_contains hy) (not_bottom_of_contains hy') hz, hlb, hll, hlu,
        hul, huu]
      rfl
    · rw [contains_iff] at hx ⊢
      refine shr_between hs hA hl hu hll hlu hul huu hx.1 hx.2 (by omega) ?_
      rw [Int.toNat_of_nonneg h0]
      exact (contains_iff.mp hy').2

/-- **Right shifts** of fitting operands. -/
theorem Fits.shr_sound (h : Fits a b) (hx : a.contains x) (hy : b.contains y)
    (h0 : 0 ≤ y) : ∃ r, a.shr b = some r ∧ r.contains (x / 2 ^ y.toNat) := by
  have ha := not_bottom_of_contains hx
  have hb := not_bottom_of_contains hy
  have hsh := not_bottom_of_contains (contains_amounts.mpr ⟨hy, h0⟩)
  cases hz : a.contains 0 with
  | false =>
    obtain ⟨r, hr, hall⟩ := h.side_sound hy h0 hz h.lower h.upper
    exact ⟨r, hr, hall x hx⟩
  | true =>
    by_cases htop : (a.isTop && b.isTop)
    · refine ⟨top, ?_, contains_top _⟩
      rw [shr, ha, hb, if_neg (by decide), if_pos htop]
    · obtain ⟨l, hl, hlall⟩ := h.side_sound hy h0 (not_contains_l a.lb) h.lower
        (.inr (numeral_le.mpr (by decide)))
      obtain ⟨u, hu, huall⟩ := h.side_sound hy h0 (not_contains_u a.ub)
        (.inr (numeral_le.mpr (by decide))) h.upper
      refine ⟨(l.join_with u).join_with ⟨numeral 0, numeral 0⟩, ?_, ?_⟩
      · rw [shr_zero ha hb htop hsh hz, hl, hu]
        rfl
      · rw [contains_iff] at hx
        rcases lt_trichotomy x 0 with hneg | rfl | hpos
        · refine contains_join_with (.inl (contains_join_with (.inl (hlall x ?_))))
          exact contains_iff.mpr ⟨hx.1, numeral_le.mpr (by omega)⟩
        · rw [Int.zero_ediv]
          exact contains_join_with (.inr (by decide))
        · refine contains_join_with (.inl (contains_join_with (.inr (huall x ?_))))
          exact contains_iff.mpr ⟨numeral_le.mpr (by omega), hx.2⟩

/-- **Fitting operands are shifted soundly.** -/
theorem Fits.sound (h : Fits a b) : ShiftSound a b :=
  ⟨fun _ _ hx hy h0 => h.shl_sound hx hy h0, fun _ _ hx hy h0 => h.shr_sound hx hy h0⟩

-- ── Sound shifts fit

theorem ub_le_of_members {c : NumericLiteral} (hx : a.contains x)
    (h : ∀ x, a.contains x → numeral x ≤ c) : a.ub ≤ c := by
  obtain ⟨hlx, hxu⟩ := contains_iff.mp hx
  cases hu : a.ub with
  | minus_infinity => exact minus_infinity_le c
  | numeral q => exact h q (contains_iff.mpr ⟨hlx.trans (hu ▸ hxu), hu.ge⟩)
  | plus_infinity =>
    have hall : ∀ n, x ≤ n → numeral n ≤ c := fun n hn =>
      h n (contains_iff.mpr ⟨hlx.trans (numeral_le.mpr hn), hu ▸ le_plus_infinity _⟩)
    cases c with
    | minus_infinity => exact absurd (hall x le_rfl) (not_numeral_le_minus x)
    | numeral n =>
      have := numeral_le.mp (hall (Max.max x (n + 1)) (le_max_left _ _))
      omega
    | plus_infinity => exact le_rfl

theorem le_lb_of_members {c : NumericLiteral} (hx : a.contains x)
    (h : ∀ x, a.contains x → c ≤ numeral x) : c ≤ a.lb := by
  rw [← NumericLiteral.neg_le_neg_iff]
  refine ub_le_of_members (a := ⟨a.ub.neg, a.lb.neg⟩) (x := -x) ?_ fun z hz => ?_
  · exact contains_neg.mpr (by rwa [neg_neg])
  · rw [le_neg, neg_numeral]
    exact h (-z) (contains_neg.mp hz)

theorem neg_lb_eq_ub (hx : a.contains x)
    (h : ∀ x, a.contains x → a.contains (-x)) : a.lb.neg = a.ub := by
  refine le_antisymm ?_ ?_
  · rw [neg_le]
    refine le_lb_of_members hx fun z hz => ?_
    rw [neg_le, neg_numeral]
    exact (contains_iff.mp (h z hz)).2
  · refine ub_le_of_members hx fun z hz => ?_
    rw [le_neg, neg_numeral]
    exact (contains_iff.mp (h z hz)).1

theorem le_of_mul_le_of_neg {k : ℤ} {c d : NumericLiteral} (hk : k < 0)
    (h : c.mul (numeral k) ≤ d.mul (numeral k)) : d ≤ c := by
  refine le_of_not_gt fun hlt => absurd h (not_le.mpr ?_)
  have hn : 0 < -k := by omega
  rw [← neg_neg k, ← neg_numeral, mul_neg_literal, mul_neg_literal]
  refine lt_of_le_of_ne (neg_le_neg_iff.mpr (mul_le_mul_right hlt.le (numeral_le.mpr hn.le))) ?_
  intro heq
  have heq' : c.mul (numeral (-k)) = d.mul (numeral (-k)) := by
    rw [← neg_neg_literal (c.mul _), ← neg_neg_literal (d.mul _), heq]
  -- A product with a positive number tells the factors apart.
  refine hlt.ne ?_
  cases c with
  | minus_infinity =>
    cases d with
    | minus_infinity => rfl
    | numeral n => rw [minus_mul_pos hn, numeral_mul] at heq'; simp at heq'
    | plus_infinity => rw [minus_mul_pos hn, plus_mul_pos hn] at heq'; simp at heq'
  | plus_infinity => exact absurd (le_plus_infinity d) (not_le.mpr hlt)
  | numeral m =>
    cases d with
    | minus_infinity => exact absurd hlt.le (not_numeral_le_minus m)
    | plus_infinity => rw [numeral_mul, plus_mul_pos hn] at heq'; simp at heq'
    | numeral n =>
      rw [numeral_mul, numeral_mul, numeral.injEq] at heq'
      rw [Int.eq_of_mul_eq_mul_right hn.ne' heq']

theorem amount_of_defined {n c : ℤ} (h0 : 0 ≤ n) (h : n < 2 ^ 32)
    (hc : oneShl (s32 (numeral n).getNumeral) = some c) : n ≤ 31 := by
  have hdef : 0 ≤ s32 n ∧ s32 n < 32 := by
    rw [getNumeral_of_range (by omega), oneShl] at hc
    by_contra hno
    rw [if_neg hno] at hc
    exact some_ne_none c hc.symm
  have hmod : s32 n = n.bmod (2 ^ 32) := BitVec.toInt_ofInt n
  rw [Int.bmod_def] at hmod
  split at hmod <;> omega

/-- Amounts of less than 32 bits, or infinite ones. -/
def Narrow (b : IntervalValue) : Prop :=
  b.amounts.lb ≤ numeral (2 ^ 32 - 1) ∧
    (b.amounts.ub = plus_infinity ∨ b.amounts.ub ≤ numeral (2 ^ 32 - 1))

/-- **The amounts fit** where left shifts are sound. -/
theorem amounts_fit (hn : b.Narrow) (hx : a.contains x) (hy : b.amounts.contains y)
    (htop : ¬ (a.isTop && b.isTop)) (h : ShiftSound a b) :
    b.amounts.lb ≤ numeral 31 ∧ (b.amounts.ub = plus_infinity ∨ b.amounts.ub ≤ numeral 30 ∨
      b.amounts.lb = numeral 31 ∧ b.amounts.ub = numeral 31 ∧ a.lb.neg = a.ub) := by
  obtain ⟨hyb, h0⟩ := contains_amounts.mp hy
  have ha := not_bottom_of_contains hx
  have hb := not_bottom_of_contains hyb
  have hsh := not_bottom_of_contains hy
  obtain ⟨s, hlb, hsy⟩ := exists_first hy
  have hs32 : (s : ℤ) ≤ 2 ^ 32 - 1 := by
    have := hn.1
    rwa [hlb, numeral_le] at this
  have hshl : ∀ r, a.shl b = some r → ∃ c, oneShl (s32 (numeral s).getNumeral) = some c ∧
      ∃ d, (if b.amounts.ub.is_infinity then some plus_infinity
        else (oneShl (s32 b.amounts.ub.getNumeral)).map numeral) = some d ∧
          r = a.mul ⟨numeral c, d⟩ := by
    intro r hr
    rw [shl, ha, hb, if_neg (by decide), if_neg htop] at hr
    simp only [hsh, hlb] at hr
    obtain ⟨c, hc, hr⟩ := bind_eq_some_iff.mp hr
    obtain ⟨d, hd, hr⟩ := map_eq_some_iff.mp hr
    exact ⟨c, hc, d, hd, hr.symm⟩
  obtain ⟨r, hr, -⟩ := h.shl x y hx hyb h0
  obtain ⟨c, hc, d, hd, -⟩ := hshl r hr
  have hs : (s : ℤ) ≤ 31 := amount_of_defined (by omega) (by omega) hc
  rw [hlb, numeral_le]
  refine ⟨hs, ?_⟩
  have hyu := (contains_iff.mp hy).2
  cases hu : b.amounts.ub with
  | plus_infinity => exact .inl rfl
  | minus_infinity =>
    rw [hu] at hyu
    exact absurd hyu (not_numeral_le_minus y)
  | numeral t =>
    rw [hu, numeral_le] at hyu
    have ht32 : t ≤ 2 ^ 32 - 1 := by
      have := hn.2.resolve_left (by rw [hu]; simp)
      rwa [hu, numeral_le] at this
    rw [hu] at hd
    obtain ⟨p, hp, -⟩ := map_eq_some_iff.mp hd
    have ht : t ≤ 31 := amount_of_defined (by omega) (by omega) hp
    rcases eq_or_lt_of_le ht with rfl | hlt
    · right; right
      have hlast : ∀ z, a.contains z →
          (a.mul ⟨numeral (power s), numeral (power 31)⟩).contains (z * 2 ^ 31) := by
        intro z hz
        have hmem : b.amounts.contains 31 := contains_iff.mpr ⟨by rwa [hlb, numeral_le], hu.ge⟩
        obtain ⟨r, hr, hrc⟩ := h.shl z 31 hz (contains_amounts.mp hmem).1 (by decide)
        have hone := oneShl_amount (i := 31) le_rfl
        have heq := shl_eq ha hb htop hsh hlb (by omega) (d := numeral (power 31)) (by
          rw [hu]
          exact congrArg (Option.map numeral) hone)
        rw [heq] at hr
        rw [← some.inj hr] at hrc
        exact hrc
      by_cases hs31 : s = 31
      · subst hs31
        refine ⟨rfl, rfl, neg_lb_eq_ub hx fun z hz => ?_⟩
        have hmul := hlast z hz
        rw [mul, ha, not_isBottom_iff.mpr (le_rfl : numeral (power 31) ≤ numeral (power 31)),
          if_neg (by decide), contains_iff,
          show z * 2 ^ 31 = -z * power 31 by rw [power]; simp, ← numeral_mul] at hmul
        have hpow : numeral (power 31) ≤ numeral 0 := numeral_le.mpr (by decide)
        have hle := mul_le_mul_left_of_nonpos (not_isBottom_iff.mp ha) hpow
        rw [contains_iff]
        constructor
        · refine le_of_mul_le_of_neg (k := power 31) (by decide) (hmul.2.trans (maxOf_le.mpr ?_))
          simp [hle]
        · refine le_of_mul_le_of_neg (k := power 31) (by decide) (le_trans (le_minOf.mpr ?_) hmul.1)
          simp [hle]
      · have hbot : isBottom ⟨numeral (power s), numeral (power 31)⟩ := by
          rw [isBottom_iff, numeral_le, not_le]
          calc power 31 < 0 := by decide
            _ < power s := by
              rw [power, if_neg hs31]
              positivity
        have hmul := hlast x hx
        rw [mul, hbot, Bool.or_true, if_pos rfl] at hmul
        exact absurd hmul (not_contains_of_isBottom rfl)
    · exact .inr (.inl (numeral_le.mpr (by omega)))

/-- **A corner** is within the shifted range of the type, unless it is infinite. -/
theorem corner_bounds {L A c : NumericLiteral} {s : ℕ}
    (hA : A = plus_infinity ∨ ∃ t : ℕ, s ≤ t ∧ t ≤ 31 ∧ A = numeral t) (hc : L.shr A = some c) :
    (L ≠ plus_infinity → c ≤ numeral ((2 ^ 31 - 1) / 2 ^ s)) ∧
      (L ≠ minus_infinity → numeral (-2 ^ 31 / 2 ^ s) ≤ c) := by
  have hpos : (0 : ℤ) ≤ (2 ^ 31 - 1) / 2 ^ s := Int.ediv_nonneg (by decide) (by positivity)
  have hneg : (-2 ^ 31 : ℤ) / 2 ^ s ≤ -1 := by
    have := Int.ediv_neg_of_neg_of_pos (a := -2 ^ 31) (b := 2 ^ s) (by decide) (by positivity)
    omega
  cases L with
  | minus_infinity =>
    rw [← some.inj hc]
    exact ⟨fun _ => minus_infinity_le _, fun h => absurd rfl h⟩
  | plus_infinity =>
    rw [← some.inj hc]
    exact ⟨fun h => absurd rfl h, fun _ => le_plus_infinity _⟩
  | numeral n =>
    have hnum : ∀ z : ℤ, (-2 ^ 31) / 2 ^ s ≤ z → z ≤ (2 ^ 31 - 1) / 2 ^ s → numeral z = c →
        (numeral n ≠ plus_infinity → c ≤ numeral ((2 ^ 31 - 1) / 2 ^ s)) ∧
          (numeral n ≠ minus_infinity → numeral (-2 ^ 31 / 2 ^ s) ≤ c) := by
      rintro z hlow hhigh rfl
      exact ⟨fun _ => numeral_le.mpr hhigh, fun _ => numeral_le.mpr hlow⟩
    by_cases hn : n = 0
    · subst hn
      exact hnum 0 (by omega) hpos (some.inj hc)
    · rcases hA with rfl | ⟨t, hst, ht, rfl⟩
      · rw [shr_plus hn] at hc
        split at hc
        · exact hnum 0 (by omega) hpos (some.inj hc)
        · exact hnum (-1) hneg (by omega) (some.inj hc)
      · rw [shr_numeral hn ht] at hc
        obtain ⟨hlow, hhigh⟩ := s32_bounds (numeral n).getNumeral
        refine hnum _ ?_ ?_ (some.inj hc)
        · exact (ediv_le_ediv_of_neg (by decide) hst).trans (ediv_mono _ _ hlow t)
        · exact (ediv_mono _ _ (Int.le_sub_one_of_lt hhigh) t).trans
            (ediv_le_ediv_of_nonneg (by decide) hst)

/-- A bottom, or an upper bound within one. -/
def Below (k : NumericLiteral) (v : IntervalValue) : Prop := v.isBottom = true ∨ v.ub ≤ k
def Above (k : NumericLiteral) (v : IntervalValue) : Prop := v.isBottom = true ∨ k ≤ v.lb

variable {k : NumericLiteral} {w : IntervalValue}

/-- A join is one of its operands, or that of two intervals. -/
theorem join_with_ind {P : IntervalValue → Prop} (hv : P v) (hw : P w)
    (hboth : v.isBottom ≠ true → w.isBottom ≠ true →
      P ⟨NumericLiteral.min v.lb w.lb, NumericLiteral.max v.ub w.ub⟩) : P (v.join_with w) := by
  rw [IntervalValue.join_with]
  by_cases hvb : v.isBottom
  · rw [if_pos hvb]
    split
    · exact hv
    · exact hw
  · rw [if_neg hvb]
    split
    · exact hv
    · next hwb => exact hboth hvb hwb

theorem Below.join_with (hv : v.Below k) (hw : w.Below k) : (v.join_with w).Below k := by
  refine join_with_ind hv hw fun hvb hwb => .inr ?_
  show NumericLiteral.max v.ub w.ub ≤ k
  rw [max_eq]
  exact sup_le (hv.resolve_left hvb) (hw.resolve_left hwb)

theorem Above.join_with (hv : v.Above k) (hw : w.Above k) : (v.join_with w).Above k := by
  refine join_with_ind hv hw fun hvb hwb => .inr ?_
  show k ≤ NumericLiteral.min v.lb w.lb
  rw [min_eq]
  exact le_inf (hv.resolve_left hvb) (hw.resolve_left hwb)

theorem side_bounds {s : ℕ} (hs : s ≤ 31) (hlb : b.amounts.lb = numeral s)
    (hA : b.amounts.ub = plus_infinity ∨ ∃ t : ℕ, s ≤ t ∧ t ≤ 31 ∧ b.amounts.ub = numeral t)
    (hb : b.isBottom = false) (hsh : b.amounts.isBottom = false) (hz : v.contains 0 = false)
    (hr : v.shr b = some r) :
    (v.ub ≠ plus_infinity → r.Below (numeral ((2 ^ 31 - 1) / 2 ^ s))) ∧
      (v.lb ≠ minus_infinity → r.Above (numeral (-2 ^ 31 / 2 ^ s))) := by
  cases hv : v.isBottom with
  | true =>
    rw [shr_of_bottom hv] at hr
    rw [← some.inj hr]
    exact ⟨fun _ => .inl rfl, fun _ => .inl rfl⟩
  | false =>
    have hle := not_isBottom_iff.mp hv
    rw [shr_side hv hb hsh hz, hlb] at hr
    obtain ⟨ll, hll, hr⟩ := bind_eq_some_iff.mp hr
    obtain ⟨lu, hlu, hr⟩ := bind_eq_some_iff.mp hr
    obtain ⟨ul, hul, hr⟩ := bind_eq_some_iff.mp hr
    obtain ⟨uu, huu, rfl⟩ := map_eq_some_iff.mp hr
    have hS : numeral s = plus_infinity ∨ ∃ t : ℕ, s ≤ t ∧ t ≤ 31 ∧ numeral (s : ℤ) = numeral t :=
      .inr ⟨s, le_rfl, hs, rfl⟩
    constructor
    · intro hu
      have hl : v.lb ≠ plus_infinity := fun hl => hu (plus_le.mp (hl ▸ hle))
      refine .inr (maxOf_le.mpr ?_)
      rw [forall_mem_cons, forall_mem_cons, forall_mem_cons, forall_mem_singleton]
      exact ⟨(corner_bounds hS hll).1 hl, (corner_bounds hA hlu).1 hl,
        (corner_bounds hS hul).1 hu, (corner_bounds hA huu).1 hu⟩
    · intro hl
      have hu : v.ub ≠ minus_infinity := fun hu => hl (le_minus.mp (hu ▸ hle))
      refine .inr (le_minOf.mpr ?_)
      rw [forall_mem_cons, forall_mem_cons, forall_mem_cons, forall_mem_singleton]
      exact ⟨(corner_bounds hS hll).2 hl, (corner_bounds hA hlu).2 hl,
        (corner_bounds hS hul).2 hu, (corner_bounds hA huu).2 hu⟩

theorem shr_bounds {s : ℕ} (hs : s ≤ 31) (hlb : b.amounts.lb = numeral s)
    (hA : b.amounts.ub = plus_infinity ∨ ∃ t : ℕ, s ≤ t ∧ t ≤ 31 ∧ b.amounts.ub = numeral t)
    (ha : a.isBottom = false) (hb : b.isBottom = false) (hsh : b.amounts.isBottom = false)
    (htop : ¬ (a.isTop && b.isTop)) (hr : a.shr b = some r) :
    (a.ub ≠ plus_infinity → r.Below (numeral ((2 ^ 31 - 1) / 2 ^ s))) ∧
      (a.lb ≠ minus_infinity → r.Above (numeral (-2 ^ 31 / 2 ^ s))) := by
  cases hz : a.contains 0 with
  | false => exact side_bounds hs hlb hA hb hsh hz hr
  | true =>
    rw [shr_zero ha hb htop hsh hz] at hr
    obtain ⟨l, hl, hr⟩ := bind_eq_some_iff.mp hr
    obtain ⟨u, hu, rfl⟩ := map_eq_some_iff.mp hr
    have hl := side_bounds hs hlb hA hb hsh (not_contains_l a.lb) hl
    have hu := side_bounds hs hlb hA hb hsh (not_contains_u a.ub) hu
    constructor
    · intro hub
      refine ((hl.1 (by simp)).join_with (hu.1 hub)).join_with (.inr (numeral_le.mpr ?_))
      exact Int.ediv_nonneg (by decide) (by positivity)
    · intro hlb
      refine ((hl.2 hlb).join_with (hu.2 (by simp))).join_with (.inr (numeral_le.mpr ?_))
      exact (Int.ediv_neg_of_neg_of_pos (by decide) (by positivity)).le

/-- **Sound shifts** of narrow amounts fit. -/
theorem fits_of_sound (hn : b.Narrow) (hx : a.contains x) (hy : b.amounts.contains y)
    (htop : ¬ (a.isTop && b.isTop)) (h : ShiftSound a b) : Fits a b := by
  obtain ⟨hfirst, hlast⟩ := amounts_fit hn hx hy htop h
  obtain ⟨s, hlb, hsy⟩ := exists_first hy
  have hs : s ≤ 31 := by
    rw [hlb, numeral_le] at hfirst
    omega
  have hyu := (contains_iff.mp hy).2
  have hmem : b.amounts.contains s := contains_iff.mpr ⟨hlb.le, (numeral_le.mpr hsy).trans hyu⟩
  have hA : b.amounts.ub = plus_infinity ∨ ∃ t : ℕ, s ≤ t ∧ t ≤ 31 ∧ b.amounts.ub = numeral t := by
    have hsu := (contains_iff.mp hmem).2
    cases hu : b.amounts.ub with
    | plus_infinity => exact .inl rfl
    | minus_infinity =>
      rw [hu] at hsu
      exact absurd hsu (not_numeral_le_minus s)
    | numeral t =>
      rw [hu, numeral_le] at hsu
      rw [hu, numeral_le, numeral.injEq] at hlast
      have ht : t ≤ 31 := by
        rcases hlast with h | h | h
        · simp at h
        · omega
        · exact h.2.1.le
      exact .inr ⟨t.toNat, by omega, by omega, by rw [Int.toNat_of_nonneg (by omega)]⟩
  obtain ⟨hmb, hm0⟩ := contains_amounts.mp hmem
  -- A member beyond the type has a quotient beyond that of the type.
  have hquot : ∀ z, a.contains z → ∃ r, a.shr b = some r ∧ r.contains (z / 2 ^ s) := by
    intro z hz
    have := h.shr z s hz hmb hm0
    rwa [Int.toNat_natCast] at this
  have hbounds : ∀ r, a.shr b = some r → _ := fun r hr => shr_bounds hs hlb hA
    (not_bottom_of_contains hx) (not_bottom_of_contains hmb) (not_bottom_of_contains hmem) htop hr
  obtain ⟨hlx, hxu⟩ := contains_iff.mp hx
  refine ⟨hfirst, hlast, ?_, ?_⟩
  · cases hl : a.lb with
    | minus_infinity => exact .inl rfl
    | plus_infinity =>
      rw [hl] at hlx
      exact absurd hlx (not_plus_le_numeral x)
    | numeral p =>
      refine .inr (numeral_le.mpr ?_)
      by_contra hlt
      obtain ⟨r, hr, hrc⟩ := hquot p (contains_iff.mpr ⟨hl.le, (hl ▸ hlx).trans hxu⟩)
      have habove := ((hbounds r hr).2 (by rw [hl]; simp)).resolve_left
        (by rw [not_bottom_of_contains hrc]; decide)
      have hle := numeral_le.mp (habove.trans (contains_iff.mp hrc).1)
      have hmono := ediv_mono p (-2 ^ 31 - 1) (by omega) s
      have hstrict : ∀ s < 32, ((-2 ^ 31 - 1 : ℤ) / 2 ^ s) < -2 ^ 31 / 2 ^ s := by decide
      have := hstrict s (by omega)
      omega
  · cases hu : a.ub with
    | plus_infinity => exact .inl rfl
    | minus_infinity =>
      rw [hu] at hxu
      exact absurd hxu (not_numeral_le_minus x)
    | numeral q =>
      refine .inr (numeral_le.mpr ?_)
      by_contra hlt
      obtain ⟨r, hr, hrc⟩ := hquot q (contains_iff.mpr ⟨hlx.trans (hu ▸ hxu), hu.ge⟩)
      have hbelow := ((hbounds r hr).1 (by rw [hu]; simp)).resolve_left
        (by rw [not_bottom_of_contains hrc]; decide)
      have hle := numeral_le.mp ((contains_iff.mp hrc).2.trans hbelow)
      have hmono := ediv_mono (2 ^ 31) q (by omega) s
      have hstrict : ∀ s < 32, ((2 ^ 31 - 1 : ℤ) / 2 ^ s) < 2 ^ 31 / 2 ^ s := by decide
      have := hstrict s (by omega)
      omega

/-- Operands without members to shift, or fitting ones. -/
def Meets (a b : IntervalValue) : Prop :=
  (∀ x, ¬ a.contains x = true) ∨ (∀ y, ¬ b.amounts.contains y = true) ∨ Fits a b

/-- **Interval shifts** terminate; they are sound for operands that fit, and for no others of
    which the amounts have less than 32 bits. -/
theorem shifts_sound (a b : IntervalValue) : WellFounded Calls ∧ (Meets a b → ShiftSound a b) ∧
      (Narrow b → ShiftSound a b → Meets a b) := by
  refine ⟨calls_wellFounded, fun h => ?_, fun hn h => ?_⟩
  · rcases h with h | h | h
    · exact ⟨fun x _ hx => absurd hx (h x), fun x _ hx => absurd hx (h x)⟩
    · exact ⟨fun _ y _ hy h0 => absurd (contains_amounts.mpr ⟨hy, h0⟩) (h y),
        fun _ y _ hy h0 => absurd (contains_amounts.mpr ⟨hy, h0⟩) (h y)⟩
    · exact h.sound
  · by_contra hno
    obtain ⟨hx, hy, hfits⟩ : (∃ x, a.contains x) ∧ (∃ y, b.amounts.contains y) ∧ ¬ Fits a b := by
      simpa [Meets] using hno
    obtain ⟨x, hx⟩ := hx
    obtain ⟨y, hy⟩ := hy
    by_cases htop : (a.isTop && b.isTop)
    · obtain ⟨hta, htb⟩ := and_eq_true_iff.mp htop
      obtain ⟨hla, hua⟩ := of_decide_eq_true hta
      obtain ⟨hlb, hub⟩ := of_decide_eq_true htb
      have hamounts : b.amounts = ⟨numeral 0, plus_infinity⟩ := by
        obtain ⟨lb, ub⟩ := b
        cases hlb
        cases hub
        decide
      refine hfits ⟨?_, ?_, .inl hla, .inl hua⟩
      · rw [hamounts]
        exact numeral_le.mpr (by decide)
      · rw [hamounts]
        exact .inl rfl
    · exact hfits (fits_of_sound hn hx hy htop h)

/-- 1 shifted by 31 is -2^31. -/
theorem one_shl_not_shiftSound : shl ⟨numeral 1, numeral 1⟩ ⟨numeral 31, numeral 31⟩ =
        some ⟨numeral (-2 ^ 31), numeral (-2 ^ 31)⟩ ∧
      ¬ ShiftSound ⟨numeral 1, numeral 1⟩ ⟨numeral 31, numeral 31⟩ := by
  have hshl : shl ⟨numeral 1, numeral 1⟩ ⟨numeral 31, numeral 31⟩ =
      some ⟨numeral (-2 ^ 31), numeral (-2 ^ 31)⟩ := by decide
  refine ⟨hshl, fun h => ?_⟩
  obtain ⟨r, hr, hrc⟩ := h.shl 1 31 (by decide) (by decide) (by decide)
  rw [hshl] at hr
  rw [← some.inj hr] at hrc
  cases hrc

end IntervalValue

end SvfInterval
