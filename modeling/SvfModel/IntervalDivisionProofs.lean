import SvfModel.IntervalArithmeticProofs

/-!
# Interval division and remainder

A quotient of bounds is the Euclidean one of the solver (`quot`). For a positive divisor it is
monotone in the dividend, and in the divisor up to the sign of the dividend; so the four
quotients of the bounds enclose the Euclidean quotients of the members (`quot_corners`), and a
negative divisor only changes the sign (`contains_div_opposite`).

The quotient of the program is truncated. It is one above the Euclidean quotient for a negative
dividend that the divisor does not divide; this is seen at one corner only, where the dividend
is nearest to zero and the divisor farthest from it (**`division_sound_iff`**).
-/

namespace SvfInterval

namespace NumericLiteral

variable {a b c d l u x : NumericLiteral}

-- ── Quotients of bounds

/-- The quotient where the divisor is not zero. -/
def quot (lhs rhs : NumericLiteral) : NumericLiteral := (lhs.div rhs).getD (numeral 0)

theorem is_zero_iff : a.is_zero ↔ a = numeral 0 := by
  cases a <;> simp [is_zero]

theorem div_eq (h : b ≠ numeral 0) (a : NumericLiteral) : a.div b = some (a.quot b) := by
  have hsome : ∃ q, a.div b = some q := by
    unfold div
    rw [if_neg (mt is_zero_iff.mp h)]
    cases a <;> cases b <;> exact ⟨_, rfl⟩
  obtain ⟨q, hq⟩ := hsome
  rw [quot, hq]
  rfl

theorem numeral_quot (m n : ℤ) : (numeral m).quot (numeral n) = numeral (m / n) := by
  by_cases h : n = 0
  · subst h
    rw [Int.ediv_zero]
    rfl
  · simp [quot, div, is_zero, h]

theorem numeral_quot_plus (m : ℤ) : (numeral m).quot plus_infinity = numeral 0 := rfl

theorem plus_quot_pos {n : ℤ} (h : 0 < n) : plus_infinity.quot (numeral n) = plus_infinity := by
  simp [quot, div, is_zero, leq, h.ne', h]

theorem minus_quot_pos {n : ℤ} (h : 0 < n) : minus_infinity.quot (numeral n) = minus_infinity := by
  simp [quot, div, is_zero, leq, h.ne', h]

theorem quot_neg (a b : NumericLiteral) : a.quot b.neg = (a.quot b).neg := by
  cases b with
  | minus_infinity => cases a <;> rfl
  | plus_infinity => cases a <;> rfl
  | numeral n =>
    cases a with
    | numeral m => rw [neg_numeral, numeral_quot, numeral_quot, neg_numeral, Int.ediv_neg]
    | minus_infinity =>
      rcases lt_trichotomy n 0 with h | rfl | h
      · simp [quot, div, is_zero, leq, neg, h.ne, h.le, h]
      · rfl
      · simp [quot, div, is_zero, leq, neg, h.ne', h.le, h]
    | plus_infinity =>
      rcases lt_trichotomy n 0 with h | rfl | h
      · simp [quot, div, is_zero, leq, neg, h.ne, h.le, h]
      · rfl
      · simp [quot, div, is_zero, leq, neg, h.ne', h.le, h]

theorem pos_cases (h : numeral 0 < a) : a = plus_infinity ∨ ∃ n, a = numeral n ∧ 0 < n := by
  cases a with
  | minus_infinity => exact absurd h.le (not_numeral_le_minus 0)
  | plus_infinity => exact .inl rfl
  | numeral n =>
    refine .inr ⟨n, rfl, ?_⟩
    rw [← not_le, numeral_le, not_le] at h
    exact h

theorem quot_le_quot (h : a ≤ b) (hc : numeral 0 < c) : a.quot c ≤ b.quot c := by
  rcases pos_cases hc with rfl | ⟨n, rfl, hn⟩
  · cases a with
    | minus_infinity => exact minus_infinity_le _
    | plus_infinity => rw [plus_le.mp h]
    | numeral m =>
      cases b with
      | minus_infinity => exact absurd h (not_numeral_le_minus m)
      | numeral m' => exact le_rfl
      | plus_infinity => exact le_plus_infinity _
  · cases a with
    | minus_infinity =>
      rw [minus_quot_pos hn]
      exact minus_infinity_le _
    | plus_infinity => rw [plus_le.mp h]
    | numeral m =>
      cases b with
      | minus_infinity => exact absurd h (not_numeral_le_minus m)
      | numeral m' =>
        rw [numeral_quot, numeral_quot, numeral_le]
        exact Int.ediv_le_ediv hn (numeral_le.mp h)
      | plus_infinity =>
        rw [plus_quot_pos hn]
        exact le_plus_infinity _

theorem ediv_le_ediv_of_divisor {m p q : ℤ} (hm : 0 ≤ m) (hp : 0 < p) (hpq : p ≤ q) :
    m / q ≤ m / p := by
  refine (Int.le_ediv_iff_mul_le hp).mpr ?_
  calc m / q * p ≤ m / q * q :=
        Int.mul_le_mul_of_nonneg_left hpq (Int.ediv_nonneg hm (hp.le.trans hpq))
    _ ≤ m := Int.ediv_mul_le m (hp.trans_le hpq).ne'

theorem ediv_le_ediv_of_divisor_neg {m p q : ℤ} (hm : m < 0) (hp : 0 < p) (hpq : p ≤ q) :
    m / p ≤ m / q := by
  refine (Int.le_ediv_iff_mul_le (hp.trans_le hpq)).mpr ?_
  calc m / p * q ≤ m / p * p := mul_le_mul_of_nonpos_left hpq (Int.ediv_neg_of_neg_of_pos hm hp).le
    _ ≤ m := Int.ediv_mul_le m hp.ne'

theorem quot_antitone (hx : numeral 0 ≤ x) (hc : numeral 0 < c) (h : c ≤ d) :
    x.quot d ≤ x.quot c := by
  cases x with
  | minus_infinity => exact absurd hx (not_numeral_le_minus 0)
  | plus_infinity =>
    rcases pos_cases hc with rfl | ⟨n, rfl, hn⟩
    · exact le_plus_infinity _
    · rw [plus_quot_pos hn]
      exact le_plus_infinity _
  | numeral m =>
    rw [numeral_le] at hx
    rcases pos_cases hc with rfl | ⟨n, rfl, hn⟩
    · rw [plus_le.mp h]
    · rcases pos_cases (hc.trans_le h) with rfl | ⟨n', rfl, hn'⟩
      · rw [numeral_quot, numeral_quot_plus, numeral_le]
        exact Int.ediv_nonneg hx hn.le
      · rw [numeral_quot, numeral_quot, numeral_le]
        exact ediv_le_ediv_of_divisor hx hn (numeral_le.mp h)

theorem quot_monotone (hx : x < numeral 0) (hc : numeral 0 < c) (h : c ≤ d) :
    x.quot c ≤ x.quot d := by
  cases x with
  | plus_infinity => exact absurd hx.le (not_plus_le_numeral 0)
  | minus_infinity =>
    rcases pos_cases hc with rfl | ⟨n, rfl, hn⟩
    · rw [plus_le.mp h]
    · rw [minus_quot_pos hn]
      exact minus_infinity_le _
  | numeral m =>
    have hm : m < 0 := by
      rwa [← not_le, numeral_le, not_le] at hx
    rcases pos_cases hc with rfl | ⟨n, rfl, hn⟩
    · rw [plus_le.mp h]
    · rcases pos_cases (hc.trans_le h) with rfl | ⟨n', rfl, hn'⟩
      · rw [numeral_quot, numeral_quot_plus, numeral_le]
        exact (Int.ediv_neg_of_neg_of_pos hm hn).le
      · rw [numeral_quot, numeral_quot, numeral_le]
        exact ediv_le_ediv_of_divisor_neg hm hn (numeral_le.mp h)

/-- The quotients of the bounds. -/
def corners (l u c d : NumericLiteral) : List NumericLiteral :=
  [l.quot c, l.quot d, u.quot c, u.quot d]

theorem quot_corners {y : NumericLiteral} (hl : l ≤ x) (hu : x ≤ u) (hc : numeral 0 < c)
    (hcy : c ≤ y) (hyd : y ≤ d) :
    minOf (corners l u c d) ≤ x.quot y ∧ x.quot y ≤ maxOf (corners l u c d) := by
  have hy := hc.trans_le hcy
  have hlow : minOf (corners l u c d) ≤ l.quot y := by
    rcases le_or_gt (numeral 0) l with h | h
    · exact (minOf_le (a := l.quot d) (by simp [corners])).trans (quot_antitone h hy hyd)
    · exact (minOf_le (a := l.quot c) (by simp [corners])).trans (quot_monotone h hc hcy)
  have hhigh : u.quot y ≤ maxOf (corners l u c d) := by
    rcases le_or_gt (numeral 0) u with h | h
    · exact (quot_antitone h hc hcy).trans (le_maxOf (a := u.quot c) (by simp [corners]))
    · exact (quot_monotone h hy hyd).trans (le_maxOf (a := u.quot d) (by simp [corners]))
  exact ⟨hlow.trans (quot_le_quot hl hy), (quot_le_quot hu hy).trans hhigh⟩

-- ── Truncated quotients

/-- A truncated quotient by a positive divisor is the Euclidean one, or one above it when the
    dividend is negative. -/
theorem tdiv_cases (m : ℤ) {n : ℤ} (hn : 0 < n) :
    (m.tdiv n = m / n ∧ (0 ≤ m ∨ n ∣ m)) ∨ (m.tdiv n = m / n + 1 ∧ m < 0 ∧ ¬ n ∣ m) := by
  rw [Int.tdiv_eq_ediv, Int.sign_eq_one_of_pos hn]
  by_cases h : 0 ≤ m ∨ n ∣ m
  · rw [if_pos h]
    exact .inl ⟨add_zero _, h⟩
  · rw [if_neg h]
    obtain ⟨hm, hdvd⟩ := not_or.mp h
    exact .inr ⟨rfl, not_le.mp hm, hdvd⟩

theorem tdiv_nonpos {m n : ℤ} (hm : m ≤ 0) (hn : 0 < n) : m.tdiv n ≤ 0 := by
  have h := Int.tdiv_nonneg (neg_nonneg.mpr hm) hn.le
  rw [Int.neg_tdiv] at h
  omega

/-- The dividend nearest to zero and the divisor farthest from it have an exact quotient. -/
def ExactCorner (u d : NumericLiteral) : Prop :=
  ∀ m n, u = numeral m → m < 0 → d = numeral n → n ∣ m

/-- **Truncated quotients are enclosed** if that of the corner is exact. -/
theorem tdiv_corners {x y : ℤ} (hl : l ≤ numeral x) (hu : numeral x ≤ u) (hc : numeral 0 < c)
    (hcy : c ≤ numeral y) (hyd : numeral y ≤ d) (hexact : ExactCorner u d) :
    minOf (corners l u c d) ≤ numeral (x.tdiv y) ∧
      numeral (x.tdiv y) ≤ maxOf (corners l u c d) := by
  have hy : 0 < y := by
    have h := hc.trans_le hcy
    rwa [← not_le, numeral_le, not_le] at h
  obtain ⟨hlow, hhigh⟩ := quot_corners hl hu hc hcy hyd
  rw [numeral_quot] at hlow hhigh
  rcases tdiv_cases x hy with ⟨heq, -⟩ | ⟨heq, hx, hdvd⟩
  · rw [heq]
    exact ⟨hlow, hhigh⟩
  · refine ⟨hlow.trans (numeral_le.mpr (by omega)), ?_⟩
    rcases le_or_gt (numeral 0) u with hu0 | hu0
    · -- The quotient is not positive, and one of the corners is not negative.
      have hzero : numeral 0 ≤ u.quot c := by
        have h := quot_le_quot hu0 hc
        rcases pos_cases hc with rfl | ⟨n, rfl, -⟩
        · exact h
        · rwa [numeral_quot, Int.zero_ediv] at h
      exact (numeral_le.mpr (tdiv_nonpos hx.le hy)).trans
        (hzero.trans (le_maxOf (by simp [corners])))
    · obtain ⟨m, rfl, hm⟩ : ∃ m, u = numeral m ∧ m < 0 := by
        cases u with
        | minus_infinity => exact absurd hu (not_numeral_le_minus x)
        | plus_infinity => exact absurd hu0.le (not_plus_le_numeral 0)
        | numeral m =>
          rw [← not_le, numeral_le, not_le] at hu0
          exact ⟨m, rfl, hu0⟩
      have hcorner : numeral (x.tdiv y) ≤ (numeral m).quot d := by
        cases d with
        | minus_infinity => exact absurd hyd (not_numeral_le_minus y)
        | plus_infinity => exact numeral_le.mpr (tdiv_nonpos hx.le hy)
        | numeral n =>
          obtain ⟨k, rfl⟩ := hexact m n rfl hm rfl
          rw [numeral_le] at hu hyd
          have hn : 0 < n := hy.trans_le hyd
          rw [numeral_quot, Int.mul_ediv_cancel_left k hn.ne', numeral_le, heq]
          have hk : k ≤ 0 := by
            by_contra hpos
            exact absurd hm (not_lt.mpr (Int.mul_nonneg hn.le (not_le.mp hpos).le))
          -- A quotient that reaches the one at the corner is exact.
          have hlt : x / y < k := by
            by_contra hge
            have hle := (Int.le_ediv_iff_mul_le hy).mp (not_lt.mp hge)
            have hcorner := mul_le_mul_of_nonpos_left hyd hk
            refine hdvd ⟨k, ?_⟩
            rw [Int.mul_comm n k] at hu
            rw [Int.mul_comm y k]
            omega
          omega
      exact hcorner.trans (le_maxOf (by simp [corners]))

theorem numeral_lt {m n : ℤ} : numeral m < numeral n ↔ m < n := by
  rw [← not_le, numeral_le, not_le]

theorem corners_lt_tdiv {m n : ℤ} (hl : l ≤ numeral m) (hm : m < 0) (hc : numeral 0 < c)
    (hn : c ≤ numeral n) (hdvd : ¬ n ∣ m) :
    maxOf (corners l (numeral m) c (numeral n)) < numeral (m.tdiv n) := by
  have hn0 : 0 < n := numeral_lt.mp (hc.trans_le hn)
  have hm0 : numeral m < numeral 0 := numeral_lt.mpr hm
  have hcorner : (numeral m).quot c ≤ (numeral m).quot (numeral n) := quot_monotone hm0 hc hn
  have hmax : maxOf (corners l (numeral m) c (numeral n)) ≤ numeral (m / n) := by
    rw [← numeral_quot, maxOf_le]
    intro it hit
    simp only [corners, List.mem_cons, List.not_mem_nil, or_false] at hit
    rcases hit with rfl | rfl | rfl | rfl
    · exact (quot_le_quot hl hc).trans hcorner
    · exact quot_le_quot hl (hc.trans_le hn)
    · exact hcorner
    · exact le_rfl
  refine hmax.trans_lt (numeral_lt.mpr ?_)
  rcases tdiv_cases m hn0 with ⟨-, h⟩ | ⟨heq, -⟩
  · exact absurd h (not_or.mpr ⟨not_le.mpr hm, hdvd⟩)
  · omega

theorem min_corners_neg (l u c d : NumericLiteral) :
    minOf (corners l u d.neg c.neg) = (maxOf (corners l u c d)).neg := by
  refine eq_of_forall_le_iff fun e => ?_
  rw [le_neg, maxOf_le, le_minOf]
  simp only [corners, List.forall_mem_cons, quot_neg, le_neg]
  tauto

theorem max_corners_neg (l u c d : NumericLiteral) :
    maxOf (corners l u d.neg c.neg) = (minOf (corners l u c d)).neg := by
  refine eq_of_forall_ge_iff fun e => ?_
  rw [neg_le, le_minOf, maxOf_le]
  simp only [corners, List.forall_mem_cons, quot_neg, neg_le]
  tauto

theorem exactCorner_neg : ExactCorner u d.neg ↔ ExactCorner u d := by
  constructor
  · intro h m n hm hneg hn
    have hdvd := h m (-n) hm hneg (by rw [hn, neg_numeral])
    exact (neg_dvd (a := n)).mp hdvd
  · intro h m n hm hneg hn
    have hdvd := h m (-n) hm hneg (by rw [← neg_numeral, ← hn, neg_neg_literal])
    exact (neg_dvd (a := n)).mp hdvd

end NumericLiteral

open NumericLiteral

namespace IntervalValue

variable {a b : IntervalValue} {x y z : ℤ}

-- ── Quotients of intervals

/-- The opposites of the members. -/
def opposite (v : IntervalValue) : IntervalValue := ⟨v.ub.neg, v.lb.neg⟩

theorem contains_opposite {v : IntervalValue} :
    v.opposite.contains x ↔ v.contains (-x) := contains_neg

/-- The bound that is farthest from zero, of an interval without zero. -/
def farthest (v : IntervalValue) : NumericLiteral := if v.lb.leq (numeral 0) then v.lb else v.ub

/-- The quotients of the bounds, as an interval. -/
def hull (a b : IntervalValue) : IntervalValue :=
  ⟨minOf (corners a.lb a.ub b.lb b.ub), maxOf (corners a.lb a.ub b.lb b.ub)⟩

theorem not_contains_zero_iff {v : IntervalValue} : v.contains 0 = false ↔
    numeral 0 < v.lb ∨ v.ub < numeral 0 := by
  rw [← Bool.not_eq_true, contains_iff, not_and_or, not_le, not_le]

theorem div_eq_hull (ha : a.isBottom = false) (hb : b.isBottom = false)
    (h0 : b.contains 0 = false) : a.div b = some (a.hull b) := by
  have hle := not_isBottom_iff.mp hb
  have hne : b.lb ≠ numeral 0 ∧ b.ub ≠ numeral 0 := by
    rcases not_contains_zero_iff.mp h0 with h | h
    · exact ⟨h.ne', (h.trans_le hle).ne'⟩
    · exact ⟨(hle.trans_lt h).ne, h.ne⟩
  rw [div, ha, hb, h0]
  simp only [Bool.or_self, Bool.false_eq_true, if_false]
  rw [div_eq hne.1, div_eq hne.2, div_eq hne.1, div_eq hne.2]
  rfl

theorem hull_opposite (a b : IntervalValue) : a.hull b.opposite = (a.hull b).opposite := by
  rw [hull, hull, opposite, opposite]
  exact congrArg₂ IntervalValue.mk (min_corners_neg _ _ _ _) (max_corners_neg _ _ _ _)

def Truncates (a b : IntervalValue) : Prop :=
  ∀ x y, a.contains x = true → b.contains y = true → (a.hull b).contains (x.tdiv y) = true

theorem truncates_opposite : Truncates a b.opposite ↔ Truncates a b := by
  constructor
  · intro h x y hx hy
    have hmem := h x (-y) hx (contains_opposite.mpr (by rwa [neg_neg]))
    rwa [hull_opposite, contains_opposite, Int.tdiv_neg, neg_neg] at hmem
  · intro h x y hx hy
    rw [hull_opposite, contains_opposite, ← Int.tdiv_neg]
    exact h x (-y) hx (contains_opposite.mp hy)

theorem truncates_iff_of_pos (ha : a.isBottom = false) (hb : b.isBottom = false)
    (hpos : numeral 0 < b.lb) : Truncates a b ↔ ExactCorner a.ub b.ub := by
  constructor
  · intro h m n hm hneg hn
    by_contra hdvd
    have hla := not_isBottom_iff.mp ha
    have hlb := not_isBottom_iff.mp hb
    rw [hm] at hla
    rw [hn] at hlb
    have hmem := h m n (contains_iff.mpr ⟨hla, hm.ge⟩) (contains_iff.mpr ⟨hlb, hn.ge⟩)
    have hlt := corners_lt_tdiv hla hneg hpos hlb hdvd
    rw [← hm, ← hn] at hlt
    exact absurd (contains_iff.mp hmem).2 (not_le.mpr hlt)
  · intro h x y hx hy
    rw [contains_iff] at hx hy ⊢
    exact tdiv_corners hx.1 hx.2 hpos hy.1 hy.2 h

theorem truncates_iff (ha : a.isBottom = false) (hb : b.isBottom = false)
    (h0 : b.contains 0 = false) : Truncates a b ↔ ExactCorner a.ub b.farthest := by
  have hle := not_isBottom_iff.mp hb
  rcases not_contains_zero_iff.mp h0 with hpos | hneg
  · rw [farthest, if_neg (mt leq_iff.mp (not_le.mpr hpos))]
    exact truncates_iff_of_pos ha hb hpos
  · have hpos : numeral 0 < b.opposite.lb := by
      refine lt_of_le_of_ne (le_neg.mpr hneg.le) fun h => hneg.ne ?_
      exact (neg_eq_iff.mp h.symm)
    have hbot : b.opposite.isBottom = false := not_isBottom_iff.mpr (neg_le_neg_iff.mpr hle)
    rw [farthest, if_pos (leq_iff.mpr (hle.trans hneg.le)), ← truncates_opposite,
      truncates_iff_of_pos ha hbot hpos]
    exact exactCorner_neg

-- ── Remainders

theorem abs_tmod_le (x : ℤ) (hy : y ≠ 0) : |x.tmod y| ≤ |x| ∧ |x.tmod y| ≤ |y| - 1 := by
  have habs : (x.tmod y).natAbs = x.natAbs % y.natAbs := Int.natAbs_tmod x y
  have hle : x.natAbs % y.natAbs ≤ x.natAbs := Nat.mod_le _ _
  have hlt : x.natAbs % y.natAbs < y.natAbs := Nat.mod_lt _ (Int.natAbs_pos.mpr hy)
  rw [Int.abs_eq_natAbs, Int.abs_eq_natAbs, Int.abs_eq_natAbs, habs]
  omega

theorem le_abs_literal (a : NumericLiteral) : a ≤ a.abs := by
  rw [NumericLiteral.abs]
  split
  case isTrue h =>
    have hle := leq_iff.mp h
    exact hle.trans (le_neg.mpr hle)
  case isFalse => exact le_rfl

theorem neg_le_abs_literal (a : NumericLiteral) : a.neg ≤ a.abs := by
  rw [NumericLiteral.abs]
  split
  case isTrue h => exact le_rfl
  case isFalse h =>
    have hle := le_of_not_ge (mt leq_iff.mpr h)
    exact (NumericLiteral.neg_le.mpr hle).trans hle

theorem abs_le_max {v : IntervalValue} (hx : v.contains x) :
    numeral |x| ≤ v.lb.abs ⊔ v.ub ∧ numeral |x| ≤ v.lb.abs ⊔ v.ub.abs := by
  obtain ⟨hl, hu⟩ := contains_iff.mp hx
  rcases le_total 0 x with h | h
  · rw [abs_of_nonneg h]
    exact ⟨hu.trans le_sup_right, (hu.trans (le_abs_literal _)).trans le_sup_right⟩
  · have hle : numeral (-x) ≤ v.lb.abs :=
      (NumericLiteral.neg_le_neg_iff.mpr hl).trans (neg_le_abs_literal _)
    rw [abs_of_nonpos h]
    exact ⟨hle.trans le_sup_left, hle.trans le_sup_left⟩

theorem sub_one (d : NumericLiteral) : ∃ e, d.sub (numeral 1) = some e ∧
    ∀ n, numeral n ≤ d → numeral (n - 1) ≤ e := by
  cases d with
  | minus_infinity => exact ⟨_, rfl, fun n h => absurd h (not_numeral_le_minus n)⟩
  | plus_infinity => exact ⟨_, rfl, fun n _ => le_plus_infinity _⟩
  | numeral m =>
    refine ⟨_, rfl, fun n h => ?_⟩
    rw [numeral_le] at h ⊢
    omega

theorem getNumeral_neg_iff {a : NumericLiteral} : a.getNumeral < 0 ↔ a < numeral 0 := by
  cases a with
  | minus_infinity =>
    exact iff_of_true (by decide) (lt_of_le_not_ge (minus_infinity_le _) (not_numeral_le_minus 0))
  | plus_infinity => exact iff_of_false (by decide) (not_lt.mpr (le_plus_infinity _))
  | numeral n =>
    rw [numeral_lt, getNumeral]
    omega

theorem getNumeral_pos_iff {a : NumericLiteral} : 0 < a.getNumeral ↔ numeral 0 < a := by
  cases a with
  | minus_infinity => exact iff_of_false (by decide) (not_lt.mpr (minus_infinity_le _))
  | plus_infinity =>
    exact iff_of_true (by decide) (lt_of_le_not_ge (le_plus_infinity _) (not_plus_le_numeral 0))
  | numeral n =>
    rw [numeral_lt, getNumeral]
    omega

section

variable (ha : a.isBottom = false) (hb : b.isBottom = false) (h0 : b.contains 0 = false)
include ha hb h0

theorem mod_of_not_numeral (hnum : ¬ (a.is_numeral && b.is_numeral)) :
    ∃ r, a.mod b = some r ∧ ∀ x y, a.contains x → b.contains y → y ≠ 0 → r.contains (x.tmod y) := by
  obtain ⟨e, he, hle⟩ := sub_one (NumericLiteral.max b.lb.abs b.ub)
  rw [mod, ha, hb, h0, he]
  simp only [Bool.or_self, Bool.false_eq_true, if_false]
  rw [if_neg hnum, Option.map_some]
  refine ⟨_, rfl, fun x y hx hy hy0 => ?_⟩
  set ub := NumericLiteral.min (NumericLiteral.max a.lb.abs a.ub.abs) e with hub
  obtain ⟨hz1, hz2⟩ := abs_tmod_le x hy0
  have hz : numeral |x.tmod y| ≤ ub := by
    rw [hub, min_eq, max_eq]
    refine le_inf ((numeral_le.mpr hz1).trans (abs_le_max hx).2) ?_
    rw [max_eq] at hle
    exact (numeral_le.mpr hz2).trans (hle _ (abs_le_max hy).1)
  have hupper : numeral (x.tmod y) ≤ ub := (numeral_le.mpr (le_abs_self _)).trans hz
  have hlower : ub.neg ≤ numeral (x.tmod y) := by
    rw [neg_le, neg_numeral]
    exact (numeral_le.mpr (neg_le_abs _)).trans hz
  obtain ⟨hl, hu⟩ := contains_iff.mp hx
  split
  case isTrue =>
    split
    case isTrue => exact contains_iff.mpr ⟨hlower, hupper⟩
    case isFalse hpos =>
      have hx0 : x ≤ 0 := numeral_le.mp (hu.trans (not_lt.mp (mt getNumeral_pos_iff.mpr hpos)))
      refine contains_iff.mpr ⟨hlower, numeral_le.mpr ?_⟩
      have h := Int.tmod_nonneg y (neg_nonneg.mpr hx0)
      rw [Int.neg_tmod] at h
      omega
  case isFalse hneg =>
    have hx0 : 0 ≤ x := numeral_le.mp ((not_lt.mp (mt getNumeral_neg_iff.mpr hneg)).trans hl)
    exact contains_iff.mpr ⟨numeral_le.mpr (Int.tmod_nonneg y hx0), hupper⟩

theorem mod_of_numeral (hnum : (a.is_numeral && b.is_numeral))
    (hexact : ExactCorner a.ub b.farthest) :
    ∃ r, a.mod b = some r ∧ ∀ x y, a.contains x → b.contains y → y ≠ 0 → r.contains (x.tmod y) := by
  obtain ⟨hna, hnb⟩ := Bool.and_eq_true_iff.mp hnum
  obtain ⟨al, au⟩ := a
  obtain ⟨bl, bu⟩ := b
  obtain rfl : al = au := of_decide_eq_true hna
  obtain rfl : bl = bu := of_decide_eq_true hnb
  have hne : bl ≠ numeral 0 := by
    rintro rfl
    cases h0
  obtain ⟨r, hr⟩ : ∃ r, al.mod bl = some r := by
    unfold NumericLiteral.mod
    rw [if_neg (mt is_zero_iff.mp hne)]
    cases al <;> cases bl <;> exact ⟨_, rfl⟩
  refine ⟨⟨r, r⟩, ?_, fun x y hx hy hy0 => ?_⟩
  · rw [mod, ha, hb, h0]
    simp only [Bool.or_self, Bool.false_eq_true, if_false]
    rw [if_pos hnum, hr]
    rfl
  · obtain ⟨hl, hu⟩ := contains_iff.mp hx
    obtain rfl : al = numeral x := le_antisymm hl hu
    obtain ⟨hl, hu⟩ := contains_iff.mp hy
    obtain rfl : bl = numeral y := le_antisymm hl hu
    have hrem : r = numeral (x % y) := by
      simpa [NumericLiteral.mod, NumericLiteral.is_zero, hy0] using hr.symm
    have heq : x.tmod y = x % y := by
      rcases le_or_gt 0 x with hx0 | hx0
      · exact Int.tmod_eq_emod_of_nonneg hx0
      · have hfar : farthest ⟨numeral y, numeral y⟩ = numeral y := ite_self _
        have hdvd := hexact x y rfl hx0 hfar
        rw [Int.emod_eq_zero_of_dvd hdvd, Int.tmod_eq_zero_of_dvd hdvd]
    rw [hrem, heq]
    exact contains_iff.mpr ⟨le_rfl, le_rfl⟩

end

-- ── Division and remainder

/-- The program's quotients and remainders are in the intervals. -/
def DivisionSound (a b : IntervalValue) : Prop :=
  ∃ q r, a.div b = some q ∧ a.mod b = some r ∧
    ∀ x y, a.contains x = true → b.contains y = true → y ≠ 0 →
      q.contains (x.tdiv y) = true ∧ r.contains (x.tmod y) = true

theorem divisionSound_of_bottom (h : a.isBottom ∨ b.isBottom) : DivisionSound a b := by
  have hor := Bool.or_eq_true_iff.mpr h
  refine ⟨bottom, bottom, by rw [div, if_pos hor], by rw [mod, if_pos hor], fun x y hx hy _ => ?_⟩
  rcases h with h | h
  · exact absurd hx (not_contains_of_isBottom h)
  · exact absurd hy (not_contains_of_isBottom h)

theorem divisionSound_of_zero (ha : a.isBottom = false) (hb : b.isBottom = false)
    (h0 : b.contains 0) : DivisionSound a b := by
  refine ⟨_, _, by rw [div, ha, hb, h0]; rfl, by rw [mod, ha, hb, h0]; rfl, fun x y hx _ _ => ?_⟩
  split
  case isTrue hzero =>
    obtain ⟨hlb, hub⟩ := Bool.and_eq_true_iff.mp hzero
    obtain ⟨hl, hu⟩ := contains_iff.mp hx
    rw [is_zero_iff.mp hlb, numeral_le] at hl
    rw [is_zero_iff.mp hub, numeral_le] at hu
    obtain rfl : x = 0 := by omega
    rw [Int.zero_tdiv, Int.zero_tmod]
    exact ⟨rfl, rfl⟩
  case isFalse => exact ⟨rfl, rfl⟩

/-- **Division and remainder are sound** for a divisor without zero if the quotient of the
    dividend nearest to zero, where that is negative, by the divisor farthest from it is exact. -/
theorem division_sound_iff (a b : IntervalValue) :
    DivisionSound a b ↔ a.isBottom = true ∨ b.isBottom = true ∨ b.contains 0 = true ∨
      ExactCorner a.ub b.farthest := by
  by_cases hbot : a.isBottom ∨ b.isBottom
  · refine iff_of_true (divisionSound_of_bottom hbot) ?_
    tauto
  obtain ⟨ha, hb⟩ : a.isBottom = false ∧ b.isBottom = false := by simpa using hbot
  by_cases hzero : b.contains 0
  · exact iff_of_true (divisionSound_of_zero ha hb hzero) (.inr (.inr (.inl hzero)))
  have h0 : b.contains 0 = false := by simpa using hzero
  constructor
  · rintro ⟨q, r, hq, -, hmem⟩
    rw [div_eq_hull ha hb h0] at hq
    cases hq
    refine .inr (.inr (.inr ((truncates_iff ha hb h0).mp fun x y hx hy => ?_)))
    refine (hmem x y hx hy ?_).1
    rintro rfl
    exact hzero hy
  · rintro (h | h | h | hexact)
    · exact absurd (.inl h) hbot
    · exact absurd (.inr h) hbot
    · exact absurd h hzero
    · have hmod : ∃ r, a.mod b = some r ∧ ∀ x y, a.contains x → b.contains y →
          y ≠ 0 → r.contains (x.tmod y) := by
        by_cases hnum : (a.is_numeral && b.is_numeral)
        · exact mod_of_numeral ha hb h0 hnum hexact
        · exact mod_of_not_numeral ha hb h0 hnum
      obtain ⟨r, hr, hrem⟩ := hmod
      exact ⟨a.hull b, r, div_eq_hull ha hb h0, hr, fun x y hx hy hy0 =>
        ⟨(truncates_iff ha hb h0).mpr hexact x y hx hy, hrem x y hx hy hy0⟩⟩

/-- The quotient of -7 by 2 is -3, and the interval has -4 only. -/
theorem division_not_sound :
    ¬ DivisionSound ⟨numeral (-7), numeral (-7)⟩ ⟨numeral 2, numeral 2⟩ := by
  rintro ⟨q, r, hq, -, hmem⟩
  have hquot : div ⟨numeral (-7), numeral (-7)⟩ ⟨numeral 2, numeral 2⟩ =
      some ⟨numeral (-4), numeral (-4)⟩ := by decide
  cases hq.symm.trans hquot
  exact absurd (hmem (-7) 2 (by decide) (by decide) (by decide)).1 (by decide)

end IntervalValue

end SvfInterval
