import SvfModel.IntervalArithmeticProofs

/-!
# Bitwise operators on intervals

`operator&` bounds the result by the operand that is not negative. `operator|` and `operator^`
round the larger upper bound up to a power of two, `1 << i`; the heart is that the bits of both
operands lie below it (`toInt_lt_two_pow`). But `1 << i` is an `int`: it is negative for i = 31
and has no value beyond, so the operators fail exactly on ranges of numbers that are not
negative and reach 2^30 - 1 (**`bitwise_sound_iff`**).
-/

namespace SvfInterval

open Option Nat

-- ── Machine shifts

/-- `1 << i` for an `int`. A width outside of the type is not defined. -/
def oneShl (i : ℤ) : Option ℤ :=
  if 0 ≤ i ∧ i < 32 then some (1#32 <<< i.toNat).toInt else none

def shiftFrom (num : ℤ) : ℕ → ℕ → Option ℕ
  | 0, _ => none
  | left + 1, i => if num >>> i ≠ 0 then shiftFrom num left (i + 1) else some i

def next_power_of_2 (num : ℤ) : Option ℤ := (shiftFrom num 63 1).bind fun i => oneShl i

theorem oneShl_of_lt {i : ℕ} (h : i < 31) : oneShl i = some (2 ^ i) := by
  have hall : ∀ i < 31, oneShl (i : ℕ) = some (2 ^ i) := by decide
  exact hall i h

theorem oneShl_of_ge {i : ℕ} (h : 31 ≤ i) {n : ℤ} (hn : oneShl i = some n) : n < 0 := by
  rcases eq_or_lt_of_le h with rfl | hlt
  · have heq : oneShl (31 : ℕ) = some (-2 ^ 31) := by decide
    rw [← mem_unique heq hn]
    decide
  · rw [oneShl, if_neg (by omega)] at hn
    cases hn.symm

theorem shiftRight_eq_zero_iff {num : ℤ} (h : 0 ≤ num) (i : ℕ) : num >>> i = 0 ↔ num < 2 ^ i := by
  have hpow : (0 : ℤ) < 2 ^ i := Int.pow_pos (by decide)
  rw [Int.shiftRight_eq_div_pow]
  push_cast
  constructor
  · intro hz
    by_contra hge
    have hone : 1 ≤ num / 2 ^ i := (Int.le_ediv_iff_mul_le hpow).mpr (by omega)
    omega
  · exact Int.ediv_eq_zero_of_lt h

theorem shiftFrom_clears {num : ℤ} {k : ℕ} : ∀ left i : ℕ, shiftFrom num left i = some k →
    num >>> k = 0 := by
  intro left
  induction left with
  | zero => exact nofun
  | succ left ih =>
    intro i h
    rw [shiftFrom] at h
    split at h
    case isTrue => exact ih (i + 1) h
    case isFalse heq =>
      rw [← some.inj h]
      exact not_not.mp heq

theorem exists_shiftFrom {num : ℤ} (h : 0 ≤ num) : ∀ left i : ℕ, num < 2 ^ (i + left) →
    ∃ k, shiftFrom num (left + 1) i = some k ∧ ∀ j, i ≤ j → j < k → 2 ^ j ≤ num := by
  intro left
  induction left with
  | zero =>
    intro i hlt
    have hz : num >>> i = 0 := (shiftRight_eq_zero_iff h i).mpr hlt
    refine ⟨i, ?_, fun j hj hji => absurd hji (not_lt.mpr hj)⟩
    rw [shiftFrom, if_neg (not_not.mpr hz)]
  | succ left ih =>
    intro i hlt
    rw [shiftFrom]
    split
    case isTrue hne =>
      obtain ⟨k, hk, hmin⟩ := ih (i + 1) (by rwa [add_assoc, add_comm 1])
      refine ⟨k, hk, fun j hj hjk => ?_⟩
      rcases eq_or_lt_of_le hj with rfl | hij
      · exact not_lt.mp (mt (shiftRight_eq_zero_iff h i).mpr hne)
      · exact hmin j hij hjk
    case isFalse => exact ⟨i, rfl, fun j hj hji => absurd hji (not_lt.mpr hj)⟩

theorem next_power_of_2_of_lt {num : ℤ} (h : 0 ≤ num) (hlt : num < 2 ^ 30) :
    ∃ k : ℕ, k ≤ 30 ∧ next_power_of_2 num = some (2 ^ k) ∧ num < 2 ^ k := by
  obtain ⟨k, hk, hmin⟩ := exists_shiftFrom h 62 1 (by omega)
  have hk30 : k ≤ 30 := by
    by_contra hgt
    have := hmin 30 (by decide) (by omega)
    omega
  refine ⟨k, hk30, ?_, (shiftRight_eq_zero_iff h k).mp (shiftFrom_clears 63 1 hk)⟩
  rw [next_power_of_2, hk, bind_some, oneShl_of_lt (by omega)]

theorem next_power_of_2_of_ge {num n : ℤ} (h : 2 ^ 30 ≤ num) (hn : next_power_of_2 num = some n) :
    n < 0 := by
  obtain ⟨k, hk, hone⟩ := bind_eq_some_iff.mp hn
  have hlt := (shiftRight_eq_zero_iff (by omega) k).mp (shiftFrom_clears 63 1 hk)
  have hge : 31 ≤ k := by
    by_contra hk30
    have hpow : (2 : ℤ) ^ k ≤ 2 ^ 30 := pow_le_pow_right₀ (by decide) (by omega)
    omega
  exact oneShl_of_ge hge hone

-- ── Bits of words that are not negative

section Words

variable {x y : BitVec 64}

theorem toInt_eq_toNat_of_nonneg (h : 0 ≤ x.toInt) : x.toInt = x.toNat := by
  rw [BitVec.toInt_eq_toNat_cond] at h ⊢
  split at h <;> omega

theorem toInt_eq_of_toNat_lt {k : ℕ} (hk : k ≤ 63) (h : x.toNat < 2 ^ k) : x.toInt = x.toNat := by
  have hpow : 2 ^ k ≤ 2 ^ 63 := Nat.pow_le_pow_right (by decide) hk
  exact BitVec.toInt_eq_toNat_of_lt (by omega)

theorem toNat_lt_of_nonneg (h : 0 ≤ x.toInt) : x.toNat < 2 ^ 63 := by
  rw [BitVec.toInt_eq_toNat_cond] at h
  split at h <;> omega

theorem toInt_and_le (h : 0 ≤ x.toInt) : 0 ≤ (x &&& y).toInt ∧ (x &&& y).toInt ≤ x.toInt := by
  have hle : (x &&& y).toNat ≤ x.toNat := by
    rw [BitVec.toNat_and]
    exact and_le_left
  rw [toInt_eq_of_toNat_lt le_rfl (hle.trans_lt (toNat_lt_of_nonneg h)), toInt_eq_toNat_of_nonneg h]
  omega

/-- An operator that keeps within a number of bits. -/
def KeepsBits (op : BitVec 64 → BitVec 64 → BitVec 64) : Prop :=
  ∀ (x y : BitVec 64) (k : ℕ), x.toNat < 2 ^ k → y.toNat < 2 ^ k → (op x y).toNat < 2 ^ k

theorem keepsBits_or : KeepsBits (· ||| ·) := by
  intro x y k hx hy
  rw [BitVec.toNat_or]
  exact or_lt_two_pow hx hy

theorem keepsBits_xor : KeepsBits (· ^^^ ·) := by
  intro x y k hx hy
  rw [BitVec.toNat_xor]
  exact xor_lt_two_pow hx hy

theorem toInt_lt_two_pow {op : BitVec 64 → BitVec 64 → BitVec 64} (hop : KeepsBits op) {k : ℕ}
    (hk : k ≤ 63) (hx : 0 ≤ x.toInt) (hy : 0 ≤ y.toInt) (hxk : x.toInt < 2 ^ k)
    (hyk : y.toInt < 2 ^ k) : 0 ≤ (op x y).toInt ∧ (op x y).toInt < 2 ^ k := by
  rw [toInt_eq_toNat_of_nonneg hx] at hxk
  rw [toInt_eq_toNat_of_nonneg hy] at hyk
  have hlt := hop x y k (by exact_mod_cast hxk) (by exact_mod_cast hyk)
  rw [toInt_eq_of_toNat_lt hk hlt]
  exact ⟨Int.natCast_nonneg _, by exact_mod_cast hlt⟩

end Words

namespace NumericLiteral

/-- `bv2int` of an operator on the `int2bv` of both sides, with `MaxBvLen` bits; of an infinity
    there is no number. -/
def bitwise (op : BitVec 64 → BitVec 64 → BitVec 64) :
    NumericLiteral → NumericLiteral → Option NumericLiteral
  | numeral m, numeral n => some (numeral (op (BitVec.ofInt 64 m) (BitVec.ofInt 64 n)).toInt)
  | _, _ => none

theorem getNumeral_of_range {n : ℤ} (h : -2 ^ 63 ≤ n ∧ n < 2 ^ 63) :
    (numeral n).getNumeral = n := by
  rw [getNumeral]
  omega

end NumericLiteral

namespace IntervalValue

open NumericLiteral

/-- `operator&` -/
def band (lhs rhs : IntervalValue) : Option IntervalValue :=
  if lhs.isBottom || rhs.isBottom then some bottom
  else if lhs.is_numeral && rhs.is_numeral then
    (bitwise (· &&& ·) lhs.lb rhs.lb).map fun n => ⟨n, n⟩
  else if lhs.lb.getNumeral ≥ 0 ∧ rhs.lb.getNumeral ≥ 0 then
    some ⟨numeral 0, NumericLiteral.min lhs.ub rhs.ub⟩
  else if lhs.lb.getNumeral ≥ 0 then some ⟨numeral 0, lhs.ub⟩
  else if rhs.lb.getNumeral ≥ 0 then some ⟨numeral 0, rhs.ub⟩
  else some top

/-- The branches of `operator|` and `operator^`. -/
def rounded (op : BitVec 64 → BitVec 64 → BitVec 64) (lhs rhs : IntervalValue) :
    Option IntervalValue :=
  if lhs.isBottom || rhs.isBottom then some bottom
  else if lhs.is_numeral && rhs.is_numeral then
    (bitwise op lhs.lb rhs.lb).map fun n => ⟨n, n⟩
  else if lhs.lb.getNumeral ≥ 0 ∧ !lhs.ub.is_infinity ∧ rhs.lb.getNumeral ≥ 0 ∧
      !rhs.ub.is_infinity then
    let m := Max.max lhs.ub.getNumeral rhs.ub.getNumeral
    -- An `s64_t` does not hold the successor of the last number.
    if m + 1 < 2 ^ 63 then (next_power_of_2 (m + 1)).map fun ub => ⟨numeral 0, numeral ub⟩
    else none
  else some top

/-- `operator|` -/
def bor (lhs rhs : IntervalValue) : Option IntervalValue := rounded (· ||| ·) lhs rhs

/-- `operator^` -/
def bxor (lhs rhs : IntervalValue) : Option IntervalValue := rounded (· ^^^ ·) lhs rhs

-- ── Soundness

/-- A bound is an `s64_t`, or infinite. -/
def InRange (v : IntervalValue) : Prop :=
  ∀ n, v.lb = numeral n ∨ v.ub = numeral n → -2 ^ 63 ≤ n ∧ n < 2 ^ 63

/-- The result encloses the operator on words. -/
def Encloses (op : BitVec 64 → BitVec 64 → BitVec 64) (a b : IntervalValue)
    (r : Option IntervalValue) : Prop :=
  ∀ x y : BitVec 64, a.contains x.toInt = true → b.contains y.toInt = true →
    ∃ v, r = some v ∧ v.contains (op x y).toInt = true

structure BitwiseSound (a b : IntervalValue) : Prop where
  and : Encloses (· &&& ·) a b (a.band b)
  or : Encloses (· ||| ·) a b (a.bor b)
  xor : Encloses (· ^^^ ·) a b (a.bxor b)

/-- Ranges of numbers that are not negative, not both of one number, of which one reaches
    2^30 - 1. -/
def TooWide (a b : IntervalValue) : Prop :=
  ∃ l u l' u' : ℤ, a = ⟨numeral l, numeral u⟩ ∧ b = ⟨numeral l', numeral u'⟩ ∧
    0 ≤ l ∧ l ≤ u ∧ 0 ≤ l' ∧ l' ≤ u' ∧ (l < u ∨ l' < u') ∧ 2 ^ 30 ≤ Max.max u u' + 1

variable {a b : IntervalValue}

variable {op : BitVec 64 → BitVec 64 → BitVec 64}

theorem nonneg_of_getNumeral {l : NumericLiteral} {n : ℤ} (h : l.getNumeral ≥ 0)
    (hn : l ≤ numeral n) : 0 ≤ n := by
  cases l with
  | minus_infinity => cases h
  | plus_infinity => exact absurd hn (not_plus_le_numeral n)
  | numeral m =>
    rw [getNumeral] at h
    rw [numeral_le] at hn
    omega

theorem encloses_of_bottom {r : Option IntervalValue} (h : (a.isBottom || b.isBottom))
    : Encloses op a b r := by
  intro x y hx hy
  rw [not_bottom_of_contains hx, not_bottom_of_contains hy] at h
  cases h

theorem encloses_of_numeral (h : (a.is_numeral && b.is_numeral)) :
    Encloses op a b ((bitwise op a.lb b.lb).map fun n => ⟨n, n⟩) := by
  intro x y hx hy
  obtain ⟨hna, hnb⟩ := Bool.and_eq_true_iff.mp h
  have hea : a.lb = a.ub := of_decide_eq_true hna
  have heb : b.lb = b.ub := of_decide_eq_true hnb
  obtain ⟨hlx, hux⟩ := contains_iff.mp hx
  obtain ⟨hly, huy⟩ := contains_iff.mp hy
  have hxa : a.lb = numeral x.toInt := le_antisymm hlx (hea ▸ hux)
  have hyb : b.lb = numeral y.toInt := le_antisymm hly (heb ▸ huy)
  rw [hxa, hyb]
  refine ⟨_, rfl, ?_⟩
  rw [contains_iff, BitVec.ofInt_toInt, BitVec.ofInt_toInt]
  exact ⟨le_rfl, le_rfl⟩

theorem encloses_top : Encloses op a b (some top) := fun _ _ _ _ => ⟨top, rfl, contains_top _⟩

/-- **Conjunctions** are enclosed. -/
theorem encloses_band : Encloses (· &&& ·) a b (a.band b) := by
  rw [band]
  split
  case isTrue hbot => exact encloses_of_bottom hbot
  case isFalse =>
    split
    case isTrue hnum => exact encloses_of_numeral hnum
    case isFalse =>
      split
      case isTrue hboth =>
        intro x y hx hy
        obtain ⟨hlx, hux⟩ := contains_iff.mp hx
        obtain ⟨hly, huy⟩ := contains_iff.mp hy
        obtain ⟨hnonneg, hlex⟩ := toInt_and_le (y := y) (nonneg_of_getNumeral hboth.1 hlx)
        obtain ⟨-, hley⟩ := toInt_and_le (y := x) (nonneg_of_getNumeral hboth.2 hly)
        rw [BitVec.and_comm] at hley
        refine ⟨_, rfl, contains_iff.mpr ⟨numeral_le.mpr hnonneg, ?_⟩⟩
        rw [min_eq]
        exact le_inf ((numeral_le.mpr hlex).trans hux) ((numeral_le.mpr hley).trans huy)
      case isFalse =>
        split
        case isTrue hl =>
          intro x y hx hy
          obtain ⟨hlx, hux⟩ := contains_iff.mp hx
          obtain ⟨hnonneg, hlex⟩ := toInt_and_le (y := y) (nonneg_of_getNumeral hl hlx)
          exact ⟨_, rfl, contains_iff.mpr ⟨numeral_le.mpr hnonneg, (numeral_le.mpr hlex).trans hux⟩⟩
        case isFalse =>
          split
          case isTrue hr =>
            intro x y hx hy
            obtain ⟨hly, huy⟩ := contains_iff.mp hy
            obtain ⟨hnonneg, hley⟩ := toInt_and_le (y := x) (nonneg_of_getNumeral hr hly)
            rw [BitVec.and_comm] at hnonneg hley
            exact ⟨_, rfl, contains_iff.mpr
              ⟨numeral_le.mpr hnonneg, (numeral_le.mpr hley).trans huy⟩⟩
          case isFalse => exact encloses_top

theorem bounds_of_finite {v : IntervalValue} (hv : v.InRange) (hb : v.isBottom = false)
    (hl : v.lb.getNumeral ≥ 0) (hu : (!v.ub.is_infinity)) :
    ∃ l u : ℤ, v = ⟨numeral l, numeral u⟩ ∧ 0 ≤ l ∧ l ≤ u ∧ u < 2 ^ 63 := by
  obtain ⟨lb, ub⟩ := v
  have hle := not_isBottom_iff.mp hb
  cases ub with
  | minus_infinity => cases hu
  | plus_infinity => cases hu
  | numeral u =>
    cases lb with
    | minus_infinity => exact absurd hl (by decide : ¬ minus_infinity.getNumeral ≥ 0)
    | plus_infinity => exact absurd hle (not_plus_le_numeral u)
    | numeral l =>
      exact ⟨l, u, rfl, nonneg_of_getNumeral hl le_rfl, numeral_le.mp hle, (hv u (.inr rfl)).2⟩

/-- **Where the power of two is right**, the operators that keep within its bits are enclosed. -/
theorem encloses_rounded (hop : KeepsBits op) (ha : a.InRange) (hb : b.InRange) (h : ¬ TooWide a b)
    : Encloses op a b (rounded op a b) := by
  rw [rounded]
  split
  case isTrue hbot => exact encloses_of_bottom hbot
  case isFalse hbot =>
    obtain ⟨hba, hbb⟩ : a.isBottom = false ∧ b.isBottom = false := by simpa using hbot
    split
    case isTrue hnum => exact encloses_of_numeral hnum
    case isFalse hnum =>
      split
      case isTrue hfinite =>
        obtain ⟨hla, hua, hlb, hub⟩ := hfinite
        obtain ⟨l, u, rfl, hl, hlu, hu⟩ := bounds_of_finite ha hba hla hua
        obtain ⟨l', u', rfl, hl', hlu', hu'⟩ := bounds_of_finite hb hbb hlb hub
        have hne : l < u ∨ l' < u' := by
          by_contra hno
          obtain ⟨rfl, rfl⟩ : l = u ∧ l' = u' := by omega
          exact hnum (by simp [is_numeral])
        have hsmall : Max.max u u' + 1 < 2 ^ 30 := by
          by_contra hge
          exact h ⟨l, u, l', u', rfl, rfl, hl, hlu, hl', hlu', hne, not_lt.mp hge⟩
        obtain ⟨k, hk, hpow, hlt⟩ := next_power_of_2_of_lt (by omega) hsmall
        intro x y hx hy
        obtain ⟨hlx, hux⟩ := contains_iff.mp hx
        obtain ⟨hly, huy⟩ := contains_iff.mp hy
        rw [numeral_le] at hlx hux hly huy
        obtain ⟨hnonneg, hub⟩ := toInt_lt_two_pow (k := k) (x := x) (y := y) hop (by omega)
          (hl.trans hlx) (hl'.trans hly) (by omega) (by omega)
        refine ⟨⟨numeral 0, numeral (2 ^ k)⟩, ?_, contains_iff.mpr
          ⟨numeral_le.mpr hnonneg, numeral_le.mpr hub.le⟩⟩
        rw [getNumeral_of_range (by omega), getNumeral_of_range (by omega), if_pos (by omega), hpow]
        rfl
      case isFalse => exact encloses_top

/-- **Where it is too wide**, the members of the two sides have no disjunction in the result. -/
theorem not_encloses_of_tooWide (ha : a.InRange) (hb : b.InRange) (h : TooWide a b)
    : ¬ Encloses op a b (rounded op a b) := by
  obtain ⟨l, u, l', u', rfl, rfl, hl, hlu, hl', hlu', hne, hwide⟩ := h
  have hu := (ha u (.inr rfl)).2
  have hu' := (hb u' (.inr rfl)).2
  have hword : ∀ n : ℤ, 0 ≤ n → n < 2 ^ 63 → (BitVec.ofInt 64 n).toInt = n := fun n h0 h1 =>
    BitVec.toInt_ofInt_eq_self (by decide) (by omega) (by omega)
  intro henc
  obtain ⟨v, hv, hcontains⟩ := henc (BitVec.ofInt 64 l) (BitVec.ofInt 64 l')
    (by rw [hword l hl (by omega)]; exact contains_iff.mpr ⟨le_rfl, numeral_le.mpr hlu⟩)
    (by rw [hword l' hl' (by omega)]; exact contains_iff.mpr ⟨le_rfl, numeral_le.mpr hlu'⟩)
  have hba : isBottom ⟨numeral l, numeral u⟩ = false := not_isBottom_iff.mpr (numeral_le.mpr hlu)
  have hbb : isBottom ⟨numeral l', numeral u'⟩ = false := not_isBottom_iff.mpr (numeral_le.mpr hlu')
  have hnum : ¬ ((is_numeral ⟨numeral l, numeral u⟩ && is_numeral ⟨numeral l', numeral u'⟩)) := by
    simp only [is_numeral, numeral.injEq, Bool.and_eq_true, decide_eq_true_eq]
    omega
  rw [rounded, hba, hbb, if_neg (by decide), if_neg hnum] at hv
  simp only [getNumeral_of_range (show -2 ^ 63 ≤ l ∧ l < 2 ^ 63 by omega),
    getNumeral_of_range (show -2 ^ 63 ≤ u ∧ u < 2 ^ 63 by omega),
    getNumeral_of_range (show -2 ^ 63 ≤ l' ∧ l' < 2 ^ 63 by omega),
    getNumeral_of_range (show -2 ^ 63 ≤ u' ∧ u' < 2 ^ 63 by omega)] at hv
  rw [if_pos ⟨hl, rfl, hl', rfl⟩] at hv
  split at hv
  case isTrue =>
    obtain ⟨n, hn, rfl⟩ := map_eq_some_iff.mp hv
    have hneg := next_power_of_2_of_ge hwide hn
    obtain ⟨hlow, hhigh⟩ := contains_iff.mp hcontains
    have := numeral_le.mp (hlow.trans hhigh)
    omega
  case isFalse => cases hv.symm

/-- **The bitwise operators are sound** exactly where they do not round up to 2^31 or more. -/
theorem bitwise_sound_iff (ha : a.InRange) (hb : b.InRange) : BitwiseSound a b ↔ ¬ TooWide a b := by
  constructor
  · exact fun h hwide => not_encloses_of_tooWide ha hb hwide h.or
  · exact fun h => ⟨encloses_band, encloses_rounded keepsBits_or ha hb h,
      encloses_rounded keepsBits_xor ha hb h⟩

/-- A negative lower bound beside a half-line. -/
theorem bitwise_sound_iff_half_line :
    BitwiseSound ⟨numeral (-3), numeral 4⟩ ⟨numeral 1, plus_infinity⟩ ↔
      ¬ TooWide ⟨numeral (-3), numeral 4⟩ ⟨numeral 1, plus_infinity⟩ := by
  refine bitwise_sound_iff (fun n h => ?_) fun n h => ?_
  · rcases h with h | h
    · exact numeral.inj h ▸ by decide
    · exact numeral.inj h ▸ by decide
  · rcases h with h | h
    · exact numeral.inj h ▸ by decide
    · cases h

/-- [0, 2^30] with [0, 1]: the result is [0, -2^31]. -/
theorem or_not_bitwiseSound : bor ⟨numeral 0, numeral (2 ^ 30)⟩ ⟨numeral 0, numeral 1⟩ =
        some ⟨numeral 0, numeral (-2 ^ 31)⟩ ∧
      ¬ BitwiseSound ⟨numeral 0, numeral (2 ^ 30)⟩ ⟨numeral 0, numeral 1⟩ := by
  have hbor : bor ⟨numeral 0, numeral (2 ^ 30)⟩ ⟨numeral 0, numeral 1⟩ =
      some ⟨numeral 0, numeral (-2 ^ 31)⟩ := by decide +kernel
  refine ⟨hbor, fun h => ?_⟩
  obtain ⟨v, hv, hcontains⟩ := h.or 0 0 (by decide) (by decide)
  rw [hbor] at hv
  rw [← some.inj hv] at hcontains
  cases hcontains

end IntervalValue

end SvfInterval
