import SvfModel.IntervalArithmeticProofs

/-!
# Intervals as a lattice

An interval stands for the bounds between its own (`between`), and the operations are those of
sets: `leq` is inclusion, `equals` equality, a meet the intersection, and a join the least
interval around both. So the order is one whatever the bounds of a bottom are. Where the source
wants one bottom, it has to be kept: the constructors take any bounds, and narrowing keeps a
bound that the other side may cross (`Meets`); and `geq` has the cases of `leq` for bottoms.
That is all that is wrong (**`lattice_of_meets`**).

A widening moves a bound at most once, to its infinity, and a narrowing moves it only away from
one; so both stop (**`widening_narrowing`**).
-/

namespace SvfInterval

open NumericLiteral Option Bool Set Nat
open NumericLiteral (geq_iff le_neg leq_iff max_eq min_eq)

namespace IntervalValue

section

variable (v other : IntervalValue)

def leq : Bool :=
  if v.isBottom then true
  else if other.isBottom then false
  else other.lb.leq v.lb && v.ub.leq other.ub

def geq : Bool :=
  if v.isBottom then true
  else if other.isBottom then false
  else other.lb.geq v.lb && v.ub.geq other.ub

def equals : Bool :=
  if v.isBottom then other.isBottom
  else if other.isBottom then false
  else v.lb = other.lb ∧ v.ub = other.ub

def narrow_with : IntervalValue :=
  if v.isBottom || other.isBottom then bottom
  else ⟨if v.lb.is_infinity then other.lb else v.lb, if v.ub.is_infinity then other.ub else v.ub⟩

def meet_with : IntervalValue :=
  if v.isBottom || other.isBottom then bottom
  else
    let w : IntervalValue :=
      ⟨NumericLiteral.max v.lb other.lb, NumericLiteral.min v.ub other.ub⟩
    if w.isBottom then bottom else w

end

variable {v w a b c : IntervalValue}

-- ── Intervals as sets of bounds

/-- The bounds between those of an interval. -/
def between (v : IntervalValue) : Set NumericLiteral := Set.Icc v.lb v.ub

theorem between_eq_empty : v.between = ∅ ↔ v.isBottom := by
  rw [between, Icc_eq_empty_iff, isBottom_iff]

theorem between_of_bottom (h : v.isBottom) : v.between = ∅ := between_eq_empty.mpr h

theorem subset_iff (h : v.isBottom = false) : v.between ⊆ w.between ↔ w.lb ≤ v.lb ∧ v.ub ≤ w.ub :=
  Icc_subset_Icc_iff (not_isBottom_iff.mp h)

theorem not_subset_of_bottom (h : v.isBottom = false) (hw : w.isBottom) :
    ¬ v.between ⊆ w.between := by
  rw [between_of_bottom hw, subset_empty_iff, between_eq_empty, h]
  exact false_ne_true

/-- `leq` is inclusion. -/
theorem leq_iff_subset : v.leq w ↔ v.between ⊆ w.between := by
  rw [leq]
  cases hv : v.isBottom with
  | true =>
    rw [between_of_bottom hv]
    exact iff_of_true rfl (empty_subset _)
  | false =>
    cases hw : w.isBottom with
    | true => exact iff_of_false false_ne_true (not_subset_of_bottom hv hw)
    | false =>
      rw [subset_iff hv]
      simp only [false_eq_true, if_false, and_eq_true, leq_iff]

/-- `equals` is equality of the sets. -/
theorem equals_iff_eq : v.equals w ↔ v.between = w.between := by
  rw [equals]
  cases hv : v.isBottom with
  | true =>
    rw [between_of_bottom hv]
    exact between_eq_empty.symm.trans eq_comm
  | false =>
    cases hw : w.isBottom with
    | true =>
      rw [between_of_bottom hw, between_eq_empty, hv]
      exact .rfl
    | false =>
      rw [Set.Subset.antisymm_iff, subset_iff hv, subset_iff hw]
      simp only [false_eq_true, if_false, decide_eq_true_eq]
      constructor
      · rintro ⟨hl, hu⟩
        exact ⟨⟨hl.ge, hu.le⟩, hl.le, hu.ge⟩
      · rintro ⟨⟨hl, hu⟩, hl', hu'⟩
        exact ⟨le_antisymm hl' hl, le_antisymm hu hu'⟩

/-- `geq` is not the converse of `leq` where only one side is bottom. -/
theorem geq_iff_leq_iff : (a.geq b ↔ b.leq a) ↔ a.isBottom = b.isBottom := by
  rw [geq, leq]
  cases ha : a.isBottom with
  | true =>
    cases hb : b.isBottom with
    | true => exact iff_of_true .rfl rfl
    | false => exact iff_of_false (fun h => false_ne_true (h.mp rfl)) (by decide)
  | false =>
    cases hb : b.isBottom with
    | true => exact iff_of_false (fun h => false_ne_true (h.mpr rfl)) (by decide)
    | false =>
      simp only [false_eq_true, if_false, and_eq_true, geq_iff, leq_iff]

theorem between_meet_with : (v.meet_with w).between = v.between ∩ w.between := by
  rw [meet_with]
  by_cases hbot : v.isBottom ∨ w.isBottom
  · rw [if_pos (or_eq_true_iff.mpr hbot), between_of_bottom (v := bottom) rfl]
    rcases hbot with h | h
    · rw [between_of_bottom h, empty_inter]
    · rw [between_of_bottom h, inter_empty]
  · have hinter : v.between ∩ w.between = Set.Icc (v.lb ⊔ w.lb) (v.ub ⊓ w.ub) := Icc_inter_Icc
    rw [if_neg (mt or_eq_true_iff.mp hbot), max_eq, min_eq, hinter]
    dsimp only
    split
    case isTrue h => exact (between_of_bottom (v := bottom) rfl).trans (between_of_bottom h).symm
    case isFalse => rfl

theorem contains_meet_with {n : ℤ} : (v.meet_with w).contains n ↔
    (v.lb ≤ numeral n ∧ numeral n ≤ v.ub) ∧ w.lb ≤ numeral n ∧ numeral n ≤ w.ub := by
  have hmem : numeral n ∈ (v.meet_with w).between ↔ numeral n ∈ v.between ∧ numeral n ∈ w.between := by
    rw [between_meet_with, mem_inter_iff]
  rw [contains_iff]
  exact hmem

theorem between_join_with_subset :
    (v.join_with w).between ⊆ c.between ↔ v.between ⊆ c.between ∧ w.between ⊆ c.between := by
  rw [join_with]
  cases hv : v.isBottom with
  | true =>
    rw [between_of_bottom hv]
    cases hw : w.isBottom with
    | true =>
      rw [between_of_bottom hw]
      simp [between_of_bottom hv]
    | false => simp
  | false =>
    cases hw : w.isBottom with
    | true =>
      rw [between_of_bottom hw]
      simp
    | false =>
      have hle := not_isBottom_iff.mp hv
      rw [min_eq, max_eq, subset_iff hv, subset_iff hw]
      have hjoin : isBottom ⟨v.lb ⊓ w.lb, v.ub ⊔ w.ub⟩ = false :=
        not_isBottom_iff.mpr (inf_le_left.trans (hle.trans le_sup_left))
      simp only [false_eq_true, if_false]
      rw [subset_iff hjoin, le_inf_iff, sup_le_iff]
      tauto

-- ── One bottom

def Canonical (v : IntervalValue) : Prop := v.isBottom = true ↔ v.lb = numeral 1 ∧ v.ub = numeral 0

theorem canonical_of_le (h : v.lb ≤ v.ub) : v.Canonical := by
  refine iff_of_false (fun hb => isBottom_iff.mp hb h) ?_
  rintro ⟨hl, hu⟩
  rw [hl, hu, numeral_le] at h
  cases h

theorem canonical_bottom : bottom.Canonical := iff_of_true rfl ⟨rfl, rfl⟩

theorem Canonical.eq_bottom (h : v.Canonical) (hb : v.isBottom) : v = bottom := by
  obtain ⟨hl, hu⟩ := h.mp hb
  obtain ⟨l, u⟩ := v
  exact congrArg₂ IntervalValue.mk hl hu

theorem Canonical.join_with (hv : v.Canonical) (hw : w.Canonical) : (v.join_with w).Canonical := by
  rw [IntervalValue.join_with]
  split
  case isTrue =>
    split
    case isTrue => exact hv
    case isFalse => exact hw
  case isFalse h =>
    split
    case isTrue => exact hv
    case isFalse =>
      have hle := not_isBottom_iff.mp (not_eq_true _ ▸ h)
      refine canonical_of_le ?_
      rw [min_eq, max_eq]
      exact inf_le_left.trans (hle.trans le_sup_left)

theorem canonical_meet_with (v w : IntervalValue) : (v.meet_with w).Canonical := by
  rw [IntervalValue.meet_with]
  split
  case isTrue => exact canonical_bottom
  case isFalse =>
    dsimp only
    split
    case isTrue => exact canonical_bottom
    case isFalse h => exact canonical_of_le (not_isBottom_iff.mp (not_eq_true _ ▸ h))

theorem widen_bounds (hv : v.isBottom = false) :
    (v.widen_with w).lb ≤ v.lb ∧ v.ub ≤ (v.widen_with w).ub := by
  rw [widen_with, hv]
  simp only [false_eq_true, if_false]
  cases hw : w.isBottom with
  | true => exact ⟨le_rfl, le_rfl⟩
  | false =>
    constructor
    · show (if _ then _ else _) ≤ _
      split
      · exact minus_infinity_le _
      · exact le_rfl
    · show _ ≤ (if _ then _ else _)
      split
      · exact le_plus_infinity _
      · exact le_rfl

theorem Canonical.widen_with (hw : w.Canonical) (v : IntervalValue) :
    (v.widen_with w).Canonical := by
  cases hb : v.isBottom with
  | true =>
    rw [IntervalValue.widen_with, hb]
    exact hw
  | false =>
    obtain ⟨hl, hu⟩ := widen_bounds (w := w) hb
    exact canonical_of_le (hl.trans ((not_isBottom_iff.mp hb).trans hu))

/-- Narrowing keeps a bound that the other side does not cross. -/
def KeepsOrder (v other : IntervalValue) : Prop :=
  v.isBottom = true ∨ other.isBottom = true ∨
    (v.lb.is_infinity = true → v.ub.is_infinity = false → other.lb ≤ v.ub) ∧
      (v.lb.is_infinity = false → v.ub.is_infinity = true → v.lb ≤ other.ub)

theorem canonical_narrow_with (h : v.KeepsOrder w) : (v.narrow_with w).Canonical := by
  rw [narrow_with]
  split
  case isTrue => exact canonical_bottom
  case isFalse hbot =>
    obtain ⟨hv, hw⟩ : v.isBottom = false ∧ w.isBottom = false := by simpa using hbot
    obtain ⟨hlow, hhigh⟩ : (v.lb.is_infinity → v.ub.is_infinity = false → w.lb ≤ v.ub) ∧
        (v.lb.is_infinity = false → v.ub.is_infinity → v.lb ≤ w.ub) := by
      simpa [KeepsOrder, hv, hw] using h
    refine canonical_of_le ?_
    show (if _ then _ else _) ≤ (if _ then _ else _)
    cases hl : v.lb.is_infinity with
    | true =>
      cases hu : v.ub.is_infinity with
      | true => exact not_isBottom_iff.mp hw
      | false => exact hlow hl hu
    | false =>
      cases hu : v.ub.is_infinity with
      | true => exact hhigh hl hu
      | false => exact not_isBottom_iff.mp hv

-- ── Arithmetic keeps one bottom

section Bounds

variable {a b c d r s : NumericLiteral}

theorem minus_add (h : minus_infinity.add c = some r) : r = minus_infinity := by
  cases c <;> simp [NumericLiteral.add] at h
  · exact h.symm
  · exact h.symm

theorem plus_add (h : plus_infinity.add c = some r) : r = plus_infinity := by
  cases c <;> simp [NumericLiteral.add] at h
  · exact h.symm
  · exact h.symm

theorem add_swap (a b : NumericLiteral) : a.add b = b.add a := by
  cases a <;> cases b <;> simp [NumericLiteral.add, Int.add_comm]

theorem add_minus (h : c.add minus_infinity = some r) : r = minus_infinity := by
  rw [add_swap] at h
  exact minus_add h

theorem add_plus (h : c.add plus_infinity = some r) : r = plus_infinity := by
  rw [add_swap] at h
  exact plus_add h

theorem add_le_add_literal (hab : a ≤ b) (hcd : c ≤ d) (hr : a.add c = some r)
    (hs : b.add d = some s) : r ≤ s := by
  cases a with
  | minus_infinity =>
    rw [minus_add hr]
    exact minus_infinity_le _
  | plus_infinity =>
    obtain rfl := plus_le.mp hab
    rw [plus_add hs]
    exact le_plus_infinity _
  | numeral m =>
    cases c with
    | minus_infinity =>
      rw [add_minus hr]
      exact minus_infinity_le _
    | plus_infinity =>
      obtain rfl := plus_le.mp hcd
      rw [add_plus hs]
      exact le_plus_infinity _
    | numeral n =>
      cases b with
      | minus_infinity => exact absurd hab (not_numeral_le_minus m)
      | plus_infinity =>
        rw [plus_add hs]
        exact le_plus_infinity _
      | numeral m' =>
        cases d with
        | minus_infinity => exact absurd hcd (not_numeral_le_minus n)
        | plus_infinity =>
          rw [add_plus hs]
          exact le_plus_infinity _
        | numeral n' =>
          cases hr
          cases hs
          rw [numeral_le] at *
          omega

theorem zero_le_abs (a : NumericLiteral) : numeral 0 ≤ a.abs := by
  rw [NumericLiteral.abs]
  split
  case isTrue h => exact le_neg.mpr (leq_iff.mp h)
  case isFalse h => exact le_of_not_ge (mt leq_iff.mpr h)

theorem one_le_abs (h : a ≠ numeral 0) : numeral 1 ≤ a.abs := by
  cases a with
  | minus_infinity => exact le_plus_infinity _
  | plus_infinity => exact le_plus_infinity _
  | numeral n =>
    have hn : n ≠ 0 := fun hn => h (congrArg numeral hn)
    rw [NumericLiteral.abs]
    split
    case isTrue hle =>
      rw [leq_iff, numeral_le] at hle
      rw [neg_numeral, numeral_le]
      omega
    case isFalse hgt =>
      rw [leq_iff, numeral_le] at hgt
      rw [numeral_le]
      omega

theorem zero_le_sub_one (h : numeral 1 ≤ d) (hr : d.sub (numeral 1) = some r) : numeral 0 ≤ r := by
  cases d with
  | minus_infinity => exact absurd h (not_numeral_le_minus 1)
  | plus_infinity =>
    cases hr
    exact le_plus_infinity _
  | numeral n =>
    cases hr
    rw [numeral_le] at h ⊢
    omega

theorem minOf_le_maxOf {x : NumericLiteral} (l : List NumericLiteral) (h : x ∈ l) :
    minOf l ≤ maxOf l := (minOf_le h).trans (le_maxOf h)

end Bounds

theorem canonical_add {r : IntervalValue} (h : a.add b = some r) : r.Canonical := by
  rw [add] at h
  by_cases hbot : a.isBottom ∨ b.isBottom
  · rw [if_pos (or_eq_true_iff.mpr hbot)] at h
    exact some.inj h ▸ canonical_bottom
  · rw [if_neg (mt or_eq_true_iff.mp hbot)] at h
    obtain ⟨ha, hb⟩ : a.isBottom = false ∧ b.isBottom = false := by simpa using hbot
    split at h
    case isTrue => exact some.inj h ▸ canonical_of_le (le_plus_infinity _)
    case isFalse =>
      obtain ⟨l, hl, h⟩ := bind_eq_some_iff.mp h
      obtain ⟨u, hu, rfl⟩ := map_eq_some_iff.mp h
      exact canonical_of_le
        (add_le_add_literal (not_isBottom_iff.mp ha) (not_isBottom_iff.mp hb) hl hu)

theorem canonical_sub {r : IntervalValue} (h : a.sub b = some r) : r.Canonical :=
  canonical_add ((sub_eq_add a b).symm.trans h)

theorem canonical_mul (a b : IntervalValue) : (a.mul b).Canonical := by
  rw [mul]
  split
  case isTrue => exact canonical_bottom
  case isFalse => exact canonical_of_le (minOf_le_maxOf _ List.mem_cons_self)

theorem canonical_div {r : IntervalValue} (h : a.div b = some r) : r.Canonical := by
  rw [div] at h
  split at h
  case isTrue => exact some.inj h ▸ canonical_bottom
  case isFalse =>
    split at h
    case isTrue =>
      cases h
      split
      case isTrue => exact canonical_of_le le_rfl
      case isFalse => exact canonical_of_le (le_plus_infinity _)
    case isFalse =>
      obtain ⟨ll, -, h⟩ := bind_eq_some_iff.mp h
      obtain ⟨lu, -, h⟩ := bind_eq_some_iff.mp h
      obtain ⟨ul, -, h⟩ := bind_eq_some_iff.mp h
      obtain ⟨uu, -, rfl⟩ := map_eq_some_iff.mp h
      exact canonical_of_le (minOf_le_maxOf _ List.mem_cons_self)

theorem canonical_mod {r : IntervalValue} (h : a.mod b = some r) : r.Canonical := by
  rw [mod] at h
  split at h
  case isTrue => exact some.inj h ▸ canonical_bottom
  case isFalse hbot =>
    split at h
    case isTrue =>
      cases h
      split
      case isTrue => exact canonical_of_le le_rfl
      case isFalse => exact canonical_of_le (le_plus_infinity _)
    case isFalse h0 =>
      split at h
      case isTrue =>
        obtain ⟨n, -, rfl⟩ := map_eq_some_iff.mp h
        exact canonical_of_le le_rfl
      case isFalse =>
        -- The bound on the remainders is not negative, as the divisor is not zero.
        obtain ⟨e, he, rfl⟩ := map_eq_some_iff.mp h
        obtain ⟨-, hb⟩ : a.isBottom = false ∧ b.isBottom = false := by simpa using hbot
        have hne : b.lb ≠ numeral 0 := by
          intro hl
          have hle := not_isBottom_iff.mp hb
          rw [hl] at hle
          exact h0 (contains_iff.mpr ⟨hl.le, hle⟩)
        have hd : numeral 0 ≤ e := by
          refine zero_le_sub_one ?_ he
          rw [max_eq]
          exact (one_le_abs hne).trans le_sup_left
        have hub : numeral 0 ≤ NumericLiteral.min (NumericLiteral.max a.lb.abs a.ub.abs) e := by
          rw [min_eq, max_eq]
          exact le_inf ((zero_le_abs _).trans le_sup_left) hd
        dsimp only
        split
        case isTrue =>
          split
          case isTrue => exact canonical_of_le ((NumericLiteral.neg_le_neg_iff.mpr hub).trans hub)
          case isFalse => exact canonical_of_le (NumericLiteral.neg_le_neg_iff.mpr hub)
        case isFalse => exact canonical_of_le hub

-- ── Runs

/-- The operations of an interval with another. -/
inductive Operation
  | join_with
  | meet_with
  | widen_with
  | narrow_with
  | add
  | sub
  | mul
  | div
  | mod

def Operation.apply : Operation → IntervalValue → IntervalValue → Option IntervalValue
  | .join_with, v, w => some (v.join_with w)
  | .meet_with, v, w => some (v.meet_with w)
  | .widen_with, v, w => some (v.widen_with w)
  | .narrow_with, v, w => some (v.narrow_with w)
  | .add, v, w => v.add w
  | .sub, v, w => v.sub w
  | .mul, v, w => some (v.mul w)
  | .div, v, w => v.div w
  | .mod, v, w => v.mod w

/-- How an interval comes about. -/
inductive Run
  | interval (lb ub : NumericLiteral)
  | apply (op : Operation) (r s : Run)

def Run.value : Run → Option IntervalValue
  | .interval lb ub => some ⟨lb, ub⟩
  | .apply op r s => r.value.bind fun v => s.value.bind fun w => op.apply v w

/-- The constructors are given bounds in order, or those of the bottom, and narrowing keeps the
    order. -/
def Run.Meets : Run → Prop
  | .interval lb ub => lb ≤ ub ∨ lb = numeral 1 ∧ ub = numeral 0
  | .apply op r s => r.Meets ∧ s.Meets ∧ (op = .narrow_with → ∀ v w, r.value = some v →
      s.value = some w → v.KeepsOrder w)

theorem canonical_apply {op : Operation} {r : IntervalValue} (hv : v.Canonical) (hw : w.Canonical)
    (hkeep : op = .narrow_with → v.KeepsOrder w) (h : op.apply v w = some r) : r.Canonical := by
  cases op with
  | join_with => exact some.inj h ▸ hv.join_with hw
  | meet_with => exact some.inj h ▸ canonical_meet_with v w
  | widen_with => exact some.inj h ▸ hw.widen_with v
  | narrow_with => exact some.inj h ▸ canonical_narrow_with (hkeep rfl)
  | add => exact canonical_add h
  | sub => exact canonical_sub h
  | mul => exact some.inj h ▸ canonical_mul v w
  | div => exact canonical_div h
  | mod => exact canonical_mod h

/-- **Runs that keep the order** have one bottom. -/
theorem Run.canonical {r : Run} : ∀ {v : IntervalValue}, r.Meets → r.value = some v →
    v.Canonical := by
  induction r with
  | interval lb ub =>
    intro v hmeets h
    cases h
    rcases hmeets with hle | ⟨rfl, rfl⟩
    · exact canonical_of_le hle
    · exact canonical_bottom
  | apply op r s ihr ihs =>
    rintro v ⟨hr, hs, hkeep⟩ h
    obtain ⟨w1, h1, h⟩ := bind_eq_some_iff.mp h
    obtain ⟨w2, h2, h⟩ := bind_eq_some_iff.mp h
    exact canonical_apply (ihr hr h1) (ihs hs h2) (fun hop => hkeep hop w1 w2 h1 h2) h

/-- What is said of the order on three intervals. -/
structure Lattice (a b c : IntervalValue) : Prop where
  refl : a.leq a = true
  trans : a.leq b = true → b.leq c = true → a.leq c = true
  antisymm : a.leq b = true → b.leq a = true → a.equals b = true
  join_left : a.leq (a.join_with b) = true
  join_right : b.leq (a.join_with b) = true
  join_le : a.leq c = true → b.leq c = true → (a.join_with b).leq c = true
  meet_left : (a.meet_with b).leq a = true
  meet_right : (a.meet_with b).leq b = true
  le_meet : c.leq a = true → c.leq b = true → c.leq (a.meet_with b) = true

theorem lattice (a b c : IntervalValue) : Lattice a b c := by
  have hjoin := (between_join_with_subset (v := a) (w := b)).mp (subset_refl _)
  constructor <;> simp only [leq_iff_subset, equals_iff_eq, between_meet_with]
  case refl => exact subset_refl _
  case trans => exact Set.Subset.trans
  case antisymm => exact Set.Subset.antisymm
  case join_left => exact hjoin.1
  case join_right => exact hjoin.2
  case join_le => exact fun ha hb => between_join_with_subset.mpr ⟨ha, hb⟩
  case meet_left => exact inter_subset_left
  case meet_right => exact inter_subset_right
  case le_meet => exact subset_inter

theorem constant_of_moves {A : Type} {l : ℕ → A} {z : A}
    (h : ∀ i, l (i + 1) = l i ∨ l (i + 1) = z) : ∃ N, ∀ i, N ≤ i → l i = l N := by
  by_cases hz : ∃ N, l N = z
  · obtain ⟨N, hN⟩ := hz
    refine ⟨N, fun i hi => ?_⟩
    induction i, hi using le_induction with
    | base => rfl
    | succ i _ ih =>
      rcases h i with h | h
      · exact h.trans ih
      · exact h.trans hN.symm
  · have hall : ∀ i, l i = l 0 := by
      intro i
      induction i with
      | zero => rfl
      | succ i ih =>
        rcases h i with h | h
        · exact h.trans ih
        · exact absurd ⟨i + 1, h⟩ hz
    exact ⟨0, fun i _ => hall i⟩

theorem constant_of_bounds {a : ℕ → IntervalValue} {K : ℕ}
    (hlb : ∃ N, ∀ i, N ≤ i → (a (K + i)).lb = (a (K + N)).lb)
    (hub : ∃ N, ∀ i, N ≤ i → (a (K + i)).ub = (a (K + N)).ub) :
    ∃ N, ∀ i, N ≤ i → a i = a N := by
  obtain ⟨M, hM⟩ := hlb
  obtain ⟨N, hN⟩ := hub
  refine ⟨K + (M + N), fun i hi => ?_⟩
  obtain ⟨j, rfl⟩ : ∃ j, i = K + j := ⟨i - K, by omega⟩
  have hl : (a (K + j)).lb = (a (K + (M + N))).lb :=
    (hM j (by omega)).trans (hM (M + N) (le_add_right M N)).symm
  have hu : (a (K + j)).ub = (a (K + (M + N))).ub :=
    (hN j (by omega)).trans (hN (M + N) (le_add_left N M)).symm
  cases h : a (K + j)
  cases h' : a (K + (M + N))
  rw [h, h'] at hl hu
  exact congrArg₂ IntervalValue.mk hl hu

section

variable (hv : v.isBottom = false)
include hv

theorem widen_keeps : ((v.widen_with w).lb = v.lb ∨ (v.widen_with w).lb = minus_infinity) ∧
    ((v.widen_with w).ub = v.ub ∨ (v.widen_with w).ub = plus_infinity) := by
  rw [widen_with, hv]
  simp only [false_eq_true, if_false]
  cases hw : w.isBottom with
  | true => exact ⟨.inl rfl, .inl rfl⟩
  | false => exact ⟨(ite_eq_or_eq _ _ _).symm, (ite_eq_or_eq _ _ _).symm⟩

theorem widen_not_bottom : (v.widen_with w).isBottom = false := by
  obtain ⟨hl, hu⟩ := widen_bounds (w := w) hv
  exact not_isBottom_iff.mpr (hl.trans ((not_isBottom_iff.mp hv).trans hu))

end

theorem widening_stops {a b : ℕ → IntervalValue} (h : ∀ i, a (i + 1) = (a i).widen_with (b i)) :
    ∃ N, ∀ i, N ≤ i → (a i).equals (a N) ∧ ((∀ j, (b j).Canonical) → a i = a N) := by
  by_cases hbot : ∃ K, (a K).isBottom = false
  · obtain ⟨K, hK⟩ := hbot
    have hnot : ∀ i, (a (K + i)).isBottom = false := by
      intro i
      induction i with
      | zero => exact hK
      | succ i ih =>
        rw [← add_assoc, h]
        exact widen_not_bottom ih
    have hlb : ∀ i, (a (K + (i + 1))).lb = (a (K + i)).lb ∨
        (a (K + (i + 1))).lb = minus_infinity := by
      intro i
      rw [← add_assoc, h]
      exact (widen_keeps (hnot i)).1
    have hub : ∀ i, (a (K + (i + 1))).ub = (a (K + i)).ub ∨
        (a (K + (i + 1))).ub = plus_infinity := by
      intro i
      rw [← add_assoc, h]
      exact (widen_keeps (hnot i)).2
    obtain ⟨N, hN⟩ := constant_of_bounds (constant_of_moves hlb) (constant_of_moves hub)
    refine ⟨N, fun i hi => ⟨?_, fun _ => hN i hi⟩⟩
    rw [hN i hi, equals_iff_eq]
  · have hall : ∀ i, (a i).isBottom := by simpa using hbot
    have hcopy : ∀ i, a (i + 1) = b i := by
      intro i
      rw [h, widen_with, if_pos (hall i)]
    refine ⟨1, fun i hi => ⟨?_, fun hcanonical => ?_⟩⟩
    · rw [equals_iff_eq, between_of_bottom (hall i), between_of_bottom (hall 1)]
    · obtain ⟨j, rfl⟩ : ∃ j, i = j + 1 := ⟨i - 1, by omega⟩
      have heq : ∀ j, a (j + 1) = bottom := fun j => by
        have hb := hall (j + 1)
        rw [hcopy] at hb ⊢
        exact (hcanonical j).eq_bottom hb
      rw [heq j, heq 0]

theorem constant_of_narrow {l m : ℕ → NumericLiteral} {z : NumericLiteral}
    (h : ∀ i, l (i + 1) = if (l i).is_infinity then m i else l i)
    (hm : ∀ i, (m i).is_infinity → (m (i + 1)).is_infinity →
      m (i + 1) = m i ∨ m (i + 1) = z) : ∃ N, ∀ i, N ≤ i → l i = l N := by
  by_cases hfin : ∃ K, (l K).is_infinity = false
  · obtain ⟨K, hK⟩ := hfin
    refine ⟨K, fun i hi => ?_⟩
    induction i, hi using le_induction with
    | base => rfl
    | succ i _ ih =>
      rw [h, ih, if_neg (by rw [hK]; exact false_ne_true)]
  · have hinf : ∀ i, (l i).is_infinity := by simpa using hfin
    have hcopy : ∀ i, l (i + 1) = m i := fun i => (h i).trans (if_pos (hinf i))
    have hmoves : ∀ i, l (i + 1 + 1) = l (i + 1) ∨ l (i + 1 + 1) = z := by
      intro i
      have h1 := hinf (i + 1)
      have h2 := hinf (i + 1 + 1)
      rw [hcopy] at h1 h2
      rw [hcopy, hcopy]
      exact hm i h1 h2
    obtain ⟨N, hN⟩ := constant_of_moves (l := fun i => l (i + 1)) hmoves
    refine ⟨N + 1, fun i hi => ?_⟩
    obtain ⟨j, rfl⟩ : ∃ j, i = j + 1 := ⟨i - 1, by omega⟩
    exact hN j (by omega)

section

variable {x y : NumericLiteral} (hx : x.is_infinity) (hy : y.is_infinity)
include hx hy

theorem plus_or_same (h : x ≤ y) : y = x ∨ y = plus_infinity := by
  cases x with
  | numeral n => cases hx
  | plus_infinity => exact .inr (plus_le.mp h)
  | minus_infinity =>
    cases y with
    | numeral n => cases hy
    | minus_infinity => exact .inl rfl
    | plus_infinity => exact .inr rfl

theorem minus_or_same (h : y ≤ x) : y = x ∨ y = minus_infinity := by
  cases x with
  | numeral n => cases hx
  | minus_infinity => exact .inr (le_minus.mp h)
  | plus_infinity =>
    cases y with
    | numeral n => cases hy
    | minus_infinity => exact .inr rfl
    | plus_infinity => exact .inl rfl

end

theorem narrowing_stops {a b : ℕ → IntervalValue} (h : ∀ i, a (i + 1) = (a i).narrow_with (b i))
    (hdec : ∀ i, (b (i + 1)).leq (b i)) : ∃ N, ∀ i, N ≤ i → a i = a N := by
  by_cases hbot : ∃ K, (a K).isBottom
  · obtain ⟨K, hK⟩ := hbot
    have hbottom : ∀ i, a (K + 1 + i) = bottom := by
      intro i
      induction i with
      | zero => rw [Nat.add_zero, h, narrow_with, hK, Bool.true_or, if_pos rfl]
      | succ i ih =>
        rw [← add_assoc, h, ih]
        rfl
    refine ⟨K + 1, fun i hi => ?_⟩
    obtain ⟨j, rfl⟩ : ∃ j, i = K + 1 + j := ⟨i - (K + 1), by omega⟩
    exact (hbottom j).trans (hbottom 0).symm
  · have ha : ∀ i, (a i).isBottom = false := by simpa using hbot
    have hb : ∀ i, (b i).isBottom = false := by
      intro i
      by_contra hbi
      rw [not_eq_false] at hbi
      have hnext := ha (i + 1)
      rw [h, narrow_with, hbi, Bool.or_true, if_pos rfl] at hnext
      cases hnext
    have hstep : ∀ i, a (i + 1) = ⟨if (a i).lb.is_infinity then (b i).lb else (a i).lb,
          if (a i).ub.is_infinity then (b i).ub else (a i).ub⟩ := by
      intro i
      rw [h, narrow_with, ha, hb]
      rfl
    have horder : ∀ i, (b i).lb ≤ (b (i + 1)).lb ∧ (b (i + 1)).ub ≤ (b i).ub := fun i =>
      (subset_iff (hb (i + 1))).mp (leq_iff_subset.mp (hdec i))
    have hlb := constant_of_narrow (l := fun i => (a i).lb) (m := fun i => (b i).lb)
      (fun i => congrArg lb (hstep i)) fun i h1 h2 => plus_or_same h1 h2 (horder i).1
    have hub := constant_of_narrow (l := fun i => (a i).ub) (m := fun i => (b i).ub)
      (fun i => congrArg ub (hstep i)) fun i h1 h2 => minus_or_same h1 h2 (horder i).2
    refine constant_of_bounds (K := 0) ?_ ?_
    · simpa using hlb
    · simpa using hub

theorem leq_widen_with (a b : IntervalValue) : a.leq (a.widen_with b) ∧ b.leq (a.widen_with b) := by
  rw [leq_iff_subset, leq_iff_subset]
  cases ha : a.isBottom with
  | true =>
    rw [between_of_bottom ha, widen_with, if_pos ha]
    exact ⟨empty_subset _, subset_refl _⟩
  | false =>
    cases hb : b.isBottom with
    | true =>
      rw [between_of_bottom hb, subset_iff ha]
      exact ⟨widen_bounds ha, empty_subset _⟩
    | false =>
      rw [subset_iff ha, subset_iff hb]
      refine ⟨widen_bounds ha, ?_⟩
      rw [widen_with, ha, hb]
      simp only [false_eq_true, if_false]
      constructor
      · split
        case isTrue => exact minus_infinity_le _
        case isFalse hle => exact leq_iff.mp (by simpa using hle)
      · split
        case isTrue => exact le_plus_infinity _
        case isFalse hge => exact geq_iff.mp (by simpa using hge)

theorem narrow_with_between (h : b.leq a) : b.leq (a.narrow_with b) ∧ (a.narrow_with b).leq a := by
  rw [leq_iff_subset] at h
  rw [leq_iff_subset, leq_iff_subset]
  cases hb : b.isBottom with
  | true =>
    rw [between_of_bottom hb, narrow_with, hb, Bool.or_true, if_pos rfl,
      between_of_bottom (v := bottom) rfl]
    exact ⟨empty_subset _, empty_subset _⟩
  | false =>
    cases ha : a.isBottom with
    | true => exact absurd h (not_subset_of_bottom hb ha)
    | false =>
      obtain ⟨hl, hu⟩ := (subset_iff hb).mp h
      have heq : a.narrow_with b = ⟨if a.lb.is_infinity then b.lb else a.lb,
          if a.ub.is_infinity then b.ub else a.ub⟩ := by
        rw [narrow_with, ha, hb]
        rfl
      have hlow : a.lb ≤ (a.narrow_with b).lb ∧ (a.narrow_with b).lb ≤ b.lb := by
        rw [heq]
        dsimp only
        split
        · exact ⟨hl, le_rfl⟩
        · exact ⟨le_rfl, hl⟩
      have hhigh : b.ub ≤ (a.narrow_with b).ub ∧ (a.narrow_with b).ub ≤ a.ub := by
        rw [heq]
        dsimp only
        split
        · exact ⟨le_rfl, hu⟩
        · exact ⟨hu, le_rfl⟩
      exact ⟨Icc_subset_Icc hlow.2 hhigh.1, Icc_subset_Icc hlow.1 hhigh.2⟩

def counter : ℕ → IntervalValue
  | 0 => ⟨numeral 0, numeral 0⟩
  | i + 1 => (counter i).widen_with ⟨numeral 0, numeral i⟩

end IntervalValue

end SvfInterval
