import SvfModel.IntervalLatticeProofs

/-!
# Interval comparisons

The six operators have the same branches: bottom, top, two numbers, always, never, and [0, 1].
Each is `comparison` at its own tests. The tests compare one bound of either side, and that is
exact as an interval has members as near to its bounds as one likes (`exists_le`, `exists_lt`).

So a definite answer is right, and given wherever it is; but an operand that is top gives top
instead of [0, 1] (**`comparison_sound`**).
-/

namespace SvfInterval

open NumericLiteral Bool

namespace IntervalValue

def isFalse : IntervalValue := ⟨numeral 0, numeral 0⟩
def isTrue : IntervalValue := ⟨numeral 1, numeral 1⟩
def isEither : IntervalValue := ⟨numeral 0, numeral 1⟩

section

variable (lhs rhs : IntervalValue)

/-- The branches of an operator. -/
def comparison (numerals always never : Bool) : IntervalValue :=
  if lhs.isBottom || rhs.isBottom then bottom
  else if lhs.isTop || rhs.isTop then top
  else if lhs.is_numeral && rhs.is_numeral then (if numerals then isTrue else isFalse)
  else if always then isTrue
  else if never then isFalse
  else isEither

/-- `operator==` -/
def eq : IntervalValue :=
  comparison lhs rhs (lhs.lb = rhs.lb) false (lhs.meet_with rhs).isBottom

/-- `operator!=` -/
def ne : IntervalValue :=
  comparison lhs rhs (lhs.lb ≠ rhs.lb) (lhs.meet_with rhs).isBottom false

/-- `operator>` -/
def gt : IntervalValue :=
  comparison lhs rhs (!lhs.lb.leq rhs.lb) (!lhs.lb.leq rhs.ub) (lhs.ub.leq rhs.lb)

/-- `operator<` -/
def lt : IntervalValue :=
  comparison lhs rhs (!lhs.lb.geq rhs.lb) (!lhs.ub.geq rhs.lb) (lhs.lb.geq rhs.ub)

/-- `operator>=` -/
def ge : IntervalValue :=
  comparison lhs rhs (lhs.lb.geq rhs.lb) (lhs.lb.geq rhs.ub) (!lhs.ub.geq rhs.lb)

/-- `operator<=` -/
def le : IntervalValue :=
  comparison lhs rhs (lhs.lb.leq rhs.lb) (lhs.ub.leq rhs.lb) (!lhs.lb.leq rhs.ub)

end

-- ── What the operators stand for

inductive Comparison
  | eq
  | ne
  | gt
  | lt
  | ge
  | le

namespace Comparison

def eval : Comparison → IntervalValue → IntervalValue → IntervalValue
  | eq => IntervalValue.eq
  | ne => IntervalValue.ne
  | gt => IntervalValue.gt
  | lt => IntervalValue.lt
  | ge => IntervalValue.ge
  | le => IntervalValue.le

/-- The operator on integers. -/
def Holds : Comparison → ℤ → ℤ → Prop
  | eq, x, y => x = y
  | ne, x, y => x ≠ y
  | gt, x, y => x > y
  | lt, x, y => x < y
  | ge, x, y => x ≥ y
  | le, x, y => x ≤ y

def negation : Comparison → Comparison
  | eq => ne
  | ne => eq
  | gt => le
  | lt => ge
  | ge => lt
  | le => gt

end Comparison

def complement (v : IntervalValue) : IntervalValue :=
  if v = isTrue then isFalse else if v = isFalse then isTrue else v

variable {a b : IntervalValue} {x y : ℤ}

-- ── Members near the bounds

section

variable {v : IntervalValue} {n : ℤ} (h : v.WellFormed) (hb : v.isBottom = false)
include h hb

theorem exists_small (hn : v.lb ≤ numeral n) : ∃ x, v.contains x ∧ x ≤ n := by
  obtain ⟨x0, hx0⟩ := h.exists_contains hb
  obtain ⟨hl, hu⟩ := contains_iff.mp hx0
  rcases le_total x0 n with hle | hle
  · exact ⟨x0, hx0, hle⟩
  · exact ⟨n, contains_iff.mpr ⟨hn, (numeral_le.mpr hle).trans hu⟩, le_rfl⟩

theorem exists_large (hn : numeral n ≤ v.ub) : ∃ x, v.contains x ∧ n ≤ x := by
  obtain ⟨x0, hx0⟩ := h.exists_contains hb
  obtain ⟨hl, hu⟩ := contains_iff.mp hx0
  rcases le_total n x0 with hle | hle
  · exact ⟨x0, hx0, hle⟩
  · exact ⟨n, contains_iff.mpr ⟨hl.trans (numeral_le.mpr hle), hn⟩, le_rfl⟩

end

theorem exists_numeral_between {l u : NumericLiteral} (h : l ≤ u) (hl : l ≠ plus_infinity)
    (hu : u ≠ minus_infinity) : ∃ n, l ≤ numeral n ∧ numeral n ≤ u := by
  cases l with
  | plus_infinity => exact absurd rfl hl
  | numeral m => exact ⟨m, le_rfl, h⟩
  | minus_infinity =>
    cases u with
    | minus_infinity => exact absurd rfl hu
    | numeral n => exact ⟨n, minus_infinity_le _, le_rfl⟩
    | plus_infinity => exact ⟨0, minus_infinity_le _, le_plus_infinity _⟩

theorem exists_succ_between {l u : NumericLiteral} (h : l < u) :
    ∃ n, l ≤ numeral n ∧ numeral (n + 1) ≤ u := by
  cases l with
  | plus_infinity => exact absurd (le_plus_infinity u) (not_le.mpr h)
  | numeral m =>
    refine ⟨m, le_rfl, ?_⟩
    cases u with
    | minus_infinity => exact absurd h.le (not_numeral_le_minus m)
    | plus_infinity => exact le_plus_infinity _
    | numeral n =>
      rw [← not_le, numeral_le] at h
      rw [numeral_le]
      omega
  | minus_infinity =>
    cases u with
    | minus_infinity => exact absurd h (lt_irrefl _)
    | numeral n => exact ⟨n - 1, minus_infinity_le _, numeral_le.mpr (by omega)⟩
    | plus_infinity => exact ⟨0, minus_infinity_le _, le_plus_infinity _⟩

section

variable (ha : a.WellFormed) (hb : b.WellFormed) (hba : a.isBottom = false)
  (hbb : b.isBottom = false)
include ha hb hba hbb

theorem exists_le (h : a.lb ≤ b.ub) :
    ∃ x y, a.contains x ∧ b.contains y ∧ x ≤ y := by
  obtain ⟨n, hl, hu⟩ := exists_numeral_between h (ha.bounds hba).2.1 (hb.bounds hbb).2.2
  obtain ⟨x, hx, hxn⟩ := exists_small ha hba hl
  obtain ⟨y, hy, hny⟩ := exists_large hb hbb hu
  exact ⟨x, y, hx, hy, hxn.trans hny⟩

theorem exists_lt (h : a.lb < b.ub) :
    ∃ x y, a.contains x ∧ b.contains y ∧ x < y := by
  obtain ⟨n, hl, hu⟩ := exists_succ_between h
  obtain ⟨x, hx, hxn⟩ := exists_small ha hba hl
  obtain ⟨y, hy, hny⟩ := exists_large hb hbb hu
  exact ⟨x, y, hx, hy, by omega⟩

end

theorem bounds_le (hx : a.contains x) (hy : b.contains y) (h : x ≤ y) : a.lb ≤ b.ub :=
  (contains_iff.mp hx).1.trans ((numeral_le.mpr h).trans (contains_iff.mp hy).2)

theorem bounds_lt (hx : a.contains x) (hy : b.contains y) (h : x < y) : a.lb < b.ub := by
  refine (contains_iff.mp hx).1.trans_lt (lt_of_lt_of_le ?_ (contains_iff.mp hy).2)
  rw [← not_le, numeral_le]
  omega

theorem meet_isBottom_iff (ha : a.isBottom = false) (hb : b.isBottom = false) :
    (a.meet_with b).isBottom ↔ ¬ (a.lb ≤ b.ub ∧ b.lb ≤ a.ub) := by
  have hla := not_isBottom_iff.mp ha
  have hlb := not_isBottom_iff.mp hb
  rw [← between_eq_empty, between_meet_with, between, between, Set.Icc_inter_Icc,
    Set.Icc_eq_empty_iff, sup_le_iff, le_inf_iff, le_inf_iff]
  tauto

-- ── The tests

variable {R : ℤ → ℤ → Prop} {numerals always never : Bool}

/-- What the tests of an operator have to say: `always` and `never` that a relation holds of all
    members, or of none, and `numerals` whether it holds of two numbers. -/
structure Tests (R : ℤ → ℤ → Prop) (a b : IntervalValue) (numerals always never : Bool) : Prop where
  numerals_iff : ∀ x y, a.lb = numeral x → b.lb = numeral y → (numerals = true ↔ R x y)
  of_always : always = true → ∀ x y, a.contains x = true → b.contains y = true → R x y
  of_never : never = true → ∀ x y, a.contains x = true → b.contains y = true → ¬ R x y
  always_of : a.WellFormed → b.WellFormed → (a.is_numeral && b.is_numeral) = false →
    (∀ x y, a.contains x = true → b.contains y = true → R x y) → always = true
  never_of : a.WellFormed → b.WellFormed → (a.is_numeral && b.is_numeral) = false →
    (∀ x y, a.contains x = true → b.contains y = true → ¬ R x y) → never = true
  exclusive : always = true → never = false

theorem Tests.negation (h : Tests R a b numerals always never) :
    Tests (fun x y => ¬ R x y) a b (!numerals) never always where
  numerals_iff x y hx hy := by
    rw [not_eq_true', ← not_eq_true]
    exact not_congr (h.numerals_iff x y hx hy)
  of_always := h.of_never
  of_never hn x y hx hy := not_not.mpr (h.of_always hn x y hx hy)
  always_of := h.never_of
  never_of ha hb hnum hall := h.always_of ha hb hnum fun x y hx hy => not_not.mp (hall x y hx hy)
  exclusive hnever := by
    rw [← not_eq_true]
    exact fun halways => absurd (hnever.symm.trans (h.exclusive halways)) (by decide)

theorem numerals_of_contains (h : (a.is_numeral && b.is_numeral)) (hx : a.contains x)
    (hy : b.contains y) : a.lb = numeral x ∧ b.lb = numeral y := by
  obtain ⟨hna, hnb⟩ := and_eq_true_iff.mp h
  have ha : a.lb = a.ub := of_decide_eq_true hna
  have hb : b.lb = b.ub := of_decide_eq_true hnb
  obtain ⟨hlx, hux⟩ := contains_iff.mp hx
  obtain ⟨hly, huy⟩ := contains_iff.mp hy
  exact ⟨le_antisymm hlx (ha ▸ hux), le_antisymm hly (hb ▸ huy)⟩

structure Answers (R : ℤ → ℤ → Prop) (a b r : IntervalValue) : Prop where
  top_iff : (a.isTop || b.isTop) = true ↔ r = top
  cases : (a.isTop || b.isTop) = false → r = isTrue ∨ r = isFalse ∨ r = isEither
  of_true : r = isTrue → ∀ x y, a.contains x = true → b.contains y = true → R x y
  of_false : r = isFalse → ∀ x y, a.contains x = true → b.contains y = true → ¬ R x y
  true_of : a.WellFormed → b.WellFormed → (a.isTop || b.isTop) = false →
    (∀ x y, a.contains x = true → b.contains y = true → R x y) → r = isTrue
  false_of : a.WellFormed → b.WellFormed → (a.isTop || b.isTop) = false →
    (∀ x y, a.contains x = true → b.contains y = true → ¬ R x y) → r = isFalse

/-- **The branches answer** what the tests say. -/
theorem comparison_answers (ha : a.isBottom = false) (hb : b.isBottom = false)
    (h : Tests R a b numerals always never) :
    Answers R a b (comparison a b numerals always never) := by
  rw [comparison, ha, hb]
  simp only [Bool.or_self, Bool.false_eq_true, if_false]
  cases htop : a.isTop || b.isTop with
  | true =>
    simp only [if_true]
    exact ⟨iff_of_true htop rfl, fun hf => absurd (htop.symm.trans hf) (by decide), nofun, nofun,
      fun _ _ hf => absurd (htop.symm.trans hf) (by decide),
      fun _ _ hf => absurd (htop.symm.trans hf) (by decide)⟩
  | false =>
    simp only [Bool.false_eq_true, if_false]
    cases hnum : a.is_numeral && b.is_numeral with
    | true =>
      have hpair : ∀ x y, a.contains x → b.contains y → (numerals ↔ R x y) := fun x y hx hy =>
        let ⟨hlx, hly⟩ := numerals_of_contains hnum hx hy
        h.numerals_iff x y hlx hly
      have hmember : a.WellFormed → b.WellFormed →
          ∃ x y, a.contains x ∧ b.contains y := fun hwa hwb =>
        let ⟨x, hx⟩ := hwa.exists_contains ha
        let ⟨y, hy⟩ := hwb.exists_contains hb
        ⟨x, y, hx, hy⟩
      simp only [if_true]
      cases hn : numerals with
      | true =>
        rw [hn] at hpair
        refine ⟨iff_of_false (by rw [htop]; decide) (by decide), fun _ => .inl rfl,
          fun _ x y hx hy => (hpair x y hx hy).mp rfl, nofun,
          fun _ _ _ _ => rfl, fun hwa hwb _ hall => ?_⟩
        obtain ⟨x, y, hx, hy⟩ := hmember hwa hwb
        exact absurd ((hpair x y hx hy).mp rfl) (hall x y hx hy)
      | false =>
        rw [hn] at hpair
        refine ⟨iff_of_false (by rw [htop]; decide) (by decide), fun _ => .inr (.inl rfl), nofun,
          fun _ x y hx hy hR => Bool.false_ne_true ((hpair x y hx hy).mpr hR),
          fun hwa hwb _ hall => ?_, fun _ _ _ _ => rfl⟩
        obtain ⟨x, y, hx, hy⟩ := hmember hwa hwb
        cases (hpair x y hx hy).mpr (hall x y hx hy)
    | false =>
      simp only [Bool.false_eq_true, if_false]
      cases halways : always with
      | true =>
        simp only [if_true]
        refine ⟨iff_of_false (by rw [htop]; decide) (by decide), fun _ => .inl rfl,
          fun _ => h.of_always halways, nofun,
          fun _ _ _ _ => rfl, fun hwa hwb _ hall => ?_⟩
        obtain ⟨x, hx⟩ := hwa.exists_contains ha
        obtain ⟨y, hy⟩ := hwb.exists_contains hb
        exact absurd (h.of_always halways x y hx hy) (hall x y hx hy)
      | false =>
        have hno : a.WellFormed → b.WellFormed → ¬ ∀ x y, a.contains x → b.contains y → R x y :=
          fun hwa hwb hall =>
            Bool.false_ne_true (halways.symm.trans (h.always_of hwa hwb hnum hall))
        simp only [Bool.false_eq_true, if_false]
        cases hnever : never with
        | true =>
          exact ⟨iff_of_false (by rw [htop]; decide) (by decide), fun _ => .inr (.inl rfl), nofun,
            fun _ => h.of_never hnever, fun hwa hwb _ hall => absurd hall (hno hwa hwb),
            fun _ _ _ _ => rfl⟩
        | false =>
          refine ⟨iff_of_false (by rw [htop]; decide) (by decide), fun _ => .inr (.inr rfl), nofun,
            nofun, fun hwa hwb _ hall => absurd hall (hno hwa hwb),
            fun hwa hwb _ hall => ?_⟩
          cases hnever.symm.trans (h.never_of hwa hwb hnum hall)

-- ── The operators

theorem tests_gt (hba : a.isBottom = false) (hbb : b.isBottom = false) :
    Tests (fun x y => x > y) a b (!a.lb.leq b.lb) (!a.lb.leq b.ub) (a.ub.leq b.lb) where
  numerals_iff x y hx hy := by
    rw [hx, hy, not_eq_true', ← not_eq_true, leq_iff, numeral_le]
    exact not_le
  of_always h x y hx hy := by
    rw [not_eq_true', ← not_eq_true, leq_iff] at h
    exact lt_of_not_ge fun hle => h (bounds_le hx hy hle)
  of_never h x y hx hy hgt := absurd (bounds_lt hy hx hgt) (not_lt.mpr (leq_iff.mp h))
  always_of hwa hwb _ hall := by
    rw [not_eq_true', ← not_eq_true, leq_iff]
    intro hle
    obtain ⟨x, y, hx, hy, hxy⟩ := exists_le hwa hwb hba hbb hle
    exact absurd (hall x y hx hy) (not_lt.mpr hxy)
  never_of hwa hwb _ hall := by
    rw [leq_iff]
    refine le_of_not_gt fun hlt => ?_
    obtain ⟨y, x, hy, hx, hyx⟩ := exists_lt hwb hwa hbb hba hlt
    exact hall x y hx hy hyx
  exclusive h := by
    rw [not_eq_true', ← not_eq_true, leq_iff] at h
    rw [← not_eq_true, leq_iff]
    exact fun hle => h ((not_isBottom_iff.mp hba).trans (hle.trans (not_isBottom_iff.mp hbb)))

theorem Tests.swap (h : Tests R b a numerals always never) :
    Tests (fun x y => R y x) a b numerals always never where
  numerals_iff x y hx hy := h.numerals_iff y x hy hx
  of_always ha x y hx hy := h.of_always ha y x hy hx
  of_never hn x y hx hy := h.of_never hn y x hy hx
  always_of hwa hwb hnum hall :=
    h.always_of hwb hwa ((Bool.and_comm _ _).trans hnum) fun y x hy hx => hall x y hx hy
  never_of hwa hwb hnum hall :=
    h.never_of hwb hwa ((Bool.and_comm _ _).trans hnum) fun y x hy hx => hall x y hx hy
  exclusive := h.exclusive

theorem tests_lt (hba : a.isBottom = false) (hbb : b.isBottom = false) :
    Tests (fun x y => x < y) a b (!a.lb.geq b.lb) (!a.ub.geq b.lb) (a.lb.geq b.ub) := by
  simp only [geq_eq]
  exact (tests_gt hbb hba).swap

section

variable (hwa : a.WellFormed) (hwb : b.WellFormed) (hba : a.isBottom = false)
  (hbb : b.isBottom = false)
include hwa hwb hba hbb

theorem exists_ne (hnum : (a.is_numeral && b.is_numeral) = false) :
    ∃ x y, a.contains x ∧ b.contains y ∧ x ≠ y := by
  have hwide : ∀ v : IntervalValue, v.WellFormed → v.isBottom = false → v.is_numeral = false →
      ∃ x y, v.contains x ∧ v.contains y ∧ x < y := by
    intro v hv hvb hvn
    have hlt := lt_of_le_of_ne (not_isBottom_iff.mp hvb) (of_decide_eq_false hvn)
    exact exists_lt hv hv hvb hvb hlt
  -- Of two members of the wide side, one differs from a member of the other side.
  rcases and_eq_false_iff.mp hnum with hn | hn
  · obtain ⟨x, x', hx, hx', hlt⟩ := hwide a hwa hba hn
    obtain ⟨y, hy⟩ := hwb.exists_contains hbb
    by_cases hxy : x = y
    · exact ⟨x', y, hx', hy, by omega⟩
    · exact ⟨x, y, hx, hy, hxy⟩
  · obtain ⟨y, y', hy, hy', hlt⟩ := hwide b hwb hbb hn
    obtain ⟨x, hx⟩ := hwa.exists_contains hba
    by_cases hxy : x = y
    · exact ⟨x, y', hx, hy', by omega⟩
    · exact ⟨x, y, hx, hy, hxy⟩

theorem exists_common (hab : a.lb ≤ b.ub) (hba' : b.lb ≤ a.ub) :
    ∃ x, a.contains x ∧ b.contains x := by
  have hl : a.lb ⊔ b.lb ≤ a.ub ⊓ b.ub :=
    sup_le (le_inf (not_isBottom_iff.mp hba) hab) (le_inf hba' (not_isBottom_iff.mp hbb))
  have hplus : a.lb ⊔ b.lb ≠ plus_infinity := by
    rcases le_total a.lb b.lb with h | h
    · rw [sup_eq_right.mpr h]
      exact (hwb.bounds hbb).2.1
    · rw [sup_eq_left.mpr h]
      exact (hwa.bounds hba).2.1
  have hminus : a.ub ⊓ b.ub ≠ minus_infinity := by
    rcases le_total a.ub b.ub with h | h
    · rw [inf_eq_left.mpr h]
      exact (hwa.bounds hba).2.2
    · rw [inf_eq_right.mpr h]
      exact (hwb.bounds hbb).2.2
  obtain ⟨n, hn, hn'⟩ := exists_numeral_between hl hplus hminus
  obtain ⟨hna, hnb⟩ := sup_le_iff.mp hn
  obtain ⟨hna', hnb'⟩ := le_inf_iff.mp hn'
  exact ⟨n, contains_iff.mpr ⟨hna, hna'⟩, contains_iff.mpr ⟨hnb, hnb'⟩⟩

end

theorem tests_eq (hba : a.isBottom = false) (hbb : b.isBottom = false) :
    Tests (fun x y => x = y) a b (a.lb = b.lb) false (a.meet_with b).isBottom where
  numerals_iff x y hx hy := by
    rw [hx, hy, decide_eq_true_iff]
    exact numeral.injEq x y ▸ .rfl
  of_always h := absurd h false_ne_true
  of_never h x y hx hy heq :=
    (meet_isBottom_iff hba hbb).mp h ⟨bounds_le hx hy heq.le, bounds_le hy hx heq.ge⟩
  always_of hwa hwb hnum hall := by
    obtain ⟨x, y, hx, hy, hne⟩ := exists_ne hwa hwb hba hbb hnum
    exact absurd (hall x y hx hy) hne
  never_of hwa hwb _ hall := by
    refine (meet_isBottom_iff hba hbb).mpr fun h => ?_
    obtain ⟨x, hx, hy⟩ := exists_common hwa hwb hba hbb h.1 h.2
    exact hall x x hx hy rfl
  exclusive h := absurd h false_ne_true

theorem Tests.congr {R S : ℤ → ℤ → Prop} (h : Tests R a b numerals always never)
    (hRS : ∀ x y, R x y ↔ S x y) :
    Tests S a b numerals always never := by
  have : R = S := funext fun x => funext fun y => propext (hRS x y)
  rwa [← this]

theorem comparison_negation (h : Tests R a b numerals always never) :
    comparison a b (!numerals) never always = complement (comparison a b numerals always never) := by
  rw [comparison, comparison]
  split
  case isTrue => rfl
  case isFalse =>
    split
    case isTrue => rfl
    case isFalse =>
      split
      case isTrue => cases numerals <;> rfl
      case isFalse =>
        cases halways : always with
        | true =>
          rw [h.exclusive halways]
          rfl
        | false => cases never <;> rfl

/-- **An operator and its tests**: each is the branches at tests of its own relation, and its
    negation at the same tests the other way round. -/
theorem eval_tests (op : Comparison) (hba : a.isBottom = false) (hbb : b.isBottom = false) :
    ∃ numerals always never, Tests op.Holds a b numerals always never ∧
      op.eval a b = comparison a b numerals always never ∧
      op.negation.eval a b = comparison a b (!numerals) never always := by
  cases op with
  | eq =>
    refine ⟨_, _, _, tests_eq hba hbb, rfl, ?_⟩
    show comparison a b (a.lb ≠ b.lb) _ _ = _
    rw [← decide_not]
  | ne =>
    refine ⟨_, _, _, (tests_eq hba hbb).negation, ?_, ?_⟩
    · show comparison a b (a.lb ≠ b.lb) _ _ = _
      rw [← decide_not]
    · rw [Bool.not_not]
      rfl
  | gt => exact ⟨_, _, _, tests_gt hba hbb, rfl, by rw [Bool.not_not]; rfl⟩
  | lt => exact ⟨_, _, _, tests_lt hba hbb, rfl, by rw [Bool.not_not]; rfl⟩
  | ge =>
    refine ⟨_, _, _, (tests_lt hba hbb).negation.congr fun _ _ => not_lt, ?_, ?_⟩
    · rw [Bool.not_not]
      rfl
    · rw [Bool.not_not]
      rfl
  | le =>
    refine ⟨_, _, _, (tests_gt hba hbb).negation.congr fun _ _ => not_lt, ?_, ?_⟩
    · rw [Bool.not_not]
      rfl
    · rw [Bool.not_not]
      rfl

/-- **Comparisons are sound**, and exact for intervals as the constructors build them. -/
theorem comparison_sound (op : Comparison) (a b : IntervalValue) (hba : a.isBottom = false)
    (hbb : b.isBottom = false) :
    Answers op.Holds a b (op.eval a b) ∧ op.negation.eval a b = complement (op.eval a b) := by
  obtain ⟨numerals, always, never, htests, heval, hneg⟩ := eval_tests op hba hbb
  rw [heval, hneg]
  exact ⟨comparison_answers hba hbb htests, comparison_negation htests⟩

/-- [3, 4] is above [1, 2], and [2, +oo] not always below [-oo, 5]. -/
theorem comparison_sound_ranges :
    (Answers (fun x y => x > y) ⟨numeral 3, numeral 4⟩ ⟨numeral 1, numeral 2⟩ isTrue ∧
        le ⟨numeral 3, numeral 4⟩ ⟨numeral 1, numeral 2⟩ = isFalse) ∧
      Answers (fun x y => x < y) ⟨numeral 2, plus_infinity⟩ ⟨minus_infinity, numeral 5⟩ isEither ∧
        ge ⟨numeral 2, plus_infinity⟩ ⟨minus_infinity, numeral 5⟩ = isEither :=
  ⟨comparison_sound .gt ⟨numeral 3, numeral 4⟩ ⟨numeral 1, numeral 2⟩ (by decide) (by decide),
    comparison_sound .lt ⟨numeral 2, plus_infinity⟩ ⟨minus_infinity, numeral 5⟩
      (by decide) (by decide)⟩

/-- **Top is above 0 or not**, and the answer is top instead of [0, 1]. -/
theorem top_gt_zero_not_either :
    ¬ ∀ (op : Comparison) (a b : IntervalValue), a.isBottom = false → b.isBottom = false →
      (¬ ∀ x y, a.contains x = true → b.contains y = true → op.Holds x y) →
      (¬ ∀ x y, a.contains x = true → b.contains y = true → ¬ op.Holds x y) →
      op.eval a b = isEither := by
  intro h
  have heither := h .gt top ⟨numeral 0, numeral 0⟩ (by decide) (by decide)
    (fun hall => absurd (hall (-1) 0 (by decide) (by decide)) (by decide : ¬ (-1 : ℤ) > 0))
    (fun hnone => hnone 1 0 (by decide) (by decide) (by decide : (1 : ℤ) > 0))
  cases heither

end IntervalValue

end SvfInterval
