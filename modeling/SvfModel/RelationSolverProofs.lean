import SvfModel.IntervalExeStateProofs
import SvfModel.IntervalShiftProofs

/-!
# `RelationSolver`: keys, formulas and consequences

`BS` optimises every variable `x` and its negation at once. The negation has the key of `x`
plus a bias, and a key that comes back is told apart by comparing it with the bias, so the
bias has to lie above all keys. It is computed as a running maximum: a key above the bias
sets it to its successor. The heart is `sets_iff`: a key that is met when all keys so far are
smaller finds the bias at itself exactly where its predecessor was met before and had set the
bias. So the largest key sets the bias exactly where the run of consecutive keys that climbs
up to it is odd (**`encodes_iff`**).

The bilateral algorithm writes the bounds of an interval as numbers of 32 bits into its
formula. That is exact for bounds of 32 bits and for a top, and not for half lines
(**`gamma_hat_exact_iff`**); its consequence does lie above the lower state and not above the
upper one (**`consequence_between`**).
-/

namespace SvfRelationSolver

open SvfInterval NumericLiteral List Nat
open IntervalValue (contains_iff not_bottom_of_contains)

-- ── the keys of the boxed search

def bias (keys : List UInt32) : UInt32 :=
  keys.foldl (fun bias key => if key > bias then key + 1 else bias) 0

/-- The key of the negation of a variable. -/
def reverseKey (bias key : UInt32) : UInt32 := key + bias

/-- The bound that a key stands for. -/
inductive Side where
  | lower
  | upper
deriving DecidableEq

/-- How a key that comes back is read. -/
def decode (bias key : UInt32) : UInt32 × Side :=
  if key ≥ bias then (key - bias, .lower) else (key, .upper)

structure Encodes (keys : List UInt32) (bias : UInt32) : Prop where
  above : ∀ key ∈ keys, key < bias
  apart : ∀ key ∈ keys, ∀ other ∈ keys, reverseKey bias key ≠ other
  injective : ∀ key ∈ keys, ∀ other ∈ keys, reverseKey bias key = reverseKey bias other → key = other
  upper : ∀ key ∈ keys, decode bias key = (key, .upper)
  lower : ∀ key ∈ keys, decode bias (reverseKey bias key) = (key, .lower)

/-- The length of the run of consecutive positive keys that ends in `key` and is met from below
    to above. -/
def climb (keys : List ℕ) : ℕ → ℕ
  | 0 => 0
  | key + 1 => if key ∈ keys.takeWhile (· ≠ key + 1) then climb keys key + 1 else 1

/-- The bias as a number without a bound. -/
def natBias (keys : List ℕ) : ℕ := keys.foldl (fun bias key => if bias < key then key + 1 else bias) 0

theorem foldl_bias_of_le {b : ℕ} : ∀ {keys : List ℕ}, (∀ key ∈ keys, key ≤ b) →
    keys.foldl (fun bias key => if bias < key then key + 1 else bias) b = b := by
  intro keys
  induction keys with
  | nil => exact fun _ => rfl
  | cons key keys ih =>
    intro h
    rw [foldl_cons, if_neg (not_lt.mpr (h key mem_cons_self))]
    exact ih (forall_mem_cons.mp h).2

theorem foldl_bias_le {k : ℕ} : ∀ {keys : List ℕ} {b : ℕ}, (∀ key ∈ keys, key < k) → b ≤ k →
    keys.foldl (fun bias key => if bias < key then key + 1 else bias) b ≤ k := by
  intro keys
  induction keys with
  | nil => exact fun _ hb => hb
  | cons key keys ih =>
    intro b h hb
    refine ih (forall_mem_cons.mp h).2 ?_
    show (if b < key then key + 1 else b) ≤ k
    split_ifs
    · exact h key mem_cons_self
    · exact hb

theorem natBias_append (front rest : List ℕ) : natBias (front ++ rest) =
    rest.foldl (fun bias key => if bias < key then key + 1 else bias) (natBias front) :=
  foldl_append

theorem takeWhile_front {front rest : List ℕ} {key : ℕ} (h : key ∉ front) :
    (front ++ key :: rest).takeWhile (· ≠ key) = front := by
  have hall : ∀ k ∈ front, decide (k ≠ key) := fun k hk => decide_eq_true fun heq => h (heq ▸ hk)
  rw [takeWhile_append_of_pos hall]
  simp

/-- **The key that is met above all others** sets the bias, if its climb is odd. The induction is
    on the key: its predecessor, if it has been met, was met above all others as well. -/
theorem sets_iff (key : ℕ) : ∀ {front : List ℕ} (rest : List ℕ), front.Nodup → (∀ k ∈ front, k < key) →
    (natBias front < key ↔ Odd (climb (front ++ key :: rest) key)) := by
  induction key with
  | zero =>
    intro front rest _ hlt
    refine iff_of_false (not_lt_zero _) ?_
    rw [climb]
    decide
  | succ key ih =>
    intro front rest hnd hlt
    have hnot : key + 1 ∉ front := fun h => absurd (hlt _ h) (lt_irrefl _)
    rw [climb, takeWhile_front hnot]
    by_cases hmem : key ∈ front
    · obtain ⟨before, after, rfl, hnew⟩ := eq_append_cons_of_mem hmem
      have hnd' := nodup_append.mp hnd
      have hother : ∀ k ∈ before ++ after, k < key := by
        intro k hk
        have hk' : k ∈ before ++ key :: after := by
          rcases mem_append.mp hk with hk | hk
          · exact mem_append_left _ hk
          · exact mem_append_right _ (mem_cons_of_mem _ hk)
        have hne : k ≠ key := by
          rintro rfl
          rcases mem_append.mp hk with hk | hk
          · exact hnew hk
          · exact (nodup_cons.mp hnd'.2.1).1 hk
        have := hlt k hk'
        omega
      have hbefore : ∀ k ∈ before, k < key := fun k hk => hother k (mem_append_left _ hk)
      have hafter : ∀ k ∈ after, k < key := fun k hk => hother k (mem_append_right _ hk)
      have hkey := ih (after ++ (key + 1) :: rest) hnd'.1 hbefore
      rw [if_pos hmem, odd_add_one, append_assoc, cons_append, ← hkey, natBias_append, foldl_cons]
      by_cases hset : natBias before < key
      · -- the predecessor has set the bias to `key + 1`
        rw [if_pos hset, foldl_bias_of_le fun k hk => (hafter k hk).le.trans (le_succ _)]
        exact iff_of_false (lt_irrefl _) (not_not_intro hset)
      · rw [if_neg hset]
        have hle : natBias before ≤ key := foldl_bias_le hbefore (zero_le _)
        exact iff_of_true (lt_succ_of_le (foldl_bias_le hafter hle)) hset
    · rw [if_neg hmem]
      have hsmall : ∀ k ∈ front, k < key := by
        intro k hk
        have hne : k ≠ key := fun heq => hmem (heq ▸ hk)
        have := hlt k hk
        omega
      have hle : natBias front ≤ key := foldl_bias_le hsmall (zero_le _)
      exact iff_of_true (lt_succ_of_le hle) (by decide)

theorem lt_natBias_iff {keys : List ℕ} (hnd : keys.Nodup) {key : ℕ} (hmem : key ∈ keys)
    (hmax : ∀ k ∈ keys, k ≤ key) : key < natBias keys ↔ Odd (climb keys key) := by
  obtain ⟨front, rest, rfl, hnew⟩ := eq_append_cons_of_mem hmem
  have hnd' := nodup_append.mp hnd
  have hfront : ∀ k ∈ front, k < key := by
    intro k hk
    have hne : k ≠ key := fun heq => hnew (heq ▸ hk)
    have := hmax k (mem_append_left _ hk)
    omega
  have hrest : ∀ k ∈ rest, k ≤ key := fun k hk => hmax k (mem_append_right _ (mem_cons_of_mem _ hk))
  rw [← sets_iff key rest hnd'.1 hfront, natBias_append, foldl_cons]
  by_cases hset : natBias front < key
  · rw [if_pos hset, foldl_bias_of_le fun k hk => (hrest k hk).trans (le_succ _)]
    exact iff_of_true (lt_succ_self _) hset
  · have hle : natBias front ≤ key := foldl_bias_le hfront (zero_le _)
    have heq : natBias front = key := by omega
    rw [if_neg hset, heq, foldl_bias_of_le hrest]

/-- Below `2 ^ 31` the bias does not overflow. -/
theorem toNat_bias {keys : List UInt32} (h : ∀ key ∈ keys, key.toNat < 2 ^ 31) :
    (bias keys).toNat = natBias (keys.map UInt32.toNat) := by
  have hfold : ∀ (l : List UInt32) (b : UInt32), (∀ key ∈ l, key.toNat < 2 ^ 31) →
      (l.foldl (fun bias key => if key > bias then key + 1 else bias) b).toNat =
        (l.map UInt32.toNat).foldl (fun bias key => if bias < key then key + 1 else bias) b.toNat := by
    intro l
    induction l with
    | nil => exact fun b _ => rfl
    | cons key l ih =>
      intro b hl
      have hkey := hl key mem_cons_self
      rw [foldl_cons, map_cons, foldl_cons, ih _ fun k hk => hl k (mem_cons_of_mem key hk)]
      congr 1
      by_cases hb : b < key
      · have hnext : (key + 1).toNat = key.toNat + 1 := by
          rw [UInt32.toNat_add]
          exact mod_eq_of_lt (show key.toNat + 1 < 2 ^ 32 by omega)
        rw [if_pos hb, if_pos (UInt32.lt_iff_toNat_lt.mp hb), hnext]
      · rw [if_neg hb, if_neg (mt UInt32.lt_iff_toNat_lt.mpr hb)]
  exact hfold keys 0 h

theorem add_lt_of_decode {bias key : UInt32}
    (h : decode bias (reverseKey bias key) = (key, .lower)) : key.toNat + bias.toNat < 2 ^ 32 := by
  by_contra hover
  have hge : reverseKey bias key ≥ bias := by
    by_contra hlt
    rw [decode, if_neg hlt] at h
    exact nomatch (Prod.mk.inj h).2
  have hle := UInt32.le_iff_toNat_le.mp hge
  have hkey := key.toNat_lt
  have hbias := bias.toNat_lt
  have hsum : (reverseKey bias key).toNat = (key.toNat + bias.toNat) % 2 ^ 32 := UInt32.toNat_add ..
  omega

/-- **The encoding is free of collisions** exactly where the largest key is below `2 ^ 31` and
    the run that climbs up to it is odd. -/
theorem encodes_iff (domain : Table UInt32 IntervalValue) : Encodes domain.keys (bias domain.keys) ↔
      ∀ key ∈ domain.keys, (∀ other ∈ domain.keys, other ≤ key) →
        key.toNat < 2 ^ 31 ∧ Odd (climb (domain.keys.map UInt32.toNat) key.toNat) := by
  have hnd : (domain.keys.map UInt32.toNat).Nodup :=
    domain.nodupKeys.map fun _ _ h => UInt32.toNat_inj.mp h
  have hodd : ∀ key ∈ domain.keys, (∀ other ∈ domain.keys, other ≤ key) → key.toNat < 2 ^ 31 →
      (key < bias domain.keys ↔ Odd (climb (domain.keys.map UInt32.toNat) key.toNat)) := by
    intro key hkey hmax hsmall
    have hall : ∀ k ∈ domain.keys, k.toNat < 2 ^ 31 := fun k hk =>
      (UInt32.le_iff_toNat_le.mp (hmax k hk)).trans_lt hsmall
    rw [UInt32.lt_iff_toNat_lt, toNat_bias hall]
    refine lt_natBias_iff hnd (mem_map_of_mem hkey) fun k hk => ?_
    obtain ⟨k', hk', rfl⟩ := mem_map.mp hk
    exact UInt32.le_iff_toNat_le.mp (hmax k' hk')
  constructor
  · intro h key hkey hmax
    have hlt := UInt32.lt_iff_toNat_lt.mp (h.above key hkey)
    have hsum := add_lt_of_decode (h.lower key hkey)
    have hsmall : key.toNat < 2 ^ 31 := by omega
    exact ⟨hsmall, (hodd key hkey hmax hsmall).mp (h.above key hkey)⟩
  · intro h
    have habove : ∀ key ∈ domain.keys, key < bias domain.keys ∧
        key.toNat + (bias domain.keys).toNat < 2 ^ 32 := by
      intro key hkey
      obtain ⟨top, htop, hmax⟩ := Finset.exists_max_image domain.keys.toFinset UInt32.toNat
        ⟨key, mem_toFinset.mpr hkey⟩
      rw [mem_toFinset] at htop
      have hmax' : ∀ other ∈ domain.keys, other ≤ top := fun other ho =>
        UInt32.le_iff_toNat_le.mpr (hmax other (mem_toFinset.mpr ho))
      obtain ⟨hsmall, hclimb⟩ := h top htop hmax'
      have hlt := UInt32.lt_iff_toNat_lt.mp ((hodd top htop hmax' hsmall).mpr hclimb)
      have hle := UInt32.le_iff_toNat_le.mp (hmax' key hkey)
      have hbias : (bias domain.keys).toNat ≤ top.toNat + 1 := by
        rw [toNat_bias fun k hk => (UInt32.le_iff_toNat_le.mp (hmax' k hk)).trans_lt hsmall]
        refine foldl_bias_le (fun k hk => ?_) (zero_le _)
        obtain ⟨k', hk', rfl⟩ := mem_map.mp hk
        exact lt_succ_of_le (UInt32.le_iff_toNat_le.mp (hmax' k' hk'))
      refine ⟨UInt32.lt_iff_toNat_lt.mpr (by omega), by omega⟩
    have hreverse : ∀ key ∈ domain.keys, (reverseKey (bias domain.keys) key).toNat =
        key.toNat + (bias domain.keys).toNat := fun key hkey =>
      (UInt32.toNat_add ..).trans (mod_eq_of_lt (habove key hkey).2)
    constructor
    case above => exact fun key hkey => (habove key hkey).1
    case apart =>
      intro key hkey other hother heq
      have hlt := UInt32.lt_iff_toNat_lt.mp (habove other hother).1
      have hsum := hreverse key hkey
      rw [heq] at hsum
      omega
    case injective =>
      intro key hkey other hother heq
      have hk := hreverse key hkey
      rw [heq, hreverse other hother] at hk
      exact UInt32.toNat_inj.mp (by omega)
    case upper =>
      intro key hkey
      exact if_neg (UInt32.not_le.mpr (habove key hkey).1)
    case lower =>
      intro key hkey
      have hsum := hreverse key hkey
      have hge : reverseKey (bias domain.keys) key ≥ bias domain.keys :=
        UInt32.le_iff_toNat_le.mpr (by omega)
      rw [decode, if_pos hge, reverseKey, UInt32.add_sub_cancel]

/-- Variables `3` and `4`: the bias is `4`, and the upper bound of `4` is read as a lower bound. -/
theorem not_encodes_consecutive :
    ¬ Encodes [3, 4] (bias [3, 4]) ∧ decode (bias [3, 4]) 4 = (0, .lower) := by
  refine ⟨fun h => ?_, by decide⟩
  exact absurd (h.above 4 (by decide)) (by decide)

-- ── the formula of a state

/-- A state of `RelationSolver`. -/
abbrev State := IntervalESBase UInt32 UInt32

/-- The formulas that are sent to the solver. Its variables are integers. -/
inductive Formula where
  | bool_val (b : Bool)
  | and (lhs rhs : Formula)
  | ge (id : UInt32) (n : ℤ)
  | le (id : UInt32) (n : ℤ)

/-- A valuation satisfies a formula. -/
def Formula.Sat (σ : UInt32 → ℤ) : Formula → Prop
  | bool_val b => b = true
  | and f g => f.Sat σ ∧ g.Sat σ
  | ge id n => n ≤ σ id
  | le id n => σ id ≤ n

/-- The loop of `gamma_hat(alpha, exeState)` over the variables of the domain. The bounds are cast
    to `int`; a variable without an interval throws. -/
def gammaHatLoop (alpha : State) : List UInt32 → Formula → Option Formula
  | [], res => some res
  | id :: ids, res =>
    match alpha.varToItvVal.lookup id with
    | none => none
    | some interval =>
      if interval.isBottom then some (.bool_val false)
      else if interval.isTop then gammaHatLoop alpha ids res
      else gammaHatLoop alpha ids
        ((res.and (.ge id (s32 interval.lb.getNumeral))).and
          (.le id (s32 interval.ub.getNumeral)))

def gamma_hat (alpha exeState : State) : Option Formula :=
  gammaHatLoop alpha exeState.varToItvVal.keys (.bool_val true)

/-- The interval of a variable. What is not bound is not constrained. -/
def intervalOf (s : State) (id : UInt32) : IntervalValue :=
  (s.varToItvVal.lookup id).getD IntervalValue.top

def members (v : IntervalValue) : Set ℤ := {n | v.contains n = true}

/-- The numbers that the formula leaves to a variable. -/
def written (v : IntervalValue) : Set ℤ :=
  {n | v.isTop = true ∨ s32 v.lb.getNumeral ≤ n ∧ n ≤ s32 v.ub.getNumeral}

def inside (s : State) : Set (UInt32 → ℤ) := Set.univ.pi fun id => members (intervalOf s id)

/-- A state over a domain: it has an interval for the same variables, and the locations of the
    domain, which no operation of the solver changes. -/
structure Over (domain s : State) : Prop where
  vars : ∀ id, id ∈ s.varToItvVal ↔ id ∈ domain.varToItvVal
  locs : ∀ id v, s.locToItvVal.lookup id = some v →
    ∃ w, domain.locToItvVal.lookup id = some w ∧ w.equals v = true

variable {id : UInt32} {v : IntervalValue} {σ : UInt32 → ℤ}

variable {alpha lower upper domain : State}

theorem Over.exists_lookup (h : Over domain alpha) (hid : id ∈ domain.varToItvVal.keys) :
    ∃ v, alpha.varToItvVal.lookup id = some v :=
  Option.isSome_iff_exists.mp (AList.lookup_isSome.mpr ((h.vars id).mpr (AList.mem_keys.mp hid)))

theorem intervalOf_eq {s : State} (h : s.varToItvVal.lookup id = some v) : intervalOf s id = v := by
  rw [intervalOf, h]
  rfl

theorem Over.intervalOf_eq_top (h : Over domain alpha) (hid : id ∉ domain.varToItvVal.keys)
    : intervalOf alpha id = IntervalValue.top := by
  have hnone : alpha.varToItvVal.lookup id = none :=
    AList.lookup_eq_none.mpr fun hmem => hid (AList.mem_keys.mpr ((h.vars id).mp hmem))
  rw [intervalOf, hnone]
  rfl

theorem mem_inside {s : State} :
    σ ∈ inside s ↔ ∀ id, σ id ∈ members (intervalOf s id) := Set.mem_univ_pi

theorem members_top : members IntervalValue.top = Set.univ :=
  Set.eq_univ_of_forall IntervalValue.contains_top

theorem written_top : written IntervalValue.top = Set.univ :=
  Set.eq_univ_of_forall fun _ => .inl rfl

/-- **The loop** returns what has been collected and the numbers written for the variables that
    are left, if none of their intervals is bottom. -/
theorem gammaHatLoop_spec (ids : List UInt32) : ∀ res : Formula,
    (∀ id ∈ ids, ∃ v, alpha.varToItvVal.lookup id = some v) →
    ∃ f, gammaHatLoop alpha ids res = some f ∧ ∀ σ, f.Sat σ ↔ res.Sat σ ∧
      ∀ id ∈ ids, (intervalOf alpha id).isBottom = false ∧ σ id ∈ written (intervalOf alpha id) := by
  induction ids with
  | nil =>
    intro res _
    exact ⟨res, rfl, fun σ => (and_iff_left nofun).symm⟩
  | cons id ids ih =>
    intro res h
    obtain ⟨v, hv⟩ := h id mem_cons_self
    have hrest : ∀ i ∈ ids, ∃ v, alpha.varToItvVal.lookup i = some v := (forall_mem_cons.mp h).2
    have hval := intervalOf_eq hv
    simp only [gammaHatLoop, hv, forall_mem_cons, hval]
    cases hbot : v.isBottom with
    | true =>
      refine ⟨.bool_val false, rfl, fun σ => iff_of_false Bool.false_ne_true ?_⟩
      rintro ⟨-, ⟨h, -⟩, -⟩
      exact Bool.false_ne_true h.symm
    | false =>
      cases htop : v.isTop with
      | true =>
        obtain ⟨f, hf, hsat⟩ := ih res hrest
        refine ⟨f, hf, fun σ => (hsat σ).trans (and_congr_right fun _ => ?_)⟩
        exact (and_iff_right ⟨rfl, .inl htop⟩).symm
      | false =>
        obtain ⟨f, hf, hsat⟩ := ih ((res.and (.ge id (s32 v.lb.getNumeral))).and
          (.le id (s32 v.ub.getNumeral))) hrest
        refine ⟨f, hf, fun σ => (hsat σ).trans ?_⟩
        have hwritten : σ id ∈ written v ↔
            s32 v.lb.getNumeral ≤ σ id ∧ σ id ≤ s32 v.ub.getNumeral :=
          or_iff_right (Bool.eq_false_iff.mp htop)
        rw [hwritten, and_iff_right (rfl : false = false)]
        simp only [Formula.Sat, and_assoc]

theorem gamma_hat_spec (h : Over domain alpha) : ∃ f, gamma_hat alpha domain = some f ∧
    ∀ σ, f.Sat σ ↔ (∀ id, (intervalOf alpha id).isBottom = false) ∧
      σ ∈ Set.univ.pi fun id => written (intervalOf alpha id) := by
  obtain ⟨f, hf, hsat⟩ := gammaHatLoop_spec _ (.bool_val true) fun id hid => h.exists_lookup hid
  refine ⟨f, hf, fun σ => (hsat σ).trans ?_⟩
  constructor
  · rintro ⟨-, hall⟩
    have hboth : ∀ id, (intervalOf alpha id).isBottom = false ∧ σ id ∈ written (intervalOf alpha id) := by
      intro id
      by_cases hid : id ∈ domain.varToItvVal.keys
      · exact hall id hid
      · rw [h.intervalOf_eq_top hid, written_top]
        exact ⟨rfl, Set.mem_univ _⟩
    exact ⟨fun id => (hboth id).1, fun id _ => (hboth id).2⟩
  · rintro ⟨hbot, hin⟩
    exact ⟨rfl, fun id _ => ⟨hbot id, hin id (Set.mem_univ id)⟩⟩

-- ── where the formula is exact

/-- An interval whose bounds are numbers of 32 bits, or that is a top. -/
def Narrow (v : IntervalValue) : Prop :=
  v.isTop = true ∨ ∃ m n : ℤ, v = ⟨numeral m, numeral n⟩ ∧ -2 ^ 31 ≤ m ∧ n < 2 ^ 31

theorem mem_members_numeral {m n x : ℤ} : x ∈ members ⟨numeral m, numeral n⟩ ↔ m ≤ x ∧ x ≤ n := by
  rw [members, Set.mem_ofPred_eq, contains_iff, numeral_le, numeral_le]

theorem s32_getNumeral_bounds (a : NumericLiteral) :
    -2 ^ 31 ≤ s32 a.getNumeral ∧ s32 a.getNumeral < 2 ^ 31 := s32_bounds _

theorem written_eq_members_iff (hbot : v.isBottom = false) : written v = members v ↔ Narrow v := by
  have hle : v.lb ≤ v.ub := IntervalValue.not_isBottom_iff.mp hbot
  cases htop : v.isTop with
  | true =>
    have hv : v = IntervalValue.top := by
      obtain ⟨hl, hu⟩ := of_decide_eq_true htop
      cases v
      exact congrArg₂ IntervalValue.mk hl hu
    refine iff_of_true ?_ (.inl htop)
    rw [hv, written_top, members_top]
  | false =>
    have hmem : ∀ n, n ∈ written v ↔ s32 v.lb.getNumeral ≤ n ∧ n ≤ s32 v.ub.getNumeral :=
      fun n => or_iff_right (Bool.eq_false_iff.mp htop)
    obtain ⟨hl, hl'⟩ := s32_getNumeral_bounds v.lb
    obtain ⟨hu, hu'⟩ := s32_getNumeral_bounds v.ub
    constructor
    · intro heq
      have hiff : ∀ n, s32 v.lb.getNumeral ≤ n ∧ n ≤ s32 v.ub.getNumeral ↔ n ∈ members v :=
        fun n => (hmem n).symm.trans (Set.ext_iff.mp heq n)
      have hrange : ∀ n ∈ members v, -2 ^ 31 ≤ n ∧ n < 2 ^ 31 := fun n hn =>
        ⟨hl.trans ((hiff n).mpr hn).1, ((hiff n).mpr hn).2.trans_lt hu'⟩
      obtain ⟨l, u⟩ := v
      cases l with
      | minus_infinity =>
        cases u with
        | minus_infinity =>
          have hzero : (0 : ℤ) ∈ members ⟨minus_infinity, minus_infinity⟩ :=
            (hiff 0).mp ⟨by decide, by decide⟩
          cases hzero
        | numeral n =>
          have := hrange (Min.min n (-2 ^ 31 - 1)) (contains_iff.mpr
            ⟨minus_infinity_le _, numeral_le.mpr (min_le_left _ _)⟩)
          omega
        | plus_infinity => cases htop
      | numeral m =>
        cases u with
        | minus_infinity => exact absurd hle (not_numeral_le_minus m)
        | numeral n =>
          have hmn : m ≤ n := numeral_le.mp hle
          refine .inr ⟨m, n, rfl, ?_, ?_⟩
          · exact (hrange m (mem_members_numeral.mpr ⟨le_rfl, hmn⟩)).1
          · exact (hrange n (mem_members_numeral.mpr ⟨hmn, le_rfl⟩)).2
        | plus_infinity =>
          have := hrange (Max.max m (2 ^ 31)) (contains_iff.mpr
            ⟨numeral_le.mpr (le_max_left _ _), le_plus_infinity _⟩)
          omega
      | plus_infinity =>
        cases u with
        | minus_infinity => exact absurd hle not_plus_le_minus
        | numeral n => exact absurd hle (not_plus_le_numeral n)
        | plus_infinity =>
          have hlast : (-1 : ℤ) ∈ members ⟨plus_infinity, plus_infinity⟩ :=
            (hiff (-1)).mp ⟨by decide, by decide⟩
          cases hlast
    · rintro (h | ⟨m, n, rfl, hm, hn⟩)
      · exact absurd h (Bool.eq_false_iff.mp htop)
      · have hmn : m ≤ n := numeral_le.mp hle
        ext x
        rw [hmem, s32_getNumeral hm (by omega), s32_getNumeral (by omega) hn, mem_members_numeral]

def Exact (s : State) : Prop :=
  (∃ id, (intervalOf s id).isBottom = true) ∨
  (∀ id, Narrow (intervalOf s id)) ∨
  (∃ id, members (intervalOf s id) = ∅) ∧ ∃ id, written (intervalOf s id) = ∅

theorem univ_pi_eq_iff {ι : Type} {f g : ι → Set ℤ} :
    Set.univ.pi f = Set.univ.pi g ↔ (∀ i, f i = g i) ∨ (∃ i, g i = ∅) ∧ ∃ i, f i = ∅ := by
  rw [← Set.univ_pi_eq_empty_iff (t := g), ← Set.univ_pi_eq_empty_iff (t := f)]
  constructor
  · intro h
    by_cases hempty : Set.univ.pi f = ∅
    · exact .inr ⟨h ▸ hempty, hempty⟩
    · have hempty' : ¬ Set.univ.pi g = ∅ := fun hg => hempty (h.trans hg)
      rw [Set.univ_pi_eq_empty_iff] at hempty hempty'
      have hfg := (Set.univ_pi_subset_univ_pi_iff.mp h.subset).resolve_right hempty
      have hgf := (Set.univ_pi_subset_univ_pi_iff.mp h.superset).resolve_right hempty'
      exact .inl fun i => (hfg i).antisymm (hgf i)
  · rintro (h | ⟨hg, hf⟩)
    · rw [funext h]
    · rw [hf, hg]

/-- **The formula** of a state over the domain is satisfied by exactly the valuations inside of
    every interval, if an interval is bottom, or if every one is narrow. -/
theorem gamma_hat_exact_iff (h : Over domain alpha) : ∃ f, gamma_hat alpha domain = some f ∧
    ((∀ σ, f.Sat σ ↔ σ ∈ inside alpha) ↔ Exact alpha) := by
  obtain ⟨f, hf, hsat⟩ := gamma_hat_spec h
  refine ⟨f, hf, ?_⟩
  by_cases hbot : ∃ id, (intervalOf alpha id).isBottom
  · refine iff_of_true (fun σ => iff_of_false ?_ ?_) (.inl hbot)
    · intro hs
      obtain ⟨id, hid⟩ := hbot
      exact Bool.false_ne_true ((((hsat σ).mp hs).1 id).symm.trans hid)
    · intro hin
      obtain ⟨id, hid⟩ := hbot
      exact IntervalValue.not_contains_of_isBottom hid (hin id (Set.mem_univ id))
  · have hall : ∀ id, (intervalOf alpha id).isBottom = false := fun id =>
      Bool.eq_false_iff.mpr fun hid => hbot ⟨id, hid⟩
    have hset : (∀ σ, f.Sat σ ↔ σ ∈ inside alpha) ↔
        (Set.univ.pi fun id => written (intervalOf alpha id)) = inside alpha :=
      (forall_congr' fun σ => by rw [hsat, and_iff_right hall]).trans Set.ext_iff.symm
    rw [hset, inside, univ_pi_eq_iff, Exact, or_iff_right hbot]
    refine or_congr_left (forall_congr' fun id => ?_)
    exact written_eq_members_iff (hall id)

-- ── the consequence

def topTable (t : Table UInt32 IntervalValue) : Table UInt32 IntervalValue where
  entries := t.entries.map fun e => ⟨e.1, IntervalValue.top⟩
  nodupKeys := by
    have hkeys : (t.entries.map fun e => (⟨e.1, IntervalValue.top⟩ : Sigma fun _ : UInt32 =>
        IntervalValue)).keys = t.entries.keys := by
      rw [List.keys, map_map]
      rfl
    rw [List.NodupKeys, hkeys]
    exact t.nodupKeys

def top (s : State) : State := { s with varToItvVal := topTable s.varToItvVal }

def geqVarToValMap (lhs rhs : Table UInt32 IntervalValue) : Bool :=
  rhs.entries.all fun item =>
    match lhs.lookup item.1 with
    | none => false
    | some it => it.geq item.2

/-- `operator>=` -/
def geq (s rhs : State) : Bool :=
  geqVarToValMap s.varToItvVal rhs.varToItvVal && geqVarToValMap s.locToItvVal rhs.locToItvVal

/-- The state that constrains one variable. -/
def proposed (domain : State) (id : UInt32) (v : IntervalValue) : State :=
  { top domain with varToItvVal := (top domain).varToItvVal.insert id v }

def consequenceLoop (lower upper domain : State) : List UInt32 → Option State
  | [] => some lower
  | id :: ids =>
    match lower.varToItvVal.lookup id with
    | none => none
    | some v =>
      if !geq (proposed domain id v) upper then some (proposed domain id v)
      else consequenceLoop lower upper domain ids

def abstract_consequence (lower upper domain : State) : Option State :=
  consequenceLoop lower upper domain domain.varToItvVal.keys

theorem lookup_topTable (t : Table UInt32 IntervalValue) (id : UInt32) :
    (topTable t).lookup id = (t.lookup id).map fun _ => IntervalValue.top := by
  show (t.entries.map _).dlookup id = (t.entries.dlookup id).map _
  induction t.entries with
  | nil => rfl
  | cons e l ih =>
    obtain ⟨k, v⟩ := e
    rw [map_cons]
    by_cases hk : k = id
    · subst hk
      rw [dlookup_cons_eq, dlookup_cons_eq, Option.map_some]
    · rw [dlookup_cons_ne _ _ (Ne.symm hk), dlookup_cons_ne _ _ (Ne.symm hk), ih]

theorem intervalOf_proposed (domain : State) (id : UInt32) (v : IntervalValue) (i : UInt32) :
    intervalOf (proposed domain id v) i = if i = id then v else IntervalValue.top := by
  show ((AList.insert id v (topTable domain.varToItvVal)).lookup i).getD IntervalValue.top = _
  by_cases hi : i = id
  · subst hi
    rw [AList.lookup_insert, if_pos rfl, Option.getD_some]
  · rw [AList.lookup_insert_ne hi, if_neg hi, lookup_topTable]
    cases domain.varToItvVal.lookup i with
    | none => rfl
    | some w => rfl

theorem mem_inside_proposed {domain : State} :
    σ ∈ inside (proposed domain id v) ↔ σ id ∈ members v := by
  rw [mem_inside]
  simp only [intervalOf_proposed]
  constructor
  · intro h
    have hid := h id
    rwa [if_pos rfl] at hid
  · intro h i
    by_cases hi : i = id
    · rw [if_pos hi, hi]
      exact h
    · rw [if_neg hi, members_top]
      exact Set.mem_univ _

/-- An interval with members that another is not `geq` to has a member outside of it. -/
theorem exists_outside {v w : IntervalValue} {x : ℤ} (hx : x ∈ members w) (h : v.geq w = false) :
    ∃ n ∈ members w, n ∉ members v := by
  by_contra hall
  push Not at hall
  have hv : v.isBottom = false := not_bottom_of_contains (hall x hx)
  have hw : w.isBottom = false := not_bottom_of_contains hx
  have hub : w.ub ≤ v.ub := IntervalValue.ub_le_of_members hx fun n hn =>
    (contains_iff.mp (hall n hn)).2
  have hlb : v.lb ≤ w.lb := IntervalValue.le_lb_of_members hx fun n hn =>
    (contains_iff.mp (hall n hn)).1
  have hgeq : v.geq w := by
    rw [IntervalValue.geq, hv, hw, if_neg Bool.false_ne_true, if_neg Bool.false_ne_true,
      Bool.and_eq_true, NumericLiteral.geq_iff, NumericLiteral.geq_iff]
    exact ⟨hlb, hub⟩
  exact Bool.false_ne_true (h.symm.trans hgeq)

/-- The locations of the domain are `geq` those of a state over it. -/
theorem Over.geq_locs (h : Over domain upper) :
    geqVarToValMap domain.locToItvVal upper.locToItvVal := by
  refine all_eq_true.mpr fun item hitem => ?_
  have hlookup : upper.locToItvVal.lookup item.1 = some item.2 := AList.mem_lookup_iff.mpr hitem
  obtain ⟨w, hw, heq⟩ := h.locs _ _ hlookup
  rw [hw]
  rw [IntervalValue.equals] at heq
  show w.geq item.2
  rw [IntervalValue.geq]
  cases hbot : w.isBottom with
  | true => rfl
  | false =>
    rw [hbot, if_neg Bool.false_ne_true] at heq
    rw [if_neg Bool.false_ne_true]
    cases hbot' : item.2.isBottom with
    | true => rw [hbot'] at heq; exact heq
    | false =>
      rw [hbot', if_neg Bool.false_ne_true, decide_eq_true_eq] at heq
      rw [if_neg Bool.false_ne_true, Bool.and_eq_true, NumericLiteral.geq_iff,
        NumericLiteral.geq_iff]
      exact ⟨heq.1.le, heq.2.ge⟩

/-- A state that the proposed one is not `geq` to has a valuation outside of the proposed one.
    The other variables are top there, so only the variable itself can fail. -/
theorem exists_outside_proposed (hu : Over domain upper) (hσ : σ ∈ inside upper)
    (h : geq (proposed domain id v) upper = false) :
    ∃ τ ∈ inside upper, τ ∉ inside (proposed domain id v) := by
  have hvars : geqVarToValMap (proposed domain id v).varToItvVal upper.varToItvVal = false := by
    rw [geq, Bool.and_eq_false_iff] at h
    exact h.resolve_right fun hlocs => Bool.false_ne_true (hlocs.symm.trans hu.geq_locs)
  obtain ⟨item, hitem, hfail⟩ := all_eq_false.mp hvars
  have hlookup : upper.varToItvVal.lookup item.1 = some item.2 := AList.mem_lookup_iff.mpr hitem
  have hmem : σ item.1 ∈ members item.2 := by
    have := mem_inside.mp hσ item.1
    rwa [intervalOf_eq hlookup] at this
  have hbound : ∃ u, (proposed domain id v).varToItvVal.lookup item.1 = some u := by
    have hdom : item.1 ∈ domain.varToItvVal :=
      (hu.vars _).mp (AList.lookup_isSome.mp (hlookup ▸ rfl))
    show ∃ u, (AList.insert id v (topTable domain.varToItvVal)).lookup item.1 = some u
    by_cases hid : item.1 = id
    · exact ⟨v, by rw [hid, AList.lookup_insert]⟩
    · obtain ⟨w, hw⟩ := Option.isSome_iff_exists.mp (AList.lookup_isSome.mpr hdom)
      exact ⟨IntervalValue.top, by rw [AList.lookup_insert_ne hid, lookup_topTable, hw]; rfl⟩
  obtain ⟨u, hu'⟩ := hbound
  rw [hu'] at hfail
  have hu'' := intervalOf_eq hu'
  rw [intervalOf_proposed] at hu''
  obtain ⟨n, hn, hout⟩ := exists_outside hmem (Bool.not_eq_true _ ▸ hfail)
  by_cases hid : item.1 = id
  · rw [if_pos hid] at hu''
    refine ⟨Function.update σ id n, mem_inside.mpr fun i => ?_, fun hin => ?_⟩
    · by_cases hi : i = id
      · rw [hi, Function.update_self, ← hid, intervalOf_eq hlookup]
        exact hn
      · rw [Function.update_of_ne hi]
        exact mem_inside.mp hσ i
    · rw [mem_inside_proposed, Function.update_self, hu''] at hin
      exact hout hin
  · rw [if_neg hid] at hu''
    rw [← hu'', members_top] at hout
    exact absurd (Set.mem_univ n) hout

/-- **The loop** returns a proposed state for a variable of the lower one, or the lower state. -/
theorem consequenceLoop_spec (upper domain : State) (ids : List UInt32) :
    (∀ id ∈ ids, ∃ v, lower.varToItvVal.lookup id = some v) →
    ∃ c, consequenceLoop lower upper domain ids = some c ∧ (c = lower ∨
      ∃ id v, lower.varToItvVal.lookup id = some v ∧ c = proposed domain id v ∧
        geq (proposed domain id v) upper = false) := by
  induction ids with
  | nil => exact fun _ => ⟨lower, rfl, .inl rfl⟩
  | cons id ids ih =>
    intro h
    obtain ⟨v, hv⟩ := h id mem_cons_self
    simp only [consequenceLoop, hv]
    cases hgeq : geq (proposed domain id v) upper with
    | true => exact ih (forall_mem_cons.mp h).2
    | false => exact ⟨_, rfl, .inr ⟨id, v, hv, rfl, hgeq⟩⟩

/-- **The consequence** of a state strictly below another contains the one and not the other. -/
theorem consequence_between (hl : Over domain lower) (hu : Over domain upper)
    (h : inside lower ⊂ inside upper) : ∃ c, abstract_consequence lower upper domain = some c ∧
      inside lower ⊆ inside c ∧ ¬ inside upper ⊆ inside c := by
  obtain ⟨c, hc, hcase⟩ := consequenceLoop_spec upper domain _ fun id hid => hl.exists_lookup hid
  refine ⟨c, hc, ?_⟩
  rcases hcase with rfl | ⟨id, v, hv, rfl, hgeq⟩
  · exact ⟨subset_rfl, h.not_subset⟩
  · constructor
    · intro σ hσ
      have hid := mem_inside.mp hσ id
      rw [intervalOf_eq hv] at hid
      exact mem_inside_proposed.mpr hid
    · obtain ⟨σ, hσ, -⟩ := Set.exists_of_ssubset h
      obtain ⟨τ, hτ, hout⟩ := exists_outside_proposed hu hσ hgeq
      exact fun hsub => hout (hsub hτ)

/-- **The steps of the bilateral algorithm**: the formula of a state over the domain is exact in
    the cases of `Exact`, and the consequence always makes progress. -/
theorem bilateral_step_iff (ha : Over domain alpha) (hl : Over domain lower)
    (hu : Over domain upper) :
    (∃ f, gamma_hat alpha domain = some f ∧
      ((∀ σ, f.Sat σ ↔ σ ∈ inside alpha) ↔ Exact alpha)) ∧
    (inside lower ⊂ inside upper → ∃ c, abstract_consequence lower upper domain = some c ∧
      inside lower ⊆ inside c ∧ ¬ inside upper ⊆ inside c) :=
  ⟨gamma_hat_exact_iff ha, consequence_between hl hu⟩

/-- The states of one variable. -/
def single (id : UInt32) (v : IntervalValue) : State where
  varToItvVal := (∅ : Table UInt32 IntervalValue).insert id v
  locToItvVal := ∅
  varToAddrs := ∅
  locToAddrs := ∅

theorem over_single (id : UInt32) (v w : IntervalValue) : Over (single id v) (single id w) := by
  constructor
  case vars => exact fun i => .rfl
  case locs => exact fun i u h => nomatch h

theorem mem_inside_single : σ ∈ inside (single id v) ↔ σ id ∈ members v := by
  rw [mem_inside]
  constructor
  · intro h
    have hid := h id
    rwa [intervalOf_eq (AList.lookup_insert ∅)] at hid
  · intro h i
    by_cases hi : i = id
    · rw [hi, intervalOf_eq (AList.lookup_insert ∅)]
      exact h
    · have hnone : intervalOf (single id v) i = IntervalValue.top := by
        show (((∅ : Table UInt32 IntervalValue).insert id v).lookup i).getD _ = _
        rw [AList.lookup_insert_ne hi, AList.lookup_empty, Option.getD_none]
      rw [hnone, members_top]
      exact Set.mem_univ _

theorem bilateral_step_single :
    ∃ c, abstract_consequence (single 0 ⟨numeral 0, numeral 1⟩) (single 0 ⟨numeral 0, numeral 2⟩)
      (single 0 IntervalValue.top) = some c ∧
      inside (single 0 ⟨numeral 0, numeral 1⟩) ⊆ inside c ∧
      ¬ inside (single 0 ⟨numeral 0, numeral 2⟩) ⊆ inside c := by
  have hsub : inside (single 0 ⟨numeral 0, numeral 1⟩) ⊂ inside (single 0 ⟨numeral 0, numeral 2⟩) := by
    refine (Set.ssubset_iff_of_subset fun σ hσ => ?_).mpr ⟨fun _ => 2, ?_, ?_⟩
    · have hle := mem_members_numeral.mp (mem_inside_single.mp hσ)
      exact mem_inside_single.mpr (mem_members_numeral.mpr ⟨hle.1, hle.2.trans (by decide)⟩)
    · exact mem_inside_single.mpr rfl
    · exact fun h => Bool.false_ne_true (mem_inside_single.mp h)
  exact (bilateral_step_iff (over_single 0 _ ⟨numeral 0, plus_infinity⟩) (over_single 0 _ _)
    (over_single 0 _ _)).2 hsub

/-- The half line above zero: the formula bounds the variable by the cast of the last number of
    64 bits, and nothing satisfies it. -/
theorem gamma_hat_not_exact_half_line :
    gamma_hat (single 0 ⟨numeral 0, plus_infinity⟩) (single 0 IntervalValue.top) =
      some (((Formula.bool_val true).and (.ge 0 0)).and (.le 0 (-1))) ∧
    (∀ σ, ¬ (((Formula.bool_val true).and (.ge 0 0)).and (.le 0 (-1))).Sat σ) ∧
    (fun _ => 0) ∈ inside (single 0 ⟨numeral 0, plus_infinity⟩) := by
  refine ⟨by rfl, ?_, ?_⟩
  · rintro σ ⟨⟨-, h0⟩, h1⟩
    have := le_trans h0 h1
    cases this
  · exact mem_inside_single.mpr rfl

end SvfRelationSolver
