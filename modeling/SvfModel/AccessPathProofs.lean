import Mathlib

/-!
# `AccessPath`: concatenation and order

An access path is a field index and the index operands of a `gep`, each a variable with the type
it indexes. `operator+` copies its right operand and walks the copy's vector while it appends to
that same vector; `operator<` looks at the first pair of two paths of one length only.

So the sum is right exactly for paths without pairs (`add_isConcat_iff`, `add_assoc_iff`). The
order is a strict order (`AccessPath.lt_irrefl`, `AccessPath.lt_trans`), and orders two different
paths unless they have one field index, one length and one first pair (`AccessPath.ordered_iff`).
The three are **`accessPath_lawful_iff`**.
-/

namespace SvfAccessPath

open Option

/-- Two pointers side by side, compared as `std::pair` does. -/
abbrev IdxOperandPair (V T : Type) := V × T

/-- `V` and `T` are pointers to variables and to types. -/
structure AccessPath (V T : Type) where
  fldIdx : Int64
  idxOperandPairs : List (IdxOperandPair V T)
  gepPointeeType : T
deriving DecidableEq

variable {V T : Type}

-- ── `operator+`

/-- The sum of two signed numbers; there is none where it overflows. -/
def addOffset (x y : Int64) : Option Int64 :=
  if -2 ^ 63 ≤ x.toInt + y.toInt ∧ x.toInt + y.toInt < 2 ^ 63 then some (x + y) else none

/-- `for (auto &p : vec) emplace_back(p.first, p.second)`: `ahead` is what is between the loop's
    iterator and its end. To append invalidates both, so there is no next round. -/
def appendEach (vec : List (IdxOperandPair V T)) :
    List (IdxOperandPair V T) → Bool → Option (List (IdxOperandPair V T))
  | _, false => none
  | [], true => some vec
  | p :: ahead, true => appendEach (vec ++ [p]) ahead false

namespace AccessPath

variable [DecidableEq T]

/-- `operator+`. No result is a failed assertion or undefined behaviour. -/
def add (lhs rhs : AccessPath V T) : Option (AccessPath V T) :=
  if lhs.gepPointeeType = rhs.gepPointeeType then
    (addOffset rhs.fldIdx lhs.fldIdx).bind fun fldIdx =>
      (appendEach rhs.idxOperandPairs rhs.idxOperandPairs true).map fun pairs =>
        { rhs with fldIdx := fldIdx, idxOperandPairs := pairs }
  else none

-- ── `operator<`

variable [LinearOrder V] [LinearOrder T]

section

omit [DecidableEq T]

/-- `operator<` of `std::pair`. -/
def pairLt (p q : IdxOperandPair V T) : Bool :=
  decide (p.1 < q.1) || (!decide (q.1 < p.1) && decide (p.2 < q.2))

/-- The loop over two vectors; it returns in its first round. -/
def pairsLt : List (IdxOperandPair V T) → List (IdxOperandPair V T) → Bool
  | p :: _, q :: _ => pairLt p q
  | _, _ => false

/-- `operator<`. -/
def lt (lhs rhs : AccessPath V T) : Bool :=
  if lhs.fldIdx ≠ rhs.fldIdx then decide (lhs.fldIdx < rhs.fldIdx)
  else if lhs.idxOperandPairs.length ≠ rhs.idxOperandPairs.length then
    decide (lhs.idxOperandPairs.length < rhs.idxOperandPairs.length)
  else pairsLt lhs.idxOperandPairs rhs.idxOperandPairs

end

end AccessPath

-- ── What they are to be

def IsConcat [DecidableEq T] (lhs rhs : AccessPath V T) : Prop :=
  ∃ sum, lhs.add rhs = some sum ∧ sum.fldIdx.toInt = lhs.fldIdx.toInt + rhs.fldIdx.toInt ∧
    sum.idxOperandPairs = lhs.idxOperandPairs ++ rhs.idxOperandPairs

def IsAssoc [DecidableEq T] (a b c : AccessPath V T) : Prop :=
  ∃ sum, (a.add b).bind (fun ab => ab.add c) = some sum ∧
    (b.add c).bind (fun bc => a.add bc) = some sum

/-- Of two different paths exactly one is less than the other. -/
def Ordered [LinearOrder V] [LinearOrder T] (a b : AccessPath V T) : Prop :=
  a ≠ b → Xor (a.lt b = true) (b.lt a = true)

/-- A sum in the range of a signed 64-bit number. -/
def InRange (z : ℤ) : Prop := -2 ^ 63 ≤ z ∧ z < 2 ^ 63

-- ── Concatenation

theorem addOffset_eq_some {x y z : Int64} :
    addOffset x y = some z ↔ InRange (x.toInt + y.toInt) ∧ z.toInt = x.toInt + y.toInt := by
  rw [addOffset, ite_none_right_eq_some, InRange]
  refine and_congr_right fun hrange => ?_
  have hsum : (x + y).toInt = x.toInt + y.toInt := by
    rw [Int64.toInt_add]
    exact Int.bmod_eq_of_le (by omega) (by omega)
  rw [some_inj, ← Int64.toInt_inj, hsum]
  exact eq_comm

theorem appendEach_eq_some {vec pairs : List (IdxOperandPair V T)} :
    appendEach vec vec true = some pairs ↔ vec = [] ∧ pairs = [] := by
  cases vec with
  | nil =>
    rw [appendEach, some_inj]
    exact ⟨fun h => ⟨rfl, h.symm⟩, fun h => h.2.symm⟩
  | cons p vec =>
    have hnone : appendEach (p :: vec) (p :: vec) true = none := by
      rw [appendEach, appendEach]
    rw [hnone]
    exact iff_of_false nofun (fun h => nomatch h.1)

section

variable [DecidableEq T] {a b c : AccessPath V T}

/-- **Specification of `operator+`**: it adds the field indices of two paths of one type, if the
    right one has no pairs; the pairs of the left one are lost. -/
theorem add_eq_some {sum : AccessPath V T} : a.add b = some sum ↔
      (a.gepPointeeType = b.gepPointeeType ∧ b.idxOperandPairs = [] ∧
        InRange (a.fldIdx.toInt + b.fldIdx.toInt)) ∧
      sum.gepPointeeType = b.gepPointeeType ∧ sum.idxOperandPairs = [] ∧
        sum.fldIdx.toInt = a.fldIdx.toInt + b.fldIdx.toInt := by
  rw [AccessPath.add, ite_none_right_eq_some, add_comm a.fldIdx.toInt]
  constructor
  · rintro ⟨htype, h⟩
    obtain ⟨fldIdx, hfld, h⟩ := bind_eq_some_iff.mp h
    obtain ⟨pairs, hpairs, rfl⟩ := map_eq_some_iff.mp h
    obtain ⟨hrange, hsum⟩ := addOffset_eq_some.mp hfld
    obtain ⟨hnil, rfl⟩ := appendEach_eq_some.mp hpairs
    exact ⟨⟨htype, hnil, hrange⟩, rfl, rfl, hsum⟩
  · rintro ⟨⟨htype, hnil, hrange⟩, hty, hpairs, hsum⟩
    have hfld := addOffset_eq_some.mpr ⟨hrange, hsum⟩
    rw [hfld, bind_some, appendEach_eq_some.mpr ⟨hnil, rfl⟩]
    refine ⟨htype, congrArg some ?_⟩
    obtain ⟨fldIdx, pairs, ty⟩ := sum
    obtain ⟨rfl, rfl⟩ : ty = b.gepPointeeType ∧ pairs = [] := ⟨hty, hpairs⟩
    rfl

/-- A path without pairs. -/
def flat (z : ℤ) (ty : T) : AccessPath V T := ⟨Int64.ofInt z, [], ty⟩

omit [DecidableEq T] in
theorem toInt_flat {z : ℤ} {ty : T} (h : InRange z) :
    (flat z ty : AccessPath V T).fldIdx.toInt = z :=
  Int64.toInt_ofInt_of_le h.1 h.2

theorem add_of_flat (htype : a.gepPointeeType = b.gepPointeeType) (hb : b.idxOperandPairs = [])
    (hrange : InRange (a.fldIdx.toInt + b.fldIdx.toInt)) :
    a.add b = some (flat (a.fldIdx.toInt + b.fldIdx.toInt) b.gepPointeeType) :=
  add_eq_some.mpr ⟨⟨htype, hb, hrange⟩, rfl, rfl, toInt_flat hrange⟩

theorem add_isConcat_iff : IsConcat a b ↔ a.gepPointeeType = b.gepPointeeType ∧
      InRange (a.fldIdx.toInt + b.fldIdx.toInt) ∧
      a.idxOperandPairs = [] ∧ b.idxOperandPairs = [] := by
  constructor
  · rintro ⟨sum, hadd, -, hpairs⟩
    obtain ⟨⟨htype, hb, hrange⟩, -, hnil, -⟩ := add_eq_some.mp hadd
    rw [hnil] at hpairs
    exact ⟨htype, hrange, (List.append_eq_nil_iff.mp hpairs.symm).1, hb⟩
  · rintro ⟨htype, hrange, ha, hb⟩
    refine ⟨_, add_of_flat htype hb hrange, toInt_flat hrange, ?_⟩
    rw [ha, hb]
    rfl

/-- Both ways to add three paths are there, and are the same, exactly if the two on the right have
    no pairs and no sum overflows. -/
theorem add_assoc_iff : IsAssoc a b c ↔
      (a.gepPointeeType = b.gepPointeeType ∧ b.gepPointeeType = c.gepPointeeType) ∧
      (InRange (a.fldIdx.toInt + b.fldIdx.toInt) ∧ InRange (b.fldIdx.toInt + c.fldIdx.toInt) ∧
        InRange (a.fldIdx.toInt + b.fldIdx.toInt + c.fldIdx.toInt)) ∧
      b.idxOperandPairs = [] ∧ c.idxOperandPairs = [] := by
  constructor
  · rintro ⟨sum, hleft, hright⟩
    obtain ⟨ab, hab, hleft⟩ := bind_eq_some_iff.mp hleft
    obtain ⟨bc, hbc, -⟩ := bind_eq_some_iff.mp hright
    obtain ⟨⟨htab, hb, hrab⟩, -, -, hab⟩ := add_eq_some.mp hab
    obtain ⟨⟨htbc, hc, hrbc⟩, -⟩ := add_eq_some.mp hbc
    obtain ⟨⟨-, -, hrabc⟩, -⟩ := add_eq_some.mp hleft
    rw [hab] at hrabc
    exact ⟨⟨htab, htbc⟩, ⟨hrab, hrbc, hrabc⟩, hb, hc⟩
  · rintro ⟨⟨htab, htbc⟩, ⟨hrab, hrbc, hrabc⟩, hb, hc⟩
    let ab : AccessPath V T := flat (a.fldIdx.toInt + b.fldIdx.toInt) b.gepPointeeType
    let bc : AccessPath V T := flat (b.fldIdx.toInt + c.fldIdx.toInt) c.gepPointeeType
    have hab : ab.fldIdx.toInt = a.fldIdx.toInt + b.fldIdx.toInt := toInt_flat hrab
    have hbc : bc.fldIdx.toInt = b.fldIdx.toInt + c.fldIdx.toInt := toInt_flat hrbc
    have hleft := add_of_flat (a := ab) htbc hc (by rwa [hab])
    have hright := add_of_flat (b := bc) (htab.trans htbc) rfl (by rwa [hbc, ← add_assoc])
    rw [hab] at hleft
    rw [hbc, ← add_assoc] at hright
    refine ⟨flat (a.fldIdx.toInt + b.fldIdx.toInt + c.fldIdx.toInt) c.gepPointeeType, ?_, ?_⟩
    · rw [add_of_flat htab hb hrab, bind_some]
      exact hleft
    · rw [add_of_flat htbc hc hrbc, bind_some]
      exact hright

end

-- ── The order

section

variable [LinearOrder V] [LinearOrder T] {a b c : AccessPath V T}

theorem pairLt_iff {p q : IdxOperandPair V T} : AccessPath.pairLt p q ↔ toLex p < toLex q := by
  rw [AccessPath.pairLt, Bool.or_eq_true, Bool.and_eq_true, Bool.not_eq_true', decide_eq_true_iff,
    decide_eq_false_iff_not, decide_eq_true_iff, Prod.Lex.toLex_lt_toLex]
  constructor
  · rintro (h | ⟨h, h2⟩)
    · exact .inl h
    · exact (not_lt.mp h).lt_or_eq.imp_right fun heq => ⟨heq, h2⟩
  · rintro (h | ⟨h, h2⟩)
    · exact .inl h
    · exact .inr ⟨not_lt.mpr h.le, h2⟩

def firstPair : List (IdxOperandPair V T) → WithBot (V ×ₗ T)
  | [] => ⊥
  | p :: _ => (toLex p : V ×ₗ T)

/-- What `operator<` compares: the field index, the length, the first pair. -/
def key (a : AccessPath V T) : ℤ ×ₗ ℕ ×ₗ WithBot (V ×ₗ T) :=
  toLex (a.fldIdx.toInt, toLex (a.idxOperandPairs.length, firstPair a.idxOperandPairs))

omit [LinearOrder V] [LinearOrder T] in
theorem key_inj : key a = key b ↔ a.fldIdx = b.fldIdx ∧
    a.idxOperandPairs.length = b.idxOperandPairs.length ∧
    a.idxOperandPairs.head? = b.idxOperandPairs.head? := by
  rw [key, key, toLex_inj, Prod.mk_inj, toLex_inj, Prod.mk_inj, Int64.toInt_inj]
  refine and_congr_right fun _ => and_congr_right fun _ => ?_
  cases a.idxOperandPairs with
  | nil =>
    cases b.idxOperandPairs with
    | nil => exact iff_of_true rfl rfl
    | cons q qs => exact iff_of_false WithBot.bot_ne_coe nofun
  | cons p ps =>
    cases b.idxOperandPairs with
    | nil => exact iff_of_false WithBot.coe_ne_bot nofun
    | cons q qs =>
      rw [firstPair, firstPair, WithBot.coe_inj, toLex_inj, List.head?_cons, List.head?_cons,
        some_inj]

theorem pairsLt_iff {ps qs : List (IdxOperandPair V T)} (hlen : ps.length = qs.length) :
    AccessPath.pairsLt ps qs ↔ firstPair ps < firstPair qs := by
  cases ps with
  | nil =>
    obtain rfl := List.length_eq_zero_iff.mp hlen.symm
    exact iff_of_false Bool.false_ne_true (lt_irrefl _)
  | cons p ps =>
    cases qs with
    | nil => cases hlen
    | cons q qs => rw [AccessPath.pairsLt, pairLt_iff, firstPair, firstPair, WithBot.coe_lt_coe]

/-- **Specification of `operator<`**: it compares the keys. -/
theorem lt_iff_key : a.lt b ↔ key a < key b := by
  rw [AccessPath.lt, key, key, Prod.Lex.toLex_lt_toLex, Prod.Lex.toLex_lt_toLex, Int64.toInt_inj,
    ← Int64.lt_iff_toInt_lt]
  by_cases hfld : a.fldIdx = b.fldIdx
  · rw [if_neg (not_not_intro hfld), hfld]
    by_cases hlen : a.idxOperandPairs.length = b.idxOperandPairs.length
    · rw [if_neg (not_not_intro hlen), pairsLt_iff hlen]
      simp only [hlen, Int64.lt_irrefl, lt_irrefl, true_and, false_or]
    · rw [if_pos hlen, decide_eq_true_iff]
      simp only [hlen, Int64.lt_irrefl, true_and, false_and, false_or, or_false]
  · rw [if_pos hfld, decide_eq_true_iff]
    simp only [hfld, false_and, or_false]

namespace AccessPath

theorem lt_irrefl (a : AccessPath V T) : a.lt a = false :=
  Bool.eq_false_iff.mpr fun h => (lt_iff_key.mp h).false

theorem lt_trans (hab : a.lt b) (hbc : b.lt c) : a.lt c :=
  lt_iff_key.mpr ((lt_iff_key.mp hab).trans (lt_iff_key.mp hbc))

theorem ordered_iff : Ordered a b ↔ a = b ∨ a.fldIdx ≠ b.fldIdx ∨
    a.idxOperandPairs.length ≠ b.idxOperandPairs.length ∨
    a.idxOperandPairs.head? ≠ b.idxOperandPairs.head? := by
  have hkey : (a.fldIdx ≠ b.fldIdx ∨ a.idxOperandPairs.length ≠ b.idxOperandPairs.length ∨
      a.idxOperandPairs.head? ≠ b.idxOperandPairs.head?) ↔ key a ≠ key b := by
    simp only [ne_eq, key_inj, not_and_or]
  rw [hkey, Ordered, lt_iff_key, lt_iff_key]
  constructor
  · intro h
    by_contra hno
    push Not at hno
    obtain ⟨hne, heq⟩ := hno
    rw [heq] at h
    rcases h hne with ⟨hlt, -⟩ | ⟨hlt, -⟩
    · exact hlt.false
    · exact hlt.false
  · rintro (rfl | hne) hab
    · exact absurd rfl hab
    · rcases lt_or_gt_of_ne hne with hlt | hgt
      · exact .inl ⟨hlt, hlt.asymm⟩
      · exact .inr ⟨hgt, hgt.asymm⟩

end AccessPath

end

/-- **Access paths are lawful** exactly so far: sums of paths without pairs, and the order on paths
    that differ in what it looks at. -/
theorem accessPath_lawful_iff [LinearOrder V] [LinearOrder T] :
    (∀ a b : AccessPath V T, IsConcat a b ↔ a.gepPointeeType = b.gepPointeeType ∧
      InRange (a.fldIdx.toInt + b.fldIdx.toInt) ∧
      a.idxOperandPairs = [] ∧ b.idxOperandPairs = []) ∧
    (∀ a b c : AccessPath V T, IsAssoc a b c ↔
      (a.gepPointeeType = b.gepPointeeType ∧ b.gepPointeeType = c.gepPointeeType) ∧
      (InRange (a.fldIdx.toInt + b.fldIdx.toInt) ∧ InRange (b.fldIdx.toInt + c.fldIdx.toInt) ∧
        InRange (a.fldIdx.toInt + b.fldIdx.toInt + c.fldIdx.toInt)) ∧
      b.idxOperandPairs = [] ∧ c.idxOperandPairs = []) ∧
    (∀ a : AccessPath V T, a.lt a = false) ∧
    (∀ a b c : AccessPath V T, a.lt b = true → b.lt c = true → a.lt c = true) ∧
    ∀ a b : AccessPath V T, Ordered a b ↔ a = b ∨ a.fldIdx ≠ b.fldIdx ∨
      a.idxOperandPairs.length ≠ b.idxOperandPairs.length ∨
      a.idxOperandPairs.head? ≠ b.idxOperandPairs.head? :=
  ⟨fun _ _ => add_isConcat_iff, fun _ _ _ => add_assoc_iff, AccessPath.lt_irrefl,
    fun _ _ _ => AccessPath.lt_trans, fun _ _ => AccessPath.ordered_iff⟩

/-- A pair on the right: no sum. Two paths with one first pair: neither is less. A pair on the
    left: it is lost. -/
theorem accessPath_not_lawful : ¬ IsConcat (⟨0, [], 0⟩ : AccessPath ℕ ℕ) ⟨0, [(1, 0)], 0⟩ ∧
    ¬ IsConcat (⟨0, [(1, 0)], 0⟩ : AccessPath ℕ ℕ) ⟨0, [], 0⟩ ∧
    ¬ Ordered (⟨0, [(1, 0), (2, 0)], 0⟩ : AccessPath ℕ ℕ) ⟨0, [(1, 0), (3, 0)], 0⟩ := by
  refine ⟨?_, ?_, ?_⟩
  · rintro ⟨sum, hadd, -⟩
    exact absurd hadd (fun h => nomatch (add_eq_some.mp h).1.2.1)
  · rintro ⟨sum, hadd, -, hpairs⟩
    rw [(add_eq_some.mp hadd).2.2.1] at hpairs
    cases hpairs
  · intro h
    rcases h (by decide) with ⟨hlt, -⟩ | ⟨hlt, -⟩
    · cases hlt
    · cases hlt

end SvfAccessPath
