import Mathlib

/-!
# The `DataSet` template argument of the points-to stores

The stores and the cache are templates over `DataSet` (`PointsTo` or one of the bit
vectors in the code's own instantiations). What they ask of it is a finite set with
iteration, the set operators, `==` and a hash. `DataSet` is that interface.

`SetDataSet` says that the operations denote the set operations and that values which a hash
map takes for one another denote one set. `LawfulDataSet` also says the converse, that the
hash agrees with equality of sets, and that `|=` tells whether it changed anything. Two equal
sets may still be different representations, so `==` is an equivalence and not Lean's equality.
-/

namespace SvfPts

/-- What a points-to store asks of its `DataSet` template argument. `elems` is the sequence
    `begin()` to `end()`; `testAndSet` and `unionWith` (`|=`) return their `bool`. -/
class DataSet (D : Type) (α : outParam Type) extends BEq D, Hashable D where
  empty : D
  elems : D → List α
  set : D → α → D
  reset : D → α → D
  testAndSet : D → α → Bool × D
  unionWith : D → D → Bool × D
  union : D → D → D
  inter : D → D → D
  sub : D → D → D

def den {D α : Type} [DataSet D α] (d : D) : Set α := {a | a ∈ DataSet.elems d}

open DataSet

/-- A finite set: every operation denotes the set operation, and values that a hash map takes
    for one another denote one set. -/
class SetDataSet (D : Type) {α : Type} [DataSet D α] : Prop where
  den_empty : den (empty : D) = ∅
  den_set : ∀ (d : D) (a : α), den (set d a) = insert a (den d)
  den_reset : ∀ (d : D) (a : α), den (reset d a) = den d \ {a}
  testAndSet_fst : ∀ (d : D) (a : α), (testAndSet d a).1 = true ↔ a ∉ den d
  testAndSet_snd : ∀ (d : D) (a : α), den (testAndSet d a).2 = insert a (den d)
  unionWith_snd : ∀ d e : D, den (unionWith d e).2 = den d ∪ den e
  den_union : ∀ d e : D, den (union d e) = den d ∪ den e
  den_inter : ∀ d e : D, den (inter d e) = den d ∩ den e
  den_sub : ∀ d e : D, den (sub d e) = den d \ den e
  equivBEq : EquivBEq D
  lawfulHashable : LawfulHashable D
  den_of_beq : ∀ {d e : D}, (d == e) = true → den d = den e

attribute [simp] SetDataSet.den_empty SetDataSet.den_set SetDataSet.den_reset
  SetDataSet.testAndSet_fst SetDataSet.testAndSet_snd SetDataSet.unionWith_snd
  SetDataSet.den_union SetDataSet.den_inter SetDataSet.den_sub

/-- A lawful finite set: every operation denotes the set operation, `==` is equality of
    the denoted sets, and equal sets hash alike. -/
class LawfulDataSet (D : Type) {α : Type} [DataSet D α] : Prop where
  den_empty : den (empty : D) = ∅
  den_set : ∀ (d : D) (a : α), den (set d a) = insert a (den d)
  den_reset : ∀ (d : D) (a : α), den (reset d a) = den d \ {a}
  testAndSet_fst : ∀ (d : D) (a : α), (testAndSet d a).1 = true ↔ a ∉ den d
  testAndSet_snd : ∀ (d : D) (a : α), den (testAndSet d a).2 = insert a (den d)
  unionWith_fst : ∀ d e : D, (unionWith d e).1 = true ↔ ¬ den e ⊆ den d
  unionWith_snd : ∀ d e : D, den (unionWith d e).2 = den d ∪ den e
  den_union : ∀ d e : D, den (union d e) = den d ∪ den e
  den_inter : ∀ d e : D, den (inter d e) = den d ∩ den e
  den_sub : ∀ d e : D, den (sub d e) = den d \ den e
  beq_iff : ∀ d e : D, (d == e) = true ↔ den d = den e
  hash_eq : ∀ d e : D, (d == e) = true → hash d = hash e

attribute [simp] LawfulDataSet.den_empty LawfulDataSet.den_set LawfulDataSet.den_reset
  LawfulDataSet.testAndSet_fst LawfulDataSet.testAndSet_snd LawfulDataSet.unionWith_fst
  LawfulDataSet.unionWith_snd LawfulDataSet.den_union LawfulDataSet.den_inter
  LawfulDataSet.den_sub

variable {D α : Type} [DataSet D α]

/-- A lawful set is a set. -/
instance instSetDataSetLawful [LawfulDataSet D] : SetDataSet D where
  den_empty := LawfulDataSet.den_empty
  den_set := LawfulDataSet.den_set
  den_reset := LawfulDataSet.den_reset
  testAndSet_fst := LawfulDataSet.testAndSet_fst
  testAndSet_snd := LawfulDataSet.testAndSet_snd
  unionWith_snd := LawfulDataSet.unionWith_snd
  den_union := LawfulDataSet.den_union
  den_inter := LawfulDataSet.den_inter
  den_sub := LawfulDataSet.den_sub
  equivBEq := {
    rfl := (LawfulDataSet.beq_iff _ _).mpr rfl
    symm := fun h => (LawfulDataSet.beq_iff _ _).mpr ((LawfulDataSet.beq_iff _ _).mp h).symm
    trans := fun h₁ h₂ => (LawfulDataSet.beq_iff _ _).mpr
      (((LawfulDataSet.beq_iff _ _).mp h₁).trans ((LawfulDataSet.beq_iff _ _).mp h₂)) }
  lawfulHashable := { hash_eq := fun a b h => LawfulDataSet.hash_eq a b h }
  den_of_beq := (LawfulDataSet.beq_iff _ _).mp

variable [SetDataSet D]

/-- `==` on a set is an equivalence, so the code's hash maps are well behaved. -/
instance instEquivBEqDataSet : EquivBEq D := SetDataSet.equivBEq

instance instLawfulHashableDataSet : LawfulHashable D := SetDataSet.lawfulHashable

theorem mem_den {D α : Type} [DataSet D α] {d : D} {a : α} : a ∈ den d ↔ a ∈ elems d := .rfl

/-- Finite sets of numbers, iterated in increasing order, as a `DataSet`: the code's bit
    vectors without their word layout. -/
instance instDataSetFinset : DataSet (Finset Nat) Nat where
  hash s := hash (s.sort (· ≤ ·))
  empty := ∅
  elems s := s.sort (· ≤ ·)
  set s a := insert a s
  reset s a := s.erase a
  testAndSet s a := (decide (a ∉ s), insert a s)
  unionWith s t := (decide (¬ t ⊆ s), s ∪ t)
  union := (· ∪ ·)
  inter := (· ∩ ·)
  sub := (· \ ·)

theorem den_finset (s : Finset Nat) : den s = (s : Set Nat) := by
  ext a
  rw [mem_den]
  exact Finset.mem_sort (· ≤ ·)

instance instLawfulDataSetFinset : LawfulDataSet (Finset Nat) where
  den_empty := by simp [den_finset, DataSet.empty]
  den_set s a := by simp [den_finset, DataSet.set]
  den_reset s a := by simp [den_finset, DataSet.reset]
  testAndSet_fst s a := by simp [den_finset, DataSet.testAndSet]
  testAndSet_snd s a := by simp [den_finset, DataSet.testAndSet]
  unionWith_fst s t := by simp [den_finset, DataSet.unionWith]
  unionWith_snd s t := by simp [den_finset, DataSet.unionWith]
  den_union s t := by simp [den_finset, DataSet.union]
  den_inter s t := by simp [den_finset, DataSet.inter]
  den_sub s t := by simp [den_finset, DataSet.sub]
  beq_iff s t := by simp [den_finset]
  hash_eq s t h := by rw [beq_iff_eq.mp h]

end SvfPts
