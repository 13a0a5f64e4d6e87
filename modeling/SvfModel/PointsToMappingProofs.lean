import SvfModel.SparseBitVectorProofs
import SvfModel.ClustererProofs

/-!
# `PointsTo` under node mappings

A `PointsTo` keeps internal ids in a bit vector, and pointers to a node mapping and to its
reverse; callers know external ids only. The heart is one relation, `Keeps`: the vector is the
image of the external set under the mapping. A mapping with a reverse is injective where it is
defined (`inside_injOn`), so that the image of a set operation is the operation on the images,
for each of the three vectors that there are (`Holds`).

The system is a set of variables and the current best mapping. Each call does to it what it does
to plain sets, or fails on an assertion with them (`pointsToStep_agrees`), and so does each run.
-/

namespace SvfPtsMap

open SvfPts SvfPtsStore ElementList List Option Set
open Function (update update_apply update_eq_self update_of_ne update_self)
open SparseBitVector (bit_and bit_or bit_reset bit_set iterate_begin_sparse mem_bitsOf test_fst
  test_snd valid_and valid_or valid_reset valid_set valid_test)

-- ── The three vectors

/-- `PointsTo::Type`; `Options::PtType` is one of them for a whole run. -/
inductive PtType where
  | SBV
  | CBV
  | BV

/-- The union of a `PointsTo`. -/
inductive Backing where
  | sbv (b : SparseBitVector)
  | cbv (c : CoreBitVector)
  | bv (c : CoreBitVector)

/-- `BitVector()`: the first word is there from the start. -/
def bitVector : CoreBitVector := (CoreBitVector.empty.set 0).reset 0

namespace Backing

def empty : PtType → Backing
  | .SBV => .sbv SparseBitVector.empty
  | .CBV => .cbv CoreBitVector.empty
  | .BV => .bv bitVector

/-- Copied or moved, with the iterator of a sparse vector at its start. -/
def copy : Backing → Backing
  | .sbv b => .sbv ⟨b.elements, 0⟩
  | .cbv c => .cbv c
  | .bv c => .bv c

/-- `test(n)`; the iterator of a sparse vector is mutable. -/
def test : Backing → ℕ → Bool × Backing
  | .cbv c, n => (c.test n, .cbv c)
  | .sbv b, n => (b.test n).map id .sbv
  | .bv c, n => (c.test n, .bv c)

def test_and_set : Backing → ℕ → Bool × Backing
  | .cbv c, n => (c.test_and_set n).map id .cbv
  | .sbv b, n => (b.test_and_set n).map id .sbv
  | .bv c, n => (c.test_and_set n).map id .bv

def set : Backing → ℕ → Backing
  | .cbv c, n => .cbv (c.set n)
  | .sbv b, n => .sbv (b.set n)
  | .bv c, n => .bv (c.set n)

def reset : Backing → ℕ → Backing
  | .cbv c, n => .cbv (c.reset n)
  | .sbv b, n => .sbv (b.reset n)
  | .bv c, n => .bv (c.reset n)

def count : Backing → UInt32
  | .cbv c => c.count
  | .sbv b => b.count
  | .bv c => c.count

/-- A call on the same member of two unions; there is none where the types differ. -/
def pair {R : Type} (sbv : SparseBitVector → SparseBitVector → R)
    (cbv : CoreBitVector → CoreBitVector → R) (bv : CoreBitVector → CoreBitVector → R) :
    Backing → Backing → Option R
  | .cbv c, .cbv rhs => some (cbv c rhs)
  | .sbv b, .sbv rhs => some (sbv b rhs)
  | .bv c, .bv rhs => some (bv c rhs)
  | _, _ => none

def contains : Backing → Backing → Option Bool :=
  pair SparseBitVector.contains CoreBitVector.contains CoreBitVector.contains

def intersects : Backing → Backing → Option Bool :=
  pair SparseBitVector.intersects CoreBitVector.intersects CoreBitVector.intersects

/-- `operator==` -/
def equal : Backing → Backing → Option Bool :=
  pair SparseBitVector.equal CoreBitVector.equal CoreBitVector.equal

/-- `operator|=`; `same` tells whether the operands are one object. -/
def orAssign (same : Bool) : Backing → Backing → Option (Bool × Backing) :=
  pair (fun b rhs => (b.orAssign same rhs).map id .sbv) (fun c rhs => (c.orAssign rhs).map id .cbv)
    fun c rhs => (c.orAssign rhs).map id .bv

/-- `operator&=` -/
def andAssign (same : Bool) : Backing → Backing → Option (Bool × Backing) :=
  pair (fun b rhs => (b.andAssign same rhs).map id .sbv)
    (fun c rhs => (c.intersectAssign rhs).map id .cbv)
    fun c rhs => (c.intersectAssign rhs).map id .bv

def intersectWithComplement (same : Bool) : Backing → Backing → Option (Bool × Backing) :=
  pair (fun b rhs => (b.intersectWithComplement same rhs).map id .sbv)
    (fun c rhs => (CoreBitVector.intersectWithComplement c rhs).map id .cbv)
    fun c rhs => (CoreBitVector.intersectWithComplement c rhs).map id .bv

/-- What the iterator of the vector goes through. -/
def iterate : Backing → Option (List ℕ)
  | .cbv c => c.iterate c.endPos c.begin
  | .sbv b => b.iterate (b.elements.length * ElementSize) b.begin
  | .bv c => c.iterate c.endPos c.begin

structure IsCore (c : CoreBitVector) (s : Set ℕ) : Prop where
  range : c.InRange
  den : den c = s

structure IsSparse (b : SparseBitVector) (s : Set ℕ) : Prop where
  valid : b.Valid
  bit : ∀ n, bit b.elements n = true ↔ n ∈ s

inductive Holds : PtType → Backing → Set ℕ → Prop where
  | sbv {b : SparseBitVector} {s : Set ℕ} (h : IsSparse b s) : Holds .SBV (.sbv b) s
  | cbv {c : CoreBitVector} {s : Set ℕ} (h : IsCore c s) : Holds .CBV (.cbv c) s
  | bv {c : CoreBitVector} {s : Set ℕ} (h : IsCore c s) : Holds .BV (.bv c) s

variable {type : PtType} {back rhs : Backing} {s t : Set ℕ} {n : ℕ}

section Core

variable {c d : CoreBitVector}

theorem isCore_empty : IsCore CoreBitVector.empty ∅ :=
  ⟨CoreBitVector.inRange_empty, SetDataSet.den_empty⟩

section

variable (h : IsCore c s)
include h

theorem IsCore.test : c.test n ↔ n ∈ s := by
  rw [← h.den, CoreBitVector.mem_den_iff]

theorem IsCore.set (hn : n < 2 ^ 32) : IsCore (c.set n) (insert n s) :=
  ⟨h.range.set hn, (SetDataSet.den_set c n).trans (congrArg _ h.den)⟩

theorem IsCore.reset (n : ℕ) : IsCore (c.reset n) (s \ {n}) :=
  ⟨h.range.of_same (CoreBitVector.reset_range c n),
    (SetDataSet.den_reset c n).trans (congrArg (· \ {n}) h.den)⟩

theorem IsCore.test_and_set (hn : n < 2 ^ 32) : IsCore (c.test_and_set n).2 (insert n s) := by
  rw [CoreBitVector.test_and_set]
  split
  case isTrue hset =>
    rw [insert_eq_of_mem (h.test.mp hset)]
    exact h
  case isFalse => exact h.set hn

section

variable (hd : IsCore d t)
include hd

theorem IsCore.orAssign : IsCore (c.orAssign d).2 (s ∪ t) := by
  refine ⟨h.range.orAssign hd.range, ?_⟩
  rw [← h.den, ← hd.den]
  exact SetDataSet.den_union c d

theorem IsCore.andAssign : IsCore (c.intersectAssign d).2 (s ∩ t) := by
  rw [CoreBitVector.intersectAssign_eq]
  refine ⟨h.range.of_same (CoreBitVector.andAssign_range c d), ?_⟩
  rw [← h.den, ← hd.den]
  exact SetDataSet.den_inter c d

theorem IsCore.intersectWithComplement :
    IsCore (CoreBitVector.intersectWithComplement c d).2 (s \ t) := by
  rw [CoreBitVector.intersectWithComplement, CoreBitVector.subtractAssign_eq]
  refine ⟨h.range.of_same (CoreBitVector.subAssign_range c d), ?_⟩
  rw [← h.den, ← hd.den]
  exact SetDataSet.den_sub c d

theorem IsCore.contains : c.contains d ↔ t ⊆ s := by
  rw [CoreBitVector.contains_iff, h.den, hd.den]

theorem IsCore.intersects : c.intersects d ↔ (s ∩ t).Nonempty := by
  rw [CoreBitVector.intersects_iff, h.den, hd.den]

theorem IsCore.equal : c.equal d ↔ s = t := by
  rw [CoreBitVector.equal_iff, h.den, hd.den]

end

end

end Core

section Sparse

variable {b d : SparseBitVector}

theorem isSparse_empty : IsSparse SparseBitVector.empty ∅ :=
  ⟨⟨valid_nil, .inl rfl⟩, fun _ => iff_of_false Bool.false_ne_true id⟩

section

variable (h : IsSparse b s)
include h

theorem IsSparse.copy : IsSparse ⟨b.elements, 0⟩ s :=
  ⟨⟨h.valid.elements, .inr (Nat.zero_le _)⟩, h.bit⟩

theorem IsSparse.test (n : ℕ) : ((b.test n).1 ↔ n ∈ s) ∧ IsSparse (b.test n).2 s := by
  refine ⟨?_, valid_test h.valid n, fun m => ?_⟩
  · rw [test_fst h.valid, h.bit]
  · rw [(test_snd b n).1, h.bit]

theorem IsSparse.set (n : ℕ) : IsSparse (b.set n) (insert n s) := by
  refine ⟨valid_set h.valid n, fun m => ?_⟩
  rw [bit_set h.valid, Bool.or_eq_true, decide_eq_true_iff, h.bit, mem_insert_iff]

theorem IsSparse.reset (n : ℕ) : IsSparse (b.reset n) (s \ {n}) := by
  refine ⟨valid_reset h.valid n, fun m => ?_⟩
  rw [bit_reset h.valid, Bool.and_eq_true, decide_eq_true_iff, h.bit,
    mem_sdiff, mem_singleton_iff, and_comm]

theorem IsSparse.test_and_set (n : ℕ) : IsSparse (b.test_and_set n).2 (insert n s) := by
  obtain ⟨htest, hrest⟩ := h.test n
  rw [SparseBitVector.test_and_set]
  dsimp only
  split
  case isTrue => exact hrest.set n
  case isFalse hset =>
    have hmem : n ∈ s := htest.mp (by simpa only [Bool.not_eq_true', Bool.not_eq_false] using hset)
    rw [insert_eq_of_mem hmem]
    exact hrest

end

variable {same : Bool}

section

variable (h : IsSparse b s)
include h

section

variable (hd : IsSparse d t)
include hd

theorem IsSparse.orAssign (hsame : same → d = b) :
    IsSparse (b.orAssign same d).2 (s ∪ t) := by
  refine ⟨valid_or h.valid hd.valid same, fun m => ?_⟩
  rw [bit_or h.valid hd.valid hsame, Bool.or_eq_true, h.bit, hd.bit, mem_union]

theorem IsSparse.andAssign (hsame : same → d = b) :
    IsSparse (b.andAssign same d).2 (s ∩ t) := by
  refine ⟨valid_and h.valid hd.valid same, fun m => ?_⟩
  rw [bit_and h.valid hd.valid hsame, Bool.and_eq_true, h.bit, hd.bit, mem_inter_iff]

theorem IsSparse.intersectWithComplement
    (hsame : same → d = b) : IsSparse (b.intersectWithComplement same d).2 (s \ t) := by
  refine ⟨SparseBitVector.valid_complement h.valid hd.valid same, fun m => ?_⟩
  rw [SparseBitVector.bit_complement h.valid hd.valid hsame, Bool.and_eq_true, Bool.not_eq_true',
    Bool.eq_false_iff, ne_eq, h.bit, hd.bit, mem_sdiff]

theorem IsSparse.contains : b.contains d ↔ t ⊆ s := by
  rw [SparseBitVector.contains_iff_bits h.valid hd.valid]
  exact forall_congr' fun m => imp_congr (hd.bit m) (h.bit m)

theorem IsSparse.intersects : b.intersects d ↔ (s ∩ t).Nonempty := by
  rw [SparseBitVector.intersects_iff_bits h.valid hd.valid]
  exact exists_congr fun m => and_congr (h.bit m) (hd.bit m)

theorem IsSparse.equal : b.equal d ↔ s = t := by
  rw [SparseBitVector.equal_iff_bits h.valid.elements hd.valid.elements, Set.ext_iff]
  exact forall_congr' fun m => by rw [Bool.eq_iff_iff, h.bit, hd.bit]

end

end

end Sparse

theorem holds_empty (type : PtType) : Holds type (empty type) ∅ := by
  cases type with
  | SBV => exact .sbv isSparse_empty
  | CBV => exact .cbv isCore_empty
  | BV =>
    have hcleared := (isCore_empty.set (Nat.two_pow_pos 32)).reset 0
    rw [insert_empty_eq, sdiff_self] at hcleared
    exact .bv hcleared

section

variable (h : Holds type back s)
include h

theorem Holds.copy : Holds type back.copy s := by
  cases h with
  | sbv h => exact .sbv h.copy
  | cbv h => exact .cbv h
  | bv h => exact .bv h

theorem Holds.test (n : ℕ) : ((back.test n).1 ↔ n ∈ s) ∧ Holds type (back.test n).2 s := by
  cases h with
  | sbv h => exact ⟨(h.test n).1, .sbv (h.test n).2⟩
  | cbv h => exact ⟨h.test, .cbv h⟩
  | bv h => exact ⟨h.test, .bv h⟩

theorem Holds.set (hn : n < 2 ^ 32) : Holds type (back.set n) (insert n s) := by
  cases h with
  | sbv h => exact .sbv (h.set n)
  | cbv h => exact .cbv (h.set hn)
  | bv h => exact .bv (h.set hn)

theorem Holds.reset (n : ℕ) : Holds type (back.reset n) (s \ {n}) := by
  cases h with
  | sbv h => exact .sbv (h.reset n)
  | cbv h => exact .cbv (h.reset n)
  | bv h => exact .bv (h.reset n)

theorem Holds.test_and_set (hn : n < 2 ^ 32) : Holds type (back.test_and_set n).2 (insert n s) := by
  cases h with
  | sbv h => exact .sbv (h.test_and_set n)
  | cbv h => exact .cbv (h.test_and_set hn)
  | bv h => exact .bv (h.test_and_set hn)

end

section

variable (h : Holds type back s) (hr : Holds type rhs t)
include h hr

theorem Holds.pair {R : Type} {sbv : SparseBitVector → SparseBitVector → R}
    {cbv bv : CoreBitVector → CoreBitVector → R} {P : R → Prop}
    (hsbv : ∀ b d, back = .sbv b → rhs = .sbv d → type = .SBV → IsSparse b s → IsSparse d t → P (sbv b d))
    (hcbv : ∀ c d, type = .CBV → IsCore c s → IsCore d t → P (cbv c d))
    (hbv : ∀ c d, type = .BV → IsCore c s → IsCore d t → P (bv c d)) :
    ∃ r, Backing.pair sbv cbv bv back rhs = some r ∧ P r := by
  cases h with
  | sbv h =>
    cases hr with
    | sbv hr => exact ⟨_, rfl, hsbv _ _ rfl rfl rfl h hr⟩
  | cbv h =>
    cases hr with
    | cbv hr => exact ⟨_, rfl, hcbv _ _ rfl h hr⟩
  | bv h =>
    cases hr with
    | bv hr => exact ⟨_, rfl, hbv _ _ rfl h hr⟩

theorem Holds.contains :
    ∃ r, back.contains rhs = some r ∧ (r ↔ t ⊆ s) :=
  h.pair hr (fun _ _ _ _ _ h hr => h.contains hr) (fun _ _ _ h hr => h.contains hr)
    fun _ _ _ h hr => h.contains hr

theorem Holds.intersects :
    ∃ r, back.intersects rhs = some r ∧ (r ↔ (s ∩ t).Nonempty) :=
  h.pair hr (fun _ _ _ _ _ h hr => h.intersects hr) (fun _ _ _ h hr => h.intersects hr)
    fun _ _ _ h hr => h.intersects hr

theorem Holds.equal :
    ∃ r, back.equal rhs = some r ∧ (r ↔ s = t) :=
  h.pair hr (fun _ _ _ _ _ h hr => h.equal hr) (fun _ _ _ h hr => h.equal hr)
    fun _ _ _ h hr => h.equal hr

end

section Assign

variable {same : Bool}

theorem sbv_of_same (hsame : same → rhs = back) {b d : SparseBitVector}
    (hb : back = .sbv b) (hd : rhs = .sbv d) : same → d = b := by
  intro hs
  have heq := hsame hs
  rw [hb, hd] at heq
  exact Backing.sbv.inj heq

section

variable (h : Holds type back s) (hr : Holds type rhs t) (hsame : same → rhs = back)
include h hr hsame

theorem Holds.orAssign :
    ∃ r, back.orAssign same rhs = some r ∧ Holds type r.2 (s ∪ t) :=
  h.pair hr (fun _ _ hb hd ht h hr => ht ▸ .sbv (h.orAssign hr (sbv_of_same hsame hb hd)))
    (fun _ _ ht h hr => ht ▸ .cbv (h.orAssign hr)) fun _ _ ht h hr => ht ▸ .bv (h.orAssign hr)

theorem Holds.andAssign :
    ∃ r, back.andAssign same rhs = some r ∧ Holds type r.2 (s ∩ t) :=
  h.pair hr (fun _ _ hb hd ht h hr => ht ▸ .sbv (h.andAssign hr (sbv_of_same hsame hb hd)))
    (fun _ _ ht h hr => ht ▸ .cbv (h.andAssign hr)) fun _ _ ht h hr => ht ▸ .bv (h.andAssign hr)

theorem Holds.intersectWithComplement :
    ∃ r, back.intersectWithComplement same rhs = some r ∧ Holds type r.2 (s \ t) :=
  h.pair hr (fun _ _ hb hd ht h hr =>
      ht ▸ .sbv (h.intersectWithComplement hr (sbv_of_same hsame hb hd)))
    (fun _ _ ht h hr => ht ▸ .cbv (h.intersectWithComplement hr))
    fun _ _ ht h hr => ht ▸ .bv (h.intersectWithComplement hr)

end

end Assign

theorem length_bitsOf_le (l : ElementList) :
    (SparseBitVector.bitsOf l).length ≤ l.length * ElementSize := by
  induction l with
  | nil => exact Nat.zero_le _
  | cons e l ih =>
    have hle : (e.block.bitsFrom 0).length ≤ ElementSize := by
      rw [CoreBitVector.bitsFrom, length_map, ← e.endPos_block]
      exact (length_filter_le _ _).trans_eq length_range'
    rw [SparseBitVector.bitsOf, flatMap_cons, length_append, length_cons, Nat.succ_mul]
    rw [SparseBitVector.bitsOf] at ih
    omega

/-- **The iteration** goes through the set, in ascending order, and the count counts it. -/
theorem Holds.iterate (h : Holds type back s) : ∃ ids, back.iterate = some ids ∧
    ids.Pairwise (· < ·) ∧ (∀ n, n ∈ ids ↔ n ∈ s) ∧
    back.count.toNat = ids.length % 2 ^ 32 := by
  have hcore : ∀ {c : CoreBitVector}, IsCore c s → ∃ ids,
      c.iterate c.endPos c.begin = some ids ∧ ids.Pairwise (· < ·) ∧ (∀ n, n ∈ ids ↔ n ∈ s) ∧
      c.count.toNat = ids.length % 2 ^ 32 := by
    intro c hc
    refine ⟨_, c.iterate_begin, c.bitsFrom_pairwise 0, fun n => ?_, ?_⟩
    · rw [CoreBitVector.mem_bitsFrom_zero, hc.den]
    · rw [CoreBitVector.count_toNat, CoreBitVector.ncard_den, CoreBitVector.length_bitsFrom_zero]
  cases h with
  | sbv h =>
    refine ⟨_, iterate_begin_sparse h.valid (length_bitsOf_le _),
      SparseBitVector.bitsOf_pairwise h.valid.elements, fun n => ?_,
      SparseBitVector.count_toNat_bits _⟩
    rw [mem_bitsOf, h.bit]
  | cbv h => exact hcore h
  | bv h => exact hcore h

end Backing

-- ── Node mappings

/-- A node mapping and its reverse: internal ids of their own for the external ones, from which
    the reverse leads back. The internal ids may have gaps. -/
structure NodeMapping where
  nodeMapping : List ℕ
  reverseNodeMapping : List ℕ
  size : nodeMapping.length < 2 ^ 32
  entries : ∀ m ∈ nodeMapping, m < 2 ^ 32
  inverse : ∀ n m : ℕ, nodeMapping[n]? = some m → reverseNodeMapping[m]? = some n

/-- A mapping that the clusterer lays out, with what `getReverseNodeMapping` makes of it. -/
theorem exists_nodeMapping {c : SvfClusterer.Clustering} {nodeMap : List ℕ}
    (h : SvfClusterer.Renaming c nodeMap)
    (hsize : c.numObjects < 2 ^ 32) (hids : ∀ m ∈ nodeMap, m < 2 ^ 32) :
    ∃ N : NodeMapping, N.nodeMapping = nodeMap ∧
      SvfClusterer.getReverseNodeMapping nodeMap = some N.reverseNodeMapping := by
  obtain ⟨reverse, hreverse, hback, -⟩ := h.reverse
  refine ⟨⟨nodeMap, reverse, h.total.trans_lt hsize, hids, fun n m hn => ?_⟩, rfl, hreverse⟩
  obtain ⟨hlt, -⟩ := List.getElem?_eq_some_iff.mp hn
  obtain ⟨id, hid, hrev⟩ := hback n (hlt.trans_eq h.total)
  rw [← mem_unique hid hn]
  exact hrev

variable {ι : Type} {M : ι → NodeMapping}

/-- `ptr->at(n)` behind the assertion on the size; a null pointer maps nothing. -/
def throughMapping (vec : ι → List ℕ) (ptr : Option ι) (n : ℕ) : Option ℕ :=
  match ptr with
  | none => some n
  | some i => (vec i)[n]?

def ids (M : ι → NodeMapping) (ptr : Option ι) : Set ℕ :=
  {n | n < 2 ^ 32 ∧ ∀ i ∈ ptr, n < (M i).nodeMapping.length}

/-- The internal id of an external one. -/
def inside (M : ι → NodeMapping) (ptr : Option ι) (n : ℕ) : ℕ :=
  (throughMapping (fun i => (M i).nodeMapping) ptr n).getD n

section

variable {ptr : Option ι} {n : ℕ}

theorem throughMapping_inside (h : n ∈ ids M ptr) :
    throughMapping (fun i => (M i).nodeMapping) ptr n = some (inside M ptr n) := by
  cases ptr with
  | none => rfl
  | some i =>
    have hlt : n < (M i).nodeMapping.length := h.2 i rfl
    rw [inside, throughMapping, getElem?_eq_getElem hlt]
    rfl

theorem throughMapping_eq_none (hn : n < 2 ^ 32) (h : n ∉ ids M ptr) :
    throughMapping (fun i => (M i).nodeMapping) ptr n = none := by
  cases ptr with
  | none => exact absurd ⟨hn, fun i hi => absurd hi (not_mem_none i)⟩ h
  | some i =>
    refine getElem?_eq_none (Nat.not_lt.mp fun hlt => h ⟨hn, fun j hj => ?_⟩)
    rw [← some.inj hj]
    exact hlt

theorem reverse_inside (h : n ∈ ids M ptr) :
    throughMapping (fun i => (M i).reverseNodeMapping) ptr (inside M ptr n) = some n := by
  have hin := throughMapping_inside h
  cases ptr with
  | none => rfl
  | some i => exact (M i).inverse _ _ hin

end

/-- **No two ids have one internal id.** -/
theorem inside_injOn (M : ι → NodeMapping) (ptr : Option ι) :
    Set.InjOn (inside M ptr) (ids M ptr) := by
  intro n hn n' hn' heq
  have hback := reverse_inside hn
  rw [heq, reverse_inside hn'] at hback
  exact (some.inj hback).symm

theorem inside_lt {ptr : Option ι} {n : ℕ} (h : n ∈ ids M ptr) : inside M ptr n < 2 ^ 32 := by
  have hin := throughMapping_inside h
  cases ptr with
  | none => exact h.1
  | some i => exact (M i).entries _ (mem_of_getElem? hin)

-- ── One points-to set

structure PointsTo (ι : Type) where
  backing : Backing
  nodeMapping : Option ι
  reverseNodeMapping : Option ι

namespace PointsTo

section Model

variable [DecidableEq ι] (M : ι → NodeMapping) (p rhs : PointsTo ι) (n : ℕ)

def getInternalNode : Option ℕ := throughMapping (fun i => (M i).nodeMapping) p.nodeMapping n

def getExternalNode : Option ℕ :=
  throughMapping (fun i => (M i).reverseNodeMapping) p.reverseNodeMapping n

def metaSame : Bool :=
  decide (p.nodeMapping = rhs.nodeMapping) && decide (p.reverseNodeMapping = rhs.reverseNodeMapping)

/-- `PointsTo(pt)` and `operator=` -/
def copy : PointsTo ι := { p with backing := p.backing.copy }

def count : UInt32 := p.backing.count

def withInternal {R : Type} (call : Backing → ℕ → R × Backing) : Option (R × PointsTo ι) :=
  (p.getInternalNode M n).map fun n =>
    let (r, backing) := call p.backing n
    (r, { p with backing := backing })

def test : Option (Bool × PointsTo ι) := p.withInternal M n Backing.test

def test_and_set : Option (Bool × PointsTo ι) := p.withInternal M n Backing.test_and_set

def set : Option (PointsTo ι) :=
  (p.withInternal M n fun backing n => ((), backing.set n)).map Prod.snd

def reset : Option (PointsTo ι) :=
  (p.withInternal M n fun backing n => ((), backing.reset n)).map Prod.snd

def contains : Option Bool :=
  if p.metaSame rhs then p.backing.contains rhs.backing else none

def intersects : Option Bool :=
  if p.metaSame rhs then p.backing.intersects rhs.backing else none

/-- `operator==` -/
def equal : Option Bool := if p.metaSame rhs then p.backing.equal rhs.backing else none

/-- A call on the backings of two sets that writes to the first. -/
def assign (call : Backing → Backing → Option (Bool × Backing)) : Option (Bool × PointsTo ι) :=
  if p.metaSame rhs then
    (call p.backing rhs.backing).map fun (changed, backing) =>
      (changed, { p with backing := backing })
  else none

/-- `operator|=`; `same` tells whether the operands are one object. -/
def orAssign (same : Bool) : Option (Bool × PointsTo ι) := p.assign rhs (Backing.orAssign same)

/-- `operator&=` -/
def andAssign (same : Bool) : Option (Bool × PointsTo ι) := p.assign rhs (Backing.andAssign same)

/-- `operator-=` -/
def subAssign (same : Bool) : Option (Bool × PointsTo ι) :=
  p.assign rhs (Backing.intersectWithComplement same)

/-- What `for (const NodeID o : *this)` goes through. -/
def iterate : Option (List ℕ) :=
  p.backing.iterate.bind fun internal => internal.mapM (p.getExternalNode M)

/-- The loop of `operator|=(const NodeBS &rhs)` over the ids in `rhs`. -/
def orNodes (ns : List ℕ) : Option (Bool × PointsTo ι) :=
  ns.foldlM (fun (changed, p) n =>
    if changed then (p.set M n).map (changed, ·) else p.test_and_set M n) (false, p)

end Model

def new (type : PtType) (best bestReverse : Option ι) : PointsTo ι :=
  ⟨Backing.empty type, best, bestReverse⟩

def checkAndRemap [DecidableEq ι] (M : ι → NodeMapping) (type : PtType)
    (best bestReverse : Option ι) (p : PointsTo ι) : Option (PointsTo ι) :=
  if p.nodeMapping ≠ best then
    (p.iterate M).bind fun os =>
      (os.foldlM (fun (newPt : PointsTo ι) o => newPt.set M o) (new type best bestReverse)).map copy
  else some p

/-- **The relation of a set to its external ids**: the vector has their images under the mapping,
    and the reverse is the one of that mapping. -/
structure Keeps (M : ι → NodeMapping) (type : PtType) (p : PointsTo ι) (ptr : Option ι)
    (S : Set ℕ) : Prop where
  nodeMapping : p.nodeMapping = ptr
  reverseNodeMapping : p.reverseNodeMapping = ptr
  subset : S ⊆ ids M ptr
  backing : p.backing.Holds type (inside M ptr '' S)

variable {type : PtType} {p rhs : PointsTo ι} {ptr : Option ι} {S T : Set ℕ} {n : ℕ}

theorem keeps_new (M : ι → NodeMapping) (type : PtType) (ptr : Option ι) :
    Keeps M type (new type ptr ptr) ptr ∅ := by
  refine ⟨rfl, rfl, empty_subset _, ?_⟩
  rw [image_empty]
  exact Backing.holds_empty type

section

variable (h : Keeps M type p ptr S)
include h

theorem Keeps.copy : Keeps M type p.copy ptr S :=
  ⟨h.nodeMapping, h.reverseNodeMapping, h.subset, h.backing.copy⟩

section

variable {R : Type} (call : Backing → ℕ → R × Backing)

theorem Keeps.withInternal (hn : n ∈ ids M ptr) (hT : T ⊆ ids M ptr)
    (hcall : (call p.backing (inside M ptr n)).2.Holds type (inside M ptr '' T)) :
    ∃ q, p.withInternal M n call = some ((call p.backing (inside M ptr n)).1, q) ∧
      Keeps M type q ptr T := by
  refine ⟨{ p with backing := (call p.backing (inside M ptr n)).2 }, ?_,
    ⟨h.nodeMapping, h.reverseNodeMapping, hT, hcall⟩⟩
  rw [PointsTo.withInternal, getInternalNode, h.nodeMapping, throughMapping_inside hn]
  rfl

theorem Keeps.withInternal_none (hlt : n < 2 ^ 32) (hn : n ∉ ids M ptr) :
    p.withInternal M n call = none := by
  rw [PointsTo.withInternal, getInternalNode, h.nodeMapping, throughMapping_eq_none hlt hn]
  rfl

end

section

variable (hn : n ∈ ids M ptr)
include hn

theorem Keeps.test :
    ∃ r q, p.test M n = some (r, q) ∧ (r ↔ n ∈ S) ∧ Keeps M type q ptr S := by
  obtain ⟨hset, hrest⟩ := h.backing.test (inside M ptr n)
  obtain ⟨q, hq, hkeeps⟩ := h.withInternal _ hn h.subset hrest
  refine ⟨_, q, hq, ?_, hkeeps⟩
  rw [hset, (inside_injOn M ptr).mem_image_iff h.subset hn]

theorem Keeps.set :
    ∃ q, p.set M n = some q ∧ Keeps M type q ptr (insert n S) := by
  have hset := h.backing.set (inside_lt hn)
  rw [← image_insert_eq] at hset
  obtain ⟨q, hq, hkeeps⟩ := h.withInternal (fun backing n => ((), backing.set n)) hn
    (insert_subset hn h.subset) hset
  exact ⟨q, congrArg (Option.map Prod.snd) hq, hkeeps⟩

theorem Keeps.test_and_set :
    ∃ r q, p.test_and_set M n = some (r, q) ∧ Keeps M type q ptr (insert n S) := by
  have hset := h.backing.test_and_set (inside_lt hn)
  rw [← image_insert_eq] at hset
  obtain ⟨q, hq, hkeeps⟩ := h.withInternal _ hn (insert_subset hn h.subset) hset
  exact ⟨_, q, hq, hkeeps⟩

theorem Keeps.reset :
    ∃ q, p.reset M n = some q ∧ Keeps M type q ptr (S \ {n}) := by
  have himage : inside M ptr '' (S \ {n}) = inside M ptr '' S \ {inside M ptr n} := by
    have hinj := (inside_injOn M ptr).mono (insert_subset hn h.subset)
    ext m
    constructor
    · rintro ⟨k, ⟨hk, hne⟩, rfl⟩
      exact ⟨⟨k, hk, rfl⟩, fun heq => hne (hinj (mem_insert_of_mem n hk) (mem_insert n S) heq)⟩
    · rintro ⟨⟨k, hk, rfl⟩, hne⟩
      exact ⟨k, ⟨hk, fun heq => hne (congrArg (inside M ptr) heq)⟩, rfl⟩
  have hreset := h.backing.reset (inside M ptr n)
  rw [← himage] at hreset
  obtain ⟨q, hq, hkeeps⟩ := h.withInternal (fun backing n => ((), backing.reset n)) hn
    (sdiff_subset.trans h.subset) hreset
  exact ⟨q, congrArg (Option.map Prod.snd) hq, hkeeps⟩

end

-- ── Going through a points-to set

/-- **The iteration** goes through the external ids, each once, and the count counts them. -/
theorem Keeps.iterate : ∃ os, p.iterate M = some os ∧ os.Nodup ∧
    (∀ n, n ∈ os ↔ n ∈ S) ∧ p.count.toNat = os.length % 2 ^ 32 := by
  obtain ⟨internal, heq, hasc, hmem, hcount⟩ := h.backing.iterate
  -- An internal id is that of an external one, where the reverse mapping leads back.
  have hback : ∀ m ∈ internal, ∃ n ∈ S, inside M ptr n = m ∧ p.getExternalNode M m = some n := by
    intro m hm
    obtain ⟨n, hn, rfl⟩ := (hmem m).mp hm
    refine ⟨n, hn, rfl, ?_⟩
    rw [getExternalNode, h.reverseNodeMapping]
    exact reverse_inside (h.subset hn)
  refine ⟨internal.map fun m => (p.getExternalNode M m).getD 0, ?_, ?_, fun n => ?_, ?_⟩
  · rw [PointsTo.iterate, heq]
    refine SvfLoop.mapM_some internal fun m hm => ?_
    obtain ⟨n, -, -, hext⟩ := hback m hm
    rw [hext]
    rfl
  · refine List.Nodup.map_on (fun m hm m' hm' hsame => ?_) (hasc.imp fun hlt => hlt.ne)
    obtain ⟨n, -, hin, hext⟩ := hback m hm
    obtain ⟨n', -, hin', hext'⟩ := hback m' hm'
    rw [hext, hext', getD_some, getD_some] at hsame
    rw [← hin, ← hin', hsame]
  · rw [List.mem_map]
    constructor
    · rintro ⟨m, hm, rfl⟩
      obtain ⟨n, hn, -, hext⟩ := hback m hm
      rw [hext]
      exact hn
    · intro hn
      have hm := (hmem _).mpr (mem_image_of_mem (inside M ptr) hn)
      obtain ⟨n', hn', hin, hext⟩ := hback _ hm
      refine ⟨_, hm, ?_⟩
      rw [hext, getD_some]
      exact inside_injOn M ptr (h.subset hn') (h.subset hn) hin
  · rw [length_map]
    exact hcount

end

theorem ncard_eq_length {os : List ℕ} (hnodup : os.Nodup) (hmem : ∀ n, n ∈ os ↔ n ∈ S) :
    S.ncard = os.length := by
  have hset : S = (os.toFinset : Set ℕ) := by
    ext n
    rw [Finset.mem_coe, List.mem_toFinset, hmem]
  rw [hset, ncard_coe_finset, List.toFinset_card_of_nodup hnodup]

theorem Keeps.count (h : Keeps M type p ptr S) :
    p.count.toNat = S.ncard % 2 ^ 32 ∧ (ptr ≠ none → p.count.toNat = S.ncard) := by
  obtain ⟨os, -, hnodup, hmem, hcount⟩ := h.iterate
  rw [ncard_eq_length hnodup hmem, hcount]
  refine ⟨rfl, fun hptr => Nat.mod_eq_of_lt ?_⟩
  obtain ⟨i, rfl⟩ := ne_none_iff_exists'.mp hptr
  have hsub : os ⊆ List.range (M i).nodeMapping.length := fun n hn =>
    mem_range.mpr ((h.subset ((hmem n).mp hn)).2 i rfl)
  have hlen := (hnodup.subperm hsub).length_le
  rw [length_range] at hlen
  exact hlen.trans_lt (M i).size

/-- **A loop** that puts one id after the other into a set. -/
theorem Keeps.loop {A : Type} (pt : A → PointsTo ι) (step : A → ℕ → Option A)
    (hsome : ∀ a S n, Keeps M type (pt a) ptr S → n ∈ ids M ptr →
      ∃ a', step a n = some a' ∧ Keeps M type (pt a') ptr (insert n S))
    (hnone : ∀ a S n, Keeps M type (pt a) ptr S → n < 2 ^ 32 → n ∉ ids M ptr → step a n = none)
    (os : List ℕ) : ∀ (a : A) (S : Set ℕ), Keeps M type (pt a) ptr S → (∀ o ∈ os, o < 2 ^ 32) →
    ((∀ o ∈ os, o ∈ ids M ptr) →
      ∃ a', os.foldlM step a = some a' ∧ Keeps M type (pt a') ptr (S ∪ {o | o ∈ os})) ∧
    ((∃ o ∈ os, o ∉ ids M ptr) → os.foldlM step a = none) := by
  induction os with
  | nil =>
    intro a S h _
    refine ⟨fun _ => ⟨a, rfl, ?_⟩, fun ⟨o, ho, _⟩ => absurd ho not_mem_nil⟩
    have hnil : {o : ℕ | o ∈ ([] : List ℕ)} = ∅ := eq_empty_of_forall_notMem fun _ ho =>
      absurd ho not_mem_nil
    rw [hnil, union_empty]
    exact h
  | cons o os ih =>
    intro a S h hlt
    obtain ⟨hhead, htail⟩ := forall_mem_cons.mp hlt
    by_cases ho : o ∈ ids M ptr
    · obtain ⟨a', ha', hkeeps⟩ := hsome a S o h ho
      obtain ⟨hall, hfail⟩ := ih a' (insert o S) hkeeps htail
      have hset : insert o S ∪ {n | n ∈ os} = S ∪ {n | n ∈ o :: os} := by
        ext n
        simp only [mem_union, mem_insert_iff, mem_ofPred_eq, mem_cons]
        tauto
      rw [hset] at hall
      rw [foldlM_cons, ha']
      refine ⟨fun hin => hall (forall_mem_cons.mp hin).2, ?_⟩
      rintro ⟨n, hn, hnot⟩
      exact hfail ⟨n, (mem_cons.mp hn).resolve_left fun heq => hnot (heq ▸ ho), hnot⟩
    · refine ⟨fun hin => absurd (hin o mem_cons_self) ho, fun _ => ?_⟩
      rw [foldlM_cons, hnone a S o h hhead ho]
      rfl

theorem Keeps.set_none (h : Keeps M type p ptr S) (hlt : n < 2 ^ 32) (hn : n ∉ ids M ptr) :
    p.set M n = none := by
  rw [PointsTo.set, h.withInternal_none _ hlt hn]
  rfl

theorem Keeps.orNodes (h : Keeps M type p ptr S) (ns : List ℕ) (hlt : ∀ n ∈ ns, n < 2 ^ 32) :
    ((∀ n ∈ ns, n ∈ ids M ptr) → ∃ r q, p.orNodes M ns = some (r, q) ∧
      Keeps M type q ptr (S ∪ {n | n ∈ ns})) ∧
    ((∃ n ∈ ns, n ∉ ids M ptr) → p.orNodes M ns = none) := by
  have hstep := Keeps.loop Prod.snd (fun (changed, p) n =>
    if changed then (PointsTo.set M p n).map (changed, ·) else p.test_and_set M n)
    (fun (changed, p) S n h hn => by
      cases changed with
      | true =>
        obtain ⟨q, hq, hkeeps⟩ := h.set hn
        exact ⟨(true, q), congrArg (Option.map (true, ·)) hq, hkeeps⟩
      | false =>
        obtain ⟨r, q, hq, hkeeps⟩ := h.test_and_set hn
        exact ⟨(r, q), hq, hkeeps⟩)
    (fun (changed, p) S n h hlt hn => by
      cases changed with
      | true => exact congrArg (Option.map (true, ·)) (h.set_none hlt hn)
      | false => exact h.withInternal_none Backing.test_and_set hlt hn) ns (false, p) S h hlt
  exact ⟨fun hall => (hstep.1 hall).elim fun r hr => ⟨r.1, r.2, hr⟩, hstep.2⟩

-- ── Two points-to sets

variable [DecidableEq ι] {ptr' : Option ι}

section

variable (h : Keeps M type p ptr S)
include h

theorem Keeps.metaSame_iff (hr : Keeps M type rhs ptr' T) : p.metaSame rhs ↔ ptr = ptr' := by
  rw [PointsTo.metaSame, h.nodeMapping, h.reverseNodeMapping, hr.nodeMapping,
    hr.reverseNodeMapping, Bool.and_self, decide_eq_true_iff]

section

variable (hr : Keeps M type rhs ptr T)
include hr

theorem Keeps.contains : ∃ r, p.contains rhs = some r ∧ (r ↔ T ⊆ S) := by
  obtain ⟨r, heq, hiff⟩ := h.backing.contains hr.backing
  refine ⟨r, (if_pos ((h.metaSame_iff hr).mpr rfl)).trans heq, ?_⟩
  rw [hiff, (inside_injOn M ptr).image_subset_image_iff hr.subset h.subset]

theorem Keeps.intersects : ∃ r, p.intersects rhs = some r ∧ (r ↔ (S ∩ T).Nonempty) := by
  obtain ⟨r, heq, hiff⟩ := h.backing.intersects hr.backing
  refine ⟨r, (if_pos ((h.metaSame_iff hr).mpr rfl)).trans heq, ?_⟩
  rw [hiff, ← (inside_injOn M ptr).image_inter h.subset hr.subset, image_nonempty]

theorem Keeps.equal : ∃ r, p.equal rhs = some r ∧ (r ↔ S = T) := by
  obtain ⟨r, heq, hiff⟩ := h.backing.equal hr.backing
  refine ⟨r, (if_pos ((h.metaSame_iff hr).mpr rfl)).trans heq, ?_⟩
  rw [hiff, (inside_injOn M ptr).image_eq_image_iff h.subset hr.subset]

theorem Keeps.assign {U : Set ℕ}
    {call : Backing → Backing → Option (Bool × Backing)} (hU : U ⊆ ids M ptr)
    (hcall : ∃ r, call p.backing rhs.backing = some r ∧ r.2.Holds type (inside M ptr '' U)) :
    ∃ r q, p.assign rhs call = some (r, q) ∧ Keeps M type q ptr U := by
  obtain ⟨⟨changed, backing⟩, heq, hholds⟩ := hcall
  refine ⟨changed, { p with backing := backing }, ?_,
    ⟨h.nodeMapping, h.reverseNodeMapping, hU, hholds⟩⟩
  rw [PointsTo.assign, if_pos ((h.metaSame_iff hr).mpr rfl), heq]
  rfl

end

theorem Keeps.assign_none (hr : Keeps M type rhs ptr' T)
    (call : Backing → Backing → Option (Bool × Backing)) (hne : ptr ≠ ptr') :
    p.assign rhs call = none :=
  if_neg fun heq => hne ((h.metaSame_iff hr).mp heq)

end

section Assign

variable {same : Bool}

section

variable (h : Keeps M type p ptr S)
include h

section

variable (hr : Keeps M type rhs ptr T) (hsame : same → rhs = p)
include hr hsame

theorem Keeps.orAssign :
    ∃ r q, p.orAssign rhs same = some (r, q) ∧ Keeps M type q ptr (S ∪ T) := by
  refine h.assign hr (union_subset h.subset hr.subset) ?_
  rw [image_union]
  exact h.backing.orAssign hr.backing fun hs => congrArg PointsTo.backing (hsame hs)

theorem Keeps.andAssign :
    ∃ r q, p.andAssign rhs same = some (r, q) ∧ Keeps M type q ptr (S ∩ T) := by
  refine h.assign hr (inter_subset_left.trans h.subset) ?_
  rw [(inside_injOn M ptr).image_inter h.subset hr.subset]
  exact h.backing.andAssign hr.backing fun hs => congrArg PointsTo.backing (hsame hs)

theorem Keeps.subAssign :
    ∃ r q, p.subAssign rhs same = some (r, q) ∧ Keeps M type q ptr (S \ T) := by
  have himage : inside M ptr '' (S \ T) = inside M ptr '' S \ inside M ptr '' T := by
    have hinj := inside_injOn M ptr
    rw [← sdiff_inter_self_eq_sdiff, (hinj.mono h.subset).image_sdiff_subset inter_subset_right,
      hinj.image_inter hr.subset h.subset, sdiff_inter_self_eq_sdiff]
  refine h.assign hr (sdiff_subset.trans h.subset) ?_
  rw [himage]
  exact h.backing.intersectWithComplement hr.backing fun hs => congrArg PointsTo.backing (hsame hs)

end

end

end Assign

/-- **Remapping** keeps the external ids, under the best mapping, if that takes them all. -/
theorem Keeps.checkAndRemap (h : Keeps M type p ptr S) (best : Option ι) :
    (S ⊆ ids M best → ∃ q, p.checkAndRemap M type best best = some q ∧ Keeps M type q best S) ∧
      (¬ S ⊆ ids M best → p.checkAndRemap M type best best = none) := by
  rw [PointsTo.checkAndRemap, h.nodeMapping]
  by_cases hptr : ptr = best
  · subst hptr
    rw [if_neg (not_not.mpr rfl)]
    exact ⟨fun _ => ⟨p, rfl, h⟩, fun hnot => absurd h.subset hnot⟩
  · obtain ⟨os, hiter, -, hmem, -⟩ := h.iterate
    have hset : ∅ ∪ {o | o ∈ os} = S := by
      rw [empty_union]
      exact Set.ext hmem
    obtain ⟨hsome, hnone⟩ := Keeps.loop id (fun (newPt : PointsTo ι) o => newPt.set M o)
      (fun q T o hq ho => hq.set ho) (fun q T o hq hlt ho => hq.set_none hlt ho) os
      (new type best best) ∅
      (keeps_new M type best) fun o ho => (h.subset ((hmem o).mp ho)).1
    rw [if_pos hptr, hiter, bind_some]
    constructor
    · intro hsub
      obtain ⟨q, hq, hkeeps⟩ := hsome fun o ho => hsub ((hmem o).mp ho)
      rw [hset] at hkeeps
      rw [hq]
      exact ⟨q.copy, rfl, hkeeps.copy⟩
    · intro hnot
      obtain ⟨n, hn, hout⟩ := not_subset.mp hnot
      rw [hnone ⟨n, (hmem n).mpr hn, hout⟩]
      rfl

end PointsTo

-- ── Variables and the current best mapping

structure NodeBS where
  bits : SparseBitVector
  valid : bits.Valid
  lt : ∀ n, bit bits.elements n = true → n < 2 ^ 32

namespace NodeBS

def nodes (bs : NodeBS) : Set ℕ := {n | bit bs.bits.elements n = true}

end NodeBS

inductive PtsCall (V ι : Type) where
  | new (v : V)
  | assign (v rhs : V)
  | test (v : V) (n : UInt32)
  | set (v : V) (n : UInt32)
  | reset (v : V) (n : UInt32)
  | testAndSet (v : V) (n : UInt32)
  | orAssign (v rhs : V)
  | orNodes (v : V) (rhs : NodeBS)
  | andAssign (v rhs : V)
  | subAssign (v rhs : V)
  | checkAndRemap (v : V)
  | setCurrentBestNodeMapping (ptr : Option ι)

structure PtsState (V ι : Type) where
  currentBestNodeMapping : Option ι
  currentBestReverseNodeMapping : Option ι
  pts : V → PointsTo ι

variable {V : Type} [DecidableEq V] [DecidableEq ι]

namespace PtsState

/-- The set of a variable afterwards, if the call does not fail. -/
def write (s : PtsState V ι) (v : V) (p : Option (PointsTo ι)) : Option (PtsState V ι) :=
  p.map fun p => { s with pts := update s.pts v p }

end PtsState

/-- One call; `none` where an assertion fails. The reverse of a mapping is set with it. -/
def pointsToStep (M : ι → NodeMapping) (type : PtType) (s : PtsState V ι) :
    PtsCall V ι → Option (PtsState V ι)
  | .new v =>
    s.write v (some (PointsTo.new type s.currentBestNodeMapping s.currentBestReverseNodeMapping))
  | .assign v rhs => if v = rhs then some s else s.write v (some (s.pts rhs).copy)
  | .test v n => s.write v (((s.pts v).test M n.toNat).map Prod.snd)
  | .set v n => s.write v ((s.pts v).set M n.toNat)
  | .reset v n => s.write v ((s.pts v).reset M n.toNat)
  | .testAndSet v n => s.write v (((s.pts v).test_and_set M n.toNat).map Prod.snd)
  | .orAssign v rhs =>
    s.write v (((s.pts v).orAssign (s.pts rhs) (decide (v = rhs))).map Prod.snd)
  | .orNodes v rhs =>
    s.write v (((rhs.bits.iterate (rhs.bits.elements.length * ElementSize) rhs.bits.begin).bind
      fun ns => (s.pts v).orNodes M ns).map Prod.snd)
  | .andAssign v rhs =>
    s.write v (((s.pts v).andAssign (s.pts rhs) (decide (v = rhs))).map Prod.snd)
  | .subAssign v rhs =>
    s.write v (((s.pts v).subAssign (s.pts rhs) (decide (v = rhs))).map Prod.snd)
  | .checkAndRemap v => s.write v ((s.pts v).checkAndRemap M type s.currentBestNodeMapping
      s.currentBestReverseNodeMapping)
  | .setCurrentBestNodeMapping ptr =>
    some { s with currentBestNodeMapping := ptr, currentBestReverseNodeMapping := ptr }

structure Plain (V ι : Type) where
  best : Option ι
  under : V → Option ι
  nodes : V → Set ℕ

namespace Plain

def write (a : Plain V ι) (v : V) (ptr : Option ι) (S : Set ℕ) : Plain V ι :=
  ⟨a.best, update a.under v ptr, update a.nodes v S⟩

end Plain

open Classical in
/-- One call on plain sets. It is not allowed with an id that the mapping of the set does not
    have, nor on two sets under different mappings. -/
noncomputable def plainStep (M : ι → NodeMapping) (a : Plain V ι) : PtsCall V ι → Option (Plain V ι)
  | .new v => some (a.write v a.best ∅)
  | .assign v rhs => some (a.write v (a.under rhs) (a.nodes rhs))
  | .test v n => if n.toNat ∈ ids M (a.under v) then some a else none
  | .set v n =>
    if n.toNat ∈ ids M (a.under v) then some (a.write v (a.under v) (insert n.toNat (a.nodes v)))
    else none
  | .reset v n =>
    if n.toNat ∈ ids M (a.under v) then some (a.write v (a.under v) (a.nodes v \ {n.toNat}))
    else none
  | .testAndSet v n =>
    if n.toNat ∈ ids M (a.under v) then some (a.write v (a.under v) (insert n.toNat (a.nodes v)))
    else none
  | .orAssign v rhs =>
    if a.under v = a.under rhs then some (a.write v (a.under v) (a.nodes v ∪ a.nodes rhs))
    else none
  | .orNodes v rhs =>
    if rhs.nodes ⊆ ids M (a.under v) then some (a.write v (a.under v) (a.nodes v ∪ rhs.nodes))
    else none
  | .andAssign v rhs =>
    if a.under v = a.under rhs then some (a.write v (a.under v) (a.nodes v ∩ a.nodes rhs))
    else none
  | .subAssign v rhs =>
    if a.under v = a.under rhs then some (a.write v (a.under v) (a.nodes v \ a.nodes rhs))
    else none
  | .checkAndRemap v =>
    if a.nodes v ⊆ ids M a.best then some (a.write v a.best (a.nodes v)) else none
  | .setCurrentBestNodeMapping ptr => some { a with best := ptr }

/-- The state of the class, and every set, are those of the plain sets. -/
structure Refines (M : ι → NodeMapping) (type : PtType) (s : PtsState V ι) (a : Plain V ι) :
    Prop where
  best : s.currentBestNodeMapping = a.best
  bestReverse : s.currentBestReverseNodeMapping = a.best
  keeps : ∀ v, (s.pts v).Keeps M type (a.under v) (a.nodes v)

variable {s : PtsState V ι} {a : Plain V ι}

section

omit [DecidableEq ι]

section

variable {ptr : Option ι} {S : Set ℕ} (h : Refines M type s a) (v : V)
include h

theorem Refines.write {p : PointsTo ι} (hp : p.Keeps M type ptr S) :
    Refines M type { s with pts := update s.pts v p } (a.write v ptr S) := by
  refine ⟨h.best, h.bestReverse, fun w => ?_⟩
  show (update s.pts v p w).Keeps M type (update a.under v ptr w) (update a.nodes v S w)
  by_cases hw : w = v
  · subst hw
    rw [update_self, update_self, update_self]
    exact hp
  · rw [update_of_ne hw, update_of_ne hw, update_of_ne hw]
    exact h.keeps w

theorem Refines.write_if {p : Option (PointsTo ι)} {c : Prop} {dec : Decidable c}
    (hsome : c → ∃ q, p = some q ∧ q.Keeps M type ptr S) (hnone : ¬ c → p = none) :
    Option.Rel (Refines M type) (s.write v p) (if c then some (a.write v ptr S) else none) := by
  by_cases hc : c
  · obtain ⟨q, rfl, hq⟩ := hsome hc
    rw [if_pos hc]
    exact .some (h.write v hq)
  · rw [hnone hc, if_neg hc]
    exact .none

end

theorem Plain.write_self (a : Plain V ι) (v : V) : a.write v (a.under v) (a.nodes v) = a := by
  rw [Plain.write, update_eq_self, update_eq_self]

end

open Classical in
/-- **Each call** does to the sets what it does to plain sets. -/
theorem pointsToStep_agrees (h : Refines M type s a) (call : PtsCall V ι) :
    Option.Rel (Refines M type) (pointsToStep M type s call) (plainStep M a call) := by
  have hsame : ∀ {v rhs : V}, decide (v = rhs) → s.pts rhs = s.pts v := fun heq => by
    rw [of_decide_eq_true heq]
  cases call with
  | new v =>
    refine .some (h.write v ?_)
    rw [h.best, h.bestReverse]
    exact PointsTo.keeps_new M type a.best
  | assign v rhs =>
    rw [pointsToStep, plainStep]
    split
    case isTrue heq =>
      rw [← heq, a.write_self]
      exact .some h
    case isFalse => exact .some (h.write v (h.keeps rhs).copy)
  | test v n =>
    have hwrite : plainStep M a (.test v n) =
        if n.toNat ∈ ids M (a.under v) then some (a.write v (a.under v) (a.nodes v))
        else none := by
      rw [plainStep, a.write_self]
    rw [hwrite]
    refine h.write_if v (fun hn => ?_) fun hn =>
      congrArg (Option.map Prod.snd) ((h.keeps v).withInternal_none _ n.toNat_lt hn)
    obtain ⟨r, q, hq, -, hkeeps⟩ := (h.keeps v).test hn
    exact ⟨q, congrArg (Option.map Prod.snd) hq, hkeeps⟩
  | set v n =>
    exact h.write_if v (fun hn => (h.keeps v).set hn) fun hn => (h.keeps v).set_none n.toNat_lt hn
  | reset v n =>
    exact h.write_if v (fun hn => (h.keeps v).reset hn) fun hn =>
      congrArg (Option.map Prod.snd) ((h.keeps v).withInternal_none _ n.toNat_lt hn)
  | testAndSet v n =>
    refine h.write_if v (fun hn => ?_) fun hn =>
      congrArg (Option.map Prod.snd) ((h.keeps v).withInternal_none _ n.toNat_lt hn)
    obtain ⟨r, q, hq, hkeeps⟩ := (h.keeps v).test_and_set hn
    exact ⟨q, congrArg (Option.map Prod.snd) hq, hkeeps⟩
  | orAssign v rhs =>
    refine h.write_if v (fun heq => ?_) fun hne =>
      congrArg (Option.map Prod.snd) ((h.keeps v).assign_none (h.keeps rhs) _ hne)
    obtain ⟨r, q, hq, hkeeps⟩ := (h.keeps v).orAssign (heq ▸ h.keeps rhs) hsame
    exact ⟨q, congrArg (Option.map Prod.snd) hq, hkeeps⟩
  | orNodes v rhs =>
    have hiter := iterate_begin_sparse rhs.valid (Backing.length_bitsOf_le _)
    have hnodes : {n | n ∈ SparseBitVector.bitsOf rhs.bits.elements} = rhs.nodes :=
      Set.ext fun n => mem_bitsOf
    obtain ⟨hsome, hnone⟩ := (h.keeps v).orNodes (SparseBitVector.bitsOf rhs.bits.elements)
      fun n hn => rhs.lt n (mem_bitsOf.mp hn)
    rw [hnodes] at hsome
    rw [pointsToStep, hiter]
    refine h.write_if v (fun hsub => ?_) fun hnot => ?_
    · obtain ⟨r, q, hq, hkeeps⟩ := hsome fun n hn => hsub (mem_bitsOf.mp hn)
      exact ⟨q, congrArg (Option.map Prod.snd) hq, hkeeps⟩
    · obtain ⟨n, hn, hout⟩ := not_subset.mp hnot
      exact congrArg (Option.map Prod.snd) (hnone ⟨n, mem_bitsOf.mpr hn, hout⟩)
  | andAssign v rhs =>
    refine h.write_if v (fun heq => ?_) fun hne =>
      congrArg (Option.map Prod.snd) ((h.keeps v).assign_none (h.keeps rhs) _ hne)
    obtain ⟨r, q, hq, hkeeps⟩ := (h.keeps v).andAssign (heq ▸ h.keeps rhs) hsame
    exact ⟨q, congrArg (Option.map Prod.snd) hq, hkeeps⟩
  | subAssign v rhs =>
    refine h.write_if v (fun heq => ?_) fun hne =>
      congrArg (Option.map Prod.snd) ((h.keeps v).assign_none (h.keeps rhs) _ hne)
    obtain ⟨r, q, hq, hkeeps⟩ := (h.keeps v).subAssign (heq ▸ h.keeps rhs) hsame
    exact ⟨q, congrArg (Option.map Prod.snd) hq, hkeeps⟩
  | checkAndRemap v =>
    obtain ⟨hsome, hnone⟩ := (h.keeps v).checkAndRemap a.best
    rw [pointsToStep, h.best, h.bestReverse]
    exact h.write_if v hsome hnone
  | setCurrentBestNodeMapping ptr => exact .some ⟨rfl, rfl, h.keeps⟩

theorem foldlM_rel {A B C : Type} {R : A → B → Prop} {step : A → C → Option A}
    {step' : B → C → Option B} (hstep : ∀ a b c, R a b → Option.Rel R (step a c) (step' b c))
    (cs : List C) : ∀ a b, R a b → Option.Rel R (cs.foldlM step a) (cs.foldlM step' b) := by
  induction cs with
  | nil => exact fun a b h => .some h
  | cons c cs ih =>
    intro a b h
    have hrel := hstep a b c h
    rw [foldlM_cons, foldlM_cons]
    generalize step a c = x at hrel ⊢
    generalize step' b c = y at hrel ⊢
    cases hrel with
    | some h' => exact ih _ _ h'
    | none => exact .none

theorem rel_imp {A B : Type} {R R' : A → B → Prop} (himp : ∀ a b, R a b → R' a b) {x : Option A}
    {y : Option B} (h : Option.Rel R x y) : Option.Rel R' x y := by
  cases h with
  | some h => exact .some (himp _ _ h)
  | none => exact .none

theorem Refines.remap (h : Refines M type s a) (v : V) (hsub : a.nodes v ⊆ ids M a.best) :
    ∃ s', pointsToStep M type s (.checkAndRemap v) = some s' ∧ ∀ w,
      (s'.pts w).Keeps M type (if w = v then a.best else a.under w) (a.nodes w) := by
  have hplain : plainStep M a (.checkAndRemap v) = some (a.write v a.best (a.nodes v)) :=
    if_pos hsub
  have hrel := pointsToStep_agrees h (.checkAndRemap v)
  rw [hplain] at hrel
  generalize pointsToStep M type s (.checkAndRemap v) = x at hrel ⊢
  cases hrel with
  | some h' =>
    refine ⟨_, rfl, fun w => ?_⟩
    have hkeeps := h'.keeps w
    rw [Plain.write, update_eq_self] at hkeeps
    rw [← update_apply]
    exact hkeeps

/-- All sets are empty at first, without a mapping. -/
def PtsState.start (type : PtType) : PtsState V ι :=
  ⟨none, none, fun _ => PointsTo.new type none none⟩

def Plain.start : Plain V ι := ⟨none, fun _ => none, fun _ => ∅⟩

section

variable (M : ι → NodeMapping)

def ptsAfter (type : PtType) (calls : List (PtsCall V ι)) :
    Option (PtsState V ι) :=
  calls.foldlM (pointsToStep M type) (PtsState.start type)

noncomputable def plainAfter (calls : List (PtsCall V ι)) :
    Option (Plain V ι) :=
  calls.foldlM (plainStep M) Plain.start

/-- **Each run** does to the sets what it does to plain sets. -/
theorem ptsAfter_agrees (type : PtType) (calls : List (PtsCall V ι)) :
    Option.Rel (Refines M type) (ptsAfter M type calls) (plainAfter M calls) :=
  foldlM_rel (fun _ _ call h => pointsToStep_agrees h call) calls _ _
    ⟨rfl, rfl, fun _ => PointsTo.keeps_new M type none⟩

end

-- ── What a caller sees

structure Shows (M : ι → NodeMapping) (p : PointsTo ι) (ptr : Option ι) (S : Set ℕ) : Prop where
  subset : S ⊆ ids M ptr
  test : ∀ n ∈ ids M ptr, ∃ r q, p.test M n = some (r, q) ∧ (r = true ↔ n ∈ S)
  count : p.count.toNat = S.ncard % 2 ^ 32 ∧ (ptr ≠ none → p.count.toNat = S.ncard)
  iterate : ∃ os, p.iterate M = some os ∧ os.Nodup ∧ ∀ n, n ∈ os ↔ n ∈ S

structure ComparesAs (p q : PointsTo ι) (S T : Set ℕ) : Prop where
  contains : ∃ r, p.contains q = some r ∧ (r = true ↔ T ⊆ S)
  intersects : ∃ r, p.intersects q = some r ∧ (r = true ↔ (S ∩ T).Nonempty)
  equal : ∃ r, p.equal q = some r ∧ (r = true ↔ S = T)

variable {type : PtType} {p q : PointsTo ι} {ptr : Option ι} {S T : Set ℕ}

omit [DecidableEq ι] in
theorem PointsTo.Keeps.shows (h : p.Keeps M type ptr S) : Shows M p ptr S where
  subset := h.subset
  test := fun n hn => by
    obtain ⟨r, q, hq, hiff, -⟩ := h.test hn
    exact ⟨r, q, hq, hiff⟩
  count := h.count
  iterate := by
    obtain ⟨os, hiter, hnodup, hmem, -⟩ := h.iterate
    exact ⟨os, hiter, hnodup, hmem⟩

theorem PointsTo.Keeps.comparesAs (h : p.Keeps M type ptr S) (hq : q.Keeps M type ptr T) :
    ComparesAs p q S T :=
  ⟨h.contains hq, h.intersects hq, h.equal hq⟩

/-- **Node mappings do not show.** For all node mappings with their reverses, and any calls on any
    number of points-to sets while the current best mapping changes: the calls fail on an
    assertion exactly if an id is used that the mapping of the set does not have, or two sets
    under different mappings. Otherwise each set shows what the calls make of plain sets, and two
    sets under one mapping compare as those do. A set that is remapped then, if the best mapping
    has its ids, shows the same ones, and so do all others; and it compares with every set that
    is under the best mapping. -/
theorem node_mapping_transparent (M : ι → NodeMapping) (type : PtType)
    (calls : List (PtsCall V ι)) :
    Option.Rel (fun s a =>
        (∀ v, Shows M (s.pts v) (a.under v) (a.nodes v)) ∧
        (∀ v w, a.under v = a.under w →
          ComparesAs (s.pts v) (s.pts w) (a.nodes v) (a.nodes w)) ∧
        ∀ v, a.nodes v ⊆ ids M a.best →
          ∃ s', pointsToStep M type s (.checkAndRemap v) = some s' ∧
            (∀ w, Shows M (s'.pts w) (if w = v then a.best else a.under w) (a.nodes w)) ∧
            ∀ w, w = v ∨ a.under w = a.best →
              ComparesAs (s'.pts v) (s'.pts w) (a.nodes v) (a.nodes w) ∧
              ComparesAs (s'.pts w) (s'.pts v) (a.nodes w) (a.nodes v))
      (ptsAfter M type calls) (plainAfter M calls) := by
  refine rel_imp (fun s a h => ⟨fun v => (h.keeps v).shows, fun v w heq =>
    (h.keeps v).comparesAs (heq ▸ h.keeps w), fun v hsub => ?_⟩) (ptsAfter_agrees M type calls)
  obtain ⟨s', hstep, hkeeps⟩ := h.remap v hsub
  refine ⟨s', hstep, fun w => (hkeeps w).shows, fun w hw => ?_⟩
  have hbest : ∀ {u : V}, u = v ∨ a.under u = a.best →
      (if u = v then a.best else a.under u) = a.best := by
    rintro u (heq | heq)
    · exact if_pos heq
    · rw [heq, ite_self]
  have hv := hkeeps v
  have hw' := hkeeps w
  rw [hbest (.inl rfl)] at hv
  rw [hbest hw] at hw'
  exact ⟨hv.comparesAs hw', hw'.comparesAs hv⟩

end SvfPtsMap
