import SvfModel.CoreBitVectorSetProofs

/-!
# `SparseBitVector` as a set

A sorted list of elements of two words, of which none is zero, and a cached iterator into the
list. The heart is one merge, `mergeLoop`: `|=`, `&=` and the complement go over two sorted lists
and differ in what they do with an element that only one list has. `bit_mergeLoop` says that they
are one operator on the bits of both.

The cached iterator may be anywhere in the list: the search from it stops where all before are
smaller and all behind are greater (`findLowerBound_spec`). An element is a `CoreBitVector` of
two words, so that its bits in order, and their number, are those of `CoreBitVectorSetProofs`;
the iterator goes over the elements (`iterate_begin_sparse`).
-/

namespace SvfPtsStore

open CoreBitVector List
open Bool (and_eq_true eq_false_iff false_ne_true)
open Nat (mod_lt mul_add_mod_of_lt not_lt zero_le)

def ElementSize : ℕ := 128

def BITWORDS_PER_ELEMENT : ℕ := 2

theorem mul_add_div_of_lt {size i p : ℕ} (h : p < size) : (i * size + p) / size = i := by
  rw [Nat.mul_comm, Nat.mul_add_div (Nat.zero_lt_of_lt h), Nat.div_eq_of_lt h, Nat.add_zero]

theorem eq_iff_split {size n m : ℕ} : n = m ↔ m / size = n / size ∧ n % size = m % size := by
  constructor
  · rintro rfl
    exact ⟨rfl, rfl⟩
  · rintro ⟨hdiv, hmod⟩
    rw [← Nat.div_add_mod n size, ← Nat.div_add_mod m size, hdiv, hmod]

structure SparseBitVectorElement where
  index : ℕ
  bits : List Word
  size : bits.length = BITWORDS_PER_ELEMENT

namespace SparseBitVectorElement

-- ── Elements

def ofIndex (idx : ℕ) : SparseBitVectorElement :=
  ⟨idx, List.replicate BITWORDS_PER_ELEMENT 0, length_replicate⟩

section

variable (e : SparseBitVectorElement)

def word (idx : ℕ) : Word := e.bits.getD idx 0

def isEmpty : Bool := e.bits.all fun w => decide (w = 0)

def test (idx : ℕ) : Bool :=
  (e.word (idx / WordSize)).getLsbD (idx % WordSize)

def set (idx : ℕ) : SparseBitVectorElement :=
  ⟨e.index, e.bits.modify (idx / WordSize) (· ||| BitVec.twoPow 64 (idx % WordSize)),
    (length_modify _ _ _).trans e.size⟩

def reset (idx : ℕ) : SparseBitVectorElement :=
  ⟨e.index, e.bits.modify (idx / WordSize) (· &&& ~~~ BitVec.twoPow 64 (idx % WordSize)),
    (length_modify _ _ _).trans e.size⟩

def count : UInt32 :=
  e.bits.foldl (fun n w => n + UInt32.ofNat (countPopulation w)) 0

end

def countTrailingZeros (w : Word) : ℕ := nextBit w 0

def firstFrom : List Word → ℕ → Option ℕ
  | [], _ => none
  | w :: ws, i => if w ≠ 0 then some (i * WordSize + countTrailingZeros w) else firstFrom ws (i + 1)

def find_first (e : SparseBitVectorElement) : Option ℕ := firstFrom e.bits 0

def find_next (e : SparseBitVectorElement) (curr : ℕ) : Option ℕ :=
  if curr ≥ ElementSize then none
  else
    let wordPos := curr / WordSize
    let bitPos := curr % WordSize
    let copy := e.word wordPos &&& (BitVec.allOnes 64 <<< bitPos)
    if copy ≠ 0 then some (wordPos * WordSize + countTrailingZeros copy)
    else firstFrom (e.bits.drop (wordPos + 1)) (wordPos + 1)

/-- The loop of `unionWith`, `intersectWith` and `intersectWithComplement` over the words. -/
def wordsLoop (f : Word → Word → Word) : Bool → List Word → List Word → Bool × List Word
  | changed, w :: ws, r :: rs =>
    let old := if changed then 0 else w
    let changed := if !changed && decide (old ≠ f w r) then true else changed
    let (changed', ws') := wordsLoop f changed ws rs
    (changed', f w r :: ws')
  | changed, ws, _ => (changed, ws)

theorem length_wordsLoop (f : Word → Word → Word) (ws : List Word) : ∀ (changed : Bool)
    (rs : List Word), (wordsLoop f changed ws rs).2.length = ws.length := by
  induction ws with
  | nil => intro changed rs; rfl
  | cons w ws ih =>
    intro changed rs
    cases rs with
    | nil => rfl
    | cons r rs =>
      show (wordsLoop f _ ws rs).2.length + 1 = ws.length + 1
      rw [ih]

def combine (f : Word → Word → Word) (e rhs : SparseBitVectorElement) :
    Bool × SparseBitVectorElement :=
  ((wordsLoop f false e.bits rhs.bits).1,
    ⟨e.index, (wordsLoop f false e.bits rhs.bits).2, (length_wordsLoop f _ _ _).trans e.size⟩)

section

variable (e rhs : SparseBitVectorElement)

def unionWith : Bool × SparseBitVectorElement :=
  combine (· ||| ·) e rhs

/-- `intersectWith(RHS, BecameZero)`; whether it became zero is `isEmpty` of the result. -/
def intersectWith : Bool × SparseBitVectorElement :=
  combine (· &&& ·) e rhs

def intersectWithComplement : Bool × SparseBitVectorElement :=
  combine (fun w r => w &&& ~~~ r) e rhs

def intersects : Bool :=
  (e.bits.zip rhs.bits).any fun p => decide (p.2 &&& p.1 ≠ 0)

end

def block (e : SparseBitVectorElement) : CoreBitVector :=
  ⟨e.index * ElementSize, e.bits, Dvd.dvd.mul_left (by decide) _⟩

variable {e e' : SparseBitVectorElement} {p q : ℕ}

theorem endPos_block (e : SparseBitVectorElement) : e.block.endPos = ElementSize := by
  rw [endPos, block, e.size]
  rfl

theorem bitAt_block (e : SparseBitVectorElement) (p : ℕ) : e.block.bitAt p = e.test p := rfl

theorem test_of_ge (h : ElementSize ≤ p) : e.test p = false := by
  have hlen : e.bits.length ≤ p / WordSize := by
    rw [e.size]
    unfold ElementSize at h
    unfold BITWORDS_PER_ELEMENT WordSize
    omega
  rw [test, word, getD_eq_default _ _ hlen]
  exact BitVec.getLsbD_zero

theorem getD_modify (l : List Word) (i j : ℕ) (f : Word → Word) (hi : i < l.length) :
    (l.modify i f).getD j 0 = if i = j then f (l.getD j 0) else l.getD j 0 := by
  rw [getD_eq_getElem?_getD, getD_eq_getElem?_getD, getElem?_modify]
  split
  case isTrue h =>
    subst h
    rw [getElem?_eq_getElem hi]
    rfl
  case isFalse =>
    cases l[j]? <;> rfl

theorem index_lt (h : p < ElementSize) : p / WordSize < e.bits.length := by
  rw [e.size]
  unfold ElementSize at h
  unfold BITWORDS_PER_ELEMENT WordSize
  omega

theorem test_set_element (h : p < ElementSize) (q : ℕ) :
    (e.set p).test q = (decide (q = p) || e.test q) := by
  show (List.getD (e.bits.modify _ _) _ 0).getLsbD _ = _
  rw [getD_modify _ _ _ _ (index_lt h)]
  unfold test word
  have hsplit : q = p ↔ p / WordSize = q / WordSize ∧ p % WordSize = q % WordSize :=
    eq_iff_split.trans (and_congr_right fun _ => eq_comm)
  have hmod : p % WordSize < 64 := Nat.mod_lt _ (by decide)
  split
  case isTrue hw =>
    rw [BitVec.getLsbD_or, BitVec.getLsbD_twoPow, Bool.or_comm]
    simp only [hsplit, hw, true_and, hmod, decide_true, Bool.true_and]
  case isFalse hw => simp only [hsplit, hw, false_and, decide_false, Bool.false_or]

theorem test_reset_element (h : p < ElementSize) (q : ℕ) :
    (e.reset p).test q = (decide (q ≠ p) && e.test q) := by
  show (List.getD (e.bits.modify _ _) _ 0).getLsbD _ = _
  rw [getD_modify _ _ _ _ (index_lt h)]
  unfold test word
  have hsplit : q = p ↔ p / WordSize = q / WordSize ∧ p % WordSize = q % WordSize :=
    eq_iff_split.trans (and_congr_right fun _ => eq_comm)
  have hmod : q % WordSize < 64 := Nat.mod_lt _ (by decide)
  split
  case isTrue hw =>
    have hmod' : p % WordSize < 64 := Nat.mod_lt _ (by decide)
    rw [BitVec.getLsbD_and, BitVec.getLsbD_not, BitVec.getLsbD_twoPow, Bool.and_comm]
    simp only [ne_eq, hsplit, hw, true_and, hmod, hmod', decide_true, Bool.true_and, decide_not]
  case isFalse hw =>
    simp only [ne_eq, hsplit, hw, false_and, not_false_eq_true, decide_true, Bool.true_and]

theorem wordsLoop_eq (f : Word → Word → Word) (ws : List Word) :
    ∀ (changed : Bool) (rs : List Word), ws.length = rs.length → wordsLoop f changed ws rs =
      (changed || decide (List.zipWith f ws rs ≠ ws), List.zipWith f ws rs) := by
  induction ws with
  | nil =>
    intro changed rs hlen
    rw [zipWith_nil_left]
    cases changed <;> rfl
  | cons w ws ih =>
    intro changed rs hlen
    cases rs with
    | nil => exact absurd hlen (Nat.succ_ne_zero _)
    | cons r rs =>
      rw [wordsLoop, ih _ _ (Nat.succ.inj hlen), zipWith_cons_cons]
      refine Prod.ext ?_ rfl
      cases changed with
      | true => rfl
      | false =>
        simp only [Bool.not_false, Bool.true_and, Bool.false_eq_true, if_false, ne_eq,
          List.cons.injEq, Bool.false_or]
        by_cases hw : f w r = w
        · simp only [hw, not_true, decide_false, Bool.false_eq_true, if_false, true_and,
            Bool.false_or]
        · have hw' : ¬ w = f w r := fun h => hw h.symm
          simp only [hw, hw', not_false_iff, decide_true, if_true, Bool.true_or, false_and]

structure Bitwise (f : Word → Word → Word) (g : Bool → Bool → Bool) : Prop where
  bit : ∀ (a b : Word) (j : ℕ), j < WordSize → (f a b).getLsbD j = g (a.getLsbD j) (b.getLsbD j)
  zero : g false false = false

theorem bitwise_or : Bitwise (· ||| ·) (· || ·) := ⟨fun _ _ _ _ => BitVec.getLsbD_or, rfl⟩

theorem bitwise_and : Bitwise (· &&& ·) (· && ·) := ⟨fun _ _ _ _ => BitVec.getLsbD_and, rfl⟩

theorem bitwise_complement : Bitwise (fun w r => w &&& ~~~ r) (fun p q => p && !q) := by
  refine ⟨fun a b j hj => ?_, rfl⟩
  have hj' : j < 64 := hj
  rw [BitVec.getLsbD_and, BitVec.getLsbD_not, decide_eq_true hj', Bool.true_and]

theorem test_combine {f : Word → Word → Word} {g : Bool → Bool → Bool} (h : Bitwise f g)
    (e e' : SparseBitVectorElement) (p : ℕ) :
    (combine f e e').2.test p = g (e.test p) (e'.test p) := by
  by_cases hp : p < ElementSize
  · have hlen : e.bits.length = e'.bits.length := e.size.trans e'.size.symm
    have hi := index_lt (e := e) hp
    have hi' := index_lt (e := e') hp
    show (List.getD (wordsLoop f false e.bits e'.bits).2 _ 0).getLsbD _ = _
    rw [wordsLoop_eq f _ _ _ hlen, test, test, word, word, ← h.bit _ _ _ (mod_lt _ (by decide)),
      getD_eq_getElem _ _ hi, getD_eq_getElem _ _ hi',
      getD_eq_getElem _ _ (by rw [length_zipWith]; omega), getElem_zipWith]
  · have hge := Nat.not_lt.mp hp
    rw [test_of_ge hge, test_of_ge hge, test_of_ge hge, h.zero]

theorem isEmpty_iff : e.isEmpty ↔ ∀ p, e.test p = false := by
  rw [SparseBitVectorElement.isEmpty, all_eq_true]
  constructor
  · intro h p
    by_cases hp : p < ElementSize
    · have hi := index_lt (e := e) hp
      rw [test, word, getD_eq_getElem _ _ hi, of_decide_eq_true (h _ (getElem_mem hi))]
      exact BitVec.getLsbD_zero
    · exact test_of_ge (Nat.not_lt.mp hp)
  · intro h w hw
    obtain ⟨i, hi, rfl⟩ := getElem_of_mem hw
    refine decide_eq_true ?_
    by_contra hne
    obtain ⟨j, hj, hbit⟩ := exists_bit_iff.mp hne
    have hdiv : (i * WordSize + j) / WordSize = i := mul_add_div_of_lt hj
    have hmod : (i * WordSize + j) % WordSize = j := mul_add_mod_of_lt hj
    have hno := h (i * WordSize + j)
    rw [test, word, hdiv, hmod, getD_eq_getElem _ _ hi, hbit] at hno
    cases hno

theorem not_isEmpty_iff : e.isEmpty = false ↔ ∃ p < ElementSize, e.test p := by
  rw [← Bool.not_eq_true, isEmpty_iff]
  constructor
  · intro h
    obtain ⟨p, hp⟩ := not_forall.mp h
    refine ⟨p, ?_, Bool.not_eq_false _ ▸ hp⟩
    by_contra hge
    exact hp (test_of_ge (Nat.not_lt.mp hge))
  · rintro ⟨p, -, hp⟩ h
    cases (h p).symm.trans hp

theorem eq_of_test (hi : e.index = e'.index) (h : ∀ p < ElementSize, e.test p = e'.test p) :
    e = e' := by
  have hbits : e.bits = e'.bits := by
    refine ext_getElem (e.size.trans e'.size.symm) fun i h1 h2 => ?_
    refine BitVec.eq_of_getLsbD_eq fun j hj => ?_
    have hlt : i * WordSize + j < ElementSize := by
      rw [e.size] at h1
      unfold BITWORDS_PER_ELEMENT at h1
      unfold WordSize ElementSize
      omega
    have hdiv : (i * WordSize + j) / WordSize = i := mul_add_div_of_lt hj
    have hmod : (i * WordSize + j) % WordSize = j := mul_add_mod_of_lt hj
    have hp := h _ hlt
    rw [test, test, word, word, hdiv, hmod, getD_eq_getElem _ _ h1, getD_eq_getElem _ _ h2] at hp
    exact hp
  cases e
  cases e'
  cases hi
  cases hbits
  rfl

theorem intersects_iff_element : e.intersects e' ↔ ∃ p < ElementSize, e.test p ∧ e'.test p := by
  have hand := not_isEmpty_iff (e := (combine (· &&& ·) e e').2)
  simp only [test_combine bitwise_and, and_eq_true] at hand
  rw [← hand, SparseBitVectorElement.isEmpty]
  show _ ↔ List.all (wordsLoop _ false e.bits e'.bits).2 _ = false
  rw [wordsLoop_eq _ _ _ _ (e.size.trans e'.size.symm), ← map_uncurry_zip_eq_zipWith]
  rw [all_map, intersects, any_eq_true, all_eq_false]
  simp only [Function.comp, decide_eq_true_eq, BitVec.and_comm]
  exact .rfl

-- ── Searching in an element

def IsFirst (set : ℕ → Bool) (start : ℕ) : Option ℕ → Prop
  | none => ∀ p, start ≤ p → set p = false
  | some r => start ≤ r ∧ set r = true ∧ ∀ p, start ≤ p → p < r → set p = false

theorem IsFirst.skip {set : ℕ → Bool} {start later : ℕ} {found : Option ℕ} (hle : start ≤ later)
    (hnone : ∀ p, start ≤ p → p < later → set p = false) (h : IsFirst set later found) :
    IsFirst set start found := by
  cases found with
  | none =>
    intro p hp
    by_cases hlt : p < later
    · exact hnone p hp hlt
    · exact h p (Nat.not_lt.mp hlt)
  | some r =>
    obtain ⟨hr, hset, hbefore⟩ := h
    refine ⟨hle.trans hr, hset, fun p hp hpr => ?_⟩
    by_cases hlt : p < later
    · exact hnone p hp hlt
    · exact hbefore p (Nat.not_lt.mp hlt) hpr

theorem countTrailingZeros_spec {w : Word} (h : w ≠ 0) : countTrailingZeros w < WordSize ∧
    w.getLsbD (countTrailingZeros w) ∧
    ∀ j, j < countTrailingZeros w → w.getLsbD j = false := by
  obtain ⟨j, hj, hbit⟩ := exists_bit_iff.mp h
  obtain ⟨-, hlt, hset, hbefore⟩ := nextBit_spec ⟨j, zero_le _, hj, hbit⟩
  exact ⟨hlt, hset, fun i hi => hbefore i (zero_le _) hi⟩

section

variable (e : SparseBitVectorElement)

/-- The loop over the words finds the first bit of the words from index `i` on. -/
theorem firstFrom_spec (i : ℕ) :
    IsFirst e.test (i * WordSize) (firstFrom (e.bits.drop i) i) := by
  by_cases hi : i < e.bits.length
  · have hget : e.word i = e.bits[i] := getD_eq_getElem _ _ hi
    rw [drop_eq_getElem_cons hi, firstFrom, ← hget]
    by_cases hw : e.word i ≠ 0
    · obtain ⟨hlt, hset, hbefore⟩ := countTrailingZeros_spec hw
      have htest : ∀ j, j < WordSize → e.test (i * WordSize + j) = (e.word i).getLsbD j :=
        fun j hj => e.block.bitAt_pos hj
      rw [if_pos hw]
      refine ⟨Nat.le_add_right _ _, (htest _ hlt).trans hset, fun p hp hpr => ?_⟩
      obtain ⟨j, rfl⟩ := Nat.exists_eq_add_of_le hp
      have hj := Nat.lt_of_add_lt_add_left hpr
      exact (htest j (hj.trans hlt)).trans (hbefore j hj)
    · have hzero := not_not.mp hw
      rw [if_neg hw]
      refine (firstFrom_spec (i + 1)).skip (Nat.mul_le_mul_right _ (Nat.le_succ i))
        fun p hp hlt => ?_
      have hword : p / WordSize = i := by
        unfold WordSize at *
        omega
      rw [test, hword, hzero]
      exact BitVec.getLsbD_zero
  · rw [drop_eq_nil_of_le (Nat.not_lt.mp hi), firstFrom]
    intro p hp
    refine test_of_ge ?_
    rw [e.size] at hi
    unfold BITWORDS_PER_ELEMENT at hi
    unfold WordSize at hp
    unfold ElementSize
    omega
termination_by e.bits.length - i

theorem find_first_spec : IsFirst e.test 0 e.find_first :=
  firstFrom_spec e 0

/-- **`find_next`** finds the first bit that is not before `Curr`. -/
theorem find_next_spec (curr : ℕ) :
    IsFirst e.test curr (e.find_next curr) := by
  rw [find_next]
  split
  case isTrue hge => exact fun p hp => test_of_ge (hge.le.trans hp)
  case isFalse hlt =>
    have hsplit : curr = curr / WordSize * WordSize + curr % WordSize := by
      unfold WordSize
      omega
    have htest : ∀ j, j < WordSize →
        e.test (curr / WordSize * WordSize + j) = (e.word (curr / WordSize)).getLsbD j :=
      fun j hj => e.block.bitAt_pos hj
    -- The mask leaves the bits from `Curr` on.
    have hmask : ∀ j, j < WordSize →
        (e.word (curr / WordSize) &&& (BitVec.allOnes 64 <<< (curr % WordSize))).getLsbD j =
          ((e.word (curr / WordSize)).getLsbD j && decide (curr % WordSize ≤ j)) := by
      intro j hj
      have hj' : j < 64 := hj
      have hle : decide (j - curr % WordSize < 64) := decide_eq_true (by omega)
      rw [BitVec.getLsbD_and, BitVec.getLsbD_shiftLeft, BitVec.getLsbD_allOnes,
        decide_eq_true hj', hle, Bool.true_and, Bool.and_true]
      congr 1
      rw [← decide_not, decide_eq_decide, not_lt]
    dsimp only
    split
    case isTrue hcopy =>
      obtain ⟨hlt', hset, hbefore⟩ := countTrailingZeros_spec hcopy
      rw [hmask _ hlt', and_eq_true, decide_eq_true_iff] at hset
      refine ⟨by omega, (htest _ hlt').trans hset.1, fun p hp hpr => ?_⟩
      obtain ⟨j, rfl⟩ : ∃ j, p = curr / WordSize * WordSize + j :=
        Nat.exists_eq_add_of_le (by omega)
      have hj := Nat.lt_of_add_lt_add_left hpr
      have hno := hbefore j hj
      have hle : curr % WordSize ≤ j := by omega
      rw [hmask j (hj.trans hlt'), decide_eq_true hle, Bool.and_true] at hno
      exact (htest j (hj.trans hlt')).trans hno
    case isFalse hcopy =>
      have hzero := not_not.mp hcopy
      refine (firstFrom_spec e (curr / WordSize + 1)).skip ?_ fun p hp hlt' => ?_
      · unfold WordSize
        omega
      · obtain ⟨j, rfl⟩ : ∃ j, p = curr / WordSize * WordSize + j :=
          Nat.exists_eq_add_of_le (by omega)
        have hj : j < WordSize := by
          rw [Nat.succ_mul] at hlt'
          exact Nat.lt_of_add_lt_add_left hlt'
        have hle : curr % WordSize ≤ j := by omega
        have hno := hmask j hj
        rw [hzero, decide_eq_true hle, Bool.and_true] at hno
        exact (htest j hj).trans (hno.symm.trans BitVec.getLsbD_zero)

end

theorem bitsFrom_of_first {e : SparseBitVectorElement} {start : ℕ} {found : Option ℕ}
    (hstart : start ≤ ElementSize) (h : IsFirst e.test start found) :
    e.block.bitsFrom start = found.elim [] e.block.bitsFrom := by
  cases found with
  | none =>
    have hle : start ≤ e.block.endPos := hstart.trans_eq e.endPos_block.symm
    rw [bitsFrom_skip hle le_rfl fun r hr _ => h r hr, bitsFrom_end]
    rfl
  | some r =>
    obtain ⟨hr, hset, hbefore⟩ := h
    have hlt : r < ElementSize := by
      by_contra hge
      exact Bool.false_ne_true ((test_of_ge (Nat.not_lt.mp hge)).symm.trans hset)
    exact bitsFrom_skip hr (hlt.le.trans_eq e.endPos_block.symm) hbefore

end SparseBitVectorElement

open SparseBitVectorElement

abbrev ElementList := List SparseBitVectorElement

namespace ElementList

-- ── Lists of elements

def bit (l : ElementList) (n : ℕ) : Bool :=
  l.any fun e => decide (e.index = n / ElementSize) && e.test (n % ElementSize)

structure Valid (l : ElementList) : Prop where
  sorted : l.Pairwise fun e e' => e.index < e'.index
  full : ∀ e ∈ l, e.isEmpty = false

variable {l l' : ElementList} {e : SparseBitVectorElement} {n : ℕ}

theorem bit_nil (n : ℕ) : bit [] n = false := rfl

theorem bit_cons (e : SparseBitVectorElement) (l : ElementList) (n : ℕ) : bit (e :: l) n =
    (decide (e.index = n / ElementSize) && e.test (n % ElementSize) || bit l n) := rfl

theorem bit_append (l l' : ElementList) (n : ℕ) : bit (l ++ l') n = (bit l n || bit l' n) :=
  any_append

theorem bit_of_ne (h : ∀ e ∈ l, e.index ≠ n / ElementSize) : bit l n = false := by
  rw [bit, any_eq_false]
  intro e he
  rw [decide_eq_false (h e he), Bool.false_and]
  exact Bool.false_ne_true

theorem bit_cons_of_eq (h : e.index = n / ElementSize) (hl : ∀ e' ∈ l, e.index < e'.index) :
    bit (e :: l) n = e.test (n % ElementSize) := by
  have hrest : bit l n = false := bit_of_ne fun e' he' heq => by
    have := hl e' he'
    omega
  rw [bit_cons, hrest, decide_eq_true h, Bool.true_and, Bool.or_false]

theorem bit_cons_of_ne (h : e.index ≠ n / ElementSize) : bit (e :: l) n = bit l n := by
  rw [bit_cons, decide_eq_false h, Bool.false_and, Bool.false_or]

theorem valid_nil : Valid [] := ⟨List.Pairwise.nil, nofun⟩

theorem valid_cons : Valid (e :: l) ↔
    (∀ e' ∈ l, e.index < e'.index) ∧ e.isEmpty = false ∧ Valid l := by
  constructor
  · intro h
    obtain ⟨hlt, hs⟩ := pairwise_cons.mp h.sorted
    exact ⟨hlt, h.full e mem_cons_self, hs, (forall_mem_cons.mp h.full).2⟩
  · rintro ⟨hlt, he, hs⟩
    exact ⟨pairwise_cons.mpr ⟨hlt, hs.sorted⟩, forall_mem_cons.mpr ⟨he, hs.full⟩⟩

theorem Valid.above {d : SparseBitVectorElement} (h : Valid (e :: l)) (hd : d.index < e.index) :
    ∀ x ∈ e :: l, d.index < x.index :=
  forall_mem_cons.mpr ⟨hd, fun x hx => hd.trans ((valid_cons.mp h).1 x hx)⟩

theorem bit_of_test {p : ℕ} (hp : p < ElementSize) (he : e ∈ l) (ht : e.test p) :
    bit l (e.index * ElementSize + p) := by
  have hdiv : (e.index * ElementSize + p) / ElementSize = e.index := mul_add_div_of_lt hp
  have hmod : (e.index * ElementSize + p) % ElementSize = p := Nat.mul_add_mod_of_lt hp
  rw [bit, any_eq_true]
  refine ⟨e, he, ?_⟩
  rw [hdiv, hmod, ht, decide_eq_true rfl, Bool.true_and]

theorem exists_of_bit (h : bit l n) :
    ∃ e ∈ l, e.index = n / ElementSize ∧ e.test (n % ElementSize) := by
  obtain ⟨e, he, hb⟩ := any_eq_true.mp h
  obtain ⟨hi, ht⟩ := Bool.and_eq_true_iff.mp hb
  exact ⟨e, he, of_decide_eq_true hi, ht⟩

/-- **Valid lists with the same bits are one list.** -/
theorem eq_of_bit (l : ElementList) : ∀ {l' : ElementList}, Valid l → Valid l' →
    (∀ n, bit l n = bit l' n) → l = l' := by
  induction l with
  | nil =>
    intro l' _ hv' h
    cases l' with
    | nil => rfl
    | cons e' l' =>
      obtain ⟨p, hp, ht⟩ := not_isEmpty_iff.mp (valid_cons.mp hv').2.1
      cases (h _).trans (bit_of_test hp mem_cons_self ht)
  | cons e l ih =>
    intro l' hv hv' h
    obtain ⟨hlt, hfull, hvl⟩ := valid_cons.mp hv
    cases l' with
    | nil =>
      obtain ⟨p, hp, ht⟩ := not_isEmpty_iff.mp hfull
      cases (h _).symm.trans (bit_of_test hp mem_cons_self ht)
    | cons e' l' =>
      obtain ⟨hlt', hfull', hvl'⟩ := valid_cons.mp hv'
      -- The first index of a list is the least of its bits.
      have hle : ∀ {e e' : SparseBitVectorElement} {l l' : ElementList}, e.isEmpty = false →
          (∀ d ∈ l', e'.index < d.index) → (∀ n, bit (e :: l) n = bit (e' :: l') n) →
            e'.index ≤ e.index := by
        intro e e' l l' hf hl hb
        obtain ⟨p, hp, ht⟩ := not_isEmpty_iff.mp hf
        have hbit := (hb _).symm.trans (bit_of_test hp (mem_cons_self (l := l)) ht)
        obtain ⟨d, hd, hi, -⟩ := exists_of_bit hbit
        have hdiv : (e.index * ElementSize + p) / ElementSize = e.index := mul_add_div_of_lt hp
        rw [hdiv] at hi
        rcases mem_cons.mp hd with rfl | hd
        · exact hi.le
        · exact (hl d hd).le.trans hi.le
      have hindex : e.index = e'.index :=
        le_antisymm (hle hfull' hlt fun n => (h n).symm) (hle hfull hlt' h)
      have hsame : e = e' := by
        refine eq_of_test hindex fun p hp => ?_
        have hdiv : (e.index * ElementSize + p) / ElementSize = e.index := mul_add_div_of_lt hp
        have hmod : (e.index * ElementSize + p) % ElementSize = p := mul_add_mod_of_lt hp
        have hb := h (e.index * ElementSize + p)
        rwa [bit_cons_of_eq hdiv.symm hlt, bit_cons_of_eq (hindex ▸ hdiv.symm) hlt', hmod] at hb
      subst hsame
      rw [ih hvl hvl' fun n => ?_]
      by_cases hn : e.index = n / ElementSize
      · rw [bit_of_ne fun d hd => hn ▸ (hlt d hd).ne', bit_of_ne fun d hd => hn ▸ (hlt' d hd).ne']
      · have hb := h n
        rwa [bit_cons_of_ne hn, bit_cons_of_ne hn] at hb

-- ── Merging

/-- The loop over two sorted lists of `operator|=`, `operator&=` and `intersectWithComplement`:
    `keep` says whether an element that only this list has stays, `insert` whether one that only
    the other has comes in, and `erase` whether an element that became zero goes. -/
def mergeLoop (f : Word → Word → Word) (keep insert erase : Bool) :
    ElementList → ElementList → Bool × ElementList
  | l1, [] => if keep then (false, l1) else (!l1.isEmpty, [])
  | [], e2 :: l2 =>
    if insert then (true, e2 :: (mergeLoop f keep insert erase [] l2).2) else (false, [])
  | e1 :: l1, e2 :: l2 =>
    if e1.index > e2.index then
      let r := mergeLoop f keep insert erase (e1 :: l1) l2
      if insert then (true, e2 :: r.2) else r
    else if e1.index = e2.index then
      let u := combine f e1 e2
      let r := mergeLoop f keep insert erase l1 l2
      (u.1 || r.1, if erase && u.2.isEmpty then r.2 else u.2 :: r.2)
    else
      let r := mergeLoop f keep insert erase l1 (e2 :: l2)
      if keep then (r.1, e1 :: r.2) else (true, r.2)
termination_by l1 l2 => l1.length + l2.length

section Merge

variable {f : Word → Word → Word} {g : Bool → Bool → Bool} {keep insert erase : Bool}

theorem lt_mergeLoop {c : ℕ} (l1 l2 : ElementList) : (∀ e ∈ l1, c < e.index) →
    (∀ e ∈ l2, c < e.index) → ∀ e ∈ (mergeLoop f keep insert erase l1 l2).2, c < e.index := by
  fun_induction mergeLoop f keep insert erase l1 l2 with
  | case1 l1 hk => exact fun h _ => h
  | case2 l1 hk => exact nofun
  | case3 e2 l2 hi ih =>
    intro h1 h2
    obtain ⟨he2, hl2⟩ := forall_mem_cons.mp h2
    exact forall_mem_cons.mpr ⟨he2, ih h1 hl2⟩
  | case4 e2 l2 hi => exact nofun
  | case5 e1 l1 e2 l2 hgt r hi ih =>
    intro h1 h2
    obtain ⟨he2, hl2⟩ := forall_mem_cons.mp h2
    exact forall_mem_cons.mpr ⟨he2, ih h1 hl2⟩
  | case6 e1 l1 e2 l2 hgt r hi ih => exact fun h1 h2 => ih h1 (forall_mem_cons.mp h2).2
  | case7 e1 l1 e2 l2 hgt heq u r ih =>
    intro h1 h2
    obtain ⟨he1, hl1⟩ := forall_mem_cons.mp h1
    have hr := ih hl1 (forall_mem_cons.mp h2).2
    split
    case isTrue => exact hr
    case isFalse => exact forall_mem_cons.mpr ⟨he1, hr⟩
  | case8 e1 l1 e2 l2 hgt hne r hk ih =>
    intro h1 h2
    obtain ⟨he1, hl1⟩ := forall_mem_cons.mp h1
    exact forall_mem_cons.mpr ⟨he1, ih hl1 h2⟩
  | case9 e1 l1 e2 l2 hgt hne r hk ih => exact fun h1 h2 => ih (forall_mem_cons.mp h1).2 h2

/-- **A merge is the operator on the bits.** -/
theorem bit_mergeLoop (h : Bitwise f g) (hkeep : ∀ b, g b false = (keep && b))
    (hinsert : ∀ b, g false b = (insert && b)) (n : ℕ) (l1 l2 : ElementList) :
    Valid l1 → Valid l2 →
      bit (mergeLoop f keep insert erase l1 l2).2 n = g (bit l1 n) (bit l2 n) := by
  fun_induction mergeLoop f keep insert erase l1 l2 with
  | case1 l1 hk =>
    intro _ _
    rw [bit_nil, hkeep, hk, Bool.true_and]
  | case2 l1 hk =>
    intro _ _
    rw [bit_nil, hkeep, Bool.eq_false_iff.mpr hk, Bool.false_and]
  | case3 e2 l2 hi ih =>
    intro h1 h2
    obtain ⟨hlt2, -, hv2⟩ := valid_cons.mp h2
    by_cases hn : e2.index = n / ElementSize
    · rw [bit_cons_of_eq hn (lt_mergeLoop _ _ (fun e he => absurd he not_mem_nil) hlt2),
        bit_nil, bit_cons_of_eq hn hlt2, hinsert, hi, Bool.true_and]
    · rw [bit_cons_of_ne hn, bit_cons_of_ne hn]
      exact ih h1 hv2
  | case4 e2 l2 hi =>
    intro _ _
    rw [bit_nil, hinsert, Bool.eq_false_iff.mpr hi, Bool.false_and]
  | case5 e1 l1 e2 l2 hgt r hi ih =>
    intro h1 h2
    obtain ⟨hlt2, -, hv2⟩ := valid_cons.mp h2
    have habove := h1.above hgt
    by_cases hn : e2.index = n / ElementSize
    · rw [bit_cons_of_eq hn (lt_mergeLoop _ _ habove hlt2), bit_cons_of_eq hn hlt2,
        bit_of_ne fun e he => hn ▸ (habove e he).ne', hinsert, hi, Bool.true_and]
    · rw [bit_cons_of_ne hn, bit_cons_of_ne hn]
      exact ih h1 hv2
  | case6 e1 l1 e2 l2 hgt r hi ih =>
    intro h1 h2
    obtain ⟨hlt2, -, hv2⟩ := valid_cons.mp h2
    have habove := h1.above hgt
    rw [show bit r.2 n = _ from ih h1 hv2]
    by_cases hn : e2.index = n / ElementSize
    · rw [bit_of_ne fun e he => hn ▸ (habove e he).ne', hinsert, hinsert,
        Bool.eq_false_iff.mpr hi, Bool.false_and, Bool.false_and]
    · rw [bit_cons_of_ne (l := l2) hn]
  | case7 e1 l1 e2 l2 hgt heq u r ih =>
    intro h1 h2
    obtain ⟨hlt1, -, hv1⟩ := valid_cons.mp h1
    obtain ⟨hlt2, -, hv2⟩ := valid_cons.mp h2
    have hr : bit r.2 n = _ := ih hv1 hv2
    have hltr : ∀ e ∈ r.2, u.2.index < e.index := lt_mergeLoop _ _ hlt1 fun e he => heq ▸ hlt2 e he
    have htest : u.2.test (n % ElementSize) = _ := test_combine h e1 e2 _
    -- An element that is erased has no bit.
    have hdrop : bit (if (erase && u.2.isEmpty) = true then r.2 else u.2 :: r.2) n =
        bit (u.2 :: r.2) n := by
      split
      case isTrue hz =>
        rw [bit_cons, isEmpty_iff.mp (Bool.and_eq_true_iff.mp hz).2, Bool.and_false, Bool.false_or]
      case isFalse => rfl
    rw [hdrop]
    by_cases hn : e1.index = n / ElementSize
    · rw [bit_cons_of_eq (e := u.2) hn hltr, htest, bit_cons_of_eq hn hlt1,
        bit_cons_of_eq (heq.symm.trans hn) hlt2]
    · rw [bit_cons_of_ne (e := u.2) hn, hr, bit_cons_of_ne hn,
        bit_cons_of_ne fun h => hn (heq.trans h)]
  | case8 e1 l1 e2 l2 hgt hne r hk ih =>
    intro h1 h2
    obtain ⟨hlt1, -, hv1⟩ := valid_cons.mp h1
    have hlt : e1.index < e2.index := lt_of_le_of_ne (Nat.not_lt.mp hgt) hne
    have habove := h2.above hlt
    by_cases hn : e1.index = n / ElementSize
    · rw [bit_cons_of_eq hn (lt_mergeLoop _ _ hlt1 habove), bit_cons_of_eq hn hlt1,
        bit_of_ne fun e he => hn ▸ (habove e he).ne', hkeep, hk, Bool.true_and]
    · rw [bit_cons_of_ne hn, bit_cons_of_ne hn]
      exact ih hv1 h2
  | case9 e1 l1 e2 l2 hgt hne r hk ih =>
    intro h1 h2
    obtain ⟨hlt1, -, hv1⟩ := valid_cons.mp h1
    have hlt : e1.index < e2.index := lt_of_le_of_ne (Nat.not_lt.mp hgt) hne
    have habove := h2.above hlt
    rw [show bit r.2 n = _ from ih hv1 h2]
    by_cases hn : e1.index = n / ElementSize
    · rw [bit_of_ne (l := e2 :: l2) fun e he => hn ▸ (habove e he).ne', hkeep, hkeep,
        Bool.eq_false_iff.mpr hk, Bool.false_and, Bool.false_and]
    · rw [bit_cons_of_ne hn]

/-- **A merge of valid lists is valid**, where what becomes zero is erased or nothing does. -/
theorem valid_mergeLoop (h : Bitwise f g) (hfull : erase ∨ ∀ b, g true b)
    (l1 l2 : ElementList) : Valid l1 → Valid l2 →
      Valid (mergeLoop f keep insert erase l1 l2).2 := by
  fun_induction mergeLoop f keep insert erase l1 l2 with
  | case1 l1 hk => exact fun h1 _ => h1
  | case2 l1 hk => exact fun _ _ => valid_nil
  | case3 e2 l2 hi ih =>
    intro h1 h2
    obtain ⟨hlt2, hf2, hv2⟩ := valid_cons.mp h2
    exact valid_cons.mpr ⟨lt_mergeLoop _ _ nofun hlt2, hf2, ih h1 hv2⟩
  | case4 e2 l2 hi => exact fun _ _ => valid_nil
  | case5 e1 l1 e2 l2 hgt r hi ih =>
    intro h1 h2
    obtain ⟨hlt2, hf2, hv2⟩ := valid_cons.mp h2
    have habove := h1.above hgt
    exact valid_cons.mpr ⟨lt_mergeLoop _ _ habove hlt2, hf2, ih h1 hv2⟩
  | case6 e1 l1 e2 l2 hgt r hi ih => exact fun h1 h2 => ih h1 (valid_cons.mp h2).2.2
  | case7 e1 l1 e2 l2 hgt heq u r ih =>
    intro h1 h2
    obtain ⟨hlt1, hf1, hv1⟩ := valid_cons.mp h1
    obtain ⟨hlt2, -, hv2⟩ := valid_cons.mp h2
    have hr : Valid r.2 := ih hv1 hv2
    split
    case isTrue => exact hr
    case isFalse hz =>
      refine valid_cons.mpr ⟨lt_mergeLoop _ _ hlt1 fun e he => heq ▸ hlt2 e he, ?_, hr⟩
      rcases hfull with rfl | hg
      · rw [Bool.true_and] at hz
        exact Bool.eq_false_iff.mpr hz
      · obtain ⟨p, hp, ht⟩ := not_isEmpty_iff.mp hf1
        refine not_isEmpty_iff.mpr ⟨p, hp, ?_⟩
        rw [show u.2.test p = _ from test_combine h e1 e2 p, ht, hg]
  | case8 e1 l1 e2 l2 hgt hne r hk ih =>
    intro h1 h2
    obtain ⟨hlt1, hf1, hv1⟩ := valid_cons.mp h1
    have hlt : e1.index < e2.index := lt_of_le_of_ne (Nat.not_lt.mp hgt) hne
    have habove := h2.above hlt
    exact valid_cons.mpr ⟨lt_mergeLoop _ _ hlt1 habove, hf1, ih hv1 h2⟩
  | case9 e1 l1 e2 l2 hgt hne r hk ih => exact fun h1 h2 => ih (valid_cons.mp h1).2.2 h2

end Merge

-- ── Searching from the cached iterator

def indexAt (l : ElementList) (pos : ℕ) : ℕ := (l[pos]?.map fun e => e.index).getD 0

def backward (l : ElementList) (target : ℕ) : ℕ → ℕ
  | 0 => 0
  | pos + 1 => if l.indexAt (pos + 1) > target then backward l target pos else pos + 1

def forward (l : ElementList) (target pos : ℕ) : ℕ :=
  if pos < l.length ∧ l.indexAt pos < target then forward l target (pos + 1) else pos
termination_by l.length - pos
decreasing_by omega

/-- Elements before a position are smaller than the target, and those behind it greater. -/
structure Lower (l : ElementList) (target pos : ℕ) : Prop where
  le_length : pos ≤ l.length
  before : ∀ e ∈ l.take pos, e.index < target
  behind : ∀ e ∈ l.drop (pos + 1), target < e.index

theorem indexAt_eq {pos : ℕ} (h : pos < l.length) : l.indexAt pos = l[pos].index := by
  rw [indexAt, getElem?_eq_getElem h]
  rfl

theorem split_at {pos : ℕ} (h : pos < l.length) : l = l.take pos ++ l[pos] :: l.drop (pos + 1) := by
  rw [cons_getElem_drop_succ, take_append_drop]

theorem Valid.around (hv : l.Valid) {pos : ℕ} (h : pos < l.length) :
    (∀ e ∈ l.take pos, e.index < l.indexAt pos) ∧
      ∀ e ∈ l.drop (pos + 1), l.indexAt pos < e.index := by
  have hs := hv.sorted
  rw [split_at h] at hs
  obtain ⟨-, hcons, hcross⟩ := pairwise_append.mp hs
  rw [indexAt_eq h]
  exact ⟨fun e he => hcross e he _ mem_cons_self, (pairwise_cons.mp hcons).1⟩

theorem backward_spec (hv : l.Valid) {target : ℕ} : ∀ pos, pos < l.length →
    (∀ e ∈ l.drop (pos + 1), target < e.index) → Lower l target (backward l target pos) := by
  intro pos
  induction pos with
  | zero =>
    intro hpos hbehind
    refine ⟨zero_le _, fun e he => ?_, hbehind⟩
    rw [backward, take_zero] at he
    cases he
  | succ pos ih =>
    intro hpos hbehind
    rw [backward]
    split
    case isTrue hgt =>
      refine ih (by omega) fun e he => ?_
      rw [drop_eq_getElem_cons hpos] at he
      rcases mem_cons.mp he with rfl | he
      · rwa [indexAt_eq hpos] at hgt
      · exact hbehind e he
    case isFalse hle =>
      refine ⟨hpos.le, fun e he => ?_, hbehind⟩
      exact ((hv.around hpos).1 e he).trans_le (Nat.not_lt.mp hle)

theorem forward_spec (hv : l.Valid) {target : ℕ} (pos : ℕ) : pos ≤ l.length →
    (∀ e ∈ l.take pos, e.index < target) → Lower l target (forward l target pos) := by
  fun_induction forward l target pos with
  | case1 pos hlt ih =>
    intro hpos hbefore
    refine ih (by omega) fun e he => ?_
    rw [take_succ_eq_append_getElem hlt.1] at he
    rcases mem_append.mp he with he | he
    · exact hbefore e he
    · rw [mem_singleton.mp he, ← indexAt_eq hlt.1]
      exact hlt.2
  | case2 pos hstop =>
    intro hpos hbefore
    refine ⟨hpos, hbefore, fun e he => ?_⟩
    by_cases hend : pos < l.length
    · have hge : target ≤ l.indexAt pos := Nat.not_lt.mp fun hlt => hstop ⟨hend, hlt⟩
      exact hge.trans_lt ((hv.around hend).2 e he)
    · rw [drop_eq_nil_of_le (by omega)] at he
      cases he

end ElementList

open ElementList

structure SparseBitVector where
  elements : ElementList
  curr : ℕ

namespace SparseBitVector

def empty : SparseBitVector := ⟨[], 0⟩

def findLowerBound (b : SparseBitVector) (target : ℕ) : ℕ :=
  if b.elements.isEmpty then 0
  else
    let curr := if b.curr = b.elements.length then b.curr - 1 else b.curr
    if b.elements.indexAt curr = target then curr
    else if b.elements.indexAt curr > target then backward b.elements target curr
    else forward b.elements target curr

/-- The elements are valid, and the iterator is in the list, unless that is empty. -/
structure Valid (b : SparseBitVector) : Prop where
  elements : b.elements.Valid
  curr : b.elements = [] ∨ b.curr ≤ b.elements.length

variable {b rhs : SparseBitVector} {n : ℕ}

/-- **The search** ends where it should, wherever it begins. -/
theorem findLowerBound_spec (h : b.Valid) (target : ℕ) :
    Lower b.elements target (b.findLowerBound target) := by
  rw [findLowerBound]
  split
  case isTrue hnil =>
    rw [isEmpty_iff.mp hnil]
    exact ⟨le_rfl, nofun, nofun⟩
  case isFalse hne =>
    have hlen : 0 < b.elements.length := by
      rw [List.isEmpty_iff] at hne
      exact List.length_pos_iff.mpr hne
    have hle := h.curr.resolve_left fun hnil => hne (isEmpty_iff.mpr hnil)
    obtain ⟨c, hc⟩ : ∃ c, (if b.curr = b.elements.length then b.curr - 1 else b.curr) = c := ⟨_, rfl⟩
    have hlt : c < b.elements.length := by
      rw [← hc]
      split <;> omega
    obtain ⟨hbefore, hbehind⟩ := h.elements.around hlt
    simp only [hc]
    split
    case isTrue heq =>
      rw [heq] at hbefore hbehind
      exact ⟨hlt.le, hbefore, hbehind⟩
    case isFalse hne =>
      split
      case isTrue hgt =>
        exact backward_spec h.elements c hlt fun e he => hgt.trans (hbehind e he)
      case isFalse hle =>
        have hsmall : b.elements.indexAt c < target := lt_of_le_of_ne (Nat.not_lt.mp hle) hne
        exact forward_spec h.elements c hlt.le fun e he => (hbefore e he).trans hsmall

-- ── Bits one by one

def test (b : SparseBitVector) (idx : ℕ) : Bool × SparseBitVector :=
  if b.elements.isEmpty then (false, b)
  else
    let elementIter := b.findLowerBound (idx / ElementSize)
    let b' : SparseBitVector := ⟨b.elements, elementIter⟩
    match b.elements[elementIter]? with
    | none => (false, b')
    | some e => (if e.index ≠ idx / ElementSize then false else e.test (idx % ElementSize), b')

def set (b : SparseBitVector) (idx : ℕ) : SparseBitVector :=
  let elementIndex := idx / ElementSize
  let new := (ofIndex elementIndex).set (idx % ElementSize)
  if b.elements.isEmpty then ⟨[new], 0⟩
  else
    let elementIter := b.findLowerBound elementIndex
    match b.elements[elementIter]? with
    | none => ⟨b.elements.insertIdx elementIter new, elementIter⟩
    | some e =>
      if e.index ≠ elementIndex then
        let elementIter := if e.index < elementIndex then elementIter + 1 else elementIter
        ⟨b.elements.insertIdx elementIter new, elementIter⟩
      else ⟨b.elements.set elementIter (e.set (idx % ElementSize)), elementIter⟩

def test_and_set (b : SparseBitVector) (idx : ℕ) : Bool × SparseBitVector :=
  let (old, b) := b.test idx
  if !old then (true, b.set idx) else (false, b)

/-- `reset(Idx)`; an element that becomes zero is erased from under the iterator. -/
def reset (b : SparseBitVector) (idx : ℕ) : SparseBitVector :=
  if b.elements.isEmpty then b
  else
    let elementIter := b.findLowerBound (idx / ElementSize)
    match b.elements[elementIter]? with
    | none => ⟨b.elements, elementIter⟩
    | some e =>
      if e.index ≠ idx / ElementSize then ⟨b.elements, elementIter⟩
      else
        let e := e.reset (idx % ElementSize)
        if e.isEmpty then ⟨b.elements.eraseIdx elementIter, elementIter⟩
        else ⟨b.elements.set elementIter e, elementIter⟩

variable {before behind : ElementList} {A : Type} {same : Bool}

/-- **What the search finds**: the element of an index, or the place where there is none. -/
theorem found_or_absent (h : b.Valid) (target : ℕ) :
    (∃ before e behind, b.elements = before ++ e :: behind ∧ before.length = b.findLowerBound target ∧
      e.index = target ∧ (∀ d ∈ before, d.index < target) ∧ ∀ d ∈ behind, target < d.index) ∨
    ∃ before behind, b.elements = before ++ behind ∧
      (∀ e, b.elements[b.findLowerBound target]? = some e → e.index ≠ target) ∧
      (match b.elements[b.findLowerBound target]? with
        | none => b.findLowerBound target
        | some e => if e.index < target then b.findLowerBound target + 1
            else b.findLowerBound target) = before.length ∧
      (∀ d ∈ before, d.index < target) ∧ ∀ d ∈ behind, target < d.index := by
  obtain ⟨hle, hbefore, hbehind⟩ := findLowerBound_spec h target
  obtain ⟨pos, hpos⟩ : ∃ pos, b.findLowerBound target = pos := ⟨_, rfl⟩
  rw [hpos] at hle hbefore hbehind ⊢
  by_cases hlt : pos < b.elements.length
  · have hsplit := split_at hlt
    have hlen : (b.elements.take pos).length = pos := length_take_of_le hle
    rw [getElem?_eq_getElem hlt]
    rcases lt_trichotomy b.elements[pos].index target with hsmall | heq | hlarge
    · refine .inr ⟨b.elements.take (pos + 1), b.elements.drop (pos + 1),
        (take_append_drop _ _).symm, fun e he => ?_, ?_, fun d hd => ?_, hbehind⟩
      · rw [← Option.some.inj he]
        exact hsmall.ne
      · rw [length_take_of_le hlt]
        exact if_pos hsmall
      · rw [take_succ_eq_append_getElem hlt] at hd
        rcases mem_append.mp hd with hd | hd
        · exact hbefore d hd
        · rw [mem_singleton.mp hd]
          exact hsmall
    · exact .inl ⟨_, _, _, hsplit, hlen, heq, hbefore, hbehind⟩
    · refine .inr ⟨b.elements.take pos, b.elements.drop pos, (take_append_drop _ _).symm,
        fun e he => ?_, ?_, hbefore, fun d hd => ?_⟩
      · rw [← Option.some.inj he]
        exact hlarge.ne'
      · rw [hlen]
        exact if_neg (Nat.not_lt.mpr hlarge.le)
      · rw [drop_eq_getElem_cons hlt] at hd
        rcases mem_cons.mp hd with rfl | hd
        · exact hlarge
        · exact hbehind d hd
  · have hend : pos = b.elements.length := by omega
    rw [hend, take_length] at hbefore
    rw [getElem?_eq_none (by omega)]
    refine .inr ⟨b.elements, [], (append_nil _).symm, fun e he => ?_, hend, hbefore, nofun⟩
    cases he.symm

theorem bit_middle {e : SparseBitVectorElement} (hbefore : ∀ d ∈ before, d.index < e.index)
    (hbehind : ∀ d ∈ behind, e.index < d.index) (n : ℕ) :
    bit (before ++ e :: behind) n =
      if e.index = n / ElementSize then e.test (n % ElementSize) else bit (before ++ behind) n := by
  rw [bit_append]
  split
  case isTrue hn =>
    rw [bit_cons_of_eq hn hbehind, bit_of_ne fun d hd => hn ▸ (hbefore d hd).ne, Bool.false_or]
  case isFalse hn => rw [bit_cons_of_ne hn, bit_append]

theorem bit_split {target : ℕ} (hbefore : ∀ d ∈ before, d.index < target)
    (hbehind : ∀ d ∈ behind, target < d.index) (hn : target = n / ElementSize)
    : bit (before ++ behind) n = false := by
  refine bit_of_ne fun d hd => ?_
  rcases mem_append.mp hd with hd | hd
  · exact hn ▸ (hbefore d hd).ne
  · exact hn ▸ (hbehind d hd).ne'

theorem valid_middle {e : SparseBitVectorElement} (hv : ElementList.Valid (before ++ behind))
    (hbefore : ∀ d ∈ before, d.index < e.index) (hbehind : ∀ d ∈ behind, e.index < d.index)
    (hfull : e.isEmpty = false) :
    ElementList.Valid (before ++ e :: behind) := by
  obtain ⟨h1, h2, h3⟩ := pairwise_append.mp hv.sorted
  refine ⟨pairwise_append.mpr ⟨h1, pairwise_cons.mpr ⟨hbehind, h2⟩, fun d hd d' hd' => ?_⟩,
    fun d hd => ?_⟩
  · rcases mem_cons.mp hd' with rfl | hd'
    · exact hbefore d hd
    · exact h3 d hd d' hd'
  · rcases mem_append.mp hd with hd | hd
    · exact hv.full d (mem_append_left _ hd)
    · rcases mem_cons.mp hd with rfl | hd
      · exact hfull
      · exact hv.full d (mem_append_right _ hd)

theorem valid_without {e : SparseBitVectorElement} (hv : ElementList.Valid (before ++ e :: behind))
    : ElementList.Valid (before ++ behind) := by
  have hsub : (before ++ behind).Sublist (before ++ e :: behind) :=
    (List.Sublist.refl before).append (sublist_cons_self e behind)
  exact ⟨hv.sorted.sublist hsub, fun d hd => hv.full d (hsub.subset hd)⟩

theorem insertIdx_between (a : A) (before behind : List A) :
    (before ++ behind).insertIdx before.length a = before ++ a :: behind := by
  induction before with
  | nil => rfl
  | cons d before ih => exact congrArg (d :: ·) ih

theorem get_found {a : A} {before behind l : List A} {pos : ℕ} (hsplit : l = before ++ a :: behind)
    (hlen : before.length = pos) : l[pos]? = some a := by
  rw [hsplit, ← hlen, getElem?_append_right le_rfl, Nat.sub_self]
  rfl

theorem set_middle (a a' : A) (before behind : List A) :
    (before ++ a :: behind).set before.length a' = before ++ a' :: behind := by
  rw [set_append_right _ _ le_rfl, Nat.sub_self]
  rfl

theorem eraseIdx_middle (a : A) (before behind : List A) :
    (before ++ a :: behind).eraseIdx before.length = before ++ behind := by
  rw [eraseIdx_append_of_length_le le_rfl, Nat.sub_self]
  rfl

theorem mod_lt (idx : ℕ) : idx % ElementSize < ElementSize := Nat.mod_lt _ (by decide)

theorem test_fst (h : b.Valid) (idx : ℕ) : (b.test idx).1 = bit b.elements idx := by
  rw [test]
  split
  case isTrue hnil => rw [isEmpty_iff.mp hnil, bit_nil]
  case isFalse =>
    rcases found_or_absent h (idx / ElementSize) with
      ⟨before, e, behind, hsplit, hlen, hi, hbefore, hbehind⟩ |
      ⟨before, behind, hsplit, hno, -, hbefore, hbehind⟩
    · simp only [get_found hsplit hlen]
      rw [hsplit, bit_middle (hi ▸ hbefore) (hi ▸ hbehind), if_pos hi, if_neg (not_not.mpr hi)]
    · rw [hsplit, bit_split hbefore hbehind rfl, ← hsplit]
      cases hget : b.elements[b.findLowerBound (idx / ElementSize)]? with
      | none => simp only [hget]
      | some e =>
        simp only [hget]
        exact if_pos (hno e hget)

theorem test_snd (b : SparseBitVector) (idx : ℕ) : (b.test idx).2.elements = b.elements ∧
    ((b.test idx).2.curr = b.curr ∧ b.elements = [] ∨
      (b.test idx).2.curr = b.findLowerBound (idx / ElementSize)) := by
  rw [test]
  split
  case isTrue hnil => exact ⟨rfl, .inl ⟨rfl, isEmpty_iff.mp hnil⟩⟩
  case isFalse =>
    dsimp only
    split <;> exact ⟨rfl, .inr rfl⟩

theorem valid_test (h : b.Valid) (idx : ℕ) : (b.test idx).2.Valid := by
  have hle := (findLowerBound_spec h (idx / ElementSize)).le_length
  obtain ⟨helems, hcurr⟩ := test_snd b idx
  refine ⟨helems ▸ h.elements, ?_⟩
  rw [helems]
  rcases hcurr with ⟨-, hnil⟩ | hcurr
  · exact .inl hnil
  · exact .inr (hcurr ▸ hle)

/-- The element that `set` makes. -/
theorem test_new (i p q : ℕ) (hp : p < ElementSize) :
    ((ofIndex i).set p).test q = decide (q = p) := by
  have hempty : (ofIndex i).isEmpty := rfl
  rw [test_set_element hp, isEmpty_iff.mp hempty, Bool.or_false]

section

variable (h : b.Valid)
include h

/-- **What `set` leaves**: the list with the element of the bit, new or not. -/
theorem set_cases (idx : ℕ) : ∃ before e behind,
    b.set idx = ⟨before ++ e :: behind, before.length⟩ ∧ e.index = idx / ElementSize ∧
      (∀ d ∈ before, d.index < idx / ElementSize) ∧ (∀ d ∈ behind, idx / ElementSize < d.index) ∧
      (b.elements = before ++ behind ∧ e = (ofIndex (idx / ElementSize)).set (idx % ElementSize) ∨
        ∃ e0, b.elements = before ++ e0 :: behind ∧ e0.index = idx / ElementSize ∧
          e = e0.set (idx % ElementSize)) := by
  rw [set]
  dsimp only
  split
  case isTrue hnil =>
    exact ⟨[], _, [], rfl, rfl, nofun, nofun, .inl ⟨isEmpty_iff.mp hnil, rfl⟩⟩
  case isFalse =>
    rcases found_or_absent h (idx / ElementSize) with
      ⟨before, e, behind, hsplit, hlen, hi, hbefore, hbehind⟩ |
      ⟨before, behind, hsplit, hno, hplace, hbefore, hbehind⟩
    · refine ⟨before, e.set (idx % ElementSize), behind, ?_, hi, hbefore, hbehind,
        .inr ⟨e, hsplit, hi, rfl⟩⟩
      simp only [get_found hsplit hlen, if_neg (not_not.mpr hi)]
      rw [← hlen, hsplit, set_middle]
    · refine ⟨before, _, behind, ?_, rfl, hbefore, hbehind, .inl ⟨hsplit, rfl⟩⟩
      cases hget : b.elements[b.findLowerBound (idx / ElementSize)]? with
      | none =>
        rw [hget] at hplace
        dsimp only at hplace ⊢
        rw [hplace, hsplit, insertIdx_between]
      | some e =>
        rw [hget] at hplace
        dsimp only at hplace ⊢
        rw [if_pos (hno e hget), hplace, hsplit, insertIdx_between]

theorem bit_set (idx n : ℕ) :
    bit (b.set idx).elements n = (decide (n = idx) || bit b.elements n) := by
  obtain ⟨before, e, behind, heq, hi, hbefore, hbehind, hcase⟩ := set_cases h idx
  rw [heq, bit_middle (hi ▸ hbefore) (hi ▸ hbehind), hi]
  split
  case isTrue hn =>
    have hdec : decide (n = idx) = decide (n % ElementSize = idx % ElementSize) :=
      decide_eq_decide.mpr (eq_iff_split.trans (and_iff_right hn))
    rw [hdec]
    rcases hcase with ⟨hsplit, he⟩ | ⟨e0, hsplit, hi0, he⟩
    · rw [he, hsplit, bit_split hbefore hbehind hn, Bool.or_false, test_new _ _ _ (mod_lt idx)]
    · rw [he, hsplit, bit_middle (hi0 ▸ hbefore) (hi0 ▸ hbehind), if_pos (hi0.trans hn),
        test_set_element (mod_lt idx)]
  case isFalse hn =>
    rw [decide_eq_false fun h => hn (eq_iff_split.mp h).1, Bool.false_or]
    rcases hcase with ⟨hsplit, -⟩ | ⟨e0, hsplit, hi0, -⟩
    · rw [hsplit]
    · rw [hsplit, bit_middle (hi0 ▸ hbefore) (hi0 ▸ hbehind), if_neg fun h => hn (hi0.symm.trans h)]

theorem valid_set (idx : ℕ) : (b.set idx).Valid := by
  obtain ⟨before, e, behind, heq, hi, hbefore, hbehind, hcase⟩ := set_cases h idx
  have hfull : e.isEmpty = false := by
    refine not_isEmpty_iff.mpr ⟨idx % ElementSize, mod_lt idx, ?_⟩
    rcases hcase with ⟨-, rfl⟩ | ⟨e0, -, -, rfl⟩
    · rw [test_new _ _ _ (mod_lt idx), decide_eq_true rfl]
    · rw [test_set_element (mod_lt idx), decide_eq_true rfl, Bool.true_or]
  have hrest : ElementList.Valid (before ++ behind) := by
    rcases hcase with ⟨hsplit, -⟩ | ⟨e0, hsplit, -, -⟩
    · exact hsplit ▸ h.elements
    · exact valid_without (hsplit ▸ h.elements)
  rw [heq]
  refine ⟨valid_middle hrest (hi ▸ hbefore) (hi ▸ hbehind) hfull, .inr ?_⟩
  show before.length ≤ (before ++ e :: behind).length
  rw [length_append]
  exact Nat.le_add_right _ _

/-- **What `reset` leaves**: the list with the bit out of its element, or without the element. -/
theorem reset_cases (idx : ℕ) :
    (bit b.elements idx = false ∧ (b.reset idx).elements = b.elements ∧
      (b.elements = [] ∨ (b.reset idx).curr ≤ b.elements.length)) ∨
    ∃ before e behind, b.elements = before ++ e :: behind ∧ e.index = idx / ElementSize ∧
      (∀ d ∈ before, d.index < idx / ElementSize) ∧ (∀ d ∈ behind, idx / ElementSize < d.index) ∧
      (b.reset idx).curr = before.length ∧ (b.reset idx).elements =
        if (e.reset (idx % ElementSize)).isEmpty then before ++ behind
        else before ++ e.reset (idx % ElementSize) :: behind := by
  have hle := (findLowerBound_spec h (idx / ElementSize)).le_length
  rw [reset]
  split
  case isTrue hnil =>
    have hnil := isEmpty_iff.mp hnil
    exact .inl ⟨by rw [hnil, bit_nil], rfl, .inl hnil⟩
  case isFalse =>
    dsimp only
    rcases found_or_absent h (idx / ElementSize) with
      ⟨before, e, behind, hsplit, hlen, hi, hbefore, hbehind⟩ |
      ⟨before, behind, hsplit, hno, -, hbefore, hbehind⟩
    · refine .inr ⟨before, e, behind, hsplit, hi, hbefore, hbehind, ?_⟩
      simp only [get_found hsplit hlen, if_neg (not_not.mpr hi)]
      split
      case isTrue =>
        refine ⟨hlen.symm, ?_⟩
        show b.elements.eraseIdx _ = _
        rw [← hlen, hsplit, eraseIdx_middle]
      case isFalse =>
        refine ⟨hlen.symm, ?_⟩
        show b.elements.set _ _ = _
        rw [← hlen, hsplit, set_middle]
    · have hbit : bit b.elements idx = false := by
        rw [hsplit, bit_split hbefore hbehind rfl]
      refine .inl ⟨hbit, ?_⟩
      cases hget : b.elements[b.findLowerBound (idx / ElementSize)]? with
      | none => exact ⟨rfl, .inr hle⟩
      | some e =>
        dsimp only
        rw [if_pos (hno e hget)]
        exact ⟨rfl, .inr hle⟩

theorem bit_reset (idx n : ℕ) :
    bit (b.reset idx).elements n = (decide (n ≠ idx) && bit b.elements n) := by
  rcases reset_cases h idx with ⟨hno, heq, -⟩ |
    ⟨before, e, behind, hsplit, hi, hbefore, hbehind, -, heq⟩
  · rw [heq]
    by_cases hn : n = idx
    · rw [hn, hno, Bool.and_false]
    · rw [decide_eq_true hn, Bool.true_and]
  · have hlist : bit (b.reset idx).elements n =
        bit (before ++ e.reset (idx % ElementSize) :: behind) n := by
      rw [heq]
      split
      case isTrue hz =>
        rw [bit_append, bit_append, bit_cons, isEmpty_iff.mp hz, Bool.and_false, Bool.false_or]
      case isFalse => rfl
    have hir : (e.reset (idx % ElementSize)).index = idx / ElementSize := hi
    rw [hlist, bit_middle (hir ▸ hbefore) (hir ▸ hbehind), hsplit,
      bit_middle (hi ▸ hbefore) (hi ▸ hbehind), hir, hi]
    split
    case isTrue hn =>
      have hdec : decide (n ≠ idx) = decide (n % ElementSize ≠ idx % ElementSize) :=
        decide_eq_decide.mpr (not_congr (eq_iff_split.trans (and_iff_right hn)))
      rw [test_reset_element (mod_lt idx), hdec]
    case isFalse hn =>
      have hne : n ≠ idx := fun h => hn (eq_iff_split.mp h).1
      rw [decide_eq_true hne, Bool.true_and]

theorem valid_reset (idx : ℕ) : (b.reset idx).Valid := by
  rcases reset_cases h idx with ⟨-, heq, hcurr⟩ |
    ⟨before, e, behind, hsplit, hi, hbefore, hbehind, hcurr, heq⟩
  · exact ⟨heq ▸ h.elements, heq ▸ hcurr⟩
  · have hrest := valid_without (hsplit ▸ h.elements)
    refine ⟨?_, .inr ?_⟩
    · rw [heq]
      split
      case isTrue => exact hrest
      case isFalse hz =>
        exact valid_middle hrest (e := e.reset (idx % ElementSize)) (hi ▸ hbefore) (hi ▸ hbehind)
          (eq_false_iff.mpr hz)
    · rw [heq, hcurr]
      split
      · rw [length_append]
        exact Nat.le_add_right _ _
      · rw [length_append]
        exact Nat.le_add_right _ _

end

-- ── Two vectors

/-- `operator|=`; `same` says that the operand is this vector. -/
def orAssign (same : Bool) (b rhs : SparseBitVector) : Bool × SparseBitVector :=
  if same then (false, b)
  else if rhs.elements.isEmpty then (false, b)
  else
    let (changed, elements) := mergeLoop (· ||| ·) true true false b.elements rhs.elements
    (changed, ⟨elements, 0⟩)

/-- `operator&=` -/
def andAssign (same : Bool) (b rhs : SparseBitVector) : Bool × SparseBitVector :=
  if same then (false, b)
  else if b.elements.isEmpty && rhs.elements.isEmpty then (false, b)
  else
    let (changed, elements) := mergeLoop (· &&& ·) false false true b.elements rhs.elements
    (changed, ⟨elements, 0⟩)

def intersectWithComplement (same : Bool) (b rhs : SparseBitVector) : Bool × SparseBitVector :=
  if same then if !b.elements.isEmpty then (true, ⟨[], b.curr⟩) else (false, b)
  else if b.elements.isEmpty || rhs.elements.isEmpty then (false, b)
  else
    let (changed, elements) :=
      mergeLoop (fun w r => w &&& ~~~ r) true false true b.elements rhs.elements
    (changed, ⟨elements, 0⟩)

def equalLoop : ElementList → ElementList → Bool
  | e1 :: l1, e2 :: l2 =>
    if e1.index ≠ e2.index ∨ e1.bits ≠ e2.bits then false else equalLoop l1 l2
  | l1, l2 => l1.isEmpty && l2.isEmpty

/-- `operator==` -/
def equal (b rhs : SparseBitVector) : Bool := equalLoop b.elements rhs.elements

def contains (b rhs : SparseBitVector) : Bool :=
  let result : SparseBitVector := ⟨b.elements, 0⟩
  (result.andAssign false rhs).2.equal rhs

def intersectsLoop : ElementList → ElementList → Bool
  | _, [] => false
  | [], _ :: _ => false
  | e1 :: l1, e2 :: l2 =>
    if e1.index > e2.index then intersectsLoop (e1 :: l1) l2
    else if e1.index = e2.index then
      if e1.intersects e2 then true else intersectsLoop l1 l2
    else intersectsLoop l1 (e2 :: l2)
termination_by l1 l2 => l1.length + l2.length

def intersects (b rhs : SparseBitVector) : Bool :=
  if b.elements.isEmpty && rhs.elements.isEmpty then false
  else intersectsLoop b.elements rhs.elements

def isEmpty (b : SparseBitVector) : Bool := b.elements.isEmpty

def count (b : SparseBitVector) : UInt32 := b.elements.foldl (fun n e => n + e.count) 0

section

variable (h : b.Valid)
include h

section

variable (hr : rhs.Valid) (hs : same → rhs = b) (n : ℕ)
include hr hs

theorem bit_or :
    bit (b.orAssign same rhs).2.elements n = (bit b.elements n || bit rhs.elements n) := by
  rw [orAssign]
  split
  case isTrue hsame => rw [hs hsame, Bool.or_self]
  case isFalse =>
    split
    case isTrue hnil => rw [isEmpty_iff.mp hnil, bit_nil, Bool.or_false]
    case isFalse =>
      exact bit_mergeLoop bitwise_or (fun b => by cases b <;> rfl) (fun b => by cases b <;> rfl) n _ _
        h.elements hr.elements

theorem bit_and :
    bit (b.andAssign same rhs).2.elements n = (bit b.elements n && bit rhs.elements n) := by
  rw [andAssign]
  split
  case isTrue hsame => rw [hs hsame, Bool.and_self]
  case isFalse =>
    split
    case isTrue hnil =>
      rw [isEmpty_iff.mp (Bool.and_eq_true_iff.mp hnil).1, bit_nil, Bool.false_and]
    case isFalse =>
      exact bit_mergeLoop bitwise_and (fun b => by cases b <;> rfl) (fun b => by cases b <;> rfl) n _ _
        h.elements hr.elements

theorem bit_complement : bit (b.intersectWithComplement same rhs).2.elements n =
      (bit b.elements n && !bit rhs.elements n) := by
  rw [intersectWithComplement]
  split
  case isTrue hsame =>
    rw [hs hsame, Bool.and_not_self]
    split
    case isTrue => rfl
    case isFalse hnil =>
      have hempty : b.elements = [] := isEmpty_iff.mp (by simpa using hnil)
      rw [hempty, bit_nil]
  case isFalse =>
    split
    case isTrue hnil =>
      rcases Bool.or_eq_true_iff.mp hnil with hnil | hnil
      · rw [isEmpty_iff.mp hnil, bit_nil, Bool.false_and]
      · rw [isEmpty_iff.mp hnil, bit_nil, Bool.not_false, Bool.and_true]
    case isFalse =>
      exact bit_mergeLoop bitwise_complement (fun b => by cases b <;> rfl)
        (fun b => by cases b <;> rfl) n _ _ h.elements hr.elements

end

theorem valid_or (hr : rhs.Valid) (same : Bool) : (b.orAssign same rhs).2.Valid := by
  rw [orAssign]
  split
  case isTrue => exact h
  case isFalse =>
    split
    case isTrue => exact h
    case isFalse =>
      exact ⟨valid_mergeLoop bitwise_or (.inr fun _ => rfl) _ _ h.elements hr.elements,
        .inr (zero_le _)⟩

theorem valid_and (hr : rhs.Valid) (same : Bool) :
    (b.andAssign same rhs).2.Valid := by
  rw [andAssign]
  split
  case isTrue => exact h
  case isFalse =>
    split
    case isTrue => exact h
    case isFalse =>
      exact ⟨valid_mergeLoop bitwise_and (.inl rfl) _ _ h.elements hr.elements,
        .inr (zero_le _)⟩

theorem valid_complement (hr : rhs.Valid) (same : Bool) :
    (b.intersectWithComplement same rhs).2.Valid := by
  rw [intersectWithComplement]
  split
  case isTrue =>
    split
    case isTrue => exact ⟨valid_nil, .inl rfl⟩
    case isFalse => exact h
  case isFalse =>
    split
    case isTrue => exact h
    case isFalse =>
      exact ⟨valid_mergeLoop bitwise_complement (.inl rfl) _ _ h.elements hr.elements,
        .inr (zero_le _)⟩

end

theorem equalLoop_iff (l1 : ElementList) : ∀ l2 : ElementList, equalLoop l1 l2 ↔ l1 = l2 := by
  induction l1 with
  | nil =>
    intro l2
    cases l2 with
    | nil => exact iff_of_true rfl rfl
    | cons e2 l2 => exact iff_of_false false_ne_true (cons_ne_nil _ _).symm
  | cons e1 l1 ih =>
    intro l2
    cases l2 with
    | nil => exact iff_of_false false_ne_true (cons_ne_nil _ _)
    | cons e2 l2 =>
      rw [equalLoop, List.cons.injEq]
      split
      case isTrue hne =>
        refine iff_of_false false_ne_true fun h => ?_
        rcases hne with hne | hne
        · exact hne (congrArg index h.1)
        · exact hne (congrArg bits h.1)
      case isFalse heq =>
        obtain ⟨hi, hb⟩ : e1.index = e2.index ∧ e1.bits = e2.bits := by tauto
        have he : e1 = e2 := by
          cases e1
          cases e2
          cases hi
          cases hb
          rfl
        rw [ih, and_iff_right he]

/-- **`==` is equality of the sets.** -/
theorem equal_iff_bits (h : b.elements.Valid) (hr : rhs.elements.Valid) :
    b.equal rhs ↔ ∀ n, bit b.elements n = bit rhs.elements n := by
  rw [equal, equalLoop_iff]
  exact ⟨fun heq n => by rw [heq], eq_of_bit _ h hr⟩

theorem contains_iff_bits (h : b.Valid) (hr : rhs.Valid) :
    b.contains rhs ↔ ∀ n, bit rhs.elements n → bit b.elements n := by
  have hcopy : Valid ⟨b.elements, 0⟩ := ⟨h.elements, .inr (zero_le _)⟩
  have hself : false → rhs = ⟨b.elements, 0⟩ := nofun
  have hbit := bit_and hcopy hr hself
  rw [contains, equal_iff_bits (valid_and hcopy hr false).elements hr.elements]
  refine forall_congr' fun n => ?_
  rw [hbit n]
  cases bit b.elements n <;> cases bit rhs.elements n <;> decide

theorem intersectsLoop_eq (l1 l2 : ElementList) :
    intersectsLoop l1 l2 = !(mergeLoop (· &&& ·) false false true l1 l2).2.isEmpty := by
  fun_induction intersectsLoop l1 l2 with
  | case1 l1 => cases l1 <;> rw [mergeLoop] <;> rfl
  | case2 e2 l2 => rw [mergeLoop]; rfl
  | case3 e1 l1 e2 l2 hgt ih =>
    rw [mergeLoop, if_pos hgt, ih]
    rfl
  | case4 e1 l1 e2 l2 hgt heq hint =>
    have hfull : (combine (· &&& ·) e1 e2).2.isEmpty = false := by
      obtain ⟨p, hp, h1, h2⟩ := intersects_iff_element.mp hint
      exact not_isEmpty_iff.mpr ⟨p, hp, by rw [test_combine bitwise_and, h1, h2]; rfl⟩
    rw [mergeLoop, if_neg hgt, if_pos heq]
    simp only [hfull, Bool.and_false, Bool.false_eq_true, if_false]
    rfl
  | case5 e1 l1 e2 l2 hgt heq hint ih =>
    have hempty : (combine (· &&& ·) e1 e2).2.isEmpty := by
      refine isEmpty_iff.mpr fun p => ?_
      by_contra ht
      rw [test_combine bitwise_and, Bool.not_eq_false, and_eq_true] at ht
      have hp : p < ElementSize := by
        by_contra hge
        cases (test_of_ge (Nat.not_lt.mp hge)).symm.trans ht.1
      exact hint (intersects_iff_element.mpr ⟨p, hp, ht⟩)
    rw [mergeLoop, if_neg hgt, if_pos heq, ih]
    simp only [hempty, Bool.and_self, if_true]
  | case6 e1 l1 e2 l2 hgt hne ih =>
    rw [mergeLoop, if_neg hgt, if_neg hne, ih]
    rfl

theorem isEmpty_eq_false_iff {l : ElementList} (hv : l.Valid) :
    List.isEmpty l = false ↔ ∃ n, bit l n := by
  cases l with
  | nil => exact iff_of_false (by decide) fun ⟨n, hn⟩ => false_ne_true hn
  | cons e l =>
    refine iff_of_true rfl ?_
    obtain ⟨p, hp, ht⟩ := not_isEmpty_iff.mp (valid_cons.mp hv).2.1
    exact ⟨_, bit_of_test hp mem_cons_self ht⟩

theorem intersects_iff_bits (h : b.Valid) (hr : rhs.Valid) :
    b.intersects rhs ↔ ∃ n, bit b.elements n ∧ bit rhs.elements n := by
  rw [intersects]
  split
  case isTrue hnil =>
    refine iff_of_false false_ne_true ?_
    rintro ⟨n, hn, -⟩
    rw [isEmpty_iff.mp (Bool.and_eq_true_iff.mp hnil).1, bit_nil] at hn
    exact false_ne_true hn
  case isFalse =>
    have hv : ElementList.Valid (mergeLoop (· &&& ·) false false true b.elements rhs.elements).2 :=
      valid_mergeLoop bitwise_and (.inl rfl) _ _ h.elements hr.elements
    rw [intersectsLoop_eq, Bool.not_eq_true', isEmpty_eq_false_iff hv]
    refine exists_congr fun n => ?_
    rw [bit_mergeLoop bitwise_and (fun b => by cases b <;> rfl) (fun b => by cases b <;> rfl) n _ _
      h.elements hr.elements, and_eq_true]

-- ── The bits in the order of the elements

def bitsOf (l : ElementList) : List ℕ := l.flatMap fun e => e.block.bitsFrom 0

theorem mem_bitsFrom_block {e : SparseBitVectorElement} {n : ℕ} : n ∈ e.block.bitsFrom 0 ↔
    e.index = n / ElementSize ∧ e.test (n % ElementSize) := by
  rw [bitsFrom, mem_map, endPos_block]
  constructor
  · rintro ⟨p, hp, rfl⟩
    obtain ⟨hrange, hset⟩ := mem_filter.mp hp
    rw [mem_range'_1, Nat.zero_add, Nat.sub_zero] at hrange
    rw [bitAt_block] at hset
    have hp := hrange.2
    have hdiv : (e.index * ElementSize + p) / ElementSize = e.index := mul_add_div_of_lt hp
    have hmod : (e.index * ElementSize + p) % ElementSize = p := mul_add_mod_of_lt hp
    exact ⟨hdiv.symm, hmod.symm ▸ hset⟩
  · rintro ⟨hi, ht⟩
    refine ⟨n % ElementSize, mem_filter.mpr ⟨?_, ht⟩, ?_⟩
    · rw [mem_range'_1]
      unfold ElementSize
      omega
    · show e.index * ElementSize + n % ElementSize = n
      rw [hi]
      unfold ElementSize
      omega

theorem mem_bitsOf {l : ElementList} {n : ℕ} : n ∈ bitsOf l ↔ bit l n := by
  rw [bitsOf, mem_flatMap, bit, any_eq_true]
  refine exists_congr fun e => and_congr_right fun _ => ?_
  rw [mem_bitsFrom_block, and_eq_true, decide_eq_true_iff]

theorem bitsOf_pairwise {l : ElementList} (h : l.Valid) : (bitsOf l).Pairwise (· < ·) := by
  refine pairwise_flatMap.mpr ⟨fun e _ => bitsFrom_pairwise _ 0, h.sorted.imp ?_⟩
  intro e e' hlt n hn m hm
  have hi := (mem_bitsFrom_block.mp hn).1
  have hi' := (mem_bitsFrom_block.mp hm).1
  unfold ElementSize at hi hi'
  omega

theorem toNat_count_element (e : SparseBitVectorElement) :
    e.count.toNat = (e.block.bitsFrom 0).length % 2 ^ 32 := by
  have hcount : e.count = e.block.count := rfl
  rw [hcount, count_toNat, ncard_den, length_bitsFrom_zero]

/-- **The count is the number of set bits**, as an `unsigned`. -/
theorem count_toNat_bits (b : SparseBitVector) :
    b.count.toNat = (bitsOf b.elements).length % 2 ^ 32 := by
  have hfold : ∀ (l : ElementList) (n : UInt32), (l.foldl (fun n e => n + e.count) n).toNat =
      (n.toNat + (bitsOf l).length) % 2 ^ 32 := by
    intro l
    induction l with
    | nil =>
      intro n
      exact (Nat.mod_eq_of_lt n.toNat_lt).symm
    | cons e l ih =>
      intro n
      have hlen : (bitsOf (e :: l)).length = (e.block.bitsFrom 0).length + (bitsOf l).length := by
        rw [bitsOf, flatMap_cons, length_append, bitsOf]
      rw [foldl_cons, ih, UInt32.toNat_add, toNat_count_element, hlen]
      omega
  rw [count, hfold, UInt32.toNat_zero, Nat.zero_add]

-- ── The iterator

/-- `Iter` is the elements from it on. `BitNumber` is read as an index or modulo `ElementSize`
    only, so that it may as well not wrap. -/
structure SparseBitVectorIterator where
  atEnd : Bool
  iter : ElementList
  bitNumber : ℕ
  wordNumber : ℕ
  bits : Word

namespace SparseBitVectorIterator

def atBit (e : SparseBitVectorElement) (rest : ElementList) (bitPos : ℕ) :
    SparseBitVectorIterator :=
  let bitNumber := e.index * ElementSize + bitPos
  let wordNumber := bitNumber % ElementSize / WordSize
  ⟨false, e :: rest, bitNumber, wordNumber, e.word wordNumber >>> (bitPos % WordSize)⟩

def skipZeros (bits : Word) (bitNumber : ℕ) : Word × ℕ :=
  if bits ≠ 0 ∧ bits.getLsbD 0 = false then skipZeros (bits >>> 1) (bitNumber + 1)
  else (bits, bitNumber)
termination_by bits.toNat
decreasing_by
  rename_i h
  have hpos : 0 < bits.toNat := Nat.pos_of_ne_zero fun h0 => h.1 (BitVec.eq_of_toNat_eq h0)
  rw [BitVec.toNat_ushiftRight, Nat.shiftRight_eq_div_pow]
  omega

section

variable (it : SparseBitVectorIterator)

def advanceToNextNonZero : SparseBitVectorIterator :=
  if it.atEnd then it
  else
    let (bits, bitNumber) := skipZeros it.bits it.bitNumber
    let it := { it with bits := bits, bitNumber := bitNumber }
    if bits ≠ 0 then it
    else
      match it.iter with
      | [] => it -- not at the end, so on an element
      | e :: rest =>
        let nextSetBitNumber := e.find_next (bitNumber % ElementSize)
        if nextSetBitNumber = none ∨ bitNumber % ElementSize = 0 then
          match rest with
          | [] => { it with iter := [], wordNumber := 0, atEnd := true }
          | e :: rest => atBit e rest (e.find_first.getD 0)
        else atBit e rest (nextSetBitNumber.getD 0)

/-- `operator++` -/
def increment : SparseBitVectorIterator :=
  advanceToNextNonZero { it with bitNumber := it.bitNumber + 1, bits := it.bits >>> 1 }

/-- `operator*` -/
def deref : ℕ := it.bitNumber

end

/-- `operator==` -/
def equal (it rhs : SparseBitVectorIterator) : Bool :=
  if it.atEnd && rhs.atEnd then true
  else it.atEnd == rhs.atEnd && rhs.bitNumber == it.bitNumber

end SparseBitVectorIterator

open SparseBitVectorIterator

section

variable (b : SparseBitVector)

/-- The constructor of the iterator, with `AdvanceToFirstNonZero`. -/
def iterator (end_ : Bool) : SparseBitVectorIterator :=
  let it : SparseBitVectorIterator := ⟨end_, b.elements, 0, 2 ^ 32 - 1, 0⟩
  if it.atEnd then it
  else
    match b.elements with
    | [] => { it with atEnd := true }
    | e :: rest => atBit e rest (e.find_first.getD 0)

def begin : SparseBitVectorIterator := b.iterator false

def atEnd (it : SparseBitVectorIterator) : Bool := it.equal (b.iterator true)

end

/-- What `for (it = begin(); it != end(); ++it)` sees from `it` on, if it gets to the end in as
    many steps. -/
def iterate (b : SparseBitVector) : ℕ → SparseBitVectorIterator → Option (List ℕ)
  | steps, it =>
    if b.atEnd it then some []
    else
      match steps with
      | 0 => none
      | steps + 1 => (b.iterate steps it.increment).map (it.deref :: ·)

theorem atEnd_eq (b : SparseBitVector) (it : SparseBitVectorIterator) : b.atEnd it = it.atEnd := by
  rw [atEnd, SparseBitVectorIterator.equal]
  cases it.atEnd <;> rfl

structure OnBit (it : SparseBitVectorIterator) (e : SparseBitVectorElement) (rest : ElementList)
    (p : ℕ) : Prop where
  atEnd : it.atEnd = false
  iter : it.iter = e :: rest
  lt : p < ElementSize
  set : e.test p = true
  bitNumber : it.bitNumber = e.index * ElementSize + p
  bits : it.bits = e.word (p / WordSize) >>> (p % WordSize)
  full : ∀ e ∈ rest, e.isEmpty = false

def Sees (it : SparseBitVectorIterator) (left : List ℕ) : Prop :=
  (it.atEnd = true ∧ left = []) ∨
    ∃ e rest p, OnBit it e rest p ∧ left = e.block.bitsFrom p ++ bitsOf rest

theorem onBit_atBit {e : SparseBitVectorElement} {rest : ElementList} {p : ℕ}
    (hset : e.test p) (hfull : ∀ e ∈ rest, e.isEmpty = false) :
    OnBit (atBit e rest p) e rest p := by
  have hlt : p < ElementSize := by
    by_contra hge
    exact Bool.false_ne_true ((test_of_ge (Nat.not_lt.mp hge)).symm.trans hset)
  have hmod : (e.index * ElementSize + p) % ElementSize = p := Nat.mul_add_mod_of_lt hlt
  refine ⟨rfl, rfl, hlt, hset, rfl, ?_, hfull⟩
  show e.word ((e.index * ElementSize + p) % ElementSize / WordSize) >>> (p % WordSize) = _
  rw [hmod]

theorem sees_first {e : SparseBitVectorElement} {rest : ElementList} (he : e.isEmpty = false)
    (hfull : ∀ e ∈ rest, e.isEmpty = false) :
    Sees (atBit e rest (e.find_first.getD 0)) (bitsOf (e :: rest)) := by
  have hspec := e.find_first_spec
  have hbits := bitsFrom_of_first (zero_le _) hspec
  obtain ⟨p, -, hp⟩ := not_isEmpty_iff.mp he
  cases hfound : e.find_first with
  | none =>
    rw [hfound] at hspec
    cases (hspec p (zero_le _)).symm.trans hp
  | some r =>
    rw [hfound] at hspec hbits
    refine .inr ⟨e, rest, r, onBit_atBit hspec.2.1 hfull, ?_⟩
    rw [bitsOf, flatMap_cons, hbits, bitsOf]
    rfl

theorem next_sees (rest : ElementList) (bitNumber : ℕ) : (∀ e ∈ rest, e.isEmpty = false) →
    Sees (match rest with
      | [] => ⟨true, [], bitNumber, 0, 0⟩
      | e :: rest => atBit e rest (e.find_first.getD 0)) (bitsOf rest) := by
  intro hfull
  cases rest with
  | nil => exact .inl ⟨rfl, rfl⟩
  | cons e rest =>
    exact sees_first (hfull e mem_cons_self) (forall_mem_cons.mp hfull).2

theorem begin_sees {b : SparseBitVector} (h : b.Valid) : Sees b.begin (bitsOf b.elements) := by
  have hfull := h.elements.full
  rw [begin, iterator]
  dsimp only
  rw [if_neg Bool.false_ne_true]
  cases hel : b.elements with
  | nil => exact .inl ⟨rfl, rfl⟩
  | cons e rest =>
    rw [hel] at hfull
    exact sees_first (hfull e mem_cons_self) (forall_mem_cons.mp hfull).2

theorem skipZeros_spec (w : Word) (b n : ℕ) (h : ∃ j, b ≤ j ∧ j < WordSize ∧ w.getLsbD j) :
    skipZeros (w >>> b) n = (w >>> nextBit w b, n + (nextBit w b - b)) := by
  obtain ⟨j, hle, hlt, hj⟩ := h
  have hne : w >>> b ≠ 0 := fun hzero =>
    Bool.false_ne_true ((ushiftRight_eq_zero_iff.mp hzero j hle).symm.trans hj)
  have hlow : (w >>> b).getLsbD 0 = w.getLsbD b := by
    rw [BitVec.getLsbD_ushiftRight, Nat.add_zero]
  rw [skipZeros, hlow, nextBit]
  by_cases hbit : w.getLsbD b
  · rw [if_neg fun hc => Bool.false_ne_true (hc.2.symm.trans hbit),
      if_neg fun hc => Bool.false_ne_true (hc.2.symm.trans hbit), Nat.sub_self, Nat.add_zero]
  · have hfalse := eq_false_iff.mpr hbit
    have hbj : b ≠ j := fun heq => hbit (heq ▸ hj)
    have hex : ∃ j, b + 1 ≤ j ∧ j < WordSize ∧ w.getLsbD j := ⟨j, by omega, hlt, hj⟩
    have hlater := (nextBit_spec hex).1
    rw [if_pos ⟨hne, hfalse⟩, if_pos ⟨by omega, hfalse⟩, ← BitVec.shiftRight_add,
      skipZeros_spec w (b + 1) (n + 1) hex]
    congr 1
    omega
termination_by WordSize - b
decreasing_by omega

/-- **The increment** leaves the bits after the one that the iterator is on. -/
theorem increment_sees {it : SparseBitVectorIterator} {e : SparseBitVectorElement}
    {rest : ElementList} {p : ℕ} (h : OnBit it e rest p) :
    Sees it.increment (e.block.bitsFrom (p + 1) ++ bitsOf rest) := by
  have hlt : p < ElementSize := h.lt
  have hshift : it.bits >>> 1 = e.word (p / WordSize) >>> (p % WordSize + 1) := by
    rw [h.bits, ← BitVec.shiftRight_add]
  have htest : ∀ j, j < WordSize →
      e.test (p / WordSize * WordSize + j) = (e.word (p / WordSize)).getLsbD j :=
    fun j hj => e.block.bitAt_pos hj
  have hsplit : p = p / WordSize * WordSize + p % WordSize := by
    unfold WordSize
    omega
  rw [SparseBitVectorIterator.increment, advanceToNextNonZero]
  dsimp only
  rw [h.atEnd, if_neg Bool.false_ne_true, hshift, h.bitNumber, h.iter]
  by_cases hmore : ∃ j, p % WordSize + 1 ≤ j ∧ j < WordSize ∧ (e.word (p / WordSize)).getLsbD j
  · -- the next bit is in the same word
    obtain ⟨hle, hword, hset, hbefore⟩ := nextBit_spec hmore
    rw [skipZeros_spec _ _ _ hmore]
    generalize nextBit (e.word (p / WordSize)) (p % WordSize + 1) = j at hle hword hset hbefore
    have hne : e.word (p / WordSize) >>> j ≠ 0 := fun hzero =>
      Bool.false_ne_true ((ushiftRight_eq_zero_iff.mp hzero j le_rfl).symm.trans hset)
    have hdiv : (p / WordSize * WordSize + j) / WordSize = p / WordSize := mul_add_div_of_lt hword
    have hmod : (p / WordSize * WordSize + j) % WordSize = j := Nat.mul_add_mod_of_lt hword
    have hlt' : p / WordSize * WordSize + j < ElementSize := by
      unfold WordSize ElementSize at *
      omega
    have hfirst : IsFirst e.test (p + 1) (some (p / WordSize * WordSize + j)) := by
      refine ⟨by omega, (htest j hword).trans hset, fun q hq hqr => ?_⟩
      obtain ⟨i, rfl⟩ : ∃ i, q = p / WordSize * WordSize + i := Nat.exists_eq_add_of_le (by omega)
      have hi := Nat.lt_of_add_lt_add_left hqr
      exact (htest i (hi.trans hword)).trans (hbefore i (by omega) hi)
    rw [if_pos hne]
    refine .inr ⟨e, rest, _, ⟨rfl, rfl, hlt', hfirst.2.1, ?_, ?_, h.full⟩, ?_⟩
    · dsimp only
      omega
    · rw [hdiv, hmod]
    · rw [bitsFrom_of_first hlt hfirst]
      rfl
  · -- the word has no bit left
    have hzero : e.word (p / WordSize) >>> (p % WordSize + 1) = 0 := by
      refine ushiftRight_eq_zero_iff.mpr fun j hj => ?_
      by_cases hword : j < WordSize
      · exact Bool.eq_false_iff.mpr fun hset => hmore ⟨j, hj, hword, hset⟩
      · exact BitVec.getLsbD_of_ge _ _ (Nat.not_lt.mp hword)
    have hstop : ∀ n, skipZeros 0 n = (0, n) := fun n => by
      rw [skipZeros, if_neg fun hc => hc.1 rfl]
    rw [hzero, hstop, if_neg (not_not.mpr rfl)]
    dsimp only
    by_cases hlast : p + 1 = ElementSize
    · -- the last bit of the element
      have hmod : (e.index * ElementSize + p + 1) % ElementSize = 0 := by
        unfold ElementSize at *
        omega
      have hnil : e.block.bitsFrom (p + 1) = [] := by
        rw [hlast, ← e.endPos_block, bitsFrom_end]
      rw [if_pos (.inr hmod), hnil, nil_append]
      exact next_sees _ _ h.full
    · have hmod : (e.index * ElementSize + p + 1) % ElementSize = p + 1 := by
        unfold ElementSize at *
        omega
      have hspec := e.find_next_spec (p + 1)
      have hbits := bitsFrom_of_first (Nat.succ_le_of_lt hlt) hspec
      rw [hmod, hbits]
      cases hfound : e.find_next (p + 1) with
      | none =>
        rw [if_pos (.inl rfl)]
        exact next_sees _ _ h.full
      | some r =>
        rw [hfound] at hspec
        rw [if_neg (not_or.mpr ⟨Option.some_ne_none r, Nat.succ_ne_zero p⟩)]
        exact .inr ⟨e, rest, r, onBit_atBit hspec.2.1 h.full, rfl⟩

theorem iterate_sees (b : SparseBitVector) (steps : ℕ) : ∀ (it : SparseBitVectorIterator)
    (left : List ℕ), Sees it left → left.length ≤ steps → b.iterate steps it = some left := by
  induction steps with
  | zero =>
    rintro it left (⟨hend, rfl⟩ | ⟨e, rest, p, hon, rfl⟩) hlen
    · rw [iterate, atEnd_eq, if_pos hend]
    · rw [bitsFrom_cons (hon.lt.trans_eq e.endPos_block.symm) hon.set] at hlen
      exact absurd hlen (Nat.not_succ_le_zero _)
  | succ steps ih =>
    rintro it left (⟨hend, rfl⟩ | ⟨e, rest, p, hon, rfl⟩) hlen
    · rw [iterate, atEnd_eq, if_pos hend]
    · have hcons := bitsFrom_cons (hon.lt.trans_eq e.endPos_block.symm) hon.set
      rw [hcons] at hlen ⊢
      rw [iterate, atEnd_eq, hon.atEnd, if_neg Bool.false_ne_true,
        ih _ _ (increment_sees hon) (Nat.le_of_succ_le_succ hlen), SparseBitVectorIterator.deref,
        hon.bitNumber]
      rfl

/-- **The whole iteration** ends, and sees the set bits in order. -/
theorem iterate_begin_sparse {b : SparseBitVector} (h : b.Valid) {steps : ℕ}
    (hsteps : (bitsOf b.elements).length ≤ steps) :
    b.iterate steps b.begin = some (bitsOf b.elements) :=
  iterate_sees b steps _ _ (begin_sees h) hsteps

end SparseBitVector

end SvfPtsStore
