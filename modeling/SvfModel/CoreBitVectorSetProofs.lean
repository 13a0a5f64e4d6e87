import SvfModel.CoreBitVectorProofs

/-!
# `CoreBitVector` as a set of 32-bit indices

The rest of the class over the operations of `CoreBitVectorProofs`: what its word loops return,
the observers, the iterator, and runs of calls over variables that hold vectors.

Each observer reads `wordAt`, and so the set: the heart is `setWords_eq_iff`, that the words
with set bits are the same exactly when the sets are. `cbv_run_agrees_iff` says of every run when
it is a run on sets. It is one unless `|=` copies a vector of zero words into a vector without
words, which it reports as a change, or the target of the two-argument `intersectWithComplement`
is also the set to be removed, which is overwritten first.

`hash` reads the words that are stored: `cbv_hash_of_eq` says where that is harmless.
-/

namespace SvfPtsStore

open SvfPts SvfRun List
open Function (comp_apply forall_update_iff update update_of_ne update_self)
open BitVec (eq_of_getLsbD_eq getLsbD_zero)
open SetDataSet (den_empty den_inter den_reset den_set den_sub den_union)

namespace CoreBitVector

-- ── What the word loops return

/-- The loops of `operator&=` and `operator-=` over the words from index `i` on: each word is
    replaced, and `changed` is looked at until it is set. -/
def wordLoop (f : ℕ → Word → Word) : ℕ → Bool → List Word → Bool × List Word
  | _, changed, [] => (changed, [])
  | i, changed, w :: ws =>
    let changed := if !changed then decide (w ≠ f i w) else changed
    let (changed', ws') := wordLoop f (i + 1) changed ws
    (changed', f i w :: ws')

section

variable (c rhs : CoreBitVector)

/-- `operator&=` with its return value. -/
def intersectAssign : Bool × CoreBitVector :=
  let greaterOffset := max c.offset rhs.offset
  if ¬ c.canHold greaterOffset ∨ ¬ rhs.canHold greaterOffset then
    let (changed, words) := wordLoop (fun _ _ => 0) 0 false c.words
    (changed, { c with words := words })
  else
    let thisIndex := c.indexForBit greaterOffset
    let rhsIndex := rhs.indexForBit greaterOffset
    let (changed, words) := wordLoop (fun i w =>
      -- before the overlap, in it, and after it
      if i < thisIndex then 0
      else if rhsIndex + (i - thisIndex) < rhs.words.length then
        w &&& rhs.words.getD (rhsIndex + (i - thisIndex)) 0
      else 0) 0 false c.words
    (changed, { c with words := words })

/-- `operator-=` with its return value. -/
def subtractAssign : Bool × CoreBitVector :=
  let greaterOffset := max c.offset rhs.offset
  if ¬ c.canHold greaterOffset ∨ ¬ rhs.canHold greaterOffset then (false, c)
  else
    let thisIndex := c.indexForBit greaterOffset
    let rhsIndex := rhs.indexForBit greaterOffset
    let (changed, words) := wordLoop (fun i w =>
      if i < thisIndex then w
      else if rhsIndex + (i - thisIndex) < rhs.words.length then
        w &&& ~~~ rhs.words.getD (rhsIndex + (i - thisIndex)) 0
      else w) 0 false c.words
    (changed, { c with words := words })

def intersectWithComplement : Bool × CoreBitVector := c.subtractAssign rhs

end

/-- `wordLoop` is a map, and tells whether it changed a word. -/
theorem wordLoop_eq (f : ℕ → Word → Word) (i : ℕ) (changed : Bool) (ws : List Word) :
    wordLoop f i changed ws = (changed || decide (ws.mapIdx (fun j w => f (i + j) w) ≠ ws),
        ws.mapIdx fun j w => f (i + j) w) := by
  induction ws generalizing i changed with
  | nil =>
    rw [wordLoop, mapIdx_nil]
    cases changed <;> rfl
  | cons w ws ih =>
    have hshift : (fun j w => f (i + 1 + j) w) = fun j w => f (i + (j + 1)) w := by
      funext j w
      rw [Nat.add_assoc, Nat.add_comm 1 j]
    rw [wordLoop, ih, hshift, mapIdx_cons, Nat.add_zero]
    refine Prod.ext ?_ rfl
    cases changed with
    | true => rfl
    | false =>
      simp only [Bool.not_false, if_true, Bool.false_or, ne_eq, List.cons.injEq]
      by_cases hw : f i w = w
      · simp only [hw, not_true, decide_false, Bool.false_or, true_and]
      · have hw' : ¬ w = f i w := fun h => hw h.symm
        simp only [hw, hw', not_false_iff, decide_true, Bool.true_or, false_and]

/-- The loops of `&=` leave the vector of `andAssign`, and report whether a word changed. -/
theorem intersectAssign_eq (c rhs : CoreBitVector) : c.intersectAssign rhs =
      (decide ((c.andAssign rhs).words ≠ c.words), c.andAssign rhs) := by
  unfold intersectAssign andAssign
  by_cases h : ¬ c.canHold (max c.offset rhs.offset) ∨ ¬ rhs.canHold (max c.offset rhs.offset)
  · have hmap : c.words.mapIdx (fun _ _ => (0 : Word)) = c.words.map fun _ => 0 := by
      refine ext_getElem (by rw [length_mapIdx, length_map]) fun i _ _ => ?_
      rw [getElem_mapIdx, getElem_map]
    simp only [if_pos h, wordLoop_eq, Bool.false_or, hmap]
  · simp only [if_neg h, wordLoop_eq, Bool.false_or, Nat.zero_add]
    have hloop : ∀ i (w : Word), (if i < c.indexForBit (max c.offset rhs.offset) then 0
        else if rhs.indexForBit (max c.offset rhs.offset) +
            (i - c.indexForBit (max c.offset rhs.offset)) < rhs.words.length then
          w &&& rhs.words.getD (rhs.indexForBit (max c.offset rhs.offset) +
            (i - c.indexForBit (max c.offset rhs.offset))) 0
        else 0) =
        if i < c.indexForBit (max c.offset rhs.offset) then 0
        else w &&& rhs.words.getD (rhs.indexForBit (max c.offset rhs.offset) +
            (i - c.indexForBit (max c.offset rhs.offset))) 0 := by
      intro i w
      split_ifs with hi hr
      · rfl
      · rfl
      · rw [getD_eq_default _ _ (Nat.not_lt.mp hr)]
        exact BitVec.and_zero.symm
    simp only [hloop]

/-- The loop of `-=` leaves the vector of `subAssign`, and reports whether a word changed. -/
theorem subtractAssign_eq (c rhs : CoreBitVector) : c.subtractAssign rhs =
      (decide ((c.subAssign rhs).words ≠ c.words), c.subAssign rhs) := by
  unfold subtractAssign subAssign
  by_cases h : ¬ c.canHold (max c.offset rhs.offset) ∨ ¬ rhs.canHold (max c.offset rhs.offset)
  · simp only [if_pos h, ne_eq, not_true, decide_false]
  · simp only [if_neg h, wordLoop_eq, Bool.false_or, Nat.zero_add]
    have hloop : ∀ i (w : Word), (if i < c.indexForBit (max c.offset rhs.offset) then w
        else if rhs.indexForBit (max c.offset rhs.offset) +
            (i - c.indexForBit (max c.offset rhs.offset)) < rhs.words.length then
          w &&& ~~~ rhs.words.getD (rhs.indexForBit (max c.offset rhs.offset) +
            (i - c.indexForBit (max c.offset rhs.offset))) 0
        else w) =
        if i < c.indexForBit (max c.offset rhs.offset) then w
        else w &&& ~~~ rhs.words.getD (rhs.indexForBit (max c.offset rhs.offset) +
            (i - c.indexForBit (max c.offset rhs.offset))) 0 := by
      intro i w
      split_ifs with hi hr
      · rfl
      · rfl
      · rw [getD_eq_default _ _ (Nat.not_lt.mp hr)]
        exact BitVec.and_allOnes.symm
    simp only [hloop]

-- ── The observers

def isEmpty (c : CoreBitVector) : Bool := c.words.all fun w => decide (w = 0)

def countPopulation (w : Word) : ℕ := ((List.range WordSize).filter w.getLsbD).length

def count (c : CoreBitVector) : UInt32 :=
  c.words.foldl (fun n w => n + UInt32.ofNat (countPopulation w)) 0

def clear (_ : CoreBitVector) : CoreBitVector := empty

def firstSetIndex : List Word → ℕ → ℕ
  | [], index => index
  | w :: ws, index => if w ≠ 0 then index else firstSetIndex ws (index + 1)

def nextSetIndex (c : CoreBitVector) (start : ℕ) : ℕ :=
  firstSetIndex (c.words.drop start) start

theorem le_firstSetIndex (ws : List Word) (index : ℕ) : index ≤ firstSetIndex ws index := by
  induction ws generalizing index with
  | nil => exact le_rfl
  | cons w ws ih =>
    rw [firstSetIndex]
    split_ifs
    · exact le_rfl
    · exact (Nat.le_succ index).trans (ih (index + 1))

theorem le_nextSetIndex (c : CoreBitVector) (start : ℕ) : start ≤ c.nextSetIndex start :=
  le_firstSetIndex _ _

/-- The loop of `operator==`, from the two indices on. -/
def equalFrom (c rhs : CoreBitVector) (lhsSetIndex rhsSetIndex : ℕ) : Bool :=
  if lhsSetIndex < c.words.length ∧ rhsSetIndex < rhs.words.length then
    if lhsSetIndex * WordSize + c.offset ≠ rhsSetIndex * WordSize + rhs.offset ∨
        c.words.getD lhsSetIndex 0 ≠ rhs.words.getD rhsSetIndex 0 then false
    else c.equalFrom rhs (c.nextSetIndex (lhsSetIndex + 1)) (rhs.nextSetIndex (rhsSetIndex + 1))
  else decide (lhsSetIndex ≥ c.words.length ∧ rhsSetIndex ≥ rhs.words.length)
termination_by c.words.length - lhsSetIndex
decreasing_by
  have := c.le_nextSetIndex (lhsSetIndex + 1)
  omega

section

variable (c rhs : CoreBitVector)

/-- `operator==`. -/
def equal : Bool := c.equalFrom rhs (c.nextSetIndex 0) (rhs.nextSetIndex 0)

/-- `operator!=`. -/
def notEqual : Bool := !c.equal rhs

def contains : Bool := (c.intersectAssign rhs).2.equal rhs

def intersects : Bool :=
  if c.isEmpty && rhs.isEmpty then false
  else
    let earlierOffsetCBV := if c.offset ≤ rhs.offset then c else rhs
    let laterOffsetCBV := if c.offset ≤ rhs.offset then rhs else c
    let earlierOffset := (if c.offset < rhs.offset then c.offset else rhs.offset) / WordSize
    let laterOffset := (if c.offset > rhs.offset then c.offset else rhs.offset) / WordSize
    let laterOffset := laterOffset - earlierOffset
    -- `e` stops where the later vector begins or the earlier one ends
    ((earlierOffsetCBV.words.drop laterOffset).zip laterOffsetCBV.words).any
      fun p => decide (p.1 &&& p.2 ≠ 0)

end

structure CoreBitVectorIterator where
  wordIt : ℕ
  bit : ℕ

def nextBit (w : Word) (bit : ℕ) : ℕ :=
  if bit < WordSize ∧ w.getLsbD bit = false then nextBit w (bit + 1) else bit
termination_by WordSize - bit
decreasing_by omega

section

variable (c : CoreBitVector)

def atEnd (it : CoreBitVectorIterator) : Bool :=
  decide (it.wordIt = c.words.length)

/-- `operator++`. -/
def increment (it : CoreBitVectorIterator) : CoreBitVectorIterator :=
  let bit := it.bit + 1
  let it := if bit = WordSize ∨ c.words.getD it.wordIt 0 >>> bit = 0
    then ⟨c.nextSetIndex (it.wordIt + 1), 0⟩ else ⟨it.wordIt, bit⟩
  if c.atEnd it then it
  else { it with bit := nextBit (c.words.getD it.wordIt 0) it.bit }

def begin : CoreBitVectorIterator :=
  let it : CoreBitVectorIterator := ⟨0, 0⟩
  if !c.atEnd it && (c.words.getD 0 0).getLsbD 0 = false then c.increment it else it

/-- `operator*`. -/
def deref (it : CoreBitVectorIterator) : ℕ :=
  c.offset + it.wordIt * WordSize + it.bit

end

/-- What `for (it = begin(); it != end(); ++it)` sees from `it` on, if it gets to the end in as
    many steps. -/
def iterate (c : CoreBitVector) : ℕ → CoreBitVectorIterator → Option (List ℕ)
  | steps, it =>
    if c.atEnd it then some []
    else
      match steps with
      | 0 => none
      | steps + 1 => (c.iterate steps (c.increment it)).map (c.deref it :: ·)

-- ── Words and bits

theorem exists_bit_iff {w : Word} : w ≠ 0 ↔ ∃ j < WordSize, w.getLsbD j := by
  constructor
  · intro hne
    by_contra hnone
    refine hne (eq_of_getLsbD_eq fun j hj => ?_)
    rw [Bool.eq_false_iff.mpr fun h => hnone ⟨j, hj, h⟩]
    exact getLsbD_zero.symm
  · rintro ⟨j, -, hj⟩ rfl
    cases getLsbD_zero.symm.trans hj

theorem den_eq_iff {c d : CoreBitVector} : den c = den d ↔ ∀ n, c.wordAt n = d.wordAt n := by
  constructor
  · intro h n
    refine eq_of_getLsbD_eq fun j hj => Bool.eq_iff_iff.mpr ?_
    have hbit : n * WordSize + j ∈ den c ↔ n * WordSize + j ∈ den d := by rw [h]
    have hdiv : (n * WordSize + j) / WordSize = n := by
      unfold WordSize
      omega
    have hmod : (n * WordSize + j) % WordSize = j := by
      unfold WordSize
      omega
    rw [mem_den_iff, mem_den_iff, test_eq, test_eq, hdiv, hmod] at hbit
    exact hbit
  · intro h
    ext bit
    rw [mem_den_iff, mem_den_iff, test_eq, test_eq, h]

theorem den_eq_empty_iff {c : CoreBitVector} : den c = ∅ ↔ ∀ n, c.wordAt n = 0 := by
  have hempty : ∀ n, (empty : CoreBitVector).wordAt n = 0 := by
    intro n
    unfold wordAt empty
    simp only [getD_nil, ite_self]
  have hden : den (empty : CoreBitVector) = ∅ := den_empty
  rw [← hden, den_eq_iff]
  simp only [hempty]

theorem wordAt_stored (c : CoreBitVector) {i : ℕ} (hi : i < c.words.length) :
    c.wordAt (i + c.offset / WordSize) = c.words[i] := by
  obtain ⟨k, hk⟩ := c.aligned
  unfold wordAt
  rw [hk, Nat.mul_div_cancel_left _ (by decide : 0 < WordSize), if_neg, Nat.add_sub_cancel,
    getD_eq_getElem _ _ hi]
  unfold WordSize
  omega

theorem exists_stored {c : CoreBitVector} {n : ℕ} (h : c.wordAt n ≠ 0) :
    ∃ i, i < c.words.length ∧ n = i + c.offset / WordSize := by
  obtain ⟨k, hk⟩ := c.aligned
  have hbase : c.offset / WordSize = k := by
    rw [hk, Nat.mul_div_cancel_left _ (by decide)]
  rw [hbase]
  unfold wordAt at h
  rw [hbase] at h
  by_cases hlo : n * WordSize < c.offset
  · exact absurd (if_pos hlo) h
  · rw [if_neg hlo] at h
    refine ⟨n - k, ?_, ?_⟩
    · by_contra hlen
      exact h (getD_eq_default _ _ (Nat.not_lt.mp hlen))
    · rw [hk] at hlo
      unfold WordSize at hlo
      omega

theorem words_eq_iff {c : CoreBitVector} {ws : List Word} (hlen : ws.length = c.words.length) :
    ws = c.words ↔ ∀ n, wordAt { c with words := ws } n = c.wordAt n := by
  constructor
  · rintro rfl n
    rfl
  · intro h
    refine ext_getElem hlen fun i hi hi' => ?_
    rw [← wordAt_stored c hi', ← h, ← wordAt_stored { c with words := ws } hi]

-- ── The observers read the set

theorem isEmpty_iff (c : CoreBitVector) : c.isEmpty ↔ den c = ∅ := by
  rw [den_eq_empty_iff, isEmpty, all_eq_true]
  constructor
  · intro h n
    by_contra hne
    obtain ⟨i, hi, rfl⟩ := exists_stored hne
    rw [wordAt_stored c hi] at hne
    exact hne (of_decide_eq_true (h _ (getElem_mem hi)))
  · intro h w hw
    obtain ⟨i, hi, rfl⟩ := mem_iff_getElem.mp hw
    rw [← wordAt_stored c hi]
    exact decide_eq_true (h _)

theorem setWords_pairwise (c : CoreBitVector) : c.setWords.Pairwise fun p q => p.1 < q.1 := by
  have hidx : ∀ (ws : List Word) (i : ℕ), (ws.zipIdx i).Pairwise fun p q => p.2 < q.2 := by
    intro ws
    induction ws with
    | nil => exact fun _ => .nil
    | cons w ws ih =>
      intro i
      rw [zipIdx_cons]
      refine pairwise_cons.mpr ⟨fun q hq => ?_, ih (i + 1)⟩
      exact le_snd_of_mem_zipIdx hq
  refine (hidx c.words 0).filterMap _ fun p q hlt b hb b' hb' => ?_
  split_ifs at hb hb'
  rw [← Option.some.inj hb, ← Option.some.inj hb']
  show p.2 * WordSize + c.offset < q.2 * WordSize + c.offset
  unfold WordSize
  omega

/-- **The words with set bits are the same exactly when the sets are.** -/
theorem setWords_eq_iff {c d : CoreBitVector} : c.setWords = d.setWords ↔ den c = den d := by
  rw [den_eq_iff]
  constructor
  · intro h n
    have hword : ∀ w, c.wordAt n = w ∧ w ≠ 0 ↔ d.wordAt n = w ∧ w ≠ 0 := by
      intro w
      rw [← mem_setWords_wordAt, ← mem_setWords_wordAt, h]
    by_cases h0 : c.wordAt n = 0
    · by_contra hne
      exact hne (((hword _).mpr ⟨rfl, fun hd => hne (h0.trans hd.symm)⟩).1)
    · exact (((hword _).mp ⟨rfl, h0⟩).1).symm
  · intro h
    have hnodup : ∀ e : CoreBitVector, e.setWords.Nodup := fun e =>
      (setWords_pairwise e).imp fun hlt heq => absurd (congrArg Prod.fst heq) hlt.ne
    have hmem : ∀ {e e' : CoreBitVector}, (∀ n, e.wordAt n = e'.wordAt n) → ∀ p,
        p ∈ e.setWords → p ∈ e'.setWords := by
      rintro e e' hw ⟨b, w⟩ hp
      obtain ⟨i, -, -, hb⟩ := mem_setWords.mp hp
      obtain ⟨k, hk⟩ := e.aligned
      have hstart : b = (i + k) * WordSize := by rw [hb, hk]; ring
      rw [hstart] at hp ⊢
      rw [mem_setWords_wordAt, ← hw]
      exact mem_setWords_wordAt.mp hp
    have hperm : c.setWords.Perm d.setWords := by
      rw [perm_ext_iff_of_nodup (hnodup c) (hnodup d)]
      exact fun p => ⟨hmem h p, hmem (fun n => (h n).symm) p⟩
    exact hperm.eq_of_pairwise (fun p q _ _ hlt hgt => absurd hlt hgt.asymm) (setWords_pairwise c)
      (setWords_pairwise d)

def setWordsFrom (c : CoreBitVector) (start : ℕ) : List (ℕ × Word) :=
  ((c.words.drop start).zipIdx start).filterMap fun p =>
    if p.1 = 0 then none else some (p.2 * WordSize + c.offset, p.1)

/-- `nextSetIndex` is where the first of them is. -/
theorem setWordsFrom_eq (c : CoreBitVector) (start : ℕ) : c.setWordsFrom start =
    if c.nextSetIndex start < c.words.length then
      (c.nextSetIndex start * WordSize + c.offset, c.words.getD (c.nextSetIndex start) 0) ::
        c.setWordsFrom (c.nextSetIndex start + 1)
    else [] := by
  unfold nextSetIndex setWordsFrom
  by_cases hstart : start < c.words.length
  · rw [drop_eq_getElem_cons hstart, firstSetIndex, zipIdx_cons]
    by_cases hw : c.words[start] = 0
    · -- this word is skipped
      have ih := setWordsFrom_eq c (start + 1)
      unfold nextSetIndex setWordsFrom at ih
      rw [filterMap_cons_none (by rw [if_pos hw]), if_neg (not_not.mpr hw), ih]
    · rw [filterMap_cons_some (by rw [if_neg hw]), if_pos hw, if_pos hstart,
        getD_eq_getElem _ _ hstart]
  · rw [drop_eq_nil_of_le (Nat.not_lt.mp hstart), firstSetIndex, if_neg hstart]
    rfl
termination_by c.words.length - start

/-- The loop of `operator==` is that of `eq`. -/
theorem equalFrom_eq (c rhs : CoreBitVector) (a b : ℕ) :
    c.equalFrom rhs (c.nextSetIndex a) (rhs.nextSetIndex b) =
      eqLoop (c.setWordsFrom a) (rhs.setWordsFrom b) := by
  rw [equalFrom, setWordsFrom_eq c a, setWordsFrom_eq rhs b]
  by_cases ha : c.nextSetIndex a < c.words.length
  · by_cases hb : rhs.nextSetIndex b < rhs.words.length
    · rw [if_pos ⟨ha, hb⟩, if_pos ha, if_pos hb, eqLoop,
        equalFrom_eq c rhs (c.nextSetIndex a + 1) (rhs.nextSetIndex b + 1)]
    · rw [if_neg fun h => hb h.2, if_pos ha, if_neg hb]
      exact decide_eq_false fun h => absurd ha (Nat.not_lt.mpr h.1)
  · by_cases hb : rhs.nextSetIndex b < rhs.words.length
    · rw [if_neg fun h => ha h.1, if_neg ha, if_pos hb]
      exact decide_eq_false fun h => absurd hb (Nat.not_lt.mpr h.2)
    · rw [if_neg fun h => ha h.1, if_neg ha, if_neg hb]
      exact decide_eq_true ⟨Nat.not_lt.mp ha, Nat.not_lt.mp hb⟩
termination_by c.words.length - c.nextSetIndex a
decreasing_by
  have := c.le_nextSetIndex (c.nextSetIndex a + 1)
  omega

/-- **`operator==` is equality of the sets.** -/
theorem equal_iff {c rhs : CoreBitVector} : c.equal rhs ↔ den c = den rhs := by
  have hzero : ∀ d : CoreBitVector, d.setWordsFrom 0 = d.setWords := fun _ => rfl
  rw [equal, equalFrom_eq, eqLoop_iff, hzero, hzero, setWords_eq_iff]

theorem contains_iff {c rhs : CoreBitVector} : c.contains rhs ↔ den rhs ⊆ den c := by
  have hinter : den (c.andAssign rhs) = den c ∩ den rhs := den_inter c rhs
  rw [contains, intersectAssign_eq, equal_iff, hinter, Set.inter_eq_right]

/-- The loop of `intersects`, over the vector with the earlier offset and the other. -/
theorem overlap_iff {c d : CoreBitVector} (h : c.offset ≤ d.offset) :
    (((c.words.drop (d.offset / WordSize - c.offset / WordSize)).zip d.words).any
      fun p => decide (p.1 &&& p.2 ≠ 0)) ↔ ∃ n, c.wordAt n &&& d.wordAt n ≠ 0 := by
  have hle : c.offset / WordSize ≤ d.offset / WordSize := Nat.div_le_div_right h
  rw [any_eq_true]
  constructor
  · rintro ⟨p, hp, hne⟩
    obtain ⟨i, hi, rfl⟩ := mem_iff_getElem.mp hp
    rw [length_zip, length_drop] at hi
    have hne := of_decide_eq_true hne
    rw [getElem_zip, getElem_drop, ← wordAt_stored c (by omega),
      ← wordAt_stored d (by omega)] at hne
    have hn : d.offset / WordSize - c.offset / WordSize + i + c.offset / WordSize =
        i + d.offset / WordSize := by omega
    rw [hn] at hne
    exact ⟨_, hne⟩
  · rintro ⟨n, hne⟩
    have hc : c.wordAt n ≠ 0 := fun h0 => hne (by rw [h0]; exact BitVec.zero_and)
    have hd : d.wordAt n ≠ 0 := fun h0 => hne (by rw [h0]; exact BitVec.and_zero)
    obtain ⟨i, hi, hn⟩ := exists_stored hc
    obtain ⟨j, hj, rfl⟩ := exists_stored hd
    obtain rfl : i = d.offset / WordSize - c.offset / WordSize + j := by omega
    have hlen : j < ((c.words.drop (d.offset / WordSize - c.offset / WordSize)).zip
        d.words).length := by
      rw [length_zip, length_drop]
      omega
    refine ⟨_, getElem_mem hlen, decide_eq_true ?_⟩
    rw [getElem_zip, getElem_drop, ← wordAt_stored c (by omega), ← wordAt_stored d hj, ← hn]
    exact hne

theorem exists_common_word_iff {c d : CoreBitVector} :
    (∃ n, c.wordAt n &&& d.wordAt n ≠ 0) ↔ (den c ∩ den d).Nonempty := by
  have hinter : den (c.andAssign d) = den c ∩ den d := den_inter c d
  rw [Set.nonempty_iff_ne_empty, ← hinter, ne_eq, den_eq_empty_iff, not_forall]
  simp only [wordAt_andAssign, ne_eq]

theorem intersects_iff {c rhs : CoreBitVector} : c.intersects rhs ↔ (den c ∩ den rhs).Nonempty := by
  rw [intersects]
  by_cases hempty : (c.isEmpty && rhs.isEmpty)
  · rw [if_pos hempty]
    have hc := (isEmpty_iff c).mp (Bool.and_eq_true_iff.mp hempty).1
    rw [hc, Set.empty_inter]
    exact iff_of_false Bool.false_ne_true Set.not_nonempty_empty
  rw [if_neg hempty]
  by_cases hle : c.offset ≤ rhs.offset
  · have hmin : (if c.offset < rhs.offset then c.offset else rhs.offset) = c.offset := by
      split_ifs <;> omega
    have hmax : (if c.offset > rhs.offset then c.offset else rhs.offset) = rhs.offset := by
      split_ifs <;> omega
    simp only [if_pos hle, hmin, hmax]
    rw [overlap_iff hle, exists_common_word_iff]
  · have hmin : (if c.offset < rhs.offset then c.offset else rhs.offset) = rhs.offset := by
      split_ifs <;> omega
    have hmax : (if c.offset > rhs.offset then c.offset else rhs.offset) = c.offset := by
      split_ifs <;> omega
    simp only [if_neg hle, hmin, hmax]
    rw [overlap_iff (Nat.le_of_not_le hle), exists_common_word_iff, Set.inter_comm]

-- ── The bits in the order of the words

section

variable (c : CoreBitVector)

/-- The stored bit at a position, counted from the first bit of the first word. -/
def bitAt (p : ℕ) : Bool :=
  (c.words.getD (p / WordSize) 0).getLsbD (p % WordSize)

/-- One past the last position. -/
def endPos : ℕ := c.words.length * WordSize

/-- The set bits from position `p` on, in ascending order. -/
def bitsFrom (p : ℕ) : List ℕ :=
  ((List.range' p (c.endPos - p)).filter c.bitAt).map (c.offset + ·)

theorem bitAt_eq (p : ℕ) : c.bitAt p = c.test (c.offset + p) := by
  obtain ⟨k, hk⟩ := c.aligned
  have hdiv : (c.offset + p) / WordSize = k + p / WordSize := by
    rw [hk]
    unfold WordSize
    omega
  have hmod : (c.offset + p) % WordSize = p % WordSize := by
    rw [hk]
    unfold WordSize
    omega
  have hbase : c.offset / WordSize = k := by
    rw [hk, Nat.mul_div_cancel_left _ (by decide)]
  rw [test_eq, hdiv, hmod, wordAt, hbase, Nat.add_sub_cancel_left, if_neg, bitAt]
  rw [hk]
  unfold WordSize
  omega

end

/-- **All the set bits are the set.** -/
theorem mem_bitsFrom_zero {c : CoreBitVector} {bit : ℕ} : bit ∈ c.bitsFrom 0 ↔ bit ∈ den c := by
  rw [mem_den_iff, bitsFrom, mem_map]
  constructor
  · rintro ⟨p, hp, rfl⟩
    rw [← bitAt_eq]
    exact (mem_filter.mp hp).2
  · intro h
    have hhold : c.canHold bit := by
      by_contra hnot
      rw [test, if_neg hnot] at h
      exact Bool.false_ne_true h
    obtain ⟨hlo, hhi⟩ := canHold_iff.mp hhold
    refine ⟨bit - c.offset, mem_filter.mpr ⟨?_, ?_⟩, by omega⟩
    · rw [mem_range'_1, endPos]
      omega
    · rw [bitAt_eq, Nat.add_sub_cancel' hlo]
      exact h

theorem bitsFrom_pairwise (c : CoreBitVector) (p : ℕ) : (c.bitsFrom p).Pairwise (· < ·) := by
  have hrange : (List.range' p (c.endPos - p)).Pairwise (· < ·) := pairwise_lt_range' 1
  exact (hrange.filter c.bitAt).map _ fun _ _ h => Nat.add_lt_add_left h c.offset

theorem bitsFrom_skip {c : CoreBitVector} {p q : ℕ} (hpq : p ≤ q) (hq : q ≤ c.endPos)
    (hnone : ∀ r, p ≤ r → r < q → c.bitAt r = false) : c.bitsFrom p = c.bitsFrom q := by
  have hsplit : List.range' p (c.endPos - p) =
      List.range' p (q - p) ++ List.range' q (c.endPos - q) := by
    have happ : List.range' p (q - p) ++ List.range' (p + 1 * (q - p)) (c.endPos - q) =
        List.range' p (q - p + (c.endPos - q)) := range'_append
    rw [Nat.one_mul, Nat.add_sub_cancel' hpq] at happ
    rw [happ]
    congr 1
    omega
  have hnil : (List.range' p (q - p)).filter c.bitAt = [] := by
    refine filter_eq_nil_iff.mpr fun r hr => ?_
    rw [mem_range'_1] at hr
    exact Bool.eq_false_iff.mp (hnone r hr.1 (by omega))
  rw [bitsFrom, hsplit, filter_append, hnil, nil_append, bitsFrom]

theorem bitsFrom_cons {c : CoreBitVector} {p : ℕ} (hp : p < c.endPos) (h : c.bitAt p) :
    c.bitsFrom p = (c.offset + p) :: c.bitsFrom (p + 1) := by
  have hrange : List.range' p (c.endPos - p) = p :: List.range' (p + 1) (c.endPos - (p + 1)) := by
    rw [← range'_succ]
    congr 1
    omega
  rw [bitsFrom, hrange, filter_cons_of_pos h, map_cons, bitsFrom]

theorem bitsFrom_end (c : CoreBitVector) : c.bitsFrom c.endPos = [] := by
  rw [bitsFrom, Nat.sub_self, range'_zero, filter_nil, map_nil]

theorem countP_words (ws : List Word) : (List.range (ws.length * WordSize)).countP
        (fun p => (ws.getD (p / WordSize) 0).getLsbD (p % WordSize)) =
      (ws.map countPopulation).sum := by
  induction ws with
  | nil => rfl
  | cons w ws ih =>
    rw [length_cons, Nat.succ_mul, Nat.add_comm, range_add, countP_append,
      countP_map, map_cons, sum_cons, ← ih]
    congr 1
    · rw [countPopulation, ← countP_eq_length_filter]
      refine countP_congr fun p hp => ?_
      have hlt := mem_range.mp hp
      rw [Nat.div_eq_of_lt hlt, Nat.mod_eq_of_lt hlt]
      rfl
    · refine countP_congr fun p _ => ?_
      have hdiv : (WordSize + p) / WordSize = p / WordSize + 1 := by
        unfold WordSize
        omega
      have hmod : (WordSize + p) % WordSize = p % WordSize := by
        unfold WordSize
        omega
      rw [comp_apply, hdiv, hmod]
      rfl

theorem length_bitsFrom_zero (c : CoreBitVector) :
    (c.bitsFrom 0).length = (c.words.map countPopulation).sum := by
  rw [bitsFrom, length_map, ← countP_eq_length_filter, Nat.sub_zero,
    ← range_eq_range', ← countP_words]
  rfl

theorem ncard_den (c : CoreBitVector) : (den c).ncard = (c.words.map countPopulation).sum := by
  have hset : den c = ((c.bitsFrom 0).toFinset : Set ℕ) := by
    ext bit
    rw [Finset.mem_coe, mem_toFinset, mem_bitsFrom_zero]
  have hnodup : (c.bitsFrom 0).Nodup := (c.bitsFrom_pairwise 0).imp fun h => h.ne
  rw [hset, Set.ncard_coe_finset, toFinset_card_of_nodup hnodup, length_bitsFrom_zero]

/-- **The count is the number of elements, as a `u32_t`.** -/
theorem count_toNat (c : CoreBitVector) : c.count.toNat = (den c).ncard % 2 ^ 32 := by
  have hfold : ∀ (ws : List Word) (n : UInt32),
      (ws.foldl (fun n w => n + UInt32.ofNat (countPopulation w)) n).toNat =
        (n.toNat + (ws.map countPopulation).sum) % 2 ^ 32 := by
    intro ws
    induction ws with
    | nil =>
      intro n
      exact (Nat.mod_eq_of_lt n.toNat_lt).symm
    | cons w ws ih =>
      intro n
      rw [foldl_cons, ih, UInt32.toNat_add, UInt32.toNat_ofNat', map_cons, sum_cons]
      omega
  rw [ncard_den, count, hfold, UInt32.toNat_zero, Nat.zero_add]

-- ── The iterator

theorem nextSetIndex_spec {c : CoreBitVector} {start : ℕ} (h : start ≤ c.words.length) :
    c.nextSetIndex start ≤ c.words.length ∧
      (∀ i, start ≤ i → i < c.nextSetIndex start → c.words.getD i 0 = 0) ∧
      (c.nextSetIndex start < c.words.length → c.words.getD (c.nextSetIndex start) 0 ≠ 0) := by
  unfold nextSetIndex
  by_cases hstart : start < c.words.length
  · rw [drop_eq_getElem_cons hstart, firstSetIndex]
    have hget : c.words.getD start 0 = c.words[start] := getD_eq_getElem _ _ hstart
    by_cases hw : c.words[start] = 0
    · obtain ⟨hle, hzero, hnext⟩ := nextSetIndex_spec (c := c) (Nat.succ_le_of_lt hstart)
      rw [if_neg (not_not.mpr hw)]
      refine ⟨hle, fun i hi hlt => ?_, hnext⟩
      rcases Nat.eq_or_lt_of_le hi with rfl | hlt'
      · rw [hget, hw]
      · exact hzero i hlt' hlt
    · rw [if_pos hw]
      refine ⟨h, fun i hi hlt => absurd hlt (Nat.not_lt.mpr hi), fun _ => ?_⟩
      rw [hget]
      exact hw
  · rw [drop_eq_nil_of_le (Nat.not_lt.mp hstart), firstSetIndex]
    exact ⟨h, fun i hi hlt => absurd hlt (Nat.not_lt.mpr hi), fun hlt => absurd hlt hstart⟩
termination_by c.words.length - start

/-- Where there is a bit to be found `nextBit` finds the first one. -/
theorem nextBit_spec {w : Word} {bit : ℕ} (h : ∃ j, bit ≤ j ∧ j < WordSize ∧ w.getLsbD j) :
    bit ≤ nextBit w bit ∧ nextBit w bit < WordSize ∧ w.getLsbD (nextBit w bit) ∧
      ∀ j, bit ≤ j → j < nextBit w bit → w.getLsbD j = false := by
  obtain ⟨j, hle, hlt, hj⟩ := h
  rw [nextBit]
  by_cases hbit : w.getLsbD bit
  · rw [if_neg fun hc => Bool.false_ne_true (hc.2.symm.trans hbit)]
    exact ⟨le_rfl, by omega, hbit, fun i hi hlt' => absurd hlt' (Nat.not_lt.mpr hi)⟩
  · have hfalse := Bool.eq_false_iff.mpr hbit
    have hne : bit ≠ j := fun heq => hbit (heq ▸ hj)
    have hlater : bit + 1 ≤ j := Nat.lt_of_le_of_ne hle hne
    obtain ⟨h1, h2, h3, h4⟩ := nextBit_spec ⟨j, hlater, hlt, hj⟩
    rw [if_pos ⟨by omega, hfalse⟩]
    refine ⟨by omega, h2, h3, fun i hi hlt' => ?_⟩
    rcases Nat.eq_or_lt_of_le hi with rfl | hi'
    · exact hfalse
    · exact h4 i hi' hlt'
termination_by WordSize - bit
decreasing_by omega

/-- `*wordIt >> bit` is 0 when no bit is left. -/
theorem ushiftRight_eq_zero_iff {w : Word} {bit : ℕ} :
    w >>> bit = 0 ↔ ∀ j, bit ≤ j → w.getLsbD j = false := by
  constructor
  · intro h j hj
    have hget := BitVec.getLsbD_ushiftRight w bit (j - bit)
    rw [h, Nat.add_sub_cancel' hj] at hget
    exact hget.symm.trans getLsbD_zero
  · intro h
    refine eq_of_getLsbD_eq fun j _ => ?_
    rw [BitVec.getLsbD_ushiftRight, h _ (Nat.le_add_right _ _)]
    exact getLsbD_zero.symm

def OnBit (c : CoreBitVector) (it : CoreBitVectorIterator) : Prop :=
  it.wordIt < c.words.length ∧ it.bit < WordSize

def pos (it : CoreBitVectorIterator) : ℕ := it.wordIt * WordSize + it.bit

theorem bitAt_pos (c : CoreBitVector) {w b : ℕ} (hb : b < WordSize) :
    c.bitAt (w * WordSize + b) = (c.words.getD w 0).getLsbD b := by
  have hdiv : (w * WordSize + b) / WordSize = w := by
    unfold WordSize at *
    omega
  have hmod : (w * WordSize + b) % WordSize = b := by
    unfold WordSize at *
    omega
  rw [bitAt, hdiv, hmod]

theorem pos_lt_endPos {c : CoreBitVector} {it : CoreBitVectorIterator} (h : c.OnBit it) :
    pos it < c.endPos := by
  obtain ⟨hw, hb⟩ := h
  unfold pos endPos WordSize at *
  omega

/-- What an increment that starts at position `p` leads to: the end, or the next set bit. -/
def LeadsTo (c : CoreBitVector) (p : ℕ) (it : CoreBitVectorIterator) : Prop :=
  (c.atEnd it = true ∧ ∀ r, p < r → r < c.endPos → c.bitAt r = false) ∨
  (c.OnBit it ∧ p < pos it ∧ c.bitAt (pos it) = true ∧
    ∀ r, p < r → r < pos it → c.bitAt r = false)

theorem word_of_pos {p w v r b : ℕ} (hp : p = w * WordSize + b) (hlo : p < r)
    (hhi : r < v * WordSize) :
    r / WordSize < v ∧ (r / WordSize = w ∧ b < r % WordSize ∨ w + 1 ≤ r / WordSize) := by
  unfold WordSize at *
  omega

/-- **The increment** goes to the next set bit. -/
theorem increment_leadsTo {c : CoreBitVector} {it : CoreBitVectorIterator} (h : c.OnBit it) :
    c.LeadsTo (pos it) (c.increment it) := by
  obtain ⟨hword, hbit⟩ := h
  unfold increment
  by_cases hnext : it.bit + 1 = WordSize ∨ c.words.getD it.wordIt 0 >>> (it.bit + 1) = 0
  · -- no bit is left in this word
    have hrest : ∀ j, it.bit < j → j < WordSize → (c.words.getD it.wordIt 0).getLsbD j = false := by
      intro j hj hlt
      rcases hnext with hlast | hzero
      · omega
      · exact ushiftRight_eq_zero_iff.mp hzero j hj
    obtain ⟨hle, hzero, hfound⟩ := nextSetIndex_spec (c := c) (Nat.succ_le_of_lt hword)
    have hbetween : ∀ r, pos it < r → r < c.nextSetIndex (it.wordIt + 1) * WordSize →
        c.bitAt r = false := by
      intro r hr hlt
      obtain ⟨hlast, hsame | hlater⟩ := word_of_pos rfl hr hlt
      · rw [bitAt, hsame.1]
        exact hrest _ hsame.2 (Nat.mod_lt _ (by decide))
      · rw [bitAt, hzero _ hlater hlast]
        exact getLsbD_zero
    simp only [if_pos hnext]
    by_cases hend : c.nextSetIndex (it.wordIt + 1) = c.words.length
    · have hat : c.atEnd ⟨c.nextSetIndex (it.wordIt + 1), 0⟩ := decide_eq_true hend
      rw [if_pos hat]
      refine .inl ⟨hat, fun r hr hlt => hbetween r hr ?_⟩
      rw [hend]
      exact hlt
    · have hat : ¬ c.atEnd ⟨c.nextSetIndex (it.wordIt + 1), 0⟩ := by
        rw [atEnd, decide_eq_true_iff]
        exact hend
      have hlt := Nat.lt_of_le_of_ne hle hend
      obtain ⟨j, hj, hset⟩ := exists_bit_iff.mp (hfound hlt)
      obtain ⟨-, h2, h3, h4⟩ := nextBit_spec ⟨j, Nat.zero_le j, hj, hset⟩
      have hafter := c.le_nextSetIndex (it.wordIt + 1)
      rw [if_neg hat]
      refine .inr ⟨⟨hlt, h2⟩, ?_, ?_, fun r hr hlt' => ?_⟩
      · show it.wordIt * WordSize + it.bit < c.nextSetIndex (it.wordIt + 1) * WordSize + nextBit _ 0
        unfold WordSize at *
        omega
      · exact (c.bitAt_pos h2).trans h3
      · by_cases hin : r < c.nextSetIndex (it.wordIt + 1) * WordSize
        · exact hbetween r hr hin
        · -- in the word that was found, before its first bit
          obtain ⟨b, rfl⟩ : ∃ b, r = c.nextSetIndex (it.wordIt + 1) * WordSize + b :=
            ⟨_, (Nat.add_sub_cancel' (Nat.not_lt.mp hin)).symm⟩
          have hb := Nat.lt_of_add_lt_add_left hlt'
          exact (c.bitAt_pos (hb.trans h2)).trans (h4 b (Nat.zero_le b) hb)
  · -- the next bit is in this word
    obtain ⟨hne, hsome⟩ := not_or.mp hnext
    have hexists : ∃ j, it.bit + 1 ≤ j ∧ j < WordSize ∧ (c.words.getD it.wordIt 0).getLsbD j := by
      by_contra hnone
      refine hsome (ushiftRight_eq_zero_iff.mpr fun j hj => ?_)
      by_cases hlt : j < WordSize
      · exact Bool.eq_false_iff.mpr fun hset => hnone ⟨j, hj, hlt, hset⟩
      · exact BitVec.getLsbD_of_ge _ _ (Nat.not_lt.mp hlt)
    obtain ⟨h1, h2, h3, h4⟩ := nextBit_spec hexists
    have hat : ¬ c.atEnd ⟨it.wordIt, it.bit + 1⟩ := by
      rw [atEnd, decide_eq_true_iff]
      exact hword.ne
    simp only [if_neg hnext]
    rw [if_neg hat]
    refine .inr ⟨⟨hword, h2⟩, ?_, (c.bitAt_pos h2).trans h3, fun r hr hlt => ?_⟩
    · exact Nat.add_lt_add_left h1 _
    · obtain ⟨b, rfl⟩ : ∃ b, r = it.wordIt * WordSize + b := by
        refine ⟨r - it.wordIt * WordSize, ?_⟩
        unfold pos at hr
        omega
      have hb := Nat.lt_of_add_lt_add_left hlt
      exact (c.bitAt_pos (hb.trans h2)).trans (h4 b (Nat.lt_of_add_lt_add_left hr) hb)

theorem LeadsTo.iterate {c : CoreBitVector} {p : ℕ} {it : CoreBitVectorIterator}
    (hp : p < c.endPos) (h : c.LeadsTo p it) (steps : ℕ)
    (hsteps : c.endPos ≤ p + 1 + steps)
    (hrest : c.OnBit it → c.bitAt (pos it) → c.endPos ≤ pos it + steps →
      c.iterate steps it = some (c.bitsFrom (pos it))) :
    c.iterate steps it = some (c.bitsFrom (p + 1)) := by
  rcases h with ⟨hend, hnone⟩ | ⟨hon, hlt, hset, hnone⟩
  · have hiter : c.iterate steps it = some [] := by
      cases steps <;> rw [CoreBitVector.iterate, if_pos hend]
    rw [hiter, bitsFrom_skip hp le_rfl hnone, bitsFrom_end]
  · rw [bitsFrom_skip hlt (pos_lt_endPos hon).le fun r hr hlt' => hnone r hr hlt']
    exact hrest hon hset (by omega)

theorem iterate_eq {c : CoreBitVector} (steps : ℕ) (it : CoreBitVectorIterator) (h : c.OnBit it)
    (hset : c.bitAt (pos it)) (hsteps : c.endPos ≤ pos it + steps) :
    c.iterate steps it = some (c.bitsFrom (pos it)) := by
  induction steps generalizing it with
  | zero => exact absurd (pos_lt_endPos h) (Nat.not_lt.mpr hsteps)
  | succ steps ih =>
    have hnot : ¬ c.atEnd it := by
      rw [atEnd, decide_eq_true_iff]
      exact h.1.ne
    have hnext := (increment_leadsTo h).iterate (pos_lt_endPos h) steps (by omega) (ih _)
    have hderef : c.deref it = c.offset + pos it := Nat.add_assoc _ _ _
    rw [CoreBitVector.iterate, if_neg hnot, hnext, Option.map_some, hderef,
      ← bitsFrom_cons (pos_lt_endPos h) hset]

/-- **The whole iteration** ends, and sees the set bits in order. -/
theorem iterate_begin (c : CoreBitVector) : c.iterate c.endPos c.begin = some (c.bitsFrom 0) := by
  unfold begin
  by_cases hnil : c.words.length = 0
  · have hend : c.atEnd ⟨0, 0⟩ := decide_eq_true hnil.symm
    have hzero : c.endPos = 0 := by
      rw [endPos, hnil, Nat.zero_mul]
    rw [if_neg (by rw [hend]; exact Bool.false_ne_true), hzero, CoreBitVector.iterate, if_pos hend,
      ← hzero, bitsFrom_end]
  · have hlen := Nat.pos_of_ne_zero hnil
    have hend : c.atEnd ⟨0, 0⟩ = false := decide_eq_false fun h => hnil h.symm
    have hon : c.OnBit ⟨0, 0⟩ := ⟨hlen, by decide⟩
    have hbit : c.bitAt 0 = (c.words.getD 0 0).getLsbD 0 := rfl
    by_cases hset : (c.words.getD 0 0).getLsbD 0
    · rw [hset, if_neg (by simp only [Bool.true_eq_false, decide_false, Bool.and_false,
        Bool.false_eq_true, not_false_iff])]
      exact iterate_eq c.endPos ⟨0, 0⟩ hon (hbit.trans hset) (Nat.le_add_left _ _)
    · have hfalse := Bool.eq_false_iff.mpr hset
      have hpos : 0 < c.endPos := pos_lt_endPos hon
      rw [if_pos (by simp only [hend, hfalse, Bool.not_false, decide_true, Bool.and_self])]
      have hnext := (increment_leadsTo hon).iterate hpos c.endPos (by omega)
        fun ho hs he => iterate_eq c.endPos _ ho hs he
      rw [hnext, ← bitsFrom_skip (Nat.zero_le _) hpos]
      intro r _ hr
      obtain rfl : r = 0 := by
        have : r < 0 + 1 := hr
        omega
      exact hbit.trans hfalse

-- ── The range of the words

def endBit (c : CoreBitVector) : ℕ := c.offset + c.words.length * WordSize

/-- The words lie within the `u32_t` bits, so that no offset, and no bit that is held, wraps.
    Without words the offset is 0. -/
structure InRange (c : CoreBitVector) : Prop where
  fits : c.endBit ≤ 2 ^ 32
  no_word : c.words.length = 0 → c.offset = 0

theorem inRange_empty : InRange empty := ⟨by decide, fun _ => rfl⟩

def SameRange (c d : CoreBitVector) : Prop :=
  d.offset = c.offset ∧ d.words.length = c.words.length

theorem SameRange.endBit {c d : CoreBitVector} (h : SameRange c d) : d.endBit = c.endBit := by
  rw [CoreBitVector.endBit, h.1, h.2, CoreBitVector.endBit]

theorem InRange.of_same {c d : CoreBitVector} (h : InRange c) (hsame : SameRange c d) :
    InRange d where
  fits := hsame.endBit.trans_le h.fits
  no_word hd := hsame.1.trans (h.no_word (hsame.2 ▸ hd))

theorem extendForward_endBit {c : CoreBitVector} {bit : ℕ} (h : c.endBit ≤ bit) :
    (c.extendForward bit).endBit = bit / WordSize * WordSize + WordSize := by
  obtain ⟨k, hk⟩ := c.aligned
  unfold endBit at h
  have hnot : ¬ (bit < c.offset ∨ c.canHold bit) := by
    rw [canHold_iff]
    omega
  unfold extendForward
  simp only [hnot, if_false]
  unfold endBit WordSize at *
  simp only [length_append, length_replicate]
  omega

theorem extendBackward_offset {c : CoreBitVector} {bit : ℕ} (h : bit < c.offset) :
    (c.extendBackward bit).offset = bit / WordSize * WordSize := by
  obtain ⟨k, hk⟩ := c.aligned
  have hlt : ¬ bit / WordSize * WordSize ≥ c.offset := by
    have := Nat.div_mul_le_self bit WordSize
    omega
  unfold extendBackward
  simp only [hlt, if_false]

/-- The range after `extendTo`: up to the word of the bit, and no further. -/
theorem extendTo_range {c : CoreBitVector} (h : InRange c) (bit : ℕ) :
    (c.extendTo bit).offset = (if c.words.length = 0 then bit / WordSize * WordSize
      else min c.offset (bit / WordSize * WordSize)) ∧
    (c.extendTo bit).endBit = if c.words.length = 0 then bit / WordSize * WordSize + WordSize
      else max c.endBit (bit / WordSize * WordSize + WordSize) := by
  obtain ⟨k, hk⟩ := c.aligned
  unfold extendTo
  by_cases h0 : c.words.length = 0
  · rw [if_pos ⟨h.no_word h0, h0⟩, if_pos h0, if_pos h0]
    exact ⟨rfl, by rw [endBit, length_singleton, Nat.one_mul]⟩
  rw [if_neg fun hc => h0 hc.2, if_neg h0, if_neg h0]
  by_cases hback : bit < c.offset
  · rw [if_pos hback, extendBackward_offset hback]
    have hend := (extendBackward_bounds hback).2
    refine ⟨?_, hend.trans ?_⟩
    · unfold WordSize
      omega
    · unfold endBit WordSize at *
      omega
  rw [if_neg hback]
  by_cases hforw : bit ≥ c.offset + c.words.length * WordSize
  · rw [if_pos hforw, offset_extendForward, extendForward_endBit hforw]
    unfold endBit WordSize at *
    omega
  · rw [if_neg hforw]
    unfold endBit WordSize at *
    omega

theorem set_range (c : CoreBitVector) (bit : ℕ) : SameRange (c.extendTo bit) (c.set bit) :=
  ⟨rfl, length_modify _ _ _⟩

theorem InRange.set {c : CoreBitVector} (h : InRange c) {bit : ℕ} (hbit : bit < 2 ^ 32) :
    InRange (c.set bit) := by
  obtain ⟨hoff, hend⟩ := extendTo_range h bit
  refine InRange.of_same ⟨?_, fun hlen => ?_⟩ (set_range c bit)
  · have hfits := h.fits
    rw [hend]
    unfold WordSize
    split_ifs <;> omega
  · have hhold := canHold_iff.mp (canHold_extendTo c bit)
    rw [hlen] at hhold
    omega

theorem reset_range (c : CoreBitVector) (bit : ℕ) : SameRange c (c.reset bit) := by
  unfold reset
  split_ifs
  · exact ⟨rfl, length_modify _ _ _⟩
  · exact ⟨rfl, rfl⟩

section

variable (c rhs : CoreBitVector)

theorem andAssign_range : SameRange c (c.andAssign rhs) := by
  unfold andAssign
  dsimp only
  split_ifs
  · exact ⟨rfl, length_map _⟩
  · exact ⟨rfl, length_mapIdx⟩

theorem subAssign_range : SameRange c (c.subAssign rhs) := by
  unfold subAssign
  dsimp only
  split_ifs
  · exact ⟨rfl, rfl⟩
  · exact ⟨rfl, length_mapIdx⟩

/-- The vector that `|=` extends for `rhs` has the range of both. -/
theorem extend_for_union_range :
    ∃ d : CoreBitVector, (let c1 := if c.finalBit < rhs.finalBit
        then c.extendForward rhs.finalBit else c
      if c1.offset > rhs.offset then c1.extendBackward rhs.offset else c1) = d ∧
    d.offset = min c.offset rhs.offset ∧ d.endBit = max c.endBit rhs.endBit := by
  obtain ⟨k, hk⟩ := c.aligned
  obtain ⟨m, hm⟩ := rhs.aligned
  have hlast : ∀ d : CoreBitVector, d.finalBit = d.endBit - 1 := fun _ => rfl
  obtain ⟨c1, hc1⟩ : ∃ c1, (if c.finalBit < rhs.finalBit then c.extendForward rhs.finalBit
    else c) = c1 := ⟨_, rfl⟩
  have hoff : c1.offset = c.offset := by
    rw [← hc1]
    split_ifs
    · exact offset_extendForward c _
    · rfl
  have hend : c1.endBit = max c.endBit rhs.endBit := by
    rw [← hc1, hlast, hlast]
    by_cases hlt : c.endBit - 1 < rhs.endBit - 1
    · rw [if_pos hlt, extendForward_endBit (by omega)]
      unfold endBit at *
      rw [hk, hm] at *
      unfold WordSize at *
      omega
    · rw [if_neg hlt]
      unfold endBit WordSize at *
      omega
  refine ⟨_, rfl, ?_⟩
  simp only [hc1]
  by_cases hback : c1.offset > rhs.offset
  · have hsame : (c1.extendBackward rhs.offset).endBit = c1.endBit := (extendBackward_bounds hback).2
    rw [if_pos hback, extendBackward_offset hback, hsame, hend]
    refine ⟨?_, rfl⟩
    rw [hoff] at hback
    rw [hm] at hback ⊢
    unfold WordSize at *
    omega
  · rw [if_neg hback, hend]
    exact ⟨by omega, rfl⟩

/-- The range after `|=`. -/
theorem orAssign_range : (c.words.length = 0 → (c.orAssign rhs).2 = rhs) ∧
    (c.words.length ≠ 0 → rhs.words.length = 0 → (c.orAssign rhs).2 = c) ∧
    (c.words.length ≠ 0 → rhs.words.length ≠ 0 →
      (c.orAssign rhs).2.offset = min c.offset rhs.offset ∧
      (c.orAssign rhs).2.endBit = max c.endBit rhs.endBit) := by
  unfold orAssign
  refine ⟨fun hc => ?_, fun hc hr => ?_, fun hc hr => ?_⟩
  · rw [if_pos hc]
  · rw [if_neg hc, if_pos hr]
  · rw [if_neg hc, if_neg hr]
    obtain ⟨d, hd, hoff, hend⟩ := extend_for_union_range c rhs
    simp only at hd
    simp only [hd]
    refine ⟨hoff, ?_⟩
    rw [← hend, endBit, endBit, length_mapIdx]

end

theorem InRange.orAssign {c rhs : CoreBitVector} (h : InRange c) (hr : InRange rhs) :
    InRange (c.orAssign rhs).2 := by
  obtain ⟨hcopy, hsame, hboth⟩ := orAssign_range c rhs
  by_cases hc : c.words.length = 0
  · rw [hcopy hc]
    exact hr
  by_cases hrl : rhs.words.length = 0
  · rw [hsame hc hrl]
    exact h
  obtain ⟨hoff, hend⟩ := hboth hc hrl
  refine ⟨hend.trans_le (max_le h.fits hr.fits), fun hlen => ?_⟩
  rw [endBit, hlen, hoff] at hend
  unfold endBit WordSize at hend
  omega

-- ── What the operations report

theorem SameRange.words_ne_iff {c d : CoreBitVector} (h : SameRange c d) :
    d.words ≠ c.words ↔ den d ≠ den c := by
  obtain ⟨offset, words, aligned⟩ := d
  obtain ⟨rfl, hlen⟩ := h
  rw [ne_eq, ne_eq, words_eq_iff hlen, den_eq_iff]

theorem intersectAssign_fst (c rhs : CoreBitVector) :
    (c.intersectAssign rhs).1 ↔ den c ∩ den rhs ≠ den c := by
  have hinter : den (c.andAssign rhs) = den c ∩ den rhs := den_inter c rhs
  rw [intersectAssign_eq, decide_eq_true_iff, (andAssign_range c rhs).words_ne_iff, hinter]

theorem subtractAssign_fst (c rhs : CoreBitVector) :
    (c.subtractAssign rhs).1 ↔ den c \ den rhs ≠ den c := by
  have hsub : den (c.subAssign rhs) = den c \ den rhs := den_sub c rhs
  rw [subtractAssign_eq, decide_eq_true_iff, (subAssign_range c rhs).words_ne_iff, hsub]

theorem orAssign_fst {c rhs : CoreBitVector} (hc : c.words.length ≠ 0) :
    (c.orAssign rhs).1 ↔ den c ∪ den rhs ≠ den c := by
  have hunion : den (c.orAssign rhs).2 = den c ∪ den rhs := den_union c rhs
  rw [← hunion]
  unfold orAssign
  rw [if_neg hc]
  by_cases hr : rhs.words.length = 0
  · rw [if_pos hr]
    exact iff_of_false Bool.false_ne_true (not_not.mpr rfl)
  rw [if_neg hr]
  obtain ⟨d, hd, hword, -, -⟩ := extend_for_union hc hr
  simp only at hd
  simp only [hd]
  have hsame : ∀ ws : List Word, ws.length = d.words.length →
      SameRange d { d with words := ws } := fun _ hlen => ⟨rfl, hlen⟩
  have hden : den d = den c := den_eq_iff.mpr hword
  rw [decide_eq_true_iff, ← hden]
  exact (hsame _ length_mapIdx).words_ne_iff

theorem orAssign_fst_of_no_word {c rhs : CoreBitVector} (hc : c.words.length = 0) :
    (c.orAssign rhs).1 ↔ rhs.words.length ≠ 0 := by
  rw [orAssign, if_pos hc, decide_eq_true_iff]

theorem den_of_no_word {c : CoreBitVector} (hc : c.words.length = 0) : den c = ∅ := by
  rw [← isEmpty_iff, isEmpty, length_eq_zero_iff.mp hc]
  rfl

/-- **`|=`** reports whether the set has changed, unless zero words are copied. -/
theorem orAssign_reports_iff (c rhs : CoreBitVector) :
    ((c.orAssign rhs).1 ↔ den c ∪ den rhs ≠ den c) ↔
      (c.words.length = 0 → rhs.words.length = 0 ∨ rhs.isEmpty = false) := by
  by_cases hc : c.words.length = 0
  · rw [orAssign_fst_of_no_word hc, den_of_no_word hc, Set.empty_union, ne_eq, ne_eq, not_iff_not,
      ← isEmpty_iff]
    constructor
    · intro h _
      by_cases hr : rhs.words.length = 0
      · exact .inl hr
      · exact .inr (Bool.eq_false_iff.mpr fun he => hr (h.mpr he))
    · intro h
      constructor
      · exact fun hr => (isEmpty_iff rhs).mpr (den_of_no_word hr)
      · exact fun he => (h hc).resolve_right fun hf => Bool.false_ne_true (hf.symm.trans he)
  · exact iff_of_true (orAssign_fst hc) fun h => absurd h hc

end CoreBitVector

-- ── Runs over variables

open CoreBitVector

variable {V : Type} [DecidableEq V]

/-- A mutating call on the vector of a variable. `intersectWithComplementOf` is the
    two-argument `intersectWithComplement`. -/
inductive CbvCall (V : Type) where
  | set (v : V) (bit : UInt32)
  | reset (v : V) (bit : UInt32)
  | testAndSet (v : V) (bit : UInt32)
  | orAssign (v rhs : V)
  | andAssign (v rhs : V)
  | subAssign (v rhs : V)
  | intersectWithComplement (v rhs : V)
  | intersectWithComplementOf (v lhs rhs : V)
  | clear (v : V)

def cbvStep (s : V → CoreBitVector) : CbvCall V → Option Bool × (V → CoreBitVector)
  | .set v bit => (none, update s v ((s v).set bit.toNat))
  | .reset v bit => (none, update s v ((s v).reset bit.toNat))
  | .testAndSet v bit =>
    let (changed, c) := (s v).test_and_set bit.toNat
    (some changed, update s v c)
  | .orAssign v rhs =>
    let (changed, c) := (s v).orAssign (s rhs)
    (some changed, update s v c)
  | .andAssign v rhs =>
    let (changed, c) := (s v).intersectAssign (s rhs)
    (some changed, update s v c)
  | .subAssign v rhs =>
    let (changed, c) := (s v).subtractAssign (s rhs)
    (some changed, update s v c)
  | .intersectWithComplement v rhs =>
    let (changed, c) := CoreBitVector.intersectWithComplement (s v) (s rhs)
    (some changed, update s v c)
  | .intersectWithComplementOf v lhs rhs =>
    -- `*this = lhs` comes first, so that `rhs` is `lhs` where it is this vector
    let s := update s v (s lhs)
    (none, update s v (CoreBitVector.intersectWithComplement (s v) (s rhs)).2)
  | .clear v => (none, update s v (s v).clear)

/-- The variable that a call writes to, and its set afterwards. -/
def setResult (a : V → Set ℕ) : CbvCall V → V × Set ℕ
  | .set v bit => (v, insert bit.toNat (a v))
  | .reset v bit => (v, a v \ {bit.toNat})
  | .testAndSet v bit => (v, insert bit.toNat (a v))
  | .orAssign v rhs => (v, a v ∪ a rhs)
  | .andAssign v rhs => (v, a v ∩ a rhs)
  | .subAssign v rhs => (v, a v \ a rhs)
  | .intersectWithComplement v rhs => (v, a v \ a rhs)
  | .intersectWithComplementOf v lhs rhs => (v, a lhs \ a rhs)
  | .clear v => (v, ∅)

/-- The call has a return value. -/
def reports : CbvCall V → Bool
  | .set _ _ => false
  | .reset _ _ => false
  | .intersectWithComplementOf _ _ _ => false
  | .clear _ => false
  | _ => true

open Classical in
/-- One call on sets: a call reports whether it changes the set. -/
noncomputable def setStep (a : V → Set ℕ) (call : CbvCall V) : Option Bool × (V → Set ℕ) :=
  (if reports call then some (decide ((setResult a call).2 ≠ a (setResult a call).1)) else none,
    update a (setResult a call).1 (setResult a call).2)

/-- No vector of zero words is copied by `|=`, and no set to be removed is overwritten first. -/
def Meets (s : V → CoreBitVector) : CbvCall V → Prop
  | .orAssign v rhs =>
    (s v).words.length = 0 → (s rhs).words.length = 0 ∨ (s rhs).isEmpty = false
  | .intersectWithComplementOf v lhs rhs => rhs = v → (s v).contains (s lhs) = true
  | _ => True

def Denotes (s : V → CoreBitVector) (a : V → Set ℕ) : Prop := ∀ v, den (s v) = a v

section

variable {s : V → CoreBitVector} {a : V → Set ℕ} (h : Denotes s a)
include h

theorem Denotes.update {v : V} {c : CoreBitVector} {S : Set ℕ} (hc : den c = S) :
    Denotes (update s v c) (update a v S) := by
  intro w
  by_cases hw : w = v
  · subst hw
    rw [update_self, update_self, hc]
  · rw [update_of_ne hw, update_of_ne hw, h]

theorem silent_agrees {v : V} {c : CoreBitVector} {S : Set ℕ} (hc : den c = S) :
    (none : Option Bool) = none ∧ Denotes (update s v c) (update a v S) :=
  ⟨rfl, h.update hc⟩

open Classical in
theorem reporting_agrees {v : V} {c : CoreBitVector} {S : Set ℕ} {changed : Bool}
    (hchanged : changed ↔ S ≠ a v) (hc : den c = S) :
    some changed = some (decide (S ≠ a v)) ∧ Denotes (update s v c) (update a v S) :=
  ⟨congrArg some (Bool.eq_iff_iff.mpr (hchanged.trans decide_eq_true_iff.symm)), h.update hc⟩

/-- **A step** on vectors is the step on sets, exactly if the call meets the condition. -/
theorem cbvStep_agrees_iff (call : CbvCall V) :
    (cbvStep s call).1 = (setStep a call).1 ∧
      Denotes (cbvStep s call).2 (setStep a call).2 ↔ Meets s call := by
  have hsub : ∀ c d : CoreBitVector, den (c.subtractAssign d).2 = den c \ den d := by
    intro c d
    rw [subtractAssign_eq]
    exact den_sub c d
  -- the two calls that take a set away
  have hremove : ∀ v rhs : V, ((s v).subtractAssign (s rhs)).1 ↔ a v \ a rhs ≠ a v := by
    intro v rhs
    rw [subtractAssign_fst, h, h]
  have hrest : ∀ v rhs : V, den ((s v).subtractAssign (s rhs)).2 = a v \ a rhs := by
    intro v rhs
    rw [hsub, h, h]
  cases call with
  | set v bit =>
    have hden : den ((s v).set bit.toNat) = insert bit.toNat (a v) := by
      rw [← h]
      exact den_set _ _
    exact iff_of_true (silent_agrees h hden) trivial
  | reset v bit =>
    have hden : den ((s v).reset bit.toNat) = a v \ {bit.toNat} := by
      rw [← h]
      exact den_reset _ _
    exact iff_of_true (silent_agrees h hden) trivial
  | testAndSet v bit =>
    have hfst : ((s v).test_and_set bit.toNat).1 ↔ insert bit.toNat (a v) ≠ a v := by
      rw [ne_eq, Set.insert_eq_self, ← h]
      exact SetDataSet.testAndSet_fst _ _
    have hden : den ((s v).test_and_set bit.toNat).2 = insert bit.toNat (a v) := by
      rw [← h]
      exact SetDataSet.testAndSet_snd _ _
    exact iff_of_true (reporting_agrees h hfst hden) trivial
  | orAssign v rhs =>
    have hden : den ((s v).orAssign (s rhs)).2 = a v ∪ a rhs := by
      rw [← h, ← h]
      exact den_union _ _
    rw [Meets, ← orAssign_reports_iff, h, h]
    constructor
    · rintro ⟨hout, -⟩
      have hchanged : ((s v).orAssign (s rhs)).1 = _ := Option.some.inj hout
      rw [hchanged, decide_eq_true_iff]
      rfl
    · exact fun hchanged => reporting_agrees h hchanged hden
  | andAssign v rhs =>
    have hfst : ((s v).intersectAssign (s rhs)).1 ↔ a v ∩ a rhs ≠ a v := by
      rw [intersectAssign_fst, h, h]
    have hden : den ((s v).intersectAssign (s rhs)).2 = a v ∩ a rhs := by
      rw [intersectAssign_eq, ← h, ← h]
      exact den_inter _ _
    exact iff_of_true (reporting_agrees h hfst hden) trivial
  | subAssign v rhs =>
    exact iff_of_true (reporting_agrees h (hremove v rhs) (hrest v rhs)) trivial
  | intersectWithComplement v rhs =>
    exact iff_of_true (reporting_agrees h (hremove v rhs) (hrest v rhs)) trivial
  | intersectWithComplementOf v lhs rhs =>
    have hself : update s v (s lhs) v = s lhs := update_self _ _ _
    rw [Meets, contains_iff, h, h]
    constructor
    · rintro ⟨-, hden⟩ rfl
      -- what is left is `lhs` without itself
      have hv := hden rhs
      simp only [cbvStep, setStep, setResult, CoreBitVector.intersectWithComplement,
        update_self, hsub, sdiff_self] at hv
      exact Set.sdiff_eq_empty.mp hv.symm
    · intro hmeets
      refine ⟨rfl, ?_⟩
      have hold : den (CoreBitVector.intersectWithComplement (update s v (s lhs) v)
          (update s v (s lhs) rhs)).2 = a lhs \ a rhs := by
        rw [CoreBitVector.intersectWithComplement, hsub, hself, h]
        by_cases hr : rhs = v
        · subst hr
          rw [hself, h, Set.sdiff_self]
          exact (Set.sdiff_eq_empty.mpr (hmeets rfl)).symm
        · rw [update_of_ne hr, h]
      intro w
      by_cases hw : w = v
      · subst hw
        simp only [cbvStep, setStep, setResult, update_self]
        rw [← hold, update_self]
      · simp only [cbvStep, setStep, setResult, update_of_ne hw]
        exact h w
  | clear v =>
    refine iff_of_true (silent_agrees h ?_) trivial
    exact den_empty

end

def vectorsAfter (calls : List (CbvCall V)) : V → CoreBitVector :=
  (run cbvStep (fun _ => CoreBitVector.empty) calls).2

noncomputable def setsAfter (calls : List (CbvCall V)) : V → Set ℕ :=
  (run setStep (fun _ => ∅) calls).2

theorem cbvStep_inRange {s : V → CoreBitVector} (h : ∀ v, InRange (s v)) (call : CbvCall V) :
    ∀ v, InRange ((cbvStep s call).2 v) := by
  have hupdate : ∀ (t : V → CoreBitVector) (v : V) (c : CoreBitVector),
      (∀ w, InRange (t w)) → InRange c → ∀ w, InRange (update t v c w) := by
    intro t v c ht hc
    exact (forall_update_iff t fun _ => InRange).mpr ⟨hc, fun w _ => ht w⟩
  have hsub : ∀ c d : CoreBitVector, InRange c → InRange (c.subtractAssign d).2 := by
    intro c d hc
    rw [subtractAssign_eq]
    exact hc.of_same (subAssign_range c d)
  cases call with
  | set v bit => exact hupdate s v _ h ((h v).set bit.toNat_lt)
  | reset v bit => exact hupdate s v _ h ((h v).of_same (reset_range _ _))
  | testAndSet v bit =>
    have hset : InRange ((s v).test_and_set bit.toNat).2 := by
      unfold test_and_set
      split_ifs
      · exact h v
      · exact (h v).set bit.toNat_lt
    exact hupdate s v _ h hset
  | orAssign v rhs => exact hupdate s v _ h ((h v).orAssign (h rhs))
  | andAssign v rhs =>
    have hinter : InRange ((s v).intersectAssign (s rhs)).2 := by
      rw [intersectAssign_eq]
      exact (h v).of_same (andAssign_range _ _)
    exact hupdate s v _ h hinter
  | subAssign v rhs => exact hupdate s v _ h (hsub _ _ (h v))
  | intersectWithComplement v rhs => exact hupdate s v _ h (hsub _ _ (h v))
  | intersectWithComplementOf v lhs rhs =>
    have hcopy := hupdate s v _ h (h lhs)
    exact hupdate _ v _ hcopy (hsub _ _ (hcopy v))
  | clear v => exact hupdate s v _ h inRange_empty

/-- **No `u32_t` of a vector wraps**, whatever the calls. -/
theorem vectorsAfter_inRange (calls : List (CbvCall V)) (v : V) :
    InRange (vectorsAfter calls v) := by
  induction calls using List.reverseRecOn generalizing v with
  | nil => exact inRange_empty
  | append_singleton calls call ih =>
    rw [vectorsAfter, run_concat]
    exact cbvStep_inRange ih call v

structure IsSet (c : CoreBitVector) (S : Set ℕ) : Prop where
  aligned : WordSize ∣ c.offset
  test : ∀ bit, c.test bit = true ↔ bit ∈ S
  count : c.count.toNat = S.ncard
  isEmpty : c.isEmpty = true ↔ S = ∅
  iterate : ∃ bits, c.iterate c.endPos c.begin = some bits ∧ bits.Pairwise (· < ·) ∧
    ∀ bit, bit ∈ bits ↔ bit ∈ S

structure AreSets (s : V → CoreBitVector) (a : V → Set ℕ) : Prop where
  isSet : ∀ v, IsSet (s v) (a v)
  contains : ∀ v w, (s v).contains (s w) = true ↔ a w ⊆ a v
  intersects : ∀ v w, (s v).intersects (s w) = true ↔ (a v ∩ a w).Nonempty
  equal : ∀ v w, (s v).equal (s w) = true ↔ a v = a w
  notEqual : ∀ v w, (s v).notEqual (s w) = true ↔ a v ≠ a w

/-- Every index is in the set. Their number is no `u32_t`. -/
def IsFull (c : CoreBitVector) : Prop := ∀ bit : UInt32, c.test bit.toNat = true

theorem den_subset_range {c : CoreBitVector} (h : InRange c) :
    den c ⊆ (Finset.range (2 ^ 32) : Set ℕ) := by
  intro bit hbit
  have hhold : c.canHold bit := by
    by_contra hnot
    rw [mem_den_iff, CoreBitVector.test, if_neg hnot] at hbit
    exact Bool.false_ne_true hbit
  rw [Finset.mem_coe, Finset.mem_range]
  exact (canHold_iff.mp hhold).2.trans_le h.fits

theorem isFull_iff {c : CoreBitVector} (h : InRange c) : IsFull c ↔ (den c).ncard = 2 ^ 32 := by
  have hsub := den_subset_range h
  have hcard : ((Finset.range (2 ^ 32) : Set ℕ)).ncard = 2 ^ 32 := by
    rw [Set.ncard_coe_finset, Finset.card_range]
  constructor
  · intro hfull
    have heq : den c = (Finset.range (2 ^ 32) : Set ℕ) := by
      refine Set.Subset.antisymm hsub fun bit hbit => ?_
      rw [Finset.mem_coe, Finset.mem_range] at hbit
      have hbit' := hfull (UInt32.ofNatLT bit hbit)
      rw [UInt32.toNat_ofNatLT] at hbit'
      exact mem_den_iff.mpr hbit'
    rw [heq, hcard]
  · intro hncard bit
    have heq := Set.eq_of_subset_of_ncard_le hsub (by rw [hcard, hncard]) (Finset.finite_toSet _)
    rw [← mem_den_iff, heq, Finset.mem_coe, Finset.mem_range]
    exact bit.toNat_lt

theorem count_eq_iff {c : CoreBitVector} (h : InRange c) :
    c.count.toNat = (den c).ncard ↔ ¬ IsFull c := by
  have hcard : ((Finset.range (2 ^ 32) : Set ℕ)).ncard = 2 ^ 32 := by
    rw [Set.ncard_coe_finset, Finset.card_range]
  have hle : (den c).ncard ≤ 2 ^ 32 :=
    (Set.ncard_le_ncard (den_subset_range h) (Finset.finite_toSet _)).trans_eq hcard
  rw [isFull_iff h, count_toNat]
  generalize (den c).ncard = n at hle
  omega

omit [DecidableEq V] in
theorem areSets_of_denotes {s : V → CoreBitVector} {a : V → Set ℕ} (h : Denotes s a)
    (hrange : ∀ v, InRange (s v)) (hfull : ∀ v, ¬ IsFull (s v)) : AreSets s a where
  isSet v :=
    { aligned := (s v).aligned
      test := fun bit => by rw [← h, mem_den_iff]
      count := by rw [← h, count_eq_iff (hrange v)]; exact hfull v
      isEmpty := by rw [← h, (s v).isEmpty_iff]
      iterate := ⟨_, iterate_begin (s v), bitsFrom_pairwise _ 0, fun bit => by
        rw [← h, mem_bitsFrom_zero]⟩ }
  contains v w := by rw [contains_iff, h, h]
  intersects v w := by rw [intersects_iff, h, h]
  equal v w := by rw [equal_iff, h, h]
  notEqual v w := by
    rw [CoreBitVector.notEqual, Bool.not_eq_true', Bool.eq_false_iff, ne_eq, ne_eq, not_iff_not,
      equal_iff, h, h]

omit [DecidableEq V] in
theorem AreSets.denotes {s : V → CoreBitVector} {a : V → Set ℕ} (h : AreSets s a) :
    Denotes s a := by
  intro v
  ext bit
  rw [mem_den_iff, (h.isSet v).test]

/-- **`CoreBitVector` is a finite set of indices.** For every sequence of calls on vectors that
    are empty at first, the calls report after every prefix whether they changed the sets, and
    the vectors are the sets in all that they show, exactly if no call of the sequence copies a
    vector of zero words into one without words by `|=`, none has the target of the two-argument
    `intersectWithComplement` as the set to be removed (unless nothing is to be left), and no
    vector gets full, when its count is no `u32_t`. -/
theorem cbv_run_agrees_iff (calls : List (CbvCall V)) : (∀ pre, pre <+: calls →
      (run cbvStep (fun _ => CoreBitVector.empty) pre).1 = (run setStep (fun _ => ∅) pre).1 ∧
        AreSets (vectorsAfter pre) (setsAfter pre)) ↔
      (∀ pre call, pre ++ [call] <+: calls → Meets (vectorsAfter pre) call) ∧
        ∀ pre, pre <+: calls → ∀ v, ¬ IsFull (vectorsAfter pre v) := by
  constructor
  · intro h
    refine ⟨fun pre call hpre => ?_, fun pre hpre v => ?_⟩
    · have hnow := (h pre ((prefix_append pre [call]).trans hpre)).2.denotes
      obtain ⟨hout, hnext⟩ := h (pre ++ [call]) hpre
      have hnext := hnext.denotes
      rw [run_concat, run_concat] at hout
      rw [vectorsAfter, setsAfter, run_concat, run_concat] at hnext
      have hlast := append_inj_right' hout rfl
      exact (cbvStep_agrees_iff hnow call).mp ⟨head_eq_of_cons_eq hlast, hnext⟩
    · have hsets := (h pre hpre).2
      rw [← count_eq_iff (vectorsAfter_inRange pre v), hsets.denotes v]
      exact (hsets.isSet v).count
  · rintro ⟨hmeets, hfull⟩ pre hpre
    have hrun : (run cbvStep (fun _ => CoreBitVector.empty) pre).1 =
        (run setStep (fun _ => ∅) pre).1 ∧ Denotes (vectorsAfter pre) (setsAfter pre) := by
      induction pre using List.reverseRecOn with
      | nil => exact ⟨rfl, fun _ => den_empty⟩
      | append_singleton pre call ih =>
        obtain ⟨houts, hden⟩ := ih ((prefix_append pre [call]).trans hpre)
        obtain ⟨hout, hden'⟩ := (cbvStep_agrees_iff hden call).mpr (hmeets pre call hpre)
        rw [vectorsAfter, setsAfter, run_concat, run_concat, houts]
        exact ⟨congrArg (fun o => _ ++ [o]) hout, hden'⟩
    exact ⟨hrun.1, areSets_of_denotes hrun.2 (vectorsAfter_inRange pre) (hfull pre hpre)⟩

/-- `b |= a` is reported as a change when `a` has been emptied and `b` never had an element.
    And `c.intersectWithComplement(a, c)` leaves nothing of `a`, though `c` was empty. -/
theorem cbv_reports_no_change_as_change :
    (run cbvStep (fun _ => CoreBitVector.empty) [.set 0 5, .reset 0 5, .orAssign 1 0]).1 =
        [none, none, some true] ∧
      setsAfter [.set 0 5, .reset 0 5, .orAssign 1 0] 1 =
        setsAfter [.set 0 5, .reset (0 : ℕ) 5] 1 ∧
      (vectorsAfter [.set 0 5, .intersectWithComplementOf 2 0 2] 2).isEmpty = true ∧
      setsAfter [.set 0 5, .intersectWithComplementOf (2 : ℕ) 0 2] 2 = {5} := by
  refine ⟨by decide, ?_, by decide, ?_⟩
  · simp [setsAfter, run, setStep, setResult]
  · simp [setsAfter, run, setStep, setResult]

-- ── The hash

theorem hash_eq_of_range {c d : CoreBitVector} (heq : c.equal d) (h : SameRange c d) :
    c.hash = d.hash := by
  have hden : den d = den c := (equal_iff.mp heq).symm
  have hwords : d.words = c.words := by
    by_contra hne
    exact h.words_ne_iff.mp hne hden
  rw [CoreBitVector.hash, CoreBitVector.hash, hwords, h.1]

def KeepsEnds (c : CoreBitVector) (R : Set ℕ) : Prop :=
  c.words.length ≠ 0 →
    (∃ bit ∈ den c, bit ∉ R ∧ bit < c.offset + WordSize) ∧
      ∃ bit ∈ den c, bit ∉ R ∧ c.endBit ≤ bit + WordSize

/-- What a call takes away leaves a bit in the first and in the last stored word. -/
def LeavesEnds (s : V → CoreBitVector) : CbvCall V → Prop
  | .reset v bit => KeepsEnds (s v) {bit.toNat}
  | .andAssign v rhs => KeepsEnds (s v) {bit | bit ∉ den (s rhs)}
  | .subAssign v rhs => KeepsEnds (s v) (den (s rhs))
  | .intersectWithComplement v rhs => KeepsEnds (s v) (den (s rhs))
  | .intersectWithComplementOf v lhs rhs =>
    KeepsEnds (s lhs) (den (update s v (s lhs) rhs))
  | _ => True

/-- A vector as short as its set allows. -/
def Trimmed (c : CoreBitVector) : Prop := InRange c ∧ KeepsEnds c ∅

theorem KeepsEnds.trimmed {c d : CoreBitVector} {R : Set ℕ} (h : KeepsEnds c R)
    (hin : InRange c) (hsame : SameRange c d) (hden : ∀ bit ∈ den c, bit ∉ R → bit ∈ den d) :
    Trimmed d := by
  refine ⟨hin.of_same hsame, fun hlen => ?_⟩
  obtain ⟨⟨b1, h1, hR1, hlt⟩, b2, h2, hR2, hle⟩ := h (hsame.2 ▸ hlen)
  rw [hsame.endBit, hsame.1]
  exact ⟨⟨b1, hden b1 h1 hR1, Set.notMem_empty _, hlt⟩, b2, hden b2 h2 hR2, Set.notMem_empty _, hle⟩

theorem mem_den_range {c : CoreBitVector} {bit : ℕ} (h : bit ∈ den c) :
    c.offset ≤ bit ∧ bit < c.endBit := by
  by_contra hnot
  have hhold : ¬ c.canHold bit := fun hc => hnot (canHold_iff.mp hc)
  rw [mem_den_iff, CoreBitVector.test, if_neg hhold] at h
  exact Bool.false_ne_true h

theorem endBit_eq (c : CoreBitVector) : ∃ k, c.offset = k * WordSize ∧
    c.endBit = (k + c.words.length) * WordSize := by
  obtain ⟨k, hk⟩ := c.aligned
  refine ⟨k, hk.trans (Nat.mul_comm _ _), ?_⟩
  rw [CoreBitVector.endBit, hk, Nat.add_mul, Nat.mul_comm k]

theorem Trimmed.sameRange {c d : CoreBitVector} (hc : Trimmed c) (hd : Trimmed d)
    (heq : den c = den d) : SameRange c d := by
  have hno : ∀ {e e' : CoreBitVector}, Trimmed e → den e = den e' → e'.words.length = 0 →
      e.words.length = 0 := by
    intro e e' he hden hlen
    by_contra hne
    obtain ⟨⟨bit, hbit, -⟩, -⟩ := he.2 hne
    rw [hden, den_of_no_word hlen] at hbit
    exact hbit
  by_cases hlen : c.words.length = 0
  · have hlen' := hno hd heq.symm hlen
    exact ⟨(hd.1.no_word hlen').trans (hc.1.no_word hlen).symm, hlen'.trans hlen.symm⟩
  have hlen' : ¬ d.words.length = 0 := fun h => hlen (hno hc heq h)
  obtain ⟨⟨b1, hb1, -, hlt1⟩, b2, hb2, -, hle1⟩ := hc.2 hlen
  obtain ⟨⟨b3, hb3, -, hlt2⟩, b4, hb4, -, hle2⟩ := hd.2 hlen'
  have h1 := mem_den_range (heq ▸ hb1)
  have h2 := mem_den_range (heq ▸ hb2)
  have h3 := mem_den_range (heq.symm ▸ hb3)
  have h4 := mem_den_range (heq.symm ▸ hb4)
  obtain ⟨k, hk, hkm⟩ := endBit_eq c
  obtain ⟨k', hk', hkm'⟩ := endBit_eq d
  unfold SameRange WordSize at *
  omega

theorem Trimmed.set {c : CoreBitVector} (h : Trimmed c) {bit : ℕ} (hbit : bit < 2 ^ 32) :
    Trimmed (c.set bit) := by
  have hden : den (c.set bit) = insert bit (den c) := den_set c bit
  refine ⟨h.1.set hbit, fun _ => ?_⟩
  obtain ⟨hoff, hend⟩ := extendTo_range h.1 bit
  rw [(set_range c bit).endBit, (set_range c bit).1, hoff, hend, hden]
  have hlow := Nat.div_mul_le_self bit WordSize
  have hmod := Nat.lt_div_mul_add (a := bit) (by decide : 0 < WordSize)
  by_cases hlen : c.words.length = 0
  · rw [if_pos hlen, if_pos hlen]
    exact ⟨⟨bit, Set.mem_insert _ _, Set.notMem_empty _, hmod⟩, bit, Set.mem_insert _ _,
      Set.notMem_empty _, by omega⟩
  · obtain ⟨⟨b1, h1, -, hlt⟩, b2, h2, -, hle⟩ := h.2 hlen
    rw [if_neg hlen, if_neg hlen]
    constructor
    · rcases Nat.le_total c.offset (bit / WordSize * WordSize) with hmin | hmin
      · rw [min_eq_left hmin]
        exact ⟨b1, Set.mem_insert_of_mem _ h1, Set.notMem_empty _, hlt⟩
      · rw [min_eq_right hmin]
        exact ⟨bit, Set.mem_insert _ _, Set.notMem_empty _, hmod⟩
    · rcases Nat.le_total (bit / WordSize * WordSize + WordSize) c.endBit with hmax | hmax
      · rw [max_eq_left hmax]
        exact ⟨b2, Set.mem_insert_of_mem _ h2, Set.notMem_empty _, hle⟩
      · rw [max_eq_right hmax]
        exact ⟨bit, Set.mem_insert _ _, Set.notMem_empty _, by omega⟩

theorem Trimmed.orAssign {c rhs : CoreBitVector} (h : Trimmed c) (hr : Trimmed rhs) :
    Trimmed (c.orAssign rhs).2 := by
  have hden : den (c.orAssign rhs).2 = den c ∪ den rhs := den_union c rhs
  obtain ⟨hcopy, hsame, hboth⟩ := orAssign_range c rhs
  by_cases hlen : c.words.length = 0
  · rw [hcopy hlen]
    exact hr
  by_cases hrlen : rhs.words.length = 0
  · rw [hsame hlen hrlen]
    exact h
  refine ⟨h.1.orAssign hr.1, fun _ => ?_⟩
  obtain ⟨hoff, hend⟩ := hboth hlen hrlen
  obtain ⟨⟨b1, h1, -, hlt1⟩, b2, h2, -, hle1⟩ := h.2 hlen
  obtain ⟨⟨b3, h3, -, hlt2⟩, b4, h4, -, hle2⟩ := hr.2 hrlen
  rw [hoff, hend, hden]
  constructor
  · rcases Nat.le_total c.offset rhs.offset with hmin | hmin
    · rw [min_eq_left hmin]
      exact ⟨b1, .inl h1, Set.notMem_empty _, hlt1⟩
    · rw [min_eq_right hmin]
      exact ⟨b3, .inr h3, Set.notMem_empty _, hlt2⟩
  · rcases Nat.le_total rhs.endBit c.endBit with hmax | hmax
    · rw [max_eq_left hmax]
      exact ⟨b2, .inl h2, Set.notMem_empty _, hle1⟩
    · rw [max_eq_right hmax]
      exact ⟨b4, .inr h4, Set.notMem_empty _, hle2⟩

theorem cbvStep_trimmed {s : V → CoreBitVector} (h : ∀ v, Trimmed (s v)) {call : CbvCall V}
    (hends : LeavesEnds s call) : ∀ v, Trimmed ((cbvStep s call).2 v) := by
  have hupdate : ∀ (t : V → CoreBitVector) (v : V) (c : CoreBitVector),
      (∀ w, w ≠ v → Trimmed (t w)) → Trimmed c → ∀ w, Trimmed (update t v c w) := by
    intro t v c ht hc
    exact (forall_update_iff t fun _ => Trimmed).mpr ⟨hc, ht⟩
  have hsub : ∀ {c d : CoreBitVector}, InRange c → KeepsEnds c (den d) →
      Trimmed (c.subtractAssign d).2 := by
    intro c d hin hkeeps
    have hden : den (c.subAssign d) = den c \ den d := den_sub c d
    rw [subtractAssign_eq]
    refine hkeeps.trimmed hin (subAssign_range c d) fun bit hbit hnot => ?_
    rw [hden]
    exact ⟨hbit, hnot⟩
  cases call with
  | set v bit => exact hupdate s v _ (fun w _ => h w) ((h v).set bit.toNat_lt)
  | reset v bit =>
    have hden : den ((s v).reset bit.toNat) = den (s v) \ {bit.toNat} := den_reset _ _
    refine hupdate s v _ (fun w _ => h w) (KeepsEnds.trimmed hends (h v).1 (reset_range _ _) ?_)
    intro b hb hnot
    rw [hden]
    exact ⟨hb, hnot⟩
  | testAndSet v bit =>
    have hset : Trimmed ((s v).test_and_set bit.toNat).2 := by
      unfold test_and_set
      split_ifs
      · exact h v
      · exact (h v).set bit.toNat_lt
    exact hupdate s v _ (fun w _ => h w) hset
  | orAssign v rhs => exact hupdate s v _ (fun w _ => h w) ((h v).orAssign (h rhs))
  | andAssign v rhs =>
    have hden : den ((s v).andAssign (s rhs)) = den (s v) ∩ den (s rhs) := den_inter _ _
    have hinter : Trimmed ((s v).intersectAssign (s rhs)).2 := by
      rw [intersectAssign_eq]
      refine KeepsEnds.trimmed hends (h v).1 (andAssign_range _ _) fun b hb hnot => ?_
      rw [hden]
      exact ⟨hb, not_not.mp hnot⟩
    exact hupdate s v _ (fun w _ => h w) hinter
  | subAssign v rhs => exact hupdate s v _ (fun w _ => h w) (hsub (h v).1 hends)
  | intersectWithComplement v rhs => exact hupdate s v _ (fun w _ => h w) (hsub (h v).1 hends)
  | intersectWithComplementOf v lhs rhs =>
    have hself : update s v (s lhs) v = s lhs := update_self _ _ _
    refine hupdate _ v _ (fun w hw => ?_) ?_
    · rw [update_of_ne hw]
      exact h w
    · rw [hself]
      exact hsub (h lhs).1 hends
  | clear v =>
    exact hupdate s v _ (fun w _ => h w) ⟨inRange_empty, fun hlen => absurd rfl hlen⟩

theorem vectorsAfter_trimmed {calls : List (CbvCall V)}
    (hends : ∀ pre call, pre ++ [call] <+: calls → LeavesEnds (vectorsAfter pre) call) (v : V) :
    Trimmed (vectorsAfter calls v) := by
  have hpre : ∀ pre, pre <+: calls → ∀ w, Trimmed (vectorsAfter pre w) := by
    intro pre
    induction pre using List.reverseRecOn with
    | nil => exact fun _ _ => ⟨inRange_empty, fun hlen => absurd rfl hlen⟩
    | append_singleton pre call ih =>
      intro hpre
      rw [vectorsAfter, run_concat]
      exact cbvStep_trimmed (ih ((prefix_append pre [call]).trans hpre)) (hends pre call hpre)
  exact hpre calls prefix_rfl v

/-- **Where the hash respects equality.** Of two vectors that any calls lead to and that are
    equal, the hashes are the same if as many words are stored from the same offset; and so for
    any two equal vectors of runs in which nothing that is taken away empties the first or the
    last stored word. -/
theorem cbv_hash_of_equal (calls₁ calls₂ : List (CbvCall V)) (v₁ v₂ : V) :
    ((vectorsAfter calls₁ v₁).equal (vectorsAfter calls₂ v₂) = true →
      SameRange (vectorsAfter calls₁ v₁) (vectorsAfter calls₂ v₂) →
        (vectorsAfter calls₁ v₁).hash = (vectorsAfter calls₂ v₂).hash) ∧
    ((∀ pre call, pre ++ [call] <+: calls₁ → LeavesEnds (vectorsAfter pre) call) →
      (∀ pre call, pre ++ [call] <+: calls₂ → LeavesEnds (vectorsAfter pre) call) →
        (vectorsAfter calls₁ v₁).equal (vectorsAfter calls₂ v₂) = true →
          (vectorsAfter calls₁ v₁).hash = (vectorsAfter calls₂ v₂).hash) := by
  refine ⟨hash_eq_of_range, fun h₁ h₂ heq => hash_eq_of_range heq ?_⟩
  exact (vectorsAfter_trimmed h₁ v₁).sameRange (vectorsAfter_trimmed h₂ v₂) (equal_iff.mp heq)

theorem cbv_hash_of_equal_in_order : (vectorsAfter [.set 0 5, .set (0 : ℕ) 64] 0).hash =
      (vectorsAfter [.set 0 64, .set (0 : ℕ) 5] 0).hash := by
  have heq : (vectorsAfter [.set 0 5, .set (0 : ℕ) 64] 0).equal
      (vectorsAfter [.set 0 64, .set (0 : ℕ) 5] 0) :=
    equal_iff.mpr (setWords_eq_iff.mp (by decide))
  exact (cbv_hash_of_equal [.set 0 5, .set (0 : ℕ) 64] [.set 0 64, .set 0 5] 0 0).1 heq
    ⟨by decide, by decide⟩

/-- `{64}` after 0 was in the set too, and `{64}`: equal, with a word of zeros between their
    hashes. -/
theorem cbv_hash_differs : (vectorsAfter [.set 0 0, .set 0 64, .reset (0 : ℕ) 0] 0).equal
        (vectorsAfter [.set (0 : ℕ) 64] 0) = true ∧
      (vectorsAfter [.set 0 0, .set 0 64, .reset (0 : ℕ) 0] 0).hash ≠
        (vectorsAfter [.set (0 : ℕ) 64] 0).hash := by
  refine ⟨equal_iff.mpr ?_, by decide⟩
  exact setWords_eq_iff.mp (by decide)

end SvfPtsStore
