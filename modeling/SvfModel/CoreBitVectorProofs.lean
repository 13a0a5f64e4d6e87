import SvfModel.DiffPTDataProofs

/-!
# `CoreBitVector` as points-to sets

`-pt-type cbv` makes every points-to set a `CoreBitVector`: words, and the offset of the first.
The vector grows where it has to and never shrinks, so one set has many vectors. `operator==`
does not see the words that are zero, and `hash` does.

Every operation is the set operation (`instSetDataSetCoreBitVector`): the heart is `wordAt`, the
word a vector has for a number whether it holds it or not, of which each operation is bitwise.
So the stores keep the right sets. What they return is not right: `diff_cbv_disagree` is a run
in which the persistent store finds a difference that is empty.
-/

namespace SvfPtsStore

open SvfPts SvfRun SvfPtsCache SvfPtsCache.PersistentPointsToCache List Set Nat
open BitVec (and_zero getLsbD_and getLsbD_or getLsbD_zero or_zero zero_and zero_or)

abbrev Word := BitVec 64

def WordSize : ℕ := 64

/-- Bits are numbers: `u32_t` offsets do not wrap, as the last bit that can be held is the last
    of its word. -/
structure CoreBitVector where
  offset : ℕ
  words : List Word
  aligned : WordSize ∣ offset

namespace CoreBitVector

def empty : CoreBitVector := ⟨0, [], dvd_zero _⟩

section

variable (c : CoreBitVector)

def canHold (bit : ℕ) : Bool :=
  decide (c.offset ≤ bit ∧ bit < c.offset + c.words.length * WordSize)

def indexForBit (bit : ℕ) : ℕ := (bit - c.offset) / WordSize

def finalBit : ℕ := c.offset + c.words.length * WordSize - 1

section

variable (bit : ℕ)

def extendBackward : CoreBitVector :=
  let newOffset := bit / WordSize * WordSize
  if newOffset ≥ c.offset then c
  else ⟨newOffset, List.replicate ((c.offset - newOffset) / WordSize) 0 ++ c.words,
    dvd_mul_left _ _⟩

def extendForward : CoreBitVector :=
  if bit < c.offset ∨ c.canHold bit then c
  else
    let bitsWord := bit / WordSize * WordSize
    let wordsToAdd := 1 + (bitsWord - c.words.length * WordSize - c.offset) / WordSize
    { c with words := c.words ++ List.replicate wordsToAdd 0 }

def extendTo : CoreBitVector :=
  if c.offset = 0 ∧ c.words.length = 0 then ⟨bit / WordSize * WordSize, [0], dvd_mul_left _ _⟩
  else if bit < c.offset then c.extendBackward bit
  else if bit ≥ c.offset + c.words.length * WordSize then c.extendForward bit
  else c

def test : Bool :=
  if c.canHold bit then (c.words.getD (c.indexForBit bit) 0).getLsbD (bit % WordSize) else false

def set : CoreBitVector :=
  let c := c.extendTo bit
  let mask := BitVec.twoPow 64 (bit % WordSize)
  { c with words := c.words.modify (c.indexForBit bit) (· ||| mask) }

def test_and_set : Bool × CoreBitVector :=
  if c.test bit then (false, c) else (true, c.set bit)

def reset : CoreBitVector :=
  if c.canHold bit then
    let mask := ~~~ BitVec.twoPow 64 (bit % WordSize)
    { c with words := c.words.modify (c.indexForBit bit) (· &&& mask) }
  else c

end

end

section

variable (c rhs : CoreBitVector)

/-- `operator|=`. A word of `rhs` past its last one reads as 0, which changes nothing. -/
def orAssign : Bool × CoreBitVector :=
  if c.words.length = 0 then (decide (rhs.words.length ≠ 0), rhs)
  else if rhs.words.length = 0 then (false, c)
  else
    let c := if c.finalBit < rhs.finalBit then c.extendForward rhs.finalBit else c
    let c := if c.offset > rhs.offset then c.extendBackward rhs.offset else c
    let thisIndex := c.indexForBit rhs.offset
    let words := c.words.mapIdx fun i w =>
      if i < thisIndex then w else w ||| rhs.words.getD (i - thisIndex) 0
    (decide (words ≠ c.words), { c with words := words })

/-- `operator&=`. The words with no `rhs` analogue are cleared: that is `&&& 0`. -/
def andAssign : CoreBitVector :=
  let greaterOffset := max c.offset rhs.offset
  if ¬ c.canHold greaterOffset ∨ ¬ rhs.canHold greaterOffset then
    { c with words := c.words.map fun _ => 0 }
  else
    let thisIndex := c.indexForBit greaterOffset
    let rhsIndex := rhs.indexForBit greaterOffset
    { c with words := c.words.mapIdx fun i w =>
        if i < thisIndex then 0 else w &&& rhs.words.getD (rhsIndex + (i - thisIndex)) 0 }

/-- `operator-=`. -/
def subAssign : CoreBitVector :=
  let greaterOffset := max c.offset rhs.offset
  if ¬ c.canHold greaterOffset ∨ ¬ rhs.canHold greaterOffset then c
  else
    let thisIndex := c.indexForBit greaterOffset
    let rhsIndex := rhs.indexForBit greaterOffset
    { c with words := c.words.mapIdx fun i w =>
        if i < thisIndex then w else w &&& ~~~ rhs.words.getD (rhsIndex + (i - thisIndex)) 0 }

end

def setWords (c : CoreBitVector) : List (ℕ × Word) :=
  c.words.zipIdx.filterMap fun p =>
    if p.1 = 0 then none else some (p.2 * WordSize + c.offset, p.1)

def eqLoop : List (ℕ × Word) → List (ℕ × Word) → Bool
  | (lBit, lWord) :: ls, (rBit, rWord) :: rs =>
    if lBit ≠ rBit ∨ lWord ≠ rWord then false else eqLoop ls rs
  | [], [] => true
  | _, _ => false

def eq (c rhs : CoreBitVector) : Bool := eqLoop c.setWords rhs.setWords

def hash (c : CoreBitVector) : BitVec 64 :=
  c.words.foldl (fun h w : Word => h ^^^ (w + 0x9e3779b9 + (h <<< 6) + (h >>> 2)))
    (BitVec.ofNat 64 c.words.length) + BitVec.ofNat 64 c.offset

def elems (c : CoreBitVector) : List ℕ :=
  c.setWords.flatMap fun p => ((List.range WordSize).filter p.2.getLsbD).map (p.1 + ·)

-- ── The words of a vector

def wordAt (c : CoreBitVector) (n : ℕ) : Word :=
  if n * WordSize < c.offset then 0 else c.words.getD (n - c.offset / WordSize) 0

variable {c : CoreBitVector} {n : ℕ} {bit : ℕ}

theorem test_eq (c : CoreBitVector) (bit : ℕ) :
    c.test bit = (c.wordAt (bit / WordSize)).getLsbD (bit % WordSize) := by
  obtain ⟨k, hk⟩ := c.aligned
  unfold test wordAt canHold indexForBit
  rw [hk]
  unfold WordSize
  by_cases hlo : 64 * k ≤ bit
  · rw [if_neg (by omega : ¬ bit / 64 * 64 < 64 * k)]
    have hidx : (bit - 64 * k) / 64 = bit / 64 - 64 * k / 64 := by omega
    by_cases hhi : bit < 64 * k + c.words.length * 64
    · rw [if_pos (by simp [hlo, hhi]), hidx]
    · rw [if_neg (by simp [hhi]), getD_eq_default _ _ (by omega)]
      exact getLsbD_zero.symm
  · rw [if_neg (by simp [hlo]), if_pos (by omega : bit / 64 * 64 < 64 * k)]
    exact getLsbD_zero.symm

theorem mem_setWords {b : ℕ} {w : Word} :
    (b, w) ∈ c.setWords ↔ ∃ i, c.words[i]? = some w ∧ w ≠ 0 ∧ b = i * WordSize + c.offset := by
  unfold setWords
  rw [mem_filterMap]
  constructor
  · rintro ⟨⟨w', i⟩, hmem, heq⟩
    have hi := mem_zipIdx_iff_getElem?.mp hmem
    by_cases h0 : w' = 0
    · simp [h0] at heq
    · rw [if_neg h0] at heq
      cases heq
      exact ⟨i, hi, h0, rfl⟩
  · rintro ⟨i, hi, h0, rfl⟩
    exact ⟨(w, i), mem_zipIdx_iff_getElem?.mpr hi, if_neg h0⟩

theorem mem_setWords_wordAt {w : Word} :
    (n * WordSize, w) ∈ c.setWords ↔ c.wordAt n = w ∧ w ≠ 0 := by
  obtain ⟨k, hk⟩ := c.aligned
  rw [mem_setWords, wordAt, hk]
  unfold WordSize
  have hdiv : 64 * k / 64 = k := by omega
  rw [hdiv]
  constructor
  · rintro ⟨i, hi, h0, hb⟩
    obtain rfl : n = i + k := by omega
    rw [if_neg (by omega), Nat.add_sub_cancel, getD_eq_getElem?_getD, hi]
    exact ⟨rfl, h0⟩
  · rintro ⟨hw, h0⟩
    by_cases hlo : n * 64 < 64 * k
    · rw [if_pos hlo] at hw
      exact absurd hw.symm h0
    · rw [if_neg hlo] at hw
      refine ⟨n - k, ?_, h0, by omega⟩
      by_cases hlen : n - k < c.words.length
      · rw [getD_eq_getElem?_getD, getElem?_eq_getElem hlen] at hw
        rw [getElem?_eq_getElem hlen]
        exact congrArg some hw
      · rw [getD_eq_default _ _ (by omega)] at hw
        exact absurd hw.symm h0

theorem mem_elems : bit ∈ c.elems ↔ (c.wordAt (bit / WordSize)).getLsbD (bit % WordSize) := by
  obtain ⟨k, hk⟩ := c.aligned
  unfold elems
  rw [mem_flatMap]
  constructor
  · rintro ⟨⟨b, w⟩, hmem, hbit⟩
    obtain ⟨j, hj, hb⟩ := mem_map.mp hbit
    obtain ⟨hlt, hw⟩ := mem_filter.mp hj
    have hlt := mem_range.mp hlt
    obtain ⟨i, -, -, hi⟩ := mem_setWords.mp hmem
    -- the first bit of a word is a multiple of the word size
    have hstart : b = (i + k) * WordSize := by rw [hi, hk]; ring
    rw [hstart] at hmem
    unfold WordSize at hlt hstart ⊢
    have hdiv : bit / 64 = i + k := by omega
    have hmod : bit % 64 = j := by omega
    rw [hdiv, hmod, (mem_setWords_wordAt.mp hmem).1]
    exact hw
  · intro h
    have hne : c.wordAt (bit / WordSize) ≠ 0 := by
      intro h0
      rw [h0] at h
      cases getLsbD_zero.symm.trans h
    refine ⟨(bit / WordSize * WordSize, _), mem_setWords_wordAt.mpr ⟨rfl, hne⟩, ?_⟩
    refine mem_map.mpr ⟨bit % WordSize, mem_filter.mpr ⟨?_, h⟩, ?_⟩
    · exact mem_range.mpr (mod_lt _ (by decide))
    · exact div_add_mod' bit WordSize

-- ── The words after an operation

theorem wordAt_extendBackward (c : CoreBitVector) (bit n : ℕ) :
    (c.extendBackward bit).wordAt n = c.wordAt n := by
  obtain ⟨k, hk⟩ := c.aligned
  unfold extendBackward
  by_cases hle : bit / WordSize * WordSize ≥ c.offset
  · simp only [hle, if_true]
  simp only [hle, if_false]
  unfold wordAt
  simp only [hk]
  unfold WordSize at *
  rw [hk] at hle
  have hlen : (64 * k - bit / 64 * 64) / 64 = k - bit / 64 := by omega
  have hdiv : bit / 64 * 64 / 64 = bit / 64 := by omega
  have hdiv' : 64 * k / 64 = k := by omega
  rw [hlen, hdiv, hdiv', getD_eq_getElem?_getD, getElem?_append, length_replicate]
  by_cases hlo : n * 64 < bit / 64 * 64
  · rw [if_pos hlo, if_pos (by omega)]
  by_cases hmid : n < k
  · rw [if_neg hlo, if_pos (by omega : n * 64 < 64 * k),
      if_pos (by omega : n - bit / 64 < k - bit / 64),
      getElem?_replicate_of_lt (by omega), Option.getD_some]
  · rw [if_neg hlo, if_neg (by omega : ¬ n * 64 < 64 * k),
      if_neg (by omega : ¬ n - bit / 64 < k - bit / 64), getD_eq_getElem?_getD]
    congr 2
    omega

theorem getD_append_replicate (l : List Word) (m i : ℕ) :
    (l ++ List.replicate m 0).getD i 0 = l.getD i 0 := by
  rw [getD_eq_getElem?_getD, getD_eq_getElem?_getD, getElem?_append]
  by_cases hi : i < l.length
  · rw [if_pos hi]
  · rw [if_neg hi, getElem?_eq_none (by omega : l.length ≤ i), getElem?_replicate]
    split_ifs <;> rfl

theorem wordAt_extendForward (c : CoreBitVector) (bit n : ℕ) :
    (c.extendForward bit).wordAt n = c.wordAt n := by
  unfold extendForward
  by_cases hx : bit < c.offset ∨ c.canHold bit
  · rw [if_pos hx]
  · rw [if_neg hx]
    unfold wordAt
    simp only [getD_append_replicate]

theorem wordAt_extendTo (c : CoreBitVector) (bit n : ℕ) :
    (c.extendTo bit).wordAt n = c.wordAt n := by
  unfold extendTo
  by_cases h0 : c.offset = 0 ∧ c.words.length = 0
  · have hnil := length_eq_zero_iff.mp h0.2
    rw [if_pos h0]
    unfold wordAt
    simp only [hnil, getD_nil, ite_self]
    generalize n - _ = i
    cases i <;> simp
  · rw [if_neg h0]
    split_ifs
    · exact wordAt_extendBackward c bit n
    · exact wordAt_extendForward c bit n
    · rfl

theorem canHold_iff : c.canHold bit ↔
    c.offset ≤ bit ∧ bit < c.offset + c.words.length * WordSize := decide_eq_true_iff

theorem offset_extendForward (c : CoreBitVector) (bit : ℕ) :
    (c.extendForward bit).offset = c.offset := by
  unfold extendForward
  split_ifs <;> rfl

theorem canHold_extendForward (h : c.offset ≤ bit) : (c.extendForward bit).canHold bit := by
  obtain ⟨k, hk⟩ := c.aligned
  unfold extendForward
  by_cases hx : bit < c.offset ∨ c.canHold bit
  · rw [if_pos hx]
    exact hx.resolve_left (not_lt.mpr h)
  · have hnot : ¬ (c.offset ≤ bit ∧ bit < c.offset + c.words.length * WordSize) :=
      fun hc => hx (.inr (canHold_iff.mpr hc))
    rw [if_neg hx, canHold_iff]
    unfold WordSize at *
    simp only [length_append, length_replicate]
    omega

theorem extendBackward_bounds (h : bit < c.offset) : (c.extendBackward bit).offset ≤ bit ∧
      (c.extendBackward bit).offset + (c.extendBackward bit).words.length * WordSize =
        c.offset + c.words.length * WordSize := by
  obtain ⟨k, hk⟩ := c.aligned
  unfold extendBackward
  unfold WordSize at *
  have hlt : ¬ bit / 64 * 64 ≥ c.offset := by omega
  simp only [hlt, if_false, length_append, length_replicate]
  omega

theorem canHold_extendTo (c : CoreBitVector) (bit : ℕ) : (c.extendTo bit).canHold bit := by
  unfold extendTo
  by_cases h0 : c.offset = 0 ∧ c.words.length = 0
  · rw [if_pos h0, canHold_iff]
    unfold WordSize
    simp only [length_singleton]
    omega
  rw [if_neg h0]
  by_cases hback : bit < c.offset
  · obtain ⟨hoff, hend⟩ := extendBackward_bounds hback
    rw [if_pos hback, canHold_iff, hend]
    exact ⟨hoff, Nat.lt_add_right _ hback⟩
  rw [if_neg hback]
  by_cases hforw : bit ≥ c.offset + c.words.length * WordSize
  · rw [if_pos hforw]
    exact canHold_extendForward (not_lt.mp hback)
  · rw [if_neg hforw, canHold_iff]
    exact ⟨not_lt.mp hback, not_le.mp hforw⟩

theorem wordAt_mapIdx (c : CoreBitVector) {f : ℕ → Word → Word} (n : ℕ)
    (hf : ∀ i, c.words.length ≤ i → f i 0 = 0) :
    wordAt { c with words := c.words.mapIdx f } n =
      if n * WordSize < c.offset then 0 else f (n - c.offset / WordSize) (c.wordAt n) := by
  unfold wordAt
  by_cases hlo : n * WordSize < c.offset
  · simp only [hlo, if_true]
  · simp only [hlo, if_false]
    by_cases hi : n - c.offset / WordSize < c.words.length
    · rw [getD_eq_getElem?_getD, getD_eq_getElem?_getD, getElem?_mapIdx,
        getElem?_eq_getElem hi, Option.map_some, Option.getD_some, Option.getD_some]
    · rw [getD_eq_default _ _ (by rw [length_mapIdx]; omega),
        getD_eq_default _ _ (by omega), hf _ (by omega)]

theorem wordAt_modify (h : c.canHold bit) (f : Word → Word) (n : ℕ)
    : wordAt { c with words := c.words.modify (c.indexForBit bit) f } n =
      if n = bit / WordSize then f (c.wordAt n) else c.wordAt n := by
  obtain ⟨k, hk⟩ := c.aligned
  obtain ⟨hlo, hhi⟩ := canHold_iff.mp h
  unfold wordAt indexForBit
  rw [hk] at hlo hhi
  simp only [hk]
  unfold WordSize at *
  have hdiv : 64 * k / 64 = k := by omega
  rw [hdiv]
  by_cases hn : n * 64 < 64 * k
  · simp only [hn, if_true]
    rw [if_neg (by omega)]
  simp only [hn, if_false]
  rw [getD_eq_getElem?_getD, getElem?_modify]
  by_cases heq : n = bit / 64
  · have hidx : (bit - 64 * k) / 64 = n - k := by omega
    simp only [hidx, heq, if_true]
    rw [getD_eq_getElem?_getD, getElem?_eq_getElem (by omega)]
    rfl
  · have hidx : ¬ (bit - 64 * k) / 64 = n - k := by omega
    simp only [hidx, heq, if_false]
    rw [getD_eq_getElem?_getD]
    cases c.words[n - k]? <;> rfl

theorem wordAt_set (c : CoreBitVector) (bit n : ℕ) : (c.set bit).wordAt n =
    if n = bit / WordSize then c.wordAt n ||| BitVec.twoPow 64 (bit % WordSize)
    else c.wordAt n := by
  have h := wordAt_modify (canHold_extendTo c bit) (· ||| BitVec.twoPow 64 (bit % WordSize)) n
  rw [wordAt_extendTo] at h
  exact h

theorem wordAt_reset (c : CoreBitVector) (bit n : ℕ) : (c.reset bit).wordAt n =
    if n = bit / WordSize then c.wordAt n &&& ~~~ BitVec.twoPow 64 (bit % WordSize)
    else c.wordAt n := by
  unfold reset
  by_cases h : c.canHold bit
  · rw [if_pos h]
    exact wordAt_modify h _ n
  · -- the bit is in no word of the vector
    rw [if_neg h]
    split_ifs with hn
    · have h0 : c.wordAt n = 0 := by
        obtain ⟨k, hk⟩ := c.aligned
        rw [canHold_iff, hk] at h
        unfold wordAt
        rw [hk, hn]
        unfold WordSize at *
        split_ifs with hlo
        · rfl
        · exact getD_eq_default _ _ (by omega)
      rw [h0]
      exact zero_and.symm
    · rfl

theorem wordAt_overlap (hdvd : WordSize ∣ bit) (h : c.canHold bit) (hn : bit ≤ n * WordSize) :
    c.wordAt n = c.words.getD (c.indexForBit bit + (n - bit / WordSize)) 0 := by
  obtain ⟨k, hk⟩ := c.aligned
  obtain ⟨m, rfl⟩ := hdvd
  obtain ⟨hlo, -⟩ := canHold_iff.mp h
  unfold wordAt indexForBit
  rw [hk] at hlo ⊢
  unfold WordSize at *
  rw [if_neg (by omega)]
  congr 1
  omega

/-- The vector that `|=` extends for `rhs` starts no later, ends no earlier, and has the words
    it had. -/
theorem extend_for_union {c rhs : CoreBitVector} (hc : c.words.length ≠ 0)
    (hr : rhs.words.length ≠ 0) :
    ∃ d : CoreBitVector, (let c1 := if c.finalBit < rhs.finalBit
        then c.extendForward rhs.finalBit else c
      if c1.offset > rhs.offset then c1.extendBackward rhs.offset else c1) = d ∧
    (∀ n, d.wordAt n = c.wordAt n) ∧ d.offset ≤ rhs.offset ∧
    rhs.offset + rhs.words.length * WordSize ≤ d.offset + d.words.length * WordSize := by
  have hpos : 0 < WordSize := by decide
  have hlen : 0 < c.words.length * WordSize := mul_pos (pos_of_ne_zero hc) hpos
  have hrlen : 0 < rhs.words.length * WordSize := mul_pos (pos_of_ne_zero hr) hpos
  obtain ⟨c1, hc1⟩ : ∃ c1, (if c.finalBit < rhs.finalBit then c.extendForward rhs.finalBit
    else c) = c1 := ⟨_, rfl⟩
  have hword : ∀ n, c1.wordAt n = c.wordAt n := by
    intro n
    rw [← hc1]
    split_ifs
    · exact wordAt_extendForward c _ n
    · rfl
  have hend : rhs.offset + rhs.words.length * WordSize ≤
      c1.offset + c1.words.length * WordSize := by
    rw [← hc1]
    unfold finalBit
    by_cases hlt : c.offset + c.words.length * WordSize - 1 <
      rhs.offset + rhs.words.length * WordSize - 1
    · rw [if_pos hlt]
      have hhold := canHold_extendForward (c := c)
        (by omega : c.offset ≤ rhs.offset + rhs.words.length * WordSize - 1)
      have := (canHold_iff.mp hhold).2
      omega
    · rw [if_neg hlt]
      omega
  refine ⟨_, rfl, ?_⟩
  simp only [hc1]
  by_cases hback : c1.offset > rhs.offset
  · obtain ⟨hoff, hsame⟩ := extendBackward_bounds hback
    rw [if_pos hback, hsame]
    exact ⟨fun n => (wordAt_extendBackward c1 _ n).trans (hword n), hoff, hend⟩
  · rw [if_neg hback]
    exact ⟨hword, not_lt.mp hback, hend⟩

/-- **`|=`** is the bitwise union. -/
theorem wordAt_orAssign (c rhs : CoreBitVector) (n : ℕ) :
    (c.orAssign rhs).2.wordAt n = c.wordAt n ||| rhs.wordAt n := by
  have hnil : ∀ {d : CoreBitVector}, d.words.length = 0 → d.wordAt n = 0 := by
    intro d hd
    unfold wordAt
    rw [getD_eq_default _ _ (by omega), ite_self]
  unfold orAssign
  by_cases hc : c.words.length = 0
  · rw [if_pos hc, hnil hc]
    exact zero_or.symm
  by_cases hr : rhs.words.length = 0
  · rw [if_neg hc, if_pos hr, hnil hr]
    exact or_zero.symm
  rw [if_neg hc, if_neg hr]
  obtain ⟨d, hd, hword, hoff, hend⟩ := extend_for_union hc hr
  simp only at hd
  simp only [hd]
  obtain ⟨k, hk⟩ := d.aligned
  obtain ⟨m, hm⟩ := rhs.aligned
  have hbase : d.indexForBit rhs.offset = m - k := by
    unfold indexForBit
    rw [hk, hm, ← Nat.mul_sub, Nat.mul_div_cancel_left _ (by decide)]
  rw [wordAt_mapIdx, ← hword, hbase]
  · rw [hk, hm] at hoff hend
    unfold wordAt
    rw [hk, hm]
    unfold WordSize at *
    have hdk : 64 * k / 64 = k := by omega
    have hdm : 64 * m / 64 = m := by omega
    rw [hdk, hdm]
    by_cases hlo : n * 64 < 64 * k
    · rw [if_pos hlo, if_pos hlo, if_pos (by omega : n * 64 < 64 * m)]
      exact zero_or.symm
    rw [if_neg hlo, if_neg hlo]
    by_cases hmid : n - k < m - k
    · rw [if_pos hmid, if_pos (by omega : n * 64 < 64 * m)]
      exact or_zero.symm
    · rw [if_neg hmid, if_neg (by omega : ¬ n * 64 < 64 * m)]
      congr 2
      omega
  · -- the vector holds every word of `rhs`
    intro i hi
    rw [hk, hm] at hoff hend
    unfold WordSize at *
    rw [hbase, getD_eq_default _ _ (by omega)]
    exact ite_self _

theorem wordAt_eq_zero_of_not_canHold {bit n : ℕ} (hlo : c.offset ≤ bit) (h : ¬ c.canHold bit)
    (hn : bit ≤ n * WordSize) : c.wordAt n = 0 := by
  obtain ⟨k, hk⟩ := c.aligned
  rw [canHold_iff] at h
  unfold wordAt
  rw [hk] at hlo h ⊢
  unfold WordSize at *
  rw [if_neg (by omega)]
  exact getD_eq_default _ _ (by omega)

theorem wordAt_eq_zero_of_lt (h : n * WordSize < c.offset) : c.wordAt n = 0 := if_pos h

theorem no_overlap {c rhs : CoreBitVector}
    (h : ¬ c.canHold (max c.offset rhs.offset) ∨ ¬ rhs.canHold (max c.offset rhs.offset))
    (n : ℕ) : c.wordAt n = 0 ∨ rhs.wordAt n = 0 := by
  rcases lt_or_ge (n * WordSize) (max c.offset rhs.offset) with hlt | hge
  · rcases lt_max_iff.mp hlt with hc | hr
    · exact .inl (wordAt_eq_zero_of_lt hc)
    · exact .inr (wordAt_eq_zero_of_lt hr)
  · rcases h with hc | hr
    · exact .inl (wordAt_eq_zero_of_not_canHold (le_max_left _ _) hc hge)
    · exact .inr (wordAt_eq_zero_of_not_canHold (le_max_right _ _) hr hge)

/-- The loop over the overlap, of `&=` and `-=`: `before` is what becomes of the words before
    it, `op` of those in it and after it. -/
theorem wordAt_overlap_loop {c rhs : CoreBitVector} (hr : rhs.canHold (max c.offset rhs.offset))
    (before : Word → Word) (op : Word → Word → Word) (hbefore : ∀ w, before w = op w 0)
    (hop : ∀ w, op 0 w = 0) (n : ℕ) :
    wordAt
      { c with words := c.words.mapIdx fun i w =>
          if i < c.indexForBit (max c.offset rhs.offset) then before w
          else op w (rhs.words.getD (rhs.indexForBit (max c.offset rhs.offset) +
            (i - c.indexForBit (max c.offset rhs.offset))) 0) } n =
      op (c.wordAt n) (rhs.wordAt n) := by
  have hdvd : WordSize ∣ max c.offset rhs.offset := by
    rcases max_choice c.offset rhs.offset with h | h <;> rw [h]
    · exact c.aligned
    · exact rhs.aligned
  obtain ⟨k, hk⟩ := c.aligned
  obtain ⟨m, hm⟩ := hdvd
  have hle : c.offset ≤ max c.offset rhs.offset := le_max_left _ _
  have hidx : c.indexForBit (max c.offset rhs.offset) = m - k := by
    unfold indexForBit
    rw [hm, hk, ← Nat.mul_sub, Nat.mul_div_cancel_left _ (by decide)]
  have hbase : c.offset / WordSize = k := by
    rw [hk, Nat.mul_div_cancel_left _ (by decide)]
  rw [wordAt_mapIdx]
  · by_cases hlo : n * WordSize < c.offset
    · rw [if_pos hlo, wordAt_eq_zero_of_lt hlo, hop]
    rw [if_neg hlo, hidx, hbase]
    by_cases hmid : n * WordSize < max c.offset rhs.offset
    · -- before the overlap `rhs` has nothing
      have hrhs : n * WordSize < rhs.offset := (lt_max_iff.mp hmid).resolve_left hlo
      have hlt : n - k < m - k := by
        rw [hm] at hmid
        rw [hk] at hlo
        unfold WordSize at *
        omega
      rw [if_pos hlt, hbefore, wordAt_eq_zero_of_lt hrhs]
    · have hge : max c.offset rhs.offset ≤ n * WordSize := Nat.not_lt.mp hmid
      have hnot : ¬ n - k < m - k := by
        rw [hm] at hge
        unfold WordSize at *
        omega
      rw [if_neg hnot, wordAt_overlap (by rw [hm]; exact dvd_mul_right _ _) hr hge, hm,
        Nat.mul_div_cancel_left _ (by decide)]
      have hsub : n - k - (m - k) = n - m := by
        rw [hm] at hle hge
        rw [hk] at hle
        unfold WordSize at *
        omega
      rw [hsub]
  · intro i hi
    split_ifs
    · exact (hbefore 0).trans (hop 0)
    · exact hop _

/-- **`&=`** is the bitwise intersection. -/
theorem wordAt_andAssign (c rhs : CoreBitVector) (n : ℕ) :
    (c.andAssign rhs).wordAt n = c.wordAt n &&& rhs.wordAt n := by
  unfold andAssign
  simp only
  by_cases h : ¬ c.canHold (max c.offset rhs.offset) ∨ ¬ rhs.canHold (max c.offset rhs.offset)
  · rw [if_pos h]
    have hzero : wordAt { c with words := c.words.map fun _ => 0 } n = 0 := by
      unfold wordAt
      simp only [getD_eq_getElem?_getD, getElem?_map]
      split_ifs
      · rfl
      · cases c.words[n - c.offset / WordSize]? <;> rfl
    rw [hzero]
    rcases no_overlap h n with h0 | h0
    · rw [h0]
      exact zero_and.symm
    · rw [h0]
      exact and_zero.symm
  · rw [if_neg h]
    rw [not_or, not_not, not_not] at h
    exact wordAt_overlap_loop h.2 (fun _ => 0) (· &&& ·) (fun w => and_zero.symm)
      (fun w => zero_and) n

/-- **`-=`** is the bitwise difference. -/
theorem wordAt_subAssign (c rhs : CoreBitVector) (n : ℕ) :
    (c.subAssign rhs).wordAt n = c.wordAt n &&& ~~~ rhs.wordAt n := by
  unfold subAssign
  simp only
  by_cases h : ¬ c.canHold (max c.offset rhs.offset) ∨ ¬ rhs.canHold (max c.offset rhs.offset)
  · rw [if_pos h]
    rcases no_overlap h n with h0 | h0
    · rw [h0]
      exact zero_and.symm
    · rw [h0]
      exact (BitVec.and_allOnes (x := c.wordAt n)).symm
  · rw [if_neg h]
    rw [not_or, not_not, not_not] at h
    exact wordAt_overlap_loop h.2 id (fun w v => w &&& ~~~ v)
      (fun w => BitVec.and_allOnes.symm) (fun w => zero_and) n

-- ── The vectors as sets

/-- What a hash map that keeps the hash of its keys takes for one key. -/
instance instBEqCoreBitVector : BEq CoreBitVector :=
  ⟨fun c d => decide (c.hash = d.hash) && c.eq d⟩

instance instDataSetCoreBitVector : DataSet CoreBitVector ℕ where
  hash c := ⟨c.hash⟩
  empty := empty
  elems := elems
  set := set
  reset := reset
  testAndSet := test_and_set
  unionWith := orAssign
  union c d := (c.orAssign d).2
  inter := andAssign
  sub := subAssign

theorem mem_den_iff : bit ∈ den c ↔ c.test bit := by
  rw [test_eq]
  exact mem_elems

theorem eqLoop_iff : ∀ l r : List (ℕ × Word), eqLoop l r ↔ l = r
  | [], [] => by simp [eqLoop]
  | [], _ :: _ => by simp [eqLoop]
  | _ :: _, [] => by simp [eqLoop]
  | (lBit, lWord) :: ls, (rBit, rWord) :: rs => by
      rw [eqLoop, List.cons.injEq, Prod.mk.injEq]
      by_cases h : lBit ≠ rBit ∨ lWord ≠ rWord
      · rw [if_pos h]
        simp only [Bool.false_eq_true, false_iff]
        tauto
      · rw [if_neg h, eqLoop_iff ls rs]
        tauto

theorem beq_iff {c d : CoreBitVector} : (c == d) ↔ c.hash = d.hash ∧ c.setWords = d.setWords := by
  show (decide (c.hash = d.hash) && eqLoop c.setWords d.setWords) ↔ _
  rw [Bool.and_eq_true, decide_eq_true_iff, eqLoop_iff]

theorem test_set (c : CoreBitVector) (a bit : ℕ) : (c.set a).test bit ↔ bit = a ∨ c.test bit := by
  rw [test_eq, test_eq, wordAt_set]
  unfold WordSize
  by_cases hword : bit / 64 = a / 64
  · rw [if_pos hword, getLsbD_or, BitVec.getLsbD_twoPow, Bool.or_eq_true, Bool.and_eq_true,
      decide_eq_true_iff, decide_eq_true_iff]
    have : a % 64 < 64 ∧ a % 64 = bit % 64 ↔ bit = a := by omega
    rw [this, or_comm]
  · have hne : bit ≠ a := fun h => hword (h ▸ rfl)
    rw [if_neg hword]
    tauto

theorem test_reset (c : CoreBitVector) (a bit : ℕ) :
    (c.reset a).test bit ↔ c.test bit ∧ bit ≠ a := by
  rw [test_eq, test_eq, wordAt_reset]
  unfold WordSize
  by_cases hword : bit / 64 = a / 64
  · rw [if_pos hword, getLsbD_and, BitVec.getLsbD_not, BitVec.getLsbD_twoPow,
      Bool.and_eq_true, Bool.and_eq_true, Bool.not_eq_true', Bool.and_eq_false_iff,
      decide_eq_true_iff, decide_eq_false_iff_not, decide_eq_false_iff_not]
    have : (bit % 64 < 64 ∧ (¬ a % 64 < 64 ∨ ¬ a % 64 = bit % 64)) ↔ bit ≠ a := by omega
    rw [this]
  · have hne : bit ≠ a := fun h => hword (h ▸ rfl)
    rw [if_neg hword]
    tauto

/-- **The operations on vectors are the set operations.** -/
instance instSetDataSetCoreBitVector : SetDataSet CoreBitVector where
  den_empty := eq_empty_iff_forall_notMem.mpr nofun
  den_set c a := by
    ext bit
    rw [mem_insert_iff, mem_den_iff, mem_den_iff]
    exact test_set c a bit
  den_reset c a := by
    ext bit
    rw [mem_sdiff, mem_singleton_iff, mem_den_iff, mem_den_iff]
    exact test_reset c a bit
  testAndSet_fst c a := by
    rw [mem_den_iff]
    show (c.test_and_set a).1 = true ↔ _
    unfold test_and_set
    split_ifs with h <;> simp [h]
  testAndSet_snd c a := by
    ext bit
    rw [mem_insert_iff, mem_den_iff, mem_den_iff]
    show (c.test_and_set a).2.test bit = true ↔ _
    unfold test_and_set
    split_ifs with h
    · exact ⟨Or.inr, fun hor => hor.elim (fun heq => heq ▸ h) id⟩
    · exact test_set c a bit
  unionWith_snd c d := by
    ext bit
    rw [mem_union, mem_den_iff, mem_den_iff, mem_den_iff, test_eq, test_eq, test_eq,
      show DataSet.unionWith c d = c.orAssign d from rfl, wordAt_orAssign, getLsbD_or,
      Bool.or_eq_true]
  den_union c d := by
    ext bit
    rw [mem_union, mem_den_iff, mem_den_iff, mem_den_iff, test_eq, test_eq, test_eq,
      show DataSet.union c d = (c.orAssign d).2 from rfl, wordAt_orAssign, getLsbD_or,
      Bool.or_eq_true]
  den_inter c d := by
    ext bit
    rw [mem_inter_iff, mem_den_iff, mem_den_iff, mem_den_iff, test_eq, test_eq, test_eq,
      show DataSet.inter c d = c.andAssign d from rfl, wordAt_andAssign, getLsbD_and,
      Bool.and_eq_true]
  den_sub c d := by
    ext bit
    have hlt : bit % WordSize < 64 := mod_lt _ (by decide)
    rw [mem_sdiff, mem_den_iff, mem_den_iff, mem_den_iff, test_eq, test_eq, test_eq,
      show DataSet.sub c d = c.subAssign d from rfl, wordAt_subAssign, getLsbD_and,
      BitVec.getLsbD_not, Bool.and_eq_true, decide_eq_true hlt, Bool.true_and,
      Bool.not_eq_true', Bool.not_eq_true]
  equivBEq := {
    rfl := beq_iff.mpr ⟨rfl, rfl⟩
    symm := fun h => beq_iff.mpr ⟨(beq_iff.mp h).1.symm, (beq_iff.mp h).2.symm⟩
    trans := fun h₁ h₂ => beq_iff.mpr ⟨(beq_iff.mp h₁).1.trans (beq_iff.mp h₂).1,
      (beq_iff.mp h₁).2.trans (beq_iff.mp h₂).2⟩ }
  lawfulHashable := { hash_eq := fun _ _ h => congrArg UInt64.ofBitVec (beq_iff.mp h).1 }
  den_of_beq h := by
    ext bit
    show bit ∈ elems _ ↔ bit ∈ elems _
    unfold elems
    rw [(beq_iff.mp h).2]

end CoreBitVector

-- ── A run that the two stores answer differently

def highBit : CoreBitVector := CoreBitVector.empty.set 64

/-- `{64}` once more, after 0 was in the set too: a word stays for it. -/
def shrunkBit : CoreBitVector := ((CoreBitVector.empty.set 0).set 64).reset 0

/-- Their difference: no bits, and two words. -/
def blankBits : CoreBitVector := shrunkBit.subAssign highBit

/-- The set is added twice, and its difference computed each time. -/
def shrunkCalls : List (DiffCall ℕ ℕ CoreBitVector) :=
  [.pts (.unionPtsData 1 highBit), .computeDiffPts 1,
    .pts (.unionPtsData 1 shrunkBit), .computeDiffPts 1]

end SvfPtsStore
