import Mathlib

/-!
# `AndersenSFR::fieldExpand`

A gep edge on a positive weight cycle adds its offset again and again. The solver expands a
target by the offset and every combination of the strides of the cycle that stays below the field
limit. The offsets are collected by a loop that goes over a growing `unordered_set` until a flag
stays unset, and the flag is overwritten by each pair of an offset and a stride.

The heart is `PassInv.endPass`: a pass that ends with the flag unset has visited the given offset
and, if the combinations reach further than one stride, an offset one stride above. Where these
already give every combination, each run ends with all of them, whatever the order of the set
(**`fieldExpand_closure`**). Conversely a pass that visits the given offset last ends the loop: no
field more than two strides away is sure to be found (`Expands.within_two`).
-/

namespace SvfFieldExpand

open List
open Relation (ReflTransGen)
open Finset (card_le_card erase_subset mem_coe mem_erase mem_insert mem_insert_of_mem mem_sdiff
  mem_union)
open Prod.Lex (toLex_lt_toLex)

-- ── Objects and their fields

/-- An object node: a `FIObjVar` or a `DummyObjVar`, or the `GepObjVar` of a field. An `APOffset`
    is an integer. -/
inductive ObjVar (M : Type) where
  | base (mem : M)
  | gep (mem : M) (apOffset : ℤ)
  deriving DecidableEq

/-- What the expansion reads of the objects and of the options. -/
structure PAG (M : Type) where
  getMaxFieldOffsetLimit : M → UInt32
  isBlkObjOrConstantObj : ObjVar M → Bool
  MaxFieldLimit : UInt32
  CyclicFldIdx : Bool
  FirstFieldEqBase : Bool

variable {M : Type}

def ObjVar.getBaseObj : ObjVar M → M
  | base mem => mem
  | gep mem _ => mem

def ObjVar.initOffset : ObjVar M → ℤ
  | base _ => 0
  | gep _ apOffset => apOffset

/-- The limit of an object as a number. -/
def PAG.limit (pag : PAG M) (obj : M) : ℤ := (pag.getMaxFieldOffsetLimit obj).toNat

def toU32 (x : ℤ) : ℤ := x % 2 ^ 32

section

variable (pag : PAG M)

def getModulusOffset (obj : M) (apOffset : ℤ) : ℤ :=
  let offset := if apOffset < 0 then |apOffset| else apOffset
  let maxOffset := pag.limit obj
  if maxOffset = 0 then 0
  else if pag.MaxFieldLimit < pag.getMaxFieldOffsetLimit obj then offset % maxOffset
  else if maxOffset - 1 < toU32 offset then
    if pag.CyclicFldIdx then offset % maxOffset else maxOffset - 1
  else offset

def fieldVar (obj : M) (newLS : ℤ) : ObjVar M :=
  if pag.FirstFieldEqBase ∧ newLS = 0 then .base obj else .gep obj newLS

def getGepObjVarOf (obj : M) (apOffset : ℤ) : ObjVar M :=
  if pag.getMaxFieldOffsetLimit obj = 0 then .base obj
  else fieldVar pag obj (getModulusOffset pag obj apOffset)

def getGepObjVar : ObjVar M → ℤ → ObjVar M
  | .gep mem k, apOffset => getGepObjVarOf pag mem (k + apOffset)
  | .base mem, apOffset => getGepObjVarOf pag mem apOffset

end

-- ── The expansion

/-- The body of the two inner loops. The flag tells about this pair alone. -/
def tryStride (initOffset : ℤ) (maxLimit : ℤ) (f : ℤ)
    (acc : Finset ℤ × Bool) (s : ℕ) : Finset ℤ × Bool :=
  let f1 := f + s
  let loopFlag := decide (f1 ∉ acc.1 ∧ toU32 (initOffset + f1) < maxLimit)
  (if loopFlag then insert f1 acc.1 else acc.1, loopFlag)

/-- The loop over the strides, which a bit vector yields in ascending order. -/
def visit (initOffset : ℤ) (maxLimit : ℤ) (strides : Finset ℕ) (f : ℤ)
    (acc : Finset ℤ × Bool) : Finset ℤ × Bool :=
  (strides.sort (· ≤ ·)).foldl (tryStride initOffset maxLimit f) acc

/-- Where the function stands: before the next initial, before the next pass over the offsets of
    one, or inside of a pass that began with the offsets `start`. -/
inductive Control (M : Type) where
  | outer
  | loop (init : ObjVar M) (offsets : Finset ℤ) (loopFlag : Bool)
  | pass (init : ObjVar M) (start visited offsets : Finset ℤ) (loopFlag : Bool)

structure Config (M : Type) where
  initials : Finset (ObjVar M)
  expandPts : Finset (ObjVar M)
  control : Control M

/-- The steps of `fieldExpand`. Its sets are hash sets: any initial may be the first, and a pass
    visits each offset that was there when it began, in any order. An offset inserted during the
    pass may be visited in it or not. -/
inductive Step [DecidableEq M] (pag : PAG M) (offset : ℤ) (strides : Finset ℕ) :
    Config M → Config M → Prop
  | keep {I R init} (hmem : init ∈ I) (hconst : pag.isBlkObjOrConstantObj init = true) :
      Step pag offset strides ⟨I, R, .outer⟩ ⟨I.erase init, insert init R, .outer⟩
  | expand {I R init} (hmem : init ∈ I) (hconst : pag.isBlkObjOrConstantObj init = false) :
      Step pag offset strides ⟨I, R, .outer⟩ ⟨I.erase init, R, .loop init {offset} true⟩
  | beginPass {I R init offsets} :
      Step pag offset strides ⟨I, R, .loop init offsets true⟩
        ⟨I, R, .pass init offsets ∅ offsets false⟩
  | visit {I R init start visited offsets loopFlag f acc} (hmem : f ∈ offsets)
      (hnew : f ∉ visited)
      (hacc : visit init.initOffset (pag.limit init.getBaseObj) strides f (offsets, loopFlag) =
        acc) :
      Step pag offset strides ⟨I, R, .pass init start visited offsets loopFlag⟩
        ⟨I, R, .pass init start (insert f visited) acc.1 acc.2⟩
  | endPass {I R init start visited offsets loopFlag} (hall : start ⊆ visited) :
      Step pag offset strides ⟨I, R, .pass init start visited offsets loopFlag⟩
        ⟨I, R, .loop init offsets loopFlag⟩
  | fields {I R init offsets} :
      Step pag offset strides ⟨I, R, .loop init offsets false⟩
        ⟨I \ offsets.image (getGepObjVar pag init), R ∪ offsets.image (getGepObjVar pag init),
          .outer⟩

/-- The call of `fieldExpand` with an empty target. -/
def call (initials : Finset (ObjVar M)) : Config M := ⟨initials, ∅, .outer⟩

def Config.Returned (c : Config M) : Prop := c.initials = ∅ ∧ c.control = .outer

-- ── What the expansion is for

/-- The offsets a base is to be expanded by: the given one plus any combination of the strides,
    where the field exists. -/
def closure (pag : PAG M) (offset : ℤ) (strides : Finset ℕ) (init : ObjVar M) : Set ℤ :=
  {f | (∃ n ∈ AddSubmonoid.closure (strides : Set ℕ), f = offset + n) ∧
    0 ≤ init.initOffset + f ∧ init.initOffset + f < pag.limit init.getBaseObj}

/-- The nodes an initial stands for. A constant is not expanded. -/
def expansion (pag : PAG M) (offset : ℤ) (strides : Finset ℕ) (init : ObjVar M) : Set (ObjVar M) :=
  if pag.isBlkObjOrConstantObj init then {init}
  else (fun f => fieldVar pag init.getBaseObj (init.initOffset + f)) ''
    closure pag offset strides init

/-- The call terminates, does not get stuck, and returns the expansions of its initials. -/
def Expands [DecidableEq M] (pag : PAG M) (offset : ℤ) (strides : Finset ℕ)
    (initials : Finset (ObjVar M)) : Prop :=
  Acc (fun c d => Step pag offset strides d c) (call initials) ∧
    ∀ c, ReflTransGen (Step pag offset strides) (call initials) c →
      ((∀ d, ¬ Step pag offset strides c d) → c.Returned) ∧
      (c.Returned → (c.expandPts : Set (ObjVar M)) =
        ⋃ init ∈ initials, expansion pag offset strides init)

/-- The offsets of a base that the loop collects whatever the order of the set: the given one is
    that of a field, no offset leaves the range of `u32_t`, and the combinations reach no further
    than one stride, or than one stride from each offset that is one stride away. -/
structure Collected (pag : PAG M) (offset : ℤ) (strides : Finset ℕ) (init : ObjVar M) :
    Prop where
  lower : 0 ≤ init.initOffset + offset
  upper : init.initOffset + offset < pag.limit init.getBaseObj
  noWrap : ∀ s ∈ strides, pag.limit init.getBaseObj + s ≤ 2 ^ 32
  near : (∀ f ∈ closure pag offset strides init, f = offset ∨ ∃ s ∈ strides, f = offset + s) ∨
    ((∀ s ∈ strides, init.initOffset + (offset + s) < pag.limit init.getBaseObj) ∧
      ∀ s ∈ strides, s ≠ 0 → ∀ f ∈ closure pag offset strides init,
        f = offset ∨ (∃ t ∈ strides, f = offset + t) ∨ ∃ t ∈ strides, f = offset + s + t)

/-- When the expansion is complete: the loop collects the offsets of each initial, and what an
    initial stands for belongs to an initial that no other one erases. -/
structure Complete (pag : PAG M) (offset : ℤ) (strides : Finset ℕ)
    (initials : Finset (ObjVar M)) : Prop where
  collected : ∀ init ∈ initials, pag.isBlkObjOrConstantObj init = false →
    Collected pag offset strides init
  kept : ∀ init ∈ initials, pag.isBlkObjOrConstantObj init = false →
    ∃ z ∈ initials, pag.isBlkObjOrConstantObj z = false ∧
      expansion pag offset strides init ⊆ expansion pag offset strides z ∧
      ∀ y ∈ initials, y ≠ z → z ∉ expansion pag offset strides y

-- ── One visit

section Visit

variable {initOffset : ℤ} {maxLimit : ℤ} {f g : ℤ} {strides : Finset ℕ}

section

variable {acc : Finset ℤ × Bool}

theorem mem_foldl_tryStride {l : List ℕ} :
    g ∈ (l.foldl (tryStride initOffset maxLimit f) acc).1 ↔
      g ∈ acc.1 ∨ ∃ s ∈ l, g = f + s ∧ toU32 (initOffset + g) < maxLimit := by
  induction l generalizing acc with
  | nil => simp
  | cons s l ih =>
    rw [foldl_cons, ih]
    have hone : g ∈ (tryStride initOffset maxLimit f acc s).1 ↔
        g ∈ acc.1 ∨ (g = f + s ∧ toU32 (initOffset + g) < maxLimit) := by
      unfold tryStride
      dsimp only
      by_cases hnew : f + s ∉ acc.1 ∧ toU32 (initOffset + (f + s)) < maxLimit
      · rw [if_pos (decide_eq_true hnew), mem_insert]
        constructor
        · rintro (rfl | h)
          · exact .inr ⟨rfl, hnew.2⟩
          · exact .inl h
        · rintro (h | ⟨h, -⟩)
          · exact .inr h
          · exact .inl h
      · rw [if_neg (by simpa using hnew)]
        constructor
        · exact .inl
        · rintro (h | ⟨rfl, h⟩)
          · exact h
          · by_contra hg
            exact hnew ⟨hg, h⟩
    rw [hone, or_assoc, exists_mem_cons_iff]

theorem mem_visit : g ∈ (visit initOffset maxLimit strides f acc).1 ↔
      g ∈ acc.1 ∨ ∃ s ∈ strides, g = f + s ∧ toU32 (initOffset + g) < maxLimit := by
  unfold visit
  rw [mem_foldl_tryStride]
  simp only [Finset.mem_sort]

theorem foldl_tryStride_flag {l : List ℕ} {s : ℕ} :
    ((l ++ [s]).foldl (tryStride initOffset maxLimit f) acc).2 ↔
      f + s ∉ (l.foldl (tryStride initOffset maxLimit f) acc).1 ∧
        toU32 (initOffset + (f + s)) < maxLimit := by
  rw [foldl_append, foldl_cons, foldl_nil]
  exact decide_eq_true_iff

/-- If the flag is set after a visit, an offset was inserted, or there is no stride and it was
    set before. -/
theorem visit_flag (h : (visit initOffset maxLimit strides f acc).2) :
    acc.2 ∨ ∃ g ∈ (visit initOffset maxLimit strides f acc).1, g ∉ acc.1 := by
  unfold visit at h ⊢
  rcases eq_nil_or_concat (strides.sort (· ≤ ·)) with hnil | ⟨l, s, hl⟩
  · rw [hnil] at h
    exact .inl h
  · rw [hl, concat_eq_append] at h ⊢
    obtain ⟨hnew, hlt⟩ := foldl_tryStride_flag.mp h
    refine .inr ⟨f + s, mem_foldl_tryStride.mpr (.inr ⟨s, by simp, rfl, hlt⟩), ?_⟩
    intro hold
    exact hnew (mem_foldl_tryStride.mpr (.inl hold))

end

/-- The first visit of all sets the flag if each stride gives a field and not all are zero: the
    last stride is the largest. -/
theorem visit_first_flag {flag : Bool}
    (hlt : ∀ s ∈ strides, toU32 (initOffset + (f + s)) < maxLimit)
    (hne : ∃ s ∈ strides, s ≠ 0) :
    (visit initOffset maxLimit strides f ({f}, flag)).2 := by
  unfold visit
  obtain ⟨s0, hs0, hpos⟩ := hne
  rcases eq_nil_or_concat (strides.sort (· ≤ ·)) with hnil | ⟨l, s, hl⟩
  · rw [← Finset.mem_sort (· ≤ ·), hnil] at hs0
    cases hs0
  · rw [concat_eq_append] at hl
    have hsorted : (l ++ [s]).Pairwise (· ≤ ·) := hl ▸ Finset.pairwise_sort strides (· ≤ ·)
    have hnodup : (l ++ [s]).Nodup := hl ▸ Finset.sort_nodup strides (· ≤ ·)
    have hmem : ∀ t, t ∈ strides ↔ t ∈ l ++ [s] := by
      intro t
      rw [← hl, Finset.mem_sort]
    have hs : s ≠ 0 := by
      rcases List.mem_append.mp ((hmem s0).mp hs0) with h | h
      · have := (List.pairwise_append.mp hsorted).2.2 s0 h s (mem_singleton_self s)
        omega
      · exact List.mem_singleton.mp h ▸ hpos
    rw [hl, foldl_tryStride_flag]
    refine ⟨?_, hlt s ((hmem s).mpr (by simp))⟩
    rw [mem_foldl_tryStride]
    rintro (h | ⟨t, ht, heq, -⟩)
    · have := Finset.mem_singleton.mp h
      omega
    · have hts : t = s := by omega
      exact (List.nodup_append.mp hnodup).2.2 t ht s (mem_singleton_self s) hts

end Visit

-- ── The closure of one initial

section Closure

variable {pag : PAG M} {offset : ℤ} {strides : Finset ℕ} {init : ObjVar M}

theorem toU32_eq {x : ℤ} (h0 : 0 ≤ x) (h : x < 2 ^ 32) : toU32 x = x := Int.emod_eq_of_lt h0 h

theorem getModulusOffset_eq {obj : M} {x : ℤ} (h0 : 0 ≤ x) (h : x < pag.limit obj) :
    getModulusOffset pag obj x = x := by
  have hlt : pag.limit obj < 2 ^ 32 := by
    have := (pag.getMaxFieldOffsetLimit obj).toNat_lt
    unfold PAG.limit
    omega
  unfold getModulusOffset
  rw [if_neg (by omega : ¬ x < 0)]
  dsimp only
  rw [if_neg (by omega : ¬ pag.limit obj = 0), toU32_eq h0 (by omega),
    if_neg (by omega : ¬ pag.limit obj - 1 < x), Int.emod_eq_of_lt h0 h, ite_self]

theorem getGepObjVar_eq {f : ℤ} (h0 : 0 ≤ init.initOffset + f)
    (h : init.initOffset + f < pag.limit init.getBaseObj) :
    getGepObjVar pag init f = fieldVar pag init.getBaseObj (init.initOffset + f) := by
  have hone : getGepObjVar pag init f =
      getGepObjVarOf pag init.getBaseObj (init.initOffset + f) := by
    cases init with
    | base mem => exact congrArg _ (zero_add f).symm
    | gep mem k => rfl
  have hne : pag.getMaxFieldOffsetLimit init.getBaseObj ≠ 0 := by
    intro hz
    have : pag.limit init.getBaseObj = 0 := by rw [PAG.limit, hz]; rfl
    omega
  rw [hone, getGepObjVarOf, if_neg hne, getModulusOffset_eq h0 h]

/-- One stride above an offset of the closure lies one of the closure, if it is tested to be
    below the limit. -/
theorem closure_step (hwrap : ∀ s ∈ strides, pag.limit init.getBaseObj + s ≤ 2 ^ 32) {f : ℤ}
    (hf : f ∈ closure pag offset strides init) {s : ℕ} (hs : s ∈ strides) :
    f + s ∈ closure pag offset strides init ↔
      toU32 (init.initOffset + (f + s)) < pag.limit init.getBaseObj := by
  obtain ⟨⟨n, hn, rfl⟩, h0, hlt⟩ := hf
  have hw := hwrap s hs
  rw [toU32_eq (by omega) (by omega)]
  constructor
  · intro h
    exact h.2.2
  · intro h
    refine ⟨⟨n + s, add_mem hn (AddSubmonoid.subset_closure hs), ?_⟩, by omega, h⟩
    push_cast
    ring

theorem Collected.offset_mem (h : Collected pag offset strides init) :
    offset ∈ closure pag offset strides init :=
  ⟨⟨0, zero_mem _, by simp⟩, h.lower, h.upper⟩

theorem card_le_limit {offsets : Finset ℤ}
    (h : ∀ f ∈ offsets, f ∈ closure pag offset strides init) :
    offsets.card ≤ (pag.limit init.getBaseObj).toNat := by
  have hsub : offsets ⊆
      Finset.Ico (-init.initOffset) (pag.limit init.getBaseObj - init.initOffset) := by
    intro f hf
    obtain ⟨-, h0, hlt⟩ := h f hf
    rw [Finset.mem_Ico]
    omega
  calc offsets.card ≤ _ := card_le_card hsub
    _ = (pag.limit init.getBaseObj).toNat := by rw [Int.card_Ico]; congr 1; omega

theorem image_eq_expansion [DecidableEq M] (hconst : pag.isBlkObjOrConstantObj init = false)
    {offsets : Finset ℤ}
    (hsound : ∀ f ∈ offsets, f ∈ closure pag offset strides init)
    (hall : ∀ f ∈ closure pag offset strides init, f ∈ offsets) :
    ((offsets.image (getGepObjVar pag init) : Finset (ObjVar M)) : Set (ObjVar M)) =
      expansion pag offset strides init := by
  rw [expansion, if_neg (by rw [hconst]; exact Bool.false_ne_true)]
  have hset : (offsets : Set ℤ) = closure pag offset strides init := Set.Subset.antisymm hsound hall
  rw [Finset.coe_image, hset]
  refine Set.image_congr ?_
  intro f hf
  exact getGepObjVar_eq hf.2.1 hf.2.2

end Closure

-- ── The invariant of a run

section Run

variable {pag : PAG M} {offset : ℤ} {strides : Finset ℕ} {init : ObjVar M}

/-- An offset one stride above the given one. -/
def First (offset : ℤ) (strides : Finset ℕ) (x : ℤ) : Prop :=
  ∃ s ∈ strides, s ≠ 0 ∧ x = offset + s

/-- The combinations reach no further than one stride. -/
def Shallow (pag : PAG M) (offset : ℤ) (strides : Finset ℕ) (init : ObjVar M) : Prop :=
  ∀ f ∈ closure pag offset strides init, f = offset ∨ ∃ s ∈ strides, f = offset + s

structure LoopInv (pag : PAG M) (offset : ℤ) (strides : Finset ℕ) (init : ObjVar M)
    (offsets : Finset ℤ) (loopFlag : Bool) : Prop where
  given : offset ∈ offsets
  sound : ∀ f ∈ offsets, f ∈ closure pag offset strides init
  first : offsets = {offset} ∨ ∃ x ∈ offsets, First offset strides x
  complete : loopFlag = false → ∀ f ∈ closure pag offset strides init, f ∈ offsets

/-- Inside of a pass. If it began with the given offset alone, then it has visited nothing yet,
    or that offset with the flag set, or an offset one stride above. -/
structure PassInv (pag : PAG M) (offset : ℤ) (strides : Finset ℕ) (init : ObjVar M)
    (start visited offsets : Finset ℤ) (loopFlag : Bool) : Prop where
  given : offset ∈ start
  grown : start ⊆ offsets
  seen : visited ⊆ offsets
  sound : ∀ f ∈ offsets, f ∈ closure pag offset strides init
  closed : ∀ f ∈ visited, ∀ s ∈ strides, f + s ∈ closure pag offset strides init →
    f + s ∈ offsets
  new : loopFlag = true → ∃ g ∈ offsets, g ∉ start
  first : (∃ x ∈ start, First offset strides x) ∨ (visited = ∅ ∧ offsets = {offset}) ∨
    (visited = {offset} ∧ (loopFlag = true ∨ Shallow pag offset strides init) ∧
      ∀ x ∈ offsets, x = offset ∨ First offset strides x) ∨
    ∃ x ∈ visited, First offset strides x

theorem LoopInv.beginPass {offsets : Finset ℤ} {loopFlag : Bool}
    (h : LoopInv pag offset strides init offsets loopFlag) :
    PassInv pag offset strides init offsets ∅ offsets false where
  given := h.given
  grown := Finset.Subset.refl _
  seen := Finset.empty_subset _
  sound := h.sound
  closed f hf := absurd hf (Finset.notMem_empty f)
  new hf := absurd hf Bool.false_ne_true
  first := by
    rcases h.first with h1 | h1
    · exact .inr (.inl ⟨rfl, h1⟩)
    · exact .inl h1

theorem shallow_of_zero (h : ∀ s ∈ strides, s = 0) : Shallow pag offset strides init := by
  rintro f ⟨⟨n, hn, rfl⟩, -, -⟩
  have hn0 : n = 0 := by
    have hle : AddSubmonoid.closure (strides : Set ℕ) ≤ ⊥ := by
      rw [AddSubmonoid.closure_le]
      intro s hs
      exact h s hs
    exact AddSubmonoid.mem_bot.mp (hle hn)
  left
  rw [hn0]
  simp

theorem Collected.visit_given (h : Collected pag offset strides init) (flag : Bool) :
    (visit init.initOffset (pag.limit init.getBaseObj) strides offset ({offset}, flag)).2 ∨
      Shallow pag offset strides init := by
  rcases h.near with hnear | ⟨hfit, -⟩
  · exact .inr hnear
  · by_cases hne : ∃ s ∈ strides, s ≠ 0
    · refine .inl (visit_first_flag ?_ hne)
      intro s hs
      have hmem : offset + s ∈ closure pag offset strides init := by
        refine ⟨⟨s, AddSubmonoid.subset_closure hs, rfl⟩, ?_, hfit s hs⟩
        have := h.lower
        omega
      exact (closure_step h.noWrap h.offset_mem hs).mp hmem
    · refine .inr (shallow_of_zero ?_)
      intro s hs
      by_contra hs0
      exact hne ⟨s, hs, hs0⟩

section

variable {start visited offsets : Finset ℤ} {loopFlag : Bool}
  (hc : Collected pag offset strides init)
  (h : PassInv pag offset strides init start visited offsets loopFlag)
include hc h

/-- **Step lemma of a pass.** -/
theorem PassInv.visit {f : ℤ} (hf : f ∈ offsets) (hnew : f ∉ visited) {acc : Finset ℤ × Bool}
    (hacc : visit init.initOffset (pag.limit init.getBaseObj) strides f (offsets, loopFlag) = acc) :
    PassInv pag offset strides init start (insert f visited) acc.1 acc.2 := by
  have hmem : ∀ g, g ∈ acc.1 ↔ g ∈ offsets ∨
      ∃ s ∈ strides, g = f + s ∧ f + s ∈ closure pag offset strides init := by
    intro g
    rw [← hacc, mem_visit]
    refine or_congr_right (exists_congr fun s => and_congr_right fun hs => ?_)
    rw [closure_step hc.noWrap (h.sound f hf) hs]
    constructor
    · rintro ⟨rfl, hlt⟩
      exact ⟨rfl, hlt⟩
    · rintro ⟨rfl, hlt⟩
      exact ⟨rfl, hlt⟩
  have hgrow : offsets ⊆ acc.1 := fun g hg => (hmem g).mpr (.inl hg)
  constructor
  case given => exact h.given
  case grown => exact h.grown.trans hgrow
  case seen =>
    intro g hg
    rcases mem_insert.mp hg with rfl | hg
    · exact hgrow hf
    · exact hgrow (h.seen hg)
  case sound =>
    intro g hg
    rcases (hmem g).mp hg with hg | ⟨s, -, rfl, hcl⟩
    · exact h.sound g hg
    · exact hcl
  case closed =>
    intro g hg s hs hcl
    rcases mem_insert.mp hg with rfl | hg
    · exact (hmem _).mpr (.inr ⟨s, hs, rfl, hcl⟩)
    · exact hgrow (h.closed g hg s hs hcl)
  case new =>
    intro hflag
    rw [← hacc] at hflag
    rcases visit_flag hflag with hold | ⟨g, hg, hgnew⟩
    · obtain ⟨g, hg, hgs⟩ := h.new hold
      exact ⟨g, hgrow hg, hgs⟩
    · rw [hacc] at hg
      exact ⟨g, hg, fun hgs => hgnew (h.grown hgs)⟩
  case first =>
    rcases h.first with h1 | ⟨hvis, hoff⟩ | ⟨hvis, -, hoff⟩ | ⟨x, hx, hfx⟩
    · exact .inl h1
    · -- the given offset is the only one there is to visit
      have hfo : f = offset := Finset.mem_singleton.mp (hoff ▸ hf)
      refine .inr (.inr (.inl ⟨?_, ?_, ?_⟩))
      · rw [hvis, hfo]
        rfl
      · rw [← hacc, hfo, hoff]
        exact hc.visit_given loopFlag
      · intro x hx
        rcases (hmem x).mp hx with hx | ⟨s, hs, rfl, -⟩
        · exact .inl (Finset.mem_singleton.mp (hoff ▸ hx))
        · rcases Nat.eq_zero_or_pos s with hs0 | hs0
          · left
            rw [hfo, hs0]
            simp
          · exact .inr ⟨s, hs, by omega, by rw [hfo]⟩
    · -- anything else that is there is one stride above
      rcases hoff f hf with rfl | hfirst
      · exact absurd (hvis ▸ Finset.mem_singleton_self f) hnew
      · exact .inr (.inr (.inr ⟨f, Finset.mem_insert_self _ _, hfirst⟩))
    · exact .inr (.inr (.inr ⟨x, mem_insert_of_mem hx, hfx⟩))

/-- **End of a pass.** It has visited the given offset and, if the combinations reach further
    than one stride, an offset one stride above: no offset is missing when the flag is unset. -/
theorem PassInv.endPass (hall : start ⊆ visited) :
    LoopInv pag offset strides init offsets loopFlag := by
  have hgiven := hall h.given
  constructor
  case given => exact h.grown h.given
  case sound => exact h.sound
  case first =>
    rcases h.first with ⟨x, hx, hfx⟩ | ⟨-, hoff⟩ | ⟨-, -, hoff⟩ | ⟨x, hx, hfx⟩
    · exact .inr ⟨x, h.grown hx, hfx⟩
    · exact .inl hoff
    · by_cases hone : ∃ x ∈ offsets, First offset strides x
      · exact .inr hone
      · refine .inl (Finset.eq_singleton_iff_unique_mem.mpr ⟨h.grown h.given, ?_⟩)
        intro x hx
        exact (hoff x hx).resolve_right fun hfx => hone ⟨x, hx, hfx⟩
    · exact .inr ⟨x, h.seen hx, hfx⟩
  case complete =>
    intro hflag
    have hone : ∀ t ∈ strides, offset + t ∈ closure pag offset strides init →
        offset + t ∈ offsets := h.closed offset hgiven
    have hshallow : Shallow pag offset strides init →
        ∀ f ∈ closure pag offset strides init, f ∈ offsets := by
      intro hs f hf
      rcases hs f hf with rfl | ⟨t, ht, rfl⟩
      · exact h.grown h.given
      · exact hone t ht hf
    rcases hc.near with hnear | ⟨-, hnear⟩
    · exact hshallow hnear
    · have hvisited : Shallow pag offset strides init ∨ ∃ x ∈ visited, First offset strides x := by
        rcases h.first with ⟨x, hx, hfx⟩ | ⟨hvis, -⟩ | ⟨-, hset | hs, -⟩ | hx
        · exact .inr ⟨x, hall hx, hfx⟩
        · cases hvis ▸ hgiven
        · cases hflag.symm.trans hset
        · exact .inl hs
        · exact .inr hx
      rcases hvisited with hs | ⟨x, hx, s, hs, hpos, rfl⟩
      · exact hshallow hs
      · intro f hf
        rcases hnear s hs hpos f hf with rfl | ⟨t, ht, rfl⟩ | ⟨t, ht, rfl⟩
        · exact h.grown h.given
        · exact hone t ht hf
        · exact h.closed _ hx t ht hf

end

/-- The initial that is being expanded, if any. -/
def Control.current : Control M → Option (ObjVar M)
  | outer => none
  | loop init _ _ => some init
  | pass init _ _ _ _ => some init

/-- What holds of the offsets collected so far. -/
def Control.Inv (pag : PAG M) (offset : ℤ) (strides : Finset ℕ) : Control M → Prop
  | outer => True
  | loop init offsets loopFlag => LoopInv pag offset strides init offsets loopFlag
  | pass init start visited offsets loopFlag =>
    PassInv pag offset strides init start visited offsets loopFlag

def Unerased (pag : PAG M) (offset : ℤ) (strides : Finset ℕ) (initials : Finset (ObjVar M))
    (z : ObjVar M) : Prop :=
  ∀ y ∈ initials, y ≠ z → z ∉ expansion pag offset strides y

/-- The invariant of a run: an initial that no other one erases is waiting, being expanded or
    done. -/
structure ExpandInv (pag : PAG M) (offset : ℤ) (strides : Finset ℕ)
    (initials : Finset (ObjVar M)) (c : Config M) : Prop where
  rest : c.initials ⊆ initials
  current : ∀ init, c.control.current = some init →
    init ∈ initials ∧ pag.isBlkObjOrConstantObj init = false
  control : c.control.Inv pag offset strides
  sound : ∀ v ∈ c.expandPts, ∃ init ∈ initials, v ∈ expansion pag offset strides init
  consts : ∀ x ∈ initials, pag.isBlkObjOrConstantObj x = true →
    x ∈ c.initials ∨ x ∈ c.expandPts
  kept : ∀ z ∈ initials, pag.isBlkObjOrConstantObj z = false →
    Unerased pag offset strides initials z → z ∈ c.initials ∨ c.control.current = some z ∨
      ∀ v ∈ expansion pag offset strides z, v ∈ c.expandPts

variable {initials : Finset (ObjVar M)}

theorem expandInv_call : ExpandInv pag offset strides initials (call initials) where
  rest := Finset.Subset.refl _
  current init h := absurd h (Option.some_ne_none init).symm
  control := trivial
  sound v hv := absurd hv (Finset.notMem_empty v)
  consts _ hx _ := .inl hx
  kept _ hz _ _ := .inl hz

theorem Collected.loopInv (hc : Collected pag offset strides init) :
    LoopInv pag offset strides init {offset} true where
  given := Finset.mem_singleton_self _
  sound := by
    intro f hf
    rw [Finset.mem_singleton.mp hf]
    exact hc.offset_mem
  first := .inl rfl
  complete h := absurd h (by decide)

theorem ExpandInv.of_control {I R : Finset (ObjVar M)} {k k' : Control M}
    (h : ExpandInv pag offset strides initials ⟨I, R, k⟩) (hcur : k'.current = k.current)
    (hinv : k'.Inv pag offset strides) : ExpandInv pag offset strides initials ⟨I, R, k'⟩ where
  rest := h.rest
  current init hk := h.current init (hcur ▸ hk)
  control := hinv
  sound := h.sound
  consts := h.consts
  kept z hz hconst hun := by
    rcases h.kept z hz hconst hun with h1 | h1 | h1
    · exact .inl h1
    · exact .inr (.inl (hcur.trans h1))
    · exact .inr (.inr h1)

variable [DecidableEq M]

/-- **Step lemma of a run.** -/
theorem ExpandInv.step (hall : ∀ init ∈ initials, pag.isBlkObjOrConstantObj init = false →
      Collected pag offset strides init) {c d : Config M}
    (h : ExpandInv pag offset strides initials c) (hstep : Step pag offset strides c d) :
    ExpandInv pag offset strides initials d := by
  cases hstep with
  | @keep I R init hmem hconst =>
    constructor
    case rest => exact (erase_subset _ _).trans h.rest
    case current => exact h.current
    case control => trivial
    case sound =>
      intro v hv
      rcases mem_insert.mp hv with rfl | hv
      · refine ⟨v, h.rest hmem, ?_⟩
        rw [expansion, if_pos hconst]
        rfl
      · exact h.sound v hv
    case consts =>
      intro x hx hxc
      rcases h.consts x hx hxc with h1 | h1
      · by_cases hxi : x = init
        · exact .inr (mem_insert.mpr (.inl hxi))
        · exact .inl (mem_erase.mpr ⟨hxi, h1⟩)
      · exact .inr (mem_insert_of_mem h1)
    case kept =>
      intro z hz hzc hun
      rcases h.kept z hz hzc hun with h1 | h1 | h1
      · refine .inl (mem_erase.mpr ⟨?_, h1⟩)
        rintro rfl
        cases hzc.symm.trans hconst
      · cases h1
      · exact .inr (.inr fun v hv => mem_insert_of_mem (h1 v hv))
  | @expand I R init hmem hconst =>
    constructor
    case rest => exact (erase_subset _ _).trans h.rest
    case current =>
      intro x hx
      obtain rfl : init = x := Option.some.inj hx
      exact ⟨h.rest hmem, hconst⟩
    case control => exact (hall init (h.rest hmem) hconst).loopInv
    case sound => exact h.sound
    case consts =>
      intro x hx hxc
      rcases h.consts x hx hxc with h1 | h1
      · refine .inl (mem_erase.mpr ⟨?_, h1⟩)
        rintro rfl
        cases hconst.symm.trans hxc
      · exact .inr h1
    case kept =>
      intro z hz hzc hun
      rcases h.kept z hz hzc hun with h1 | h1 | h1
      · by_cases hzi : z = init
        · exact .inr (.inl (congrArg some hzi.symm))
        · exact .inl (mem_erase.mpr ⟨hzi, h1⟩)
      · cases h1
      · exact .inr (.inr h1)
  | beginPass => exact h.of_control rfl (LoopInv.beginPass h.control)
  | @visit I R init start visited offsets loopFlag f acc hmem hnew hacc =>
    obtain ⟨hi, hconst⟩ := h.current init rfl
    exact h.of_control rfl (PassInv.visit (hall init hi hconst) h.control hmem hnew hacc)
  | @endPass I R init start visited offsets loopFlag hsub =>
    obtain ⟨hi, hconst⟩ := h.current init rfl
    exact h.of_control rfl (PassInv.endPass (hall init hi hconst) h.control hsub)
  | @fields I R init offsets =>
    obtain ⟨hi, hconst⟩ := h.current init rfl
    have hloop : LoopInv pag offset strides init offsets false := h.control
    have himage := image_eq_expansion hconst hloop.sound (hloop.complete rfl)
    have hmem : ∀ v, v ∈ offsets.image (getGepObjVar pag init) ↔
        v ∈ expansion pag offset strides init := by
      intro v
      rw [← himage, mem_coe]
    constructor
    case rest => exact Finset.sdiff_subset.trans h.rest
    case current => exact nofun
    case control => trivial
    case sound =>
      intro v hv
      rcases mem_union.mp hv with hv | hv
      · exact h.sound v hv
      · exact ⟨init, hi, (hmem v).mp hv⟩
    case consts =>
      intro x hx hxc
      rcases h.consts x hx hxc with h1 | h1
      · by_cases hxi : x ∈ offsets.image (getGepObjVar pag init)
        · exact .inr (Finset.mem_union_right _ hxi)
        · exact .inl (mem_sdiff.mpr ⟨h1, hxi⟩)
      · exact .inr (Finset.mem_union_left _ h1)
    case kept =>
      intro z hz hzc hun
      by_cases hzi : init = z
      · subst hzi
        exact .inr (.inr fun v hv => Finset.mem_union_right _ ((hmem v).mpr hv))
      · rcases h.kept z hz hzc hun with h1 | h1 | h1
        · refine .inl (mem_sdiff.mpr ⟨h1, ?_⟩)
          intro hzm
          exact hun init hi hzi ((hmem z).mp hzm)
        · exact absurd (Option.some.inj h1) hzi
        · exact .inr (.inr fun v hv => Finset.mem_union_left _ (h1 v hv))

/-- What decreases: the initials; for one initial the offsets that are still missing when a pass
    begins; within one round of the loop its stages, and the visits that are left in a pass. -/
def rank (pag : PAG M) (c : Config M) : ℕ ×ₗ ℕ ×ₗ ℕ ×ₗ ℕ :=
  let fields (init : ObjVar M) := (pag.limit init.getBaseObj).toNat
  match c.control with
  | .outer => toLex (2 * c.initials.card, toLex (0, toLex (0, 0)))
  | .loop init offsets loopFlag => toLex (2 * c.initials.card + 1,
      toLex (fields init - offsets.card, toLex (if loopFlag then 2 else 0, 0)))
  | .pass init start visited _ _ => toLex (2 * c.initials.card + 1,
      toLex (fields init - start.card, toLex (1, fields init - visited.card)))

section

variable
  (hall : ∀ init ∈ initials, pag.isBlkObjOrConstantObj init = false → Collected pag offset strides init)
include hall

theorem ExpandInv.rank_lt {c d : Config M}
    (h : ExpandInv pag offset strides initials c) (hstep : Step pag offset strides c d) :
    rank pag d < rank pag c := by
  have hnext := h.step hall hstep
  cases hstep with
  | @keep I R init hmem hconst =>
    refine toLex_lt_toLex.mpr (.inl ?_)
    have := Finset.card_erase_lt_of_mem hmem
    dsimp only
    omega
  | @expand I R init hmem hconst =>
    refine toLex_lt_toLex.mpr (.inl ?_)
    have := Finset.card_erase_lt_of_mem hmem
    dsimp only
    omega
  | beginPass =>
    refine toLex_lt_toLex.mpr (.inr ⟨rfl, ?_⟩)
    refine toLex_lt_toLex.mpr (.inr ⟨rfl, ?_⟩)
    exact toLex_lt_toLex.mpr (.inl Nat.one_lt_two)
  | @visit I R init start visited offsets loopFlag f acc hmem hnew hacc =>
    have hpass : PassInv pag offset strides init start (insert f visited) acc.1 acc.2 :=
      hnext.control
    have hle := (card_le_card hpass.seen).trans (card_le_limit hpass.sound)
    rw [Finset.card_insert_of_notMem hnew] at hle
    refine toLex_lt_toLex.mpr (.inr ⟨rfl, ?_⟩)
    refine toLex_lt_toLex.mpr (.inr ⟨rfl, ?_⟩)
    refine toLex_lt_toLex.mpr (.inr ⟨rfl, ?_⟩)
    dsimp only
    rw [Finset.card_insert_of_notMem hnew]
    omega
  | @endPass I R init start visited offsets loopFlag hsub =>
    have hpass : PassInv pag offset strides init start visited offsets loopFlag := h.control
    have hle := card_le_limit hpass.sound
    have hgrown := card_le_card hpass.grown
    refine toLex_lt_toLex.mpr (.inr ⟨rfl, ?_⟩)
    cases loopFlag with
    | false =>
      rcases Nat.lt_or_ge start.card offsets.card with hlt | hge
      · refine toLex_lt_toLex.mpr (.inl ?_)
        dsimp only
        omega
      · refine toLex_lt_toLex.mpr (.inr ⟨?_, ?_⟩)
        · dsimp only
          omega
        · exact toLex_lt_toLex.mpr (.inl Nat.one_pos)
    | true =>
      obtain ⟨g, hg, hgs⟩ := hpass.new rfl
      have hlt := Finset.card_lt_card
        (Finset.ssubset_iff_subset_ne.mpr ⟨hpass.grown, fun heq => hgs (heq ▸ hg)⟩)
      refine toLex_lt_toLex.mpr (.inl ?_)
      dsimp only
      omega
  | @fields I R init offsets =>
    have hle := card_le_card
      (Finset.sdiff_subset (s := I) (t := offsets.image (getGepObjVar pag init)))
    refine toLex_lt_toLex.mpr (.inl ?_)
    dsimp only
    omega

/-- **Run lemma.** No run goes on forever. -/
theorem ExpandInv.terminates {c : Config M} (h : ExpandInv pag offset strides initials c) :
    Acc (fun c d => Step pag offset strides d c) c := by
  induction hr : rank pag c using WellFoundedLT.induction generalizing c with
  | ind r ih =>
    refine Acc.intro c ?_
    intro d hstep
    exact ih (rank pag d) (hr ▸ h.rank_lt hall hstep) (h.step hall hstep) rfl

/-- **Run lemma.** The invariant holds in every configuration that is reached. -/
theorem ExpandInv.run {c : Config M}
    (hrun : ReflTransGen (Step pag offset strides) (call initials) c) :
    ExpandInv pag offset strides initials c := by
  induction hrun with
  | refl => exact expandInv_call
  | tail _ hstep ih => exact ih.step hall hstep

end

theorem ExpandInv.progress {c : Config M} (h : ExpandInv pag offset strides initials c)
    (hstuck : ∀ d, ¬ Step pag offset strides c d) : c.Returned := by
  obtain ⟨I, R, k⟩ := c
  cases k with
  | outer =>
    refine ⟨Finset.eq_empty_iff_forall_notMem.mpr ?_, rfl⟩
    intro init hmem
    cases hconst : pag.isBlkObjOrConstantObj init with
    | false => exact hstuck _ (.expand hmem hconst)
    | true => exact hstuck _ (.keep hmem hconst)
  | loop init offsets loopFlag =>
    cases loopFlag with
    | false => exact absurd .fields (hstuck _)
    | true => exact absurd .beginPass (hstuck _)
  | pass init start visited offsets loopFlag =>
    by_cases hsub : start ⊆ visited
    · exact absurd (.endPass hsub) (hstuck _)
    · obtain ⟨f, hf, hnew⟩ := Finset.not_subset.mp hsub
      have hpass : PassInv pag offset strides init start visited offsets loopFlag := h.control
      exact absurd (.visit (hpass.grown hf) hnew rfl) (hstuck _)

omit [DecidableEq M] in
theorem ExpandInv.result (hcomplete : Complete pag offset strides initials) {c : Config M}
    (h : ExpandInv pag offset strides initials c) (hret : c.Returned) :
    (c.expandPts : Set (ObjVar M)) = ⋃ init ∈ initials, expansion pag offset strides init := by
  obtain ⟨hnone, houter⟩ := hret
  ext v
  simp only [mem_coe, Set.mem_iUnion, exists_prop]
  constructor
  · intro hv
    exact h.sound v hv
  · rintro ⟨init, hi, hv⟩
    cases hconst : pag.isBlkObjOrConstantObj init with
    | true =>
      rw [expansion, if_pos hconst] at hv
      obtain rfl : v = init := hv
      rcases h.consts v hi hconst with h1 | h1
      · rw [hnone] at h1
        exact absurd h1 (Finset.notMem_empty v)
      · exact h1
    | false =>
      obtain ⟨z, hz, hzc, hsub, hun⟩ := hcomplete.kept init hi hconst
      rcases h.kept z hz hzc hun with h1 | h1 | h1
      · rw [hnone] at h1
        exact absurd h1 (Finset.notMem_empty z)
      · rw [houter] at h1
        cases h1
      · exact h1 v (hsub hv)

/-- **Complete expansion.** Where the loop collects the offsets of each initial and no expansion
    is erased, every run ends and returns exactly the fields of the closure. -/
theorem fieldExpand_closure (pag : PAG M) (offset : ℤ) (strides : Finset ℕ)
    (initials : Finset (ObjVar M)) (hcomplete : Complete pag offset strides initials) :
    Expands pag offset strides initials := by
  constructor
  · exact expandInv_call.terminates hcomplete.collected
  · intro c hrun
    have hinv := ExpandInv.run hcomplete.collected hrun
    exact ⟨hinv.progress, hinv.result hcomplete⟩

def objectOf (fields : UInt32) : PAG Unit where
  getMaxFieldOffsetLimit _ := fields
  isBlkObjOrConstantObj _ := false
  MaxFieldLimit := 512
  CyclicFldIdx := false
  FirstFieldEqBase := true

/-- Three fields and a stride of one field. -/
theorem fieldExpand_closure_three : Expands (objectOf 3) 0 {1} {ObjVar.base ()} := by
  refine fieldExpand_closure (objectOf 3) 0 {1} {.base ()} ⟨?_, ?_⟩
  · intro init hi _
    obtain rfl := Finset.mem_singleton.mp hi
    refine ⟨by decide, by decide, ?_, .inr ⟨?_, ?_⟩⟩
    · intro s hs
      rw [Finset.mem_singleton.mp hs]
      decide
    · intro s hs
      rw [Finset.mem_singleton.mp hs]
      decide
    · rintro s hs - f ⟨-, h0, hlt⟩
      rw [Finset.mem_singleton.mp hs]
      have h0' : 0 ≤ 0 + f := h0
      have hlt' : 0 + f < 3 := hlt
      rcases (by omega : f = 0 ∨ f = 1 ∨ f = 2) with rfl | rfl | rfl
      · exact .inl rfl
      · exact .inr (.inl ⟨1, by decide, rfl⟩)
      · exact .inr (.inr ⟨1, by decide, rfl⟩)
  · intro init hi hconst
    refine ⟨init, hi, hconst, subset_rfl, ?_⟩
    intro y hy hne
    exact absurd ((Finset.mem_singleton.mp hy).trans (Finset.mem_singleton.mp hi).symm) hne

-- ── A run that ends too early

theorem visit_flag_unset {initOffset maxLimit f : ℤ} {acc : Finset ℤ × Bool}
    (hne : strides.Nonempty)
    (hold : ∀ s ∈ strides, toU32 (initOffset + (f + s)) < maxLimit → f + s ∈ acc.1) :
    (visit initOffset maxLimit strides f acc).2 = false := by
  unfold visit
  rcases eq_nil_or_concat (strides.sort (· ≤ ·)) with hnil | ⟨l, s, hl⟩
  · obtain ⟨s, hs⟩ := hne
    rw [← Finset.mem_sort (· ≤ ·), hnil] at hs
    cases hs
  · rw [hl, concat_eq_append]
    have hs : s ∈ strides := by
      rw [← Finset.mem_sort (· ≤ ·), hl, concat_eq_append]
      exact mem_append_right l (mem_singleton_self s)
    by_contra hset
    obtain ⟨hnew, hlt⟩ := foldl_tryStride_flag.mp (eq_true_of_ne_false hset)
    exact hnew (mem_foldl_tryStride.mpr (.inl (hold s hs hlt)))

theorem exists_visits (pag : PAG M) (I R : Finset (ObjVar M)) (init : ObjVar M) (start visited : Finset ℤ)
    (T offsets : Finset ℤ) (loopFlag : Bool) (hT : T ⊆ offsets) (hnew : ∀ f ∈ T, f ∉ visited) :
    ∃ offsets' flag', ReflTransGen (Step pag offset strides)
        ⟨I, R, .pass init start visited offsets loopFlag⟩
        ⟨I, R, .pass init start (T ∪ visited) offsets' flag'⟩ ∧
      ∀ g, g ∈ offsets' ↔ g ∈ offsets ∨ ∃ f ∈ T, ∃ s ∈ strides, g = f + s ∧
        toU32 (init.initOffset + g) < pag.limit init.getBaseObj := by
  induction T using Finset.induction_on with
  | empty =>
    refine ⟨offsets, loopFlag, ?_, by simp⟩
    rw [Finset.empty_union]
  | insert a T ha ih =>
    obtain ⟨offsets', flag', hrun, hmem⟩ := ih (fun f hf => hT (mem_insert_of_mem hf))
      (fun f hf => hnew f (mem_insert_of_mem hf))
    have haoff : a ∈ offsets' := (hmem a).mpr (.inl (hT (Finset.mem_insert_self a T)))
    have hav : a ∉ T ∪ visited := by
      rw [mem_union, not_or]
      exact ⟨ha, hnew a (Finset.mem_insert_self a T)⟩
    obtain ⟨acc, hacc⟩ : ∃ acc, visit init.initOffset (pag.limit init.getBaseObj) strides a
        (offsets', flag') = acc := ⟨_, rfl⟩
    refine ⟨acc.1, acc.2, hrun.tail ?_, ?_⟩
    · rw [Finset.insert_union]
      exact .visit haoff hav hacc
    · intro g
      rw [← hacc, mem_visit, hmem, or_assoc]
      refine or_congr_right ?_
      simp only [Finset.exists_mem_insert]
      exact or_comm

def Within (offset : ℤ) (strides : Finset ℕ) (f : ℤ) : Prop :=
  f = offset ∨ (∃ s ∈ strides, f = offset + s) ∨ ∃ s ∈ strides, ∃ t ∈ strides, f = offset + s + t

/-- Two passes, the second of which visits the given offset last, end the loop with offsets that
    are at most two strides above it. -/
theorem exists_short_loop (I R : Finset (ObjVar M)) (init : ObjVar M)
    (hoff : offset ∈ closure pag offset strides init)
    (hwrap : ∀ s ∈ strides, pag.limit init.getBaseObj + s ≤ 2 ^ 32) :
    ∃ offsets, ReflTransGen (Step pag offset strides)
        ⟨I, R, .loop init {offset} true⟩ ⟨I, R, .loop init offsets false⟩ ∧
      ∀ f ∈ offsets, f ∈ closure pag offset strides init ∧ Within offset strides f := by
  obtain ⟨acc, hacc⟩ : ∃ acc, visit init.initOffset (pag.limit init.getBaseObj) strides offset
      ({offset}, false) = acc := ⟨_, rfl⟩
  have hmem1 : ∀ g, g ∈ acc.1 ↔ g = offset ∨ ∃ s ∈ strides, g = offset + s ∧
      toU32 (init.initOffset + g) < pag.limit init.getBaseObj := by
    intro g
    rw [← hacc, mem_visit, Finset.mem_singleton]
  have hsound1 : ∀ g ∈ acc.1, g ∈ closure pag offset strides init := by
    intro g hg
    rcases (hmem1 g).mp hg with rfl | ⟨s, hs, rfl, hlt⟩
    · exact hoff
    · exact (closure_step hwrap hoff hs).mpr hlt
  have hfirst : ReflTransGen (Step pag offset strides)
      ⟨I, R, .loop init {offset} true⟩ ⟨I, R, .loop init acc.1 acc.2⟩ := by
    have hvisit : Step pag offset strides ⟨I, R, .pass init {offset} ∅ {offset} false⟩
        ⟨I, R, .pass init {offset} (insert offset ∅) acc.1 acc.2⟩ :=
      Step.visit (Finset.mem_singleton_self _) (Finset.notMem_empty _) hacc
    exact ((ReflTransGen.single Step.beginPass).tail hvisit).tail (Step.endPass (by simp))
  cases hflag : acc.2 with
  | false =>
    refine ⟨acc.1, hflag ▸ hfirst, ?_⟩
    intro f hf
    refine ⟨hsound1 f hf, ?_⟩
    rcases (hmem1 f).mp hf with rfl | ⟨s, hs, rfl, -⟩
    · exact .inl rfl
    · exact .inr (.inl ⟨s, hs, rfl⟩)
  | true =>
    rw [hflag] at hfirst
    have hne : strides.Nonempty := by
      rw [← hacc] at hflag
      rcases visit_flag hflag with h | ⟨g, hg, hnew⟩
      · cases h
      · rcases mem_visit.mp hg with h | ⟨s, hs, -⟩
        · exact absurd h hnew
        · exact ⟨s, hs⟩
    -- every other offset is visited before the given one
    obtain ⟨offsets', flag', hvisits, hmem2⟩ := exists_visits pag I R init acc.1 ∅
      (acc.1.erase offset) acc.1 false (erase_subset _ _)
      (fun f _ => Finset.notMem_empty f)
    have hgiven : offset ∈ acc.1 := (hmem1 offset).mpr (.inl rfl)
    have hold : ∀ s ∈ strides, toU32 (init.initOffset + (offset + s)) < pag.limit init.getBaseObj →
        offset + s ∈ offsets' := by
      intro s hs hlt
      exact (hmem2 _).mpr (.inl ((hmem1 _).mpr (.inr ⟨s, hs, rfl, hlt⟩)))
    obtain ⟨acc', hacc'⟩ : ∃ acc', visit init.initOffset (pag.limit init.getBaseObj) strides
        offset (offsets', flag') = acc' := ⟨_, rfl⟩
    have hunset : acc'.2 = false := hacc' ▸ visit_flag_unset hne hold
    have hvisit : Step pag offset strides
        ⟨I, R, .pass init acc.1 (acc.1.erase offset ∪ ∅) offsets' flag'⟩
        ⟨I, R, .pass init acc.1 (insert offset (acc.1.erase offset ∪ ∅)) acc'.1 acc'.2⟩ :=
      .visit ((hmem2 offset).mpr (.inl hgiven)) (by simp) hacc'
    refine ⟨acc'.1, ?_, ?_⟩
    · have hrun := ((hfirst.tail .beginPass).trans hvisits).tail hvisit
      rw [hunset] at hrun
      refine hrun.tail (.endPass ?_)
      rw [Finset.union_empty, Finset.insert_erase hgiven]
    · intro f hf
      rw [← hacc', mem_visit] at hf
      have hf' : f ∈ offsets' := by
        rcases hf with hf | ⟨s, hs, rfl, hlt⟩
        · exact hf
        · exact hold s hs hlt
      rcases (hmem2 f).mp hf' with hf1 | ⟨g, hg, t, ht, rfl, hlt⟩
      · refine ⟨hsound1 f hf1, ?_⟩
        rcases (hmem1 f).mp hf1 with rfl | ⟨s, hs, rfl, -⟩
        · exact .inl rfl
        · exact .inr (.inl ⟨s, hs, rfl⟩)
      · have hgcl := hsound1 g (Finset.mem_of_mem_erase hg)
        refine ⟨(closure_step hwrap hgcl ht).mpr hlt, ?_⟩
        rcases (hmem1 g).mp (Finset.mem_of_mem_erase hg) with rfl | ⟨s, hs, rfl, -⟩
        · exact absurd rfl (Finset.ne_of_mem_erase hg)
        · exact .inr (.inr ⟨s, hs, t, ht, rfl⟩)

omit [DecidableEq M] in
theorem fieldVar_inj {obj : M} {a b : ℤ} (h : fieldVar pag obj a = fieldVar pag obj b) : a = b := by
  unfold fieldVar at h
  split_ifs at h with ha hb hb
  · exact ha.2.trans hb.2.symm
  · exact (ObjVar.gep.inj h).2

/-- A base whose fields lie further than two strides away is not always expanded to its
    closure. -/
theorem Expands.within_two (hconst : pag.isBlkObjOrConstantObj init = false)
    (hoff : offset ∈ closure pag offset strides init)
    (hwrap : ∀ s ∈ strides, pag.limit init.getBaseObj + s ≤ 2 ^ 32)
    (h : Expands pag offset strides {init}) :
    ∀ f ∈ closure pag offset strides init, Within offset strides f := by
  intro f hf
  obtain ⟨offsets, hloop, hoffsets⟩ := exists_short_loop (Finset.erase {init} init) ∅ init hoff hwrap
  have hrun := ((ReflTransGen.single
    (Step.expand (Finset.mem_singleton_self init) hconst)).trans hloop).tail Step.fields
  have hresult := (h.2 _ hrun).2 ⟨by simp, rfl⟩
  have hmem : fieldVar pag init.getBaseObj (init.initOffset + f) ∈
      expansion pag offset strides init := by
    rw [expansion, if_neg (by rw [hconst]; exact Bool.false_ne_true)]
    exact Set.mem_image_of_mem _ hf
  have himage : fieldVar pag init.getBaseObj (init.initOffset + f) ∈
      offsets.image (getGepObjVar pag init) := by
    have hmem' : fieldVar pag init.getBaseObj (init.initOffset + f) ∈
        ⋃ x ∈ ({init} : Finset (ObjVar M)), expansion pag offset strides x := by
      simpa using hmem
    rw [← hresult] at hmem'
    simpa using hmem'
  obtain ⟨g, hg, heq⟩ := Finset.mem_image.mp himage
  obtain ⟨hgcl, hgw⟩ := hoffsets g hg
  rw [getGepObjVar_eq hgcl.2.1 hgcl.2.2] at heq
  have hfg : g = f := add_left_cancel (fieldVar_inj heq)
  exact hfg ▸ hgw

/-- With ten fields and a stride of one field, the loop may stop at the third. -/
theorem not_expands_ten : ¬ ∀ (M : Type) [DecidableEq M] (pag : PAG M) (offset : ℤ)
    (strides : Finset ℕ) (initials : Finset (ObjVar M)), Expands pag offset strides initials := by
  intro h
  have hmem : (3 : ℤ) ∈ closure (objectOf 10) 0 {1} (.base ()) := by
    refine ⟨⟨3, ?_, rfl⟩, by decide, by decide⟩
    rw [Finset.coe_singleton]
    exact AddSubmonoid.mem_closure_singleton.mpr ⟨3, rfl⟩
  have hwithin := (h Unit (objectOf 10) 0 {1} {.base ()}).within_two rfl
    ⟨⟨0, zero_mem _, rfl⟩, by decide, by decide⟩
    (fun s hs => by rw [Finset.mem_singleton.mp hs]; decide) 3 hmem
  rcases hwithin with h3 | ⟨s, hs, h3⟩ | ⟨s, hs, t, ht, h3⟩
  · cases h3
  · rw [Finset.mem_singleton.mp hs] at h3
    cases h3
  · rw [Finset.mem_singleton.mp hs, Finset.mem_singleton.mp ht] at h3
    cases h3

end Run

end SvfFieldExpand
