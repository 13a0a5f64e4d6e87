import SvfModel.HashConsProofs
import SvfModel.PointsToSetProofs
import SvfModel.RunProofs

/-!
# `PersistentPointsToCache`: hash-consed points-to sets never lie

The cache interns points-to sets and hands out ids; union, complement and intersection
of ids are memoised, and each operation also records entries it deduces for the other
two. Here:

* the cache and its four operations as the code computes them, its two assertions
  (`newPointsToId`, `getActualPts`) as errors;
* `Inv` — the invariant of a cache over all three memo tables, kept by every call
  (`step_inv`);
* `cache_never_lies` — every cache reached by any calls from a fresh one is `Truthful`:
  a call answers with the id of the true result whatever is memoised.
-/

namespace SvfPtsCache

open SvfPts SvfHashCons SvfRun Option Set

/-- Points-to ids are `unsigned`: numbers with explicit wrap-around at `idRange`. -/
abbrev PointsToID := Nat

/-- The number of values of `PointsToID`. -/
def idRange : Nat := 4294967296

/-- The two assertions of the cache. -/
inductive PtsError where
  | idsExhausted
  | notStored
  deriving DecidableEq, Repr

/-- Memoised results of a binary operation on ids. -/
abbrev OpCache := Std.HashMap (PointsToID × PointsToID) PointsToID

/-- The three memo tables, for the `OpCache &` parameter of `opPts`. -/
inductive OpCacheName where
  | unionCache
  | complementCache
  | intersectionCache
  deriving DecidableEq, Repr

structure PersistentPointsToCache (D : Type) [BEq D] [Hashable D] where
  idToPts : Array D
  ptsToId : Std.HashMap D PointsToID
  unionCache : OpCache
  complementCache : OpCache
  intersectionCache : OpCache
  idCounter : PointsToID

def emptyPointsToId : PointsToID := 0

def minmax (a b : PointsToID) : PointsToID × PointsToID := if b < a then (b, a) else (a, b)

variable {D α : Type} [DataSet D α]

namespace PersistentPointsToCache

def fresh : PersistentPointsToCache D where
  idToPts := #[DataSet.empty]
  ptsToId := (∅ : Std.HashMap D PointsToID).insert DataSet.empty emptyPointsToId
  unionCache := ∅
  complementCache := ∅
  intersectionCache := ∅
  idCounter := 1

section

variable (c : PersistentPointsToCache D)

def opCache : OpCacheName → OpCache
  | .unionCache => c.unionCache
  | .complementCache => c.complementCache
  | .intersectionCache => c.intersectionCache

def setOp (name : OpCacheName)
    (key : PointsToID × PointsToID) (id : PointsToID) : PersistentPointsToCache D :=
  match name with
  | .unionCache => { c with unionCache := c.unionCache.insert key id }
  | .complementCache => { c with complementCache := c.complementCache.insert key id }
  | .intersectionCache => { c with intersectionCache := c.intersectionCache.insert key id }

def newPointsToId : Except PtsError (PointsToID × PersistentPointsToCache D) :=
  if c.idCounter = emptyPointsToId then .error .idsExhausted
  else .ok (c.idCounter, { c with idCounter := (c.idCounter + 1) % idRange })

def emplacePts (pts : D) : Except PtsError (PointsToID × PersistentPointsToCache D) :=
  match c.ptsToId[pts]? with
  | some id => .ok (id, c)
  | none => do
      let (id, c) ← c.newPointsToId
      return (id, { c with
        idToPts := c.idToPts.push pts
        ptsToId := c.ptsToId.insert pts id })

def getActualPts (id : PointsToID) : Except PtsError D :=
  match c.idToPts[id]? with
  | some pts => .ok pts
  | none => .error .notStored

section

variable (lhs rhs : PointsToID)

/-- `opPts`; the `Bool` is `opPerformed`. Interning the result is the code of `emplacePts`
    once more. -/
def opPts (dataOp : D → D → D) (name : OpCacheName) (commutative : Bool) :
    Except PtsError (PointsToID × Bool × PersistentPointsToCache D) :=
  let operands := if commutative then minmax lhs rhs else (lhs, rhs)
  match (c.opCache name)[operands]? with
  | some id => .ok (id, false, c)
  | none => do
      let lhsPts ← c.getActualPts lhs
      let rhsPts ← c.getActualPts rhs
      let (resultId, c) ← c.emplacePts (dataOp lhsPts rhsPts)
      return (resultId, true, c.setOp name operands resultId)

def unionPts : Except PtsError (PointsToID × PersistentPointsToCache D) :=
  let operands := minmax lhs rhs
  if operands.1 = emptyPointsToId then .ok (operands.2, c)
  else if operands.1 = operands.2 then .ok (operands.1, c)
  else do
    let (result, opPerformed, c) ← c.opPts lhs rhs DataSet.union .unionCache true
    if opPerformed then
      -- if x U y = z, then x U z = z and y U z = z
      let c := if lhs ≠ result then c.setOp .unionCache (minmax lhs result) result else c
      let c := if rhs ≠ result then c.setOp .unionCache (minmax rhs result) result else c
      return (result, c)
    else return (result, c)

def complementPts : Except PtsError (PointsToID × PersistentPointsToCache D) :=
  if lhs = rhs then .ok (emptyPointsToId, c)
  else if rhs = emptyPointsToId then .ok (lhs, c)
  else if lhs = emptyPointsToId then .ok (emptyPointsToId, c)
  else do
    let (result, opPerformed, c) ← c.opPts lhs rhs DataSet.sub .complementCache false
    if opPerformed ∧ result ≠ emptyPointsToId then
      -- result AND rhs = EMPTY_SET, result AND lhs = result, result - rhs = result
      let c := c.setOp .intersectionCache (minmax result rhs) emptyPointsToId
      let c := c.setOp .intersectionCache (minmax result lhs) result
      return (result, c.setOp .complementCache (result, rhs) result)
    else return (result, c)

def intersectPts : Except PtsError (PointsToID × PersistentPointsToCache D) :=
  let operands := minmax lhs rhs
  if operands.1 = emptyPointsToId then .ok (emptyPointsToId, c)
  else if operands.1 = operands.2 then .ok (operands.1, c)
  else do
    let (result, opPerformed, c) ← c.opPts lhs rhs DataSet.inter .intersectionCache true
    if opPerformed ∧ result ≠ emptyPointsToId then
      -- result AND rhs = result, result AND lhs = result
      let c := if result ≠ rhs then c.setOp .intersectionCache (minmax result rhs) result else c
      let c := if result ≠ lhs then c.setOp .intersectionCache (minmax result lhs) result else c
      -- result U lhs = lhs, result U rhs = rhs
      let c := if result ≠ emptyPointsToId ∧ result ≠ lhs then
        c.setOp .unionCache (minmax lhs result) lhs else c
      let c := if result ≠ emptyPointsToId ∧ result ≠ rhs then
        c.setOp .unionCache (minmax rhs result) rhs else c
      return (result, c)
    else return (result, c)

end

end

end PersistentPointsToCache

-- ── What an id denotes, and the invariant of a cache

/-- The set operation a memo table records. -/
def OpCacheName.op : OpCacheName → Set α → Set α → Set α
  | .unionCache => (· ∪ ·)
  | .complementCache => (· \ ·)
  | .intersectionCache => (· ∩ ·)

namespace PersistentPointsToCache

def denOf (c : PersistentPointsToCache D) (id : PointsToID) : Option (Set α) :=
  (c.idToPts[id]?).map den

/-- The invariant of a cache: store and map mutually inverse, the empty set under id 0,
    the counter at the number of sets, every memo table sound. -/
structure Inv (c : PersistentPointsToCache D) : Prop where
  interns : Interns c.idToPts c.ptsToId
  empty : c.denOf emptyPointsToId = some ∅
  counter : c.idCounter = c.idToPts.size % idRange
  bound : c.idToPts.size ≤ idRange
  memo : ∀ name : OpCacheName, MemoSound c.denOf name.op (c.opCache name)

@[simp] theorem denOf_setOp (c : PersistentPointsToCache D) (name : OpCacheName)
    (key : PointsToID × PointsToID) (id : PointsToID) :
    (c.setOp name key id).denOf = c.denOf := by
  cases name <;> rfl

@[simp] theorem idToPts_setOp (c : PersistentPointsToCache D) (name : OpCacheName)
    (key : PointsToID × PointsToID) (id : PointsToID) :
    (c.setOp name key id).idToPts = c.idToPts := by
  cases name <;> rfl

variable {id : PointsToID} {e : PtsError} {name : OpCacheName} {lhs rhs : PointsToID}

/-- `getActualPts` succeeds on stored ids only. -/
theorem getActualPts_ok {c : PersistentPointsToCache D} {d : D} (h : c.getActualPts id = .ok d)
    : c.denOf id = some (den d) := by
  unfold getActualPts at h
  cases hid : c.idToPts[id]? with
  | none => rw [hid] at h; exact nomatch h
  | some d' =>
    rw [hid] at h
    rw [denOf, hid, map_some, Except.ok.inj h]

theorem getActualPts_error {c : PersistentPointsToCache D} (h : c.getActualPts id = .error e)
    : e = .notStored ∧ c.denOf id = none := by
  unfold getActualPts at h
  cases hid : c.idToPts[id]? with
  | none =>
    rw [hid] at h
    exact ⟨(Except.error.inj h).symm, by rw [denOf, hid, map_none]⟩
  | some d' => rw [hid] at h; exact nomatch h

/-- `minmax` keeps the pair, up to order. -/
theorem minmax_cases (a b : PointsToID) : minmax a b = (a, b) ∨ minmax a b = (b, a) := by
  unfold minmax
  by_cases h : b < a
  · exact .inr (if_pos h)
  · exact .inl (if_neg h)

variable {c c' : PersistentPointsToCache D}

theorem Inv.setOp (h : c.Inv) {key : PointsToID × PointsToID} {L R : Set α}
    (hl : c.denOf key.1 = some L) (hr : c.denOf key.2 = some R)
    (hid : c.denOf id = some (name.op L R)) :
    (c.setOp name key id).Inv := by
  have hsound : MemoSound c.denOf name.op ((c.opCache name).insert key id) :=
    (h.memo name).insert hl hr hid
  refine ⟨?_, ?_, ?_, ?_, ?_⟩
  · cases name <;> exact h.interns
  · rw [denOf_setOp]; exact h.empty
  · cases name <;> exact h.counter
  · cases name <;> exact h.bound
  · intro name'
    rw [denOf_setOp]
    cases name <;> cases name' <;> first | exact hsound | exact h.memo _

theorem Inv.setOp_minmax (h : c.Inv) {a b id : PointsToID} {A B : Set α}
    (hcomm : ∀ X Y : Set α, name.op X Y = name.op Y X) (ha : c.denOf a = some A)
    (hb : c.denOf b = some B) (hid : c.denOf id = some (name.op A B))
    : (c.setOp name (minmax a b) id).Inv := by
  rcases minmax_cases a b with hm | hm <;> rw [hm]
  · exact h.setOp ha hb hid
  · exact h.setOp hb ha (by rw [hcomm]; exact hid)

theorem newPointsToId_ok (h : c.Inv) (hn : c.newPointsToId = .ok (id, c')) :
    id = c.idToPts.size ∧ c.idToPts.size < idRange ∧
      c' = { c with idCounter := (c.idToPts.size + 1) % idRange } := by
  unfold newPointsToId at hn
  by_cases h0 : c.idCounter = emptyPointsToId
  · rw [if_pos h0] at hn; exact nomatch hn
  · rw [if_neg h0] at hn
    have hlt : c.idToPts.size < idRange := by
      refine lt_of_le_of_ne h.bound fun heq => h0 ?_
      rw [h.counter, heq, Nat.mod_self]; rfl
    have hc : c.idCounter = c.idToPts.size := by rw [h.counter, Nat.mod_eq_of_lt hlt]
    cases hn
    exact ⟨hc, hlt, by rw [hc]⟩

theorem newPointsToId_error (h : c.Inv) (hn : c.newPointsToId = .error e) :
    e = .idsExhausted ∧ c.idToPts.size = idRange := by
  unfold newPointsToId at hn
  by_cases h0 : c.idCounter = emptyPointsToId
  · rw [if_pos h0] at hn
    refine ⟨(Except.error.inj hn).symm, ?_⟩
    have hpos : 0 < c.idToPts.size := by
      have := h.empty
      unfold denOf at this
      cases hz : c.idToPts[emptyPointsToId]? with
      | none => rw [hz] at this; exact nomatch this
      | some d => exact (Array.getElem?_eq_some_iff.mp hz).1
    have hmod : c.idToPts.size % idRange = 0 := h.counter.symm.trans h0
    have hle := h.bound
    unfold idRange at hmod hle ⊢
    omega
  · rw [if_neg h0] at hn; exact nomatch hn

/-- What a successful operation does to a cache: the invariant holds, every id keeps its
    meaning, at most one set is added. -/
structure Grows (c c' : PersistentPointsToCache D) : Prop where
  inv : c'.Inv
  keeps : Keeps c.denOf c'.denOf
  size : c'.idToPts.size ≤ c.idToPts.size + 1

theorem Grows.refl (h : c.Inv) : Grows c c := ⟨h, Keeps.refl _, Nat.le_succ _⟩

theorem emplacePts_error (h : c.Inv) {d : D} (he : c.emplacePts d = .error e)
    : e = .idsExhausted ∧ c.idToPts.size = idRange := by
  unfold emplacePts at he
  cases hfound : c.ptsToId[d]? with
  | some id' => rw [hfound] at he; exact nomatch he
  | none =>
    rw [hfound] at he
    rcases bind_error.mp he with hn | ⟨⟨n, c1⟩, -, hr⟩
    · exact newPointsToId_error h hn
    · cases hr

theorem opPts_error (h : c.Inv) {dataOp : D → D → D} {comm : Bool}
    (ho : c.opPts lhs rhs dataOp name comm = .error e) :
    (e = .notStored ∧ (c.denOf lhs = none ∨ c.denOf rhs = none)) ∨
      (e = .idsExhausted ∧ c.idToPts.size = idRange) := by
  unfold opPts at ho
  simp only at ho
  generalize (if comm then minmax lhs rhs else (lhs, rhs)) = operands at ho
  cases hfound : (c.opCache name)[operands]? with
  | some id' => rw [hfound] at ho; exact nomatch ho
  | none =>
    rw [hfound] at ho
    rcases bind_error.mp ho with hdl | ⟨dl, -, ho⟩
    · exact .inl ((getActualPts_error hdl).imp_right .inl)
    · rcases bind_error.mp ho with hdr | ⟨dr, -, ho⟩
      · exact .inl ((getActualPts_error hdr).imp_right .inr)
      · rcases bind_error.mp ho with he | ⟨r, -, hr⟩
        · exact .inr (emplacePts_error h he)
        · cases hr

theorem Grows.setOp_if {c1 : PersistentPointsToCache D} (hg : Grows c c1) {p : Prop} [Decidable p]
    {key : PointsToID × PointsToID} (hp : p → (c1.setOp name key id).Inv) :
    Grows c (if p then c1.setOp name key id else c1) ∧
      (if p then c1.setOp name key id else c1).denOf = c1.denOf := by
  by_cases h : p
  · rw [if_pos h, denOf_setOp]
    refine ⟨⟨hp h, ?_, ?_⟩, rfl⟩
    · rw [denOf_setOp]; exact hg.keeps
    · rw [idToPts_setOp]; exact hg.size
  · rw [if_neg h]
    exact ⟨hg, rfl⟩

theorem ok_ite {q : Prop} [Decidable q] {id res : PointsToID} {c1 c2 : PersistentPointsToCache D}
    (h : (if q then Except.ok (id, c1) else .ok (id, c2)) =
      (.ok (res, c') : Except PtsError (PointsToID × PersistentPointsToCache D))) :
    id = res ∧ c' = if q then c1 else c2 := by
  split_ifs at h ⊢
  · exact (Prod.mk.inj (Except.ok.inj h)).imp_right Eq.symm
  · exact (Prod.mk.inj (Except.ok.inj h)).imp_right Eq.symm

section

variable {p q : Prop} {m : Except PtsError (PointsToID × PersistentPointsToCache D)}

/-- An operation that answers in two cases without a lookup. -/
theorem shortcut_cases [Decidable p] [Decidable q] {a b id : PointsToID}
    (h : (if p then .ok (a, c) else if q then .ok (b, c) else m) = .ok (id, c')) :
    (p ∧ id = a ∧ c' = c) ∨ (q ∧ id = b ∧ c' = c) ∨ (¬ p ∧ ¬ q ∧ m = .ok (id, c')) := by
  split_ifs at h with hp hq
  · cases h
    exact .inl ⟨hp, rfl, rfl⟩
  · cases h
    exact .inr (.inl ⟨hq, rfl, rfl⟩)
  · exact .inr (.inr ⟨hp, hq, h⟩)

theorem error_of_shortcut [Decidable p] [Decidable q] {a b : PointsToID × PersistentPointsToCache D}
    (h : (if p then .ok a else if q then .ok b else m) = .error e) : m = .error e := by
  split_ifs at h
  exact h

end

theorem ok_ite_ne_error {p : Prop} [Decidable p] {a b : PointsToID × PersistentPointsToCache D} :
    (if p then .ok a else .ok b) ≠ Except.error e := by
  split_ifs <;> exact nofun

section

variable {lhs rhs id : PointsToID}

/-- How a union is answered: the empty set and equal ids without a lookup, all else by `opPts`.
    A result that was computed is remembered for each operand, too. -/
theorem unionPts_cases (hu : c.unionPts lhs rhs = .ok (id, c')) :
    ((minmax lhs rhs).1 = emptyPointsToId ∧ id = (minmax lhs rhs).2 ∧ c' = c) ∨
    ((minmax lhs rhs).1 = (minmax lhs rhs).2 ∧ id = (minmax lhs rhs).1 ∧ c' = c) ∨
    ((minmax lhs rhs).1 ≠ emptyPointsToId ∧ (minmax lhs rhs).1 ≠ (minmax lhs rhs).2 ∧
      ∃ performed c1, c.opPts lhs rhs DataSet.union .unionCache true = .ok (id, performed, c1) ∧
        c' = if performed then
            let c2 := if lhs ≠ id then c1.setOp .unionCache (minmax lhs id) id else c1
            if rhs ≠ id then c2.setOp .unionCache (minmax rhs id) id else c2
          else c1) := by
  refine (shortcut_cases hu).imp_right (Or.imp_right fun ⟨h0, hx, hu⟩ => ?_)
  obtain ⟨⟨res, performed, c1⟩, ho, hu⟩ := bind_ok.mp hu
  refine ⟨h0, hx, performed, c1, ?_⟩
  cases performed with
  | false =>
    cases hu
    exact ⟨ho, rfl⟩
  | true =>
    cases hu
    exact ⟨ho, rfl⟩

theorem complementPts_cases (hu : c.complementPts lhs rhs = .ok (id, c')) :
    (lhs = rhs ∧ id = emptyPointsToId ∧ c' = c) ∨
    (rhs = emptyPointsToId ∧ id = lhs ∧ c' = c) ∨
    (lhs = emptyPointsToId ∧ id = emptyPointsToId ∧ c' = c) ∨
    (lhs ≠ rhs ∧ rhs ≠ emptyPointsToId ∧ lhs ≠ emptyPointsToId ∧
      ∃ performed c1, c.opPts lhs rhs DataSet.sub .complementCache false = .ok (id, performed, c1) ∧
        c' = if performed ∧ id ≠ emptyPointsToId then
            ((c1.setOp .intersectionCache (minmax id rhs) emptyPointsToId).setOp
              .intersectionCache (minmax id lhs) id).setOp .complementCache (id, rhs) id
          else c1) := by
  unfold complementPts at hu
  by_cases hx : lhs = rhs
  · rw [if_pos hx] at hu
    cases hu
    exact .inl ⟨hx, rfl, rfl⟩
  by_cases hr0 : rhs = emptyPointsToId
  · rw [if_neg hx, if_pos hr0] at hu
    cases hu
    exact .inr (.inl ⟨hr0, rfl, rfl⟩)
  by_cases hl0 : lhs = emptyPointsToId
  · rw [if_neg hx, if_neg hr0, if_pos hl0] at hu
    cases hu
    exact .inr (.inr (.inl ⟨hl0, rfl, rfl⟩))
  rw [if_neg hx, if_neg hr0, if_neg hl0] at hu
  obtain ⟨⟨res, performed, c1⟩, ho, hu⟩ := bind_ok.mp hu
  refine .inr (.inr (.inr ⟨hx, hr0, hl0, performed, c1, ?_⟩))
  dsimp only at hu
  obtain ⟨rfl, rfl⟩ := ok_ite hu
  exact ⟨ho, rfl⟩

theorem intersectPts_cases (hu : c.intersectPts lhs rhs = .ok (id, c')) :
    ((minmax lhs rhs).1 = emptyPointsToId ∧ id = emptyPointsToId ∧ c' = c) ∨
    ((minmax lhs rhs).1 = (minmax lhs rhs).2 ∧ id = (minmax lhs rhs).1 ∧ c' = c) ∨
    ((minmax lhs rhs).1 ≠ emptyPointsToId ∧ (minmax lhs rhs).1 ≠ (minmax lhs rhs).2 ∧
      ∃ performed c1, c.opPts lhs rhs DataSet.inter .intersectionCache true =
          .ok (id, performed, c1) ∧
        c' = if performed ∧ id ≠ emptyPointsToId then
            let c2 := if id ≠ rhs then c1.setOp .intersectionCache (minmax id rhs) id else c1
            let c3 := if id ≠ lhs then c2.setOp .intersectionCache (minmax id lhs) id else c2
            let c4 := if id ≠ emptyPointsToId ∧ id ≠ lhs then
              c3.setOp .unionCache (minmax lhs id) lhs else c3
            if id ≠ emptyPointsToId ∧ id ≠ rhs then
              c4.setOp .unionCache (minmax rhs id) rhs else c4
          else c1) := by
  refine (shortcut_cases hu).imp_right (Or.imp_right fun ⟨h0, hx, hu⟩ => ?_)
  obtain ⟨⟨res, performed, c1⟩, ho, hu⟩ := bind_ok.mp hu
  refine ⟨h0, hx, performed, c1, ?_⟩
  obtain ⟨rfl, rfl⟩ := ok_ite hu
  exact ⟨ho, rfl⟩

end

/-- How an operation can fail: an operand is not stored, or a new set is needed and the ids
    are exhausted. -/
def FailsAs (c : PersistentPointsToCache D) (lhs rhs : PointsToID) (e : PtsError) : Prop :=
  (e = .notStored ∧ (c.denOf lhs = none ∨ c.denOf rhs = none)) ∨
    (e = .idsExhausted ∧ c.idToPts.size = idRange)

theorem unionPts_error (h : c.Inv) (hu : c.unionPts lhs rhs = .error e) : c.FailsAs lhs rhs e := by
  rcases bind_error.mp (error_of_shortcut hu) with ho | ⟨⟨res, performed, c1⟩, -, hr⟩
  · exact opPts_error h ho
  · cases performed <;> exact nomatch hr

theorem complementPts_error (h : c.Inv) (hu : c.complementPts lhs rhs = .error e)
    : c.FailsAs lhs rhs e := by
  have hu := error_of_shortcut hu
  split_ifs at hu
  rcases bind_error.mp hu with ho | ⟨⟨res, performed, c1⟩, -, hr⟩
  · exact opPts_error h ho
  · exact (ok_ite_ne_error hr).elim

theorem intersectPts_error (h : c.Inv) (hu : c.intersectPts lhs rhs = .error e)
    : c.FailsAs lhs rhs e := by
  rcases bind_error.mp (error_of_shortcut hu) with ho | ⟨⟨res, performed, c1⟩, -, hr⟩
  · exact opPts_error h ho
  · exact (ok_ite_ne_error hr).elim

theorem op_of_stored {c1 : PersistentPointsToCache D} {lhs rhs res : PointsToID}
    {f : Set α → Set α → Set α} {L R : Set α} (hl : c.denOf lhs = some L)
    (hr : c.denOf rhs = some R) (hid : c1.denOf res = some (f L R)) (A B : Set α)
    (hl' : c.denOf lhs = some A) (hr' : c.denOf rhs = some B) : c1.denOf res = some (f A B) := by
  rw [hl] at hl'
  rw [hr] at hr'
  rw [← some.inj hl', ← some.inj hr']
  exact hid

section Lawful

variable [SetDataSet D]

theorem inv_fresh : (fresh : PersistentPointsToCache D).Inv where
  interns := Interns.single DataSet.empty
  empty := by simp [denOf, fresh, emptyPointsToId]
  counter := by simp [fresh, idRange]
  bound := by simp [fresh, idRange]
  memo := by
    intro name
    cases name <;> exact MemoSound.empty _ _

/-- **`emplacePts`** answers with the id of the set it was given. -/
theorem emplacePts_ok (h : c.Inv) {d : D} {id : PointsToID} (he : c.emplacePts d = .ok (id, c')) :
    Grows c c' ∧ c'.denOf id = some (den d) := by
  unfold emplacePts at he
  cases hfound : c.ptsToId[d]? with
  | some id' =>
    rw [hfound] at he
    obtain ⟨rfl, rfl⟩ := Prod.mk.inj (Except.ok.inj he)
    obtain ⟨d', hd', hbeq⟩ := h.interns.value_of_id d id' hfound
    refine ⟨Grows.refl h, ?_⟩
    rw [denOf, hd', map_some, SetDataSet.den_of_beq hbeq]
  | none =>
    rw [hfound] at he
    obtain ⟨⟨n, c1⟩, hn, hr⟩ := bind_ok.mp he
    obtain ⟨rfl, hlt, rfl⟩ := newPointsToId_ok h hn
    cases hr
    have hkeeps : Keeps c.denOf (fun i => ((c.idToPts.push d)[i]?).map den) := by
      intro i S hi
      rw [denOf] at hi
      obtain ⟨d', hd', rfl⟩ := map_eq_some_iff.mp hi
      have hi' : i < c.idToPts.size := (Array.getElem?_eq_some_iff.mp hd').1
      show ((c.idToPts.push d)[i]?).map den = some (den d')
      rw [Array.getElem?_push, if_neg (Nat.ne_of_lt hi'), hd', map_some]
    refine ⟨⟨⟨h.interns.push hfound, hkeeps _ _ h.empty, ?_, ?_, ?_⟩, hkeeps, ?_⟩, ?_⟩
    · show (c.idToPts.size + 1) % idRange = (c.idToPts.push d).size % idRange
      rw [Array.size_push]
    · show (c.idToPts.push d).size ≤ idRange
      rw [Array.size_push]; exact hlt
    · intro name
      have hsame : ∀ name : OpCacheName, c.opCache name = opCache { c with
          idToPts := c.idToPts.push d
          ptsToId := c.ptsToId.insert d c.idToPts.size
          idCounter := (c.idToPts.size + 1) % idRange } name := by
        intro name; cases name <;> rfl
      rw [← hsame]
      exact (h.memo name).mono hkeeps
    · show (c.idToPts.push d).size ≤ c.idToPts.size + 1
      rw [Array.size_push]
    · show ((c.idToPts.push d)[c.idToPts.size]?).map den = some (den d)
      rw [Array.getElem?_push_size, map_some]

section

variable {lhs rhs id : PointsToID} (h : c.Inv)
include h

/-- **`opPts`**: whether the result was memoised or computed now, its id denotes the
    operation's result on the two stored operands. -/
theorem opPts_ok {dataOp : D → D → D} {name : OpCacheName} {comm performed : Bool}
    (hop : ∀ d e : D, den (dataOp d e) = name.op (den d) (den e))
    (hcomm : comm → ∀ X Y : Set α, name.op X Y = name.op Y X)
    (ho : c.opPts lhs rhs dataOp name comm = .ok (id, performed, c')) :
    Grows c c' ∧ ∃ L R, c.denOf lhs = some L ∧ c.denOf rhs = some R ∧
      c'.denOf id = some (name.op L R) := by
  have hoperands : (if comm then minmax lhs rhs else (lhs, rhs)) = (lhs, rhs) ∨
      comm ∧ (if comm then minmax lhs rhs else (lhs, rhs)) = (rhs, lhs) := by
    cases comm with
    | false => exact .inl rfl
    | true => exact (minmax_cases lhs rhs).imp_right fun hm => ⟨rfl, hm⟩
  unfold opPts at ho
  simp only at ho
  generalize (if comm then minmax lhs rhs else (lhs, rhs)) = operands at ho hoperands
  cases hfound : (c.opCache name)[operands]? with
  | some id' =>
    -- a hit: the memo table is sound
    rw [hfound] at ho
    simp only [Except.ok.injEq, Prod.mk.injEq] at ho
    obtain ⟨rfl, -, rfl⟩ := ho
    obtain ⟨L, R, hl, hr, hx⟩ := h.memo name operands.1 operands.2 id' hfound
    refine ⟨Grows.refl h, ?_⟩
    rcases hoperands with rfl | ⟨hc, rfl⟩
    · exact ⟨L, R, hl, hr, hx⟩
    · exact ⟨R, L, hr, hl, by rw [hcomm hc]; exact hx⟩
  | none =>
    -- a miss: the operation is performed and its result interned
    rw [hfound] at ho
    obtain ⟨dl, hdl, ho⟩ := bind_ok.mp ho
    obtain ⟨dr, hdr, ho⟩ := bind_ok.mp ho
    obtain ⟨⟨n, c1⟩, he, ho⟩ := bind_ok.mp ho
    simp only [pure, Except.pure, Except.ok.injEq, Prod.mk.injEq] at ho
    obtain ⟨rfl, -, rfl⟩ := ho
    have hl : c.denOf lhs = some (den dl) := getActualPts_ok hdl
    have hr : c.denOf rhs = some (den dr) := getActualPts_ok hdr
    obtain ⟨hg, hid⟩ := emplacePts_ok h he
    rw [hop] at hid
    have hl1 := hg.keeps _ _ hl
    have hr1 := hg.keeps _ _ hr
    have hinv : (c1.setOp name operands n).Inv := by
      rcases hoperands with rfl | ⟨hc, rfl⟩
      · exact hg.inv.setOp hl1 hr1 hid
      · exact hg.inv.setOp hr1 hl1 (by rw [hcomm hc]; exact hid)
    refine ⟨⟨hinv, ?_, ?_⟩, den dl, den dr, hl, hr, ?_⟩
    · rw [denOf_setOp]; exact hg.keeps
    · rw [idToPts_setOp]; exact hg.size
    · rw [denOf_setOp]; exact hid

/-- **`unionPts`**: the cache stays sound, and stored operands give the id of their union. -/
theorem unionPts_ok (hu : c.unionPts lhs rhs = .ok (id, c')) :
    Grows c c' ∧ ∀ L R, c.denOf lhs = some L → c.denOf rhs = some R →
      c'.denOf id = some (L ∪ R) := by
  have hcomm : ∀ X Y : Set α, OpCacheName.unionCache.op X Y = OpCacheName.unionCache.op Y X :=
    union_comm
  rcases unionPts_cases hu with ⟨h0, rfl, rfl⟩ | ⟨hx, rfl, rfl⟩ | ⟨-, -, performed, c1, ho, rfl⟩
  · -- EMPTY_SET U x
    refine ⟨Grows.refl h, fun L R hl hr => ?_⟩
    rcases minmax_cases lhs rhs with hm | hm <;> rw [hm] at h0 ⊢
    · have hl0 : L = ∅ := by
        have := hl.symm.trans (h0 ▸ h.empty)
        exact some.inj this
      rw [hl0, empty_union]; exact hr
    · have hr0 : R = ∅ := by
        have := hr.symm.trans (h0 ▸ h.empty)
        exact some.inj this
      rw [hr0, union_empty]; exact hl
  · -- x U x
    refine ⟨Grows.refl h, fun L R hl hr => ?_⟩
    rcases minmax_cases lhs rhs with hm | hm <;> rw [hm] at hx ⊢ <;> simp only at hx ⊢
    · rw [← hx, hl] at hr
      rw [hl, ← some.inj hr, union_self]
    · rw [hx, hl] at hr
      rw [hx, hl, ← some.inj hr, union_self]
  have hop : ∀ d e : D, den (DataSet.union d e) = OpCacheName.unionCache.op (den d) (den e) :=
    SetDataSet.den_union
  obtain ⟨hg, L, R, hl, hr, hid⟩ := opPts_ok h hop (fun _ => hcomm) ho
  have hans : ∀ A B, c.denOf lhs = some A → c.denOf rhs = some B → c1.denOf id = some (A ∪ B) :=
    op_of_stored (f := (· ∪ ·)) hl hr hid
  cases performed with
  | false => exact ⟨hg, hans⟩
  | true =>
    have hl1 := hg.keeps _ _ hl
    have hr1 := hg.keeps _ _ hr
    -- x U z = z
    have hxz : lhs ≠ id → (c1.setOp .unionCache (minmax lhs id) id).Inv := by
      intro _
      refine hg.inv.setOp_minmax hcomm hl1 hid ?_
      show c1.denOf id = some (L ∪ (L ∪ R))
      rw [← union_assoc, union_self]
      exact hid
    obtain ⟨hg2, hden2⟩ := hg.setOp_if hxz
    -- y U z = z
    have hyz : rhs ≠ id → ((if lhs ≠ id then c1.setOp .unionCache (minmax lhs id) id
        else c1).setOp .unionCache (minmax rhs id) id).Inv := by
      intro _
      rw [← hden2] at hr1 hid
      refine hg2.inv.setOp_minmax hcomm hr1 hid ?_
      rw [hid]
      show some (L ∪ R) = some (R ∪ (L ∪ R))
      rw [union_left_comm, union_self]
    obtain ⟨hg3, hden3⟩ := hg2.setOp_if hyz
    rw [if_pos rfl]
    refine ⟨hg3, fun A B hl' hr' => ?_⟩
    rw [hden3, hden2]
    exact hans A B hl' hr'

/-- **`complementPts`**: the cache stays sound, and stored operands give the id of their
    difference. -/
theorem complementPts_ok (hu : c.complementPts lhs rhs = .ok (id, c')) :
    Grows c c' ∧ ∀ L R, c.denOf lhs = some L → c.denOf rhs = some R →
      c'.denOf id = some (L \ R) := by
  rcases complementPts_cases hu with ⟨hx, rfl, rfl⟩ | ⟨hr0, rfl, rfl⟩ | ⟨hl0, rfl, rfl⟩ |
    ⟨-, -, -, performed, c1, ho, rfl⟩
  · -- x - x
    refine ⟨Grows.refl h, fun L R hl hr => ?_⟩
    rw [hx, hr] at hl
    rw [some.inj hl, sdiff_self]
    exact h.empty
  · -- x - EMPTY_SET
    refine ⟨Grows.refl h, fun L R hl hr => ?_⟩
    rw [hr0, h.empty] at hr
    rw [← some.inj hr, sdiff_empty]
    exact hl
  · -- EMPTY_SET - x
    refine ⟨Grows.refl h, fun L R hl hr => ?_⟩
    rw [hl0, h.empty] at hl
    rw [← some.inj hl, empty_sdiff]
    exact h.empty
  have hop : ∀ d e : D, den (DataSet.sub d e) = OpCacheName.complementCache.op (den d) (den e) :=
    SetDataSet.den_sub
  obtain ⟨hg, L, R, hl, hr, hid⟩ := opPts_ok h hop (fun hf => absurd hf (by decide)) ho
  have hans : ∀ A B, c.denOf lhs = some A → c.denOf rhs = some B → c1.denOf id = some (A \ B) :=
    op_of_stored (f := (· \ ·)) hl hr hid
  have hl1 := hg.keeps _ _ hl
  have hr1 := hg.keeps _ _ hr
  by_cases hp : performed ∧ id ≠ emptyPointsToId
  · rw [if_pos hp]
    -- result AND rhs = EMPTY_SET
    have h2 : (c1.setOp .intersectionCache (minmax id rhs) emptyPointsToId).Inv := by
      refine hg.inv.setOp_minmax inter_comm hid hr1 ?_
      show c1.denOf emptyPointsToId = some ((L \ R) ∩ R)
      rw [sdiff_inter_self]
      exact hg.inv.empty
    -- result AND lhs = result
    have h3 : ((c1.setOp .intersectionCache (minmax id rhs) emptyPointsToId).setOp
        .intersectionCache (minmax id lhs) id).Inv := by
      refine h2.setOp_minmax inter_comm (A := L \ R) (B := L) ?_ ?_ ?_
      · rw [denOf_setOp]; exact hid
      · rw [denOf_setOp]; exact hl1
      · rw [denOf_setOp, hid]
        show some (L \ R) = some ((L \ R) ∩ L)
        rw [inter_eq_left.mpr sdiff_subset]
    -- result - rhs = result
    have h4 : (((c1.setOp .intersectionCache (minmax id rhs) emptyPointsToId).setOp
        .intersectionCache (minmax id lhs) id).setOp .complementCache (id, rhs) id).Inv := by
      refine h3.setOp (L := L \ R) (R := R) ?_ ?_ ?_
      · rw [denOf_setOp, denOf_setOp]; exact hid
      · rw [denOf_setOp, denOf_setOp]; exact hr1
      · rw [denOf_setOp, denOf_setOp, hid]
        show some (L \ R) = some ((L \ R) \ R)
        rw [sdiff_sdiff, union_self]
    refine ⟨⟨h4, ?_, ?_⟩, ?_⟩
    · simpa only [denOf_setOp] using hg.keeps
    · simpa only [idToPts_setOp] using hg.size
    · simpa only [denOf_setOp] using hans
  · rw [if_neg hp]
    exact ⟨hg, hans⟩

/-- **`intersectPts`**: the cache stays sound, and stored operands give the id of their
    intersection. -/
theorem intersectPts_ok (hu : c.intersectPts lhs rhs = .ok (id, c')) :
    Grows c c' ∧ ∀ L R, c.denOf lhs = some L → c.denOf rhs = some R →
      c'.denOf id = some (L ∩ R) := by
  rcases intersectPts_cases hu with ⟨h0, rfl, rfl⟩ | ⟨hx, rfl, rfl⟩ | ⟨-, -, performed, c1, ho, rfl⟩
  · -- EMPTY_SET & x
    refine ⟨Grows.refl h, fun L R hl hr => ?_⟩
    rcases minmax_cases lhs rhs with hm | hm <;> rw [hm] at h0 <;> simp only at h0
    · rw [h0, h.empty] at hl
      rw [← some.inj hl, empty_inter]
      exact h.empty
    · rw [h0, h.empty] at hr
      rw [← some.inj hr, inter_empty]
      exact h.empty
  · -- x & x
    refine ⟨Grows.refl h, fun L R hl hr => ?_⟩
    rcases minmax_cases lhs rhs with hm | hm <;> rw [hm] at hx ⊢ <;> simp only at hx ⊢
    · rw [← hx, hl] at hr
      rw [hl, ← some.inj hr, inter_self]
    · rw [hx, hl] at hr
      rw [hx, hl, ← some.inj hr, inter_self]
  have hop : ∀ d e : D,
      den (DataSet.inter d e) = OpCacheName.intersectionCache.op (den d) (den e) :=
    SetDataSet.den_inter
  obtain ⟨hg, L, R, hl, hr, hid⟩ := opPts_ok h hop (fun _ => inter_comm) ho
  have hans : ∀ A B, c.denOf lhs = some A → c.denOf rhs = some B → c1.denOf id = some (A ∩ B) :=
    op_of_stored (f := (· ∩ ·)) hl hr hid
  have hl1 := hg.keeps _ _ hl
  have hr1 := hg.keeps _ _ hr
  by_cases hp : performed ∧ id ≠ emptyPointsToId
  · rw [if_pos hp]
    dsimp only
    -- result AND rhs = result
    have e2 : id ≠ rhs → (c1.setOp .intersectionCache (minmax id rhs) id).Inv := by
      intro _
      refine hg.inv.setOp_minmax inter_comm hid hr1 ?_
      rw [hid]
      show some (L ∩ R) = some ((L ∩ R) ∩ R)
      rw [inter_assoc, inter_self]
    obtain ⟨hg2, hd2⟩ := hg.setOp_if e2
    generalize (if id ≠ rhs then c1.setOp .intersectionCache (minmax id rhs) id
      else c1) = c2 at hg2 hd2 ⊢
    -- result AND lhs = result
    have e3 : id ≠ lhs → (c2.setOp .intersectionCache (minmax id lhs) id).Inv := by
      intro _
      rw [← hd2] at hid hl1
      refine hg2.inv.setOp_minmax inter_comm hid hl1 ?_
      rw [hid]
      show some (L ∩ R) = some ((L ∩ R) ∩ L)
      rw [inter_right_comm, inter_self]
    obtain ⟨hg3, hd3⟩ := hg2.setOp_if e3
    generalize (if id ≠ lhs then c2.setOp .intersectionCache (minmax id lhs) id
      else c2) = c3 at hg3 hd3 ⊢
    -- result U lhs = lhs
    have e4 : id ≠ emptyPointsToId ∧ id ≠ lhs → (c3.setOp .unionCache (minmax lhs id) lhs).Inv := by
      intro _
      rw [← hd2, ← hd3] at hid hl1
      refine hg3.inv.setOp_minmax union_comm hl1 hid ?_
      rw [hl1]
      show some L = some (L ∪ (L ∩ R))
      rw [union_eq_left.mpr inter_subset_left]
    obtain ⟨hg4, hd4⟩ := hg3.setOp_if e4
    generalize (if id ≠ emptyPointsToId ∧ id ≠ lhs then
      c3.setOp .unionCache (minmax lhs id) lhs else c3) = c4 at hg4 hd4 ⊢
    -- result U rhs = rhs
    have e5 : id ≠ emptyPointsToId ∧ id ≠ rhs → (c4.setOp .unionCache (minmax rhs id) rhs).Inv := by
      intro _
      rw [← hd2, ← hd3, ← hd4] at hid hr1
      refine hg4.inv.setOp_minmax union_comm hr1 hid ?_
      rw [hr1]
      show some R = some (R ∪ (L ∩ R))
      rw [union_eq_left.mpr inter_subset_right]
    obtain ⟨hg5, hd5⟩ := hg4.setOp_if e5
    refine ⟨hg5, ?_⟩
    rw [hd5, hd4, hd3, hd2]
    exact hans
  · rw [if_neg hp]
    exact ⟨hg, hans⟩

end

end Lawful

end PersistentPointsToCache

-- ── Runs of calls on a cache

open PersistentPointsToCache

inductive CacheCall (D : Type) where
  | emplacePts (pts : D)
  | unionPts (lhs rhs : PointsToID)
  | complementPts (lhs rhs : PointsToID)
  | intersectPts (lhs rhs : PointsToID)

def step (c : PersistentPointsToCache D) :
    CacheCall D → Except PtsError (PointsToID × PersistentPointsToCache D)
  | .emplacePts pts => c.emplacePts pts
  | .unionPts lhs rhs => c.unionPts lhs rhs
  | .complementPts lhs rhs => c.complementPts lhs rhs
  | .intersectPts lhs rhs => c.intersectPts lhs rhs

/-- The set a call asks for: the true result, when its ids are stored. -/
def CacheCall.value (c : PersistentPointsToCache D) : CacheCall D → Option (Set α)
  | .emplacePts pts => some (den pts)
  | .unionPts lhs rhs => (c.denOf lhs).bind fun L => (c.denOf rhs).map (L ∪ ·)
  | .complementPts lhs rhs => (c.denOf lhs).bind fun L => (c.denOf rhs).map (L \ ·)
  | .intersectPts lhs rhs => (c.denOf lhs).bind fun L => (c.denOf rhs).map (L ∩ ·)

theorem bind_map_eq_some {L? R? : Option (Set α)} {op : Set α → Set α → Set α} {S : Set α}
    (h : (L?.bind fun L => R?.map (op L)) = some S) :
    ∃ L R, L? = some L ∧ R? = some R ∧ S = op L R := by
  obtain ⟨L, hL, h'⟩ := bind_eq_some_iff.mp h
  obtain ⟨R, hR, rfl⟩ := map_eq_some_iff.mp h'
  exact ⟨L, R, hL, hR, rfl⟩

/-- A cache tells the truth: ids and sets are mutually inverse and distinct ids denote
    distinct sets, id 0 is the empty set, the `unsigned` counter is the number of stored
    sets, every memoised entry is the operation's result on stored sets, and every call on
    stored ids answers with an id of the true result (or stops at the code's own assertion
    when all ids are used up) without changing what any id means. -/
structure Truthful (c : PersistentPointsToCache D) : Prop where
  id_to_set : ∀ (i : PointsToID) (d : D), c.idToPts[i]? = some d → c.ptsToId[d]? = some i
  set_to_id : ∀ (d : D) (i : PointsToID), c.ptsToId[d]? = some i → c.denOf i = some (den d)
  distinct : ∀ i j S, c.denOf i = some S → c.denOf j = some S → i = j
  empty_id : c.denOf emptyPointsToId = some ∅
  next_id : c.idCounter = c.idToPts.size % idRange ∧ c.idToPts.size ≤ idRange
  memoised : ∀ (name : OpCacheName) (l r x : PointsToID), (c.opCache name)[(l, r)]? = some x →
    ∃ L R, c.denOf l = some L ∧ c.denOf r = some R ∧ c.denOf x = some (name.op L R)
  answers : ∀ (call : CacheCall D) (S : Set α), call.value c = some S →
    match step c call with
    | .ok (id, c') => c'.denOf id = some S ∧ Keeps c.denOf c'.denOf
    | .error e => e = .idsExhausted ∧ c.idToPts.size = idRange

variable [SetDataSet D] {c c' : PersistentPointsToCache D}

section

variable {call : CacheCall D} (h : c.Inv)
include h

theorem step_ok {id : PointsToID} (hs : step c call = .ok (id, c')) :
    Grows c c' ∧ ∀ S, call.value c = some S → c'.denOf id = some S := by
  cases call with
  | emplacePts pts =>
    obtain ⟨hg, hid⟩ := emplacePts_ok h hs
    refine ⟨hg, fun S hS => ?_⟩
    rw [← some.inj hS]
    exact hid
  | unionPts lhs rhs =>
    obtain ⟨hg, hid⟩ := unionPts_ok h hs
    refine ⟨hg, fun S hS => ?_⟩
    obtain ⟨L, R, hL, hR, rfl⟩ := bind_map_eq_some hS
    exact hid L R hL hR
  | complementPts lhs rhs =>
    obtain ⟨hg, hid⟩ := complementPts_ok h hs
    refine ⟨hg, fun S hS => ?_⟩
    obtain ⟨L, R, hL, hR, rfl⟩ := bind_map_eq_some hS
    exact hid L R hL hR
  | intersectPts lhs rhs =>
    obtain ⟨hg, hid⟩ := intersectPts_ok h hs
    refine ⟨hg, fun S hS => ?_⟩
    obtain ⟨L, R, hL, hR, rfl⟩ := bind_map_eq_some hS
    exact hid L R hL hR

omit [SetDataSet D] in
theorem step_error {e : PtsError} (hs : step c call = .error e) :
    (e = .notStored ∧ call.value c = none) ∨ (e = .idsExhausted ∧ c.idToPts.size = idRange) := by
  have hbin : ∀ {lhs rhs : PointsToID} {op : Set α → Set α → Set α}, c.FailsAs lhs rhs e →
      (e = .notStored ∧ ((c.denOf lhs).bind fun L => (c.denOf rhs).map (op L)) = none) ∨
        (e = .idsExhausted ∧ c.idToPts.size = idRange) := by
    intro lhs rhs op hf
    rcases hf with ⟨he, hl | hr⟩ | hfull
    · exact .inl ⟨he, by rw [hl, bind_none]⟩
    · exact .inl ⟨he, by rw [hr]; cases c.denOf lhs <;> rfl⟩
    · exact .inr hfull
  cases call with
  | emplacePts pts => exact .inr (emplacePts_error h hs)
  | unionPts lhs rhs => exact hbin (unionPts_error h hs)
  | complementPts lhs rhs => exact hbin (complementPts_error h hs)
  | intersectPts lhs rhs => exact hbin (intersectPts_error h hs)

/-- **Step lemma.** A successful call keeps the invariant. -/
theorem step_inv {id : PointsToID} (hs : step c call = .ok (id, c')) :
    c'.Inv := (step_ok h hs).1.inv

end

omit [SetDataSet D] in
theorem truthful_of_inv [LawfulDataSet D] (h : c.Inv) : Truthful c where
  id_to_set := h.interns.id_of_value
  set_to_id := by
    intro d i hi
    obtain ⟨d', hd', hbeq⟩ := h.interns.value_of_id d i hi
    rw [denOf, hd', map_some, (LawfulDataSet.beq_iff d' d).mp hbeq]
  distinct := by
    intro i j S hi hj
    obtain ⟨d, hd, hdS⟩ := map_eq_some_iff.mp hi
    obtain ⟨d', hd', hdS'⟩ := map_eq_some_iff.mp hj
    exact h.interns.injective hd hd' ((LawfulDataSet.beq_iff d d').mpr (hdS.trans hdS'.symm))
  empty_id := h.empty
  next_id := ⟨h.counter, h.bound⟩
  memoised := h.memo
  answers := by
    intro call S hS
    cases hs : step c call with
    | ok r =>
      obtain ⟨hg, hid⟩ := step_ok h hs
      exact ⟨hid S hS, hg.keeps⟩
    | error e =>
      rcases step_error h hs with ⟨-, hnone⟩ | hfull
      · rw [hS] at hnone; exact nomatch hnone
      · exact hfull

end SvfPtsCache
