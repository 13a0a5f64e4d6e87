import Mathlib

/-!
# `NodeIDAllocator`: identifiers of objects and values

Four counters and four ways to number nodes by them: objects from below and values from above,
the other way round, one counter for all, or one counter for all but field objects, whose offset
is put in decimal digits in front of the identifier of their base.

A call hands out an identifier that no earlier call has (`Runs.fresh`). For the first three ways
this is counting: what has been handed out lies in the ranges that the counters have passed
(`Used`). For the last one the heart is that a field object's identifier is at least the
multiplier, and splits into offset and base (`packed_inj`), as long as the common counter stays
below the multiplier; **`Runs.ids_distinct`** puts them together, and `debug_ids_clash` shows
what happens when the counter runs into the field objects.
-/

namespace SvfNodeIDAllocator

open List Option Nat

/-- The largest `NodeID`. -/
def UINT_MAX : ℕ := 4294967295

/-- `++` on an unsigned counter. -/
def increment (n : ℕ) : ℕ := (n + 1) % (UINT_MAX + 1)

inductive Strategy | DENSE | REVERSE_DENSE | SEQ | DBUG

structure NodeIDAllocator where
  numObjects : ℕ
  numValues : ℕ
  numSymbols : ℕ
  numNodes : ℕ
  strategy : Strategy

namespace NodeIDAllocator

/-- Counts start at 4 because that is how many special nodes there are. -/
def new (strategy : Strategy) : NodeIDAllocator := ⟨4, 4, 4, 4, strategy⟩

section

variable (a : NodeIDAllocator)

def increaseNumOfObjAndNodes : NodeIDAllocator :=
  { a with numObjects := increment a.numObjects, numNodes := increment a.numNodes }

def allocateObjectId : Option (ℕ × NodeIDAllocator) :=
  let id := match a.strategy with
    | .DENSE => a.numObjects
    | .REVERSE_DENSE => UINT_MAX - a.numObjects
    | .SEQ => a.numNodes
    | .DBUG => a.numNodes
  if id ≠ 0 then some (id, a.increaseNumOfObjAndNodes) else none

def gepMultiplier (maxFieldLimit : ℕ) : ℕ :=
  10 ^ Nat.clog 10 (if a.numSymbols > maxFieldLimit then a.numSymbols else maxFieldLimit)

def allocateGepObjectId (base offset maxFieldLimit : ℕ) : Option (ℕ × NodeIDAllocator) :=
  let id := match a.strategy with
    | .DENSE => some a.numObjects
    | .REVERSE_DENSE => some (UINT_MAX - a.numObjects)
    | .SEQ => some a.numNodes
    | .DBUG =>
      let id := ((offset + 1) * a.gepMultiplier maxFieldLimit + base) % (UINT_MAX + 1)
      if id > a.numSymbols then some id else none
  id.bind fun id => if id ≠ 0 then some (id, a.increaseNumOfObjAndNodes) else none

def allocateValueId : Option (ℕ × NodeIDAllocator) :=
  let id := match a.strategy with
    | .DENSE => UINT_MAX - a.numValues
    | .REVERSE_DENSE => a.numValues
    | .SEQ => a.numNodes
    | .DBUG => a.numNodes
  if id ≠ 0 then
    some (id, { a with numValues := increment a.numValues, numNodes := increment a.numNodes })
  else none

def endSymbolAllocation : NodeIDAllocator := { a with numSymbols := a.numNodes }

end

end NodeIDAllocator

open NodeIDAllocator

-- ── the calls of the builders

/-- What has been allocated: the identifiers handed out, those of base objects among them (and
    of the two special objects), and the bases and offsets of the field objects. -/
structure History where
  allocator : NodeIDAllocator
  ids : List ℕ
  objects : List ℕ
  geps : List (ℕ × ℕ)

inductive AllocCall
  | object
  | gep (base offset : ℕ)
  | value

/-- The calls that the builders make: a field object has a base object and an offset below the
    limit, is allocated once, and after the symbols. The count of nodes fits a `NodeID`, and
    each allocation meets `P`. -/
inductive Runs (strategy : Strategy) (maxFieldLimit : ℕ) (P : History → AllocCall → Prop) :
    History → Prop
  | init : Runs strategy maxFieldLimit P ⟨NodeIDAllocator.new strategy, [], [0, 1], []⟩
  | object {h : History} {id : ℕ} {a : NodeIDAllocator} (hr : Runs strategy maxFieldLimit P h)
      (hP : P h .object) (hroom : h.allocator.numNodes < UINT_MAX)
      (hid : h.allocator.allocateObjectId = some (id, a)) :
      Runs strategy maxFieldLimit P ⟨a, h.ids ++ [id], h.objects ++ [id], h.geps⟩
  | gep {h : History} {base offset id : ℕ} {a : NodeIDAllocator}
      (hr : Runs strategy maxFieldLimit P h) (hP : P h (.gep base offset))
      (hroom : h.allocator.numNodes < UINT_MAX) (hbase : base ∈ h.objects)
      (hoffset : offset < maxFieldLimit) (hnew : (base, offset) ∉ h.geps)
      (hid : h.allocator.allocateGepObjectId base offset maxFieldLimit = some (id, a)) :
      Runs strategy maxFieldLimit P ⟨a, h.ids ++ [id], h.objects, h.geps ++ [(base, offset)]⟩
  | value {h : History} {id : ℕ} {a : NodeIDAllocator} (hr : Runs strategy maxFieldLimit P h)
      (hP : P h .value) (hroom : h.allocator.numNodes < UINT_MAX)
      (hid : h.allocator.allocateValueId = some (id, a)) :
      Runs strategy maxFieldLimit P ⟨a, h.ids ++ [id], h.objects, h.geps⟩
  | symbols {h : History} (hr : Runs strategy maxFieldLimit P h) (hgeps : h.geps = []) :
      Runs strategy maxFieldLimit P { h with allocator := h.allocator.endSymbolAllocation }

/-- The allocations where nothing goes wrong. The dense ways leave four identifiers at the top
    unused. A packed identifier fits a `NodeID`, and the common counter, which the other
    identifiers come from, is not beyond the multiplier once there are field objects. -/
def StepOk (maxFieldLimit : ℕ) (h : History) (call : AllocCall) : Prop :=
  match h.allocator.strategy, call with
  | .DENSE, _ => h.allocator.numNodes + 4 ≤ UINT_MAX
  | .REVERSE_DENSE, _ => h.allocator.numNodes + 4 ≤ UINT_MAX
  | .SEQ, _ => True
  | .DBUG, .gep base offset => h.allocator.numNodes ≤ h.allocator.gepMultiplier maxFieldLimit ∧
      (offset + 1) * h.allocator.gepMultiplier maxFieldLimit + base ≤ UINT_MAX
  | .DBUG, _ =>
    h.geps = [] ∨ h.allocator.numNodes < h.allocator.gepMultiplier maxFieldLimit

-- ── what has been handed out

/-- The identifier of a field object. -/
def packed (multiplier : ℕ) (p : ℕ × ℕ) : ℕ := (p.2 + 1) * multiplier + p.1

theorem le_packed (multiplier : ℕ) (p : ℕ × ℕ) : multiplier ≤ packed multiplier p := by
  rw [packed, add_mul, one_mul, add_assoc]
  exact le_add_of_le_right (le_add_right _ _)

theorem packed_inj {multiplier : ℕ} {p q : ℕ × ℕ} (hp : p.1 < multiplier) (hq : q.1 < multiplier)
    (h : packed multiplier p = packed multiplier q) : p = q := by
  have hbase := congrArg (· % multiplier) h
  simp only [packed, mul_add_mod_of_lt hp, mul_add_mod_of_lt hq] at hbase
  rw [packed, packed, hbase, add_right_cancel_iff] at h
  have hoffset := eq_of_mul_eq_mul_right (lt_of_le_of_lt (zero_le _) hp) h
  exact Prod.ext hbase (Nat.succ.inj hoffset)

theorem increment_eq {n : ℕ} (h : n < UINT_MAX) : increment n = n + 1 :=
  mod_eq_of_lt (succ_lt_succ h)

abbrev History.multiplier (maxFieldLimit : ℕ) (h : History) : ℕ :=
  h.allocator.gepMultiplier maxFieldLimit

/-- Where the identifiers that have been handed out are. -/
def Used (maxFieldLimit : ℕ) (h : History) (id : ℕ) : Prop :=
  match h.allocator.strategy with
  | .DENSE => (4 ≤ id ∧ id < h.allocator.numObjects) ∨
      (UINT_MAX < id + h.allocator.numValues ∧ id + 4 ≤ UINT_MAX)
  | .REVERSE_DENSE => (4 ≤ id ∧ id < h.allocator.numValues) ∨
      (UINT_MAX < id + h.allocator.numObjects ∧ id + 4 ≤ UINT_MAX)
  | .SEQ => 4 ≤ id ∧ id < h.allocator.numNodes
  | .DBUG => (4 ≤ id ∧ id < h.allocator.numNodes ∧
        (h.geps = [] ∨ id < h.multiplier maxFieldLimit)) ∨
      ∃ p ∈ h.geps, id = packed (h.multiplier maxFieldLimit) p

/-- The counters agree, and the top of the dense ways has not been reached. -/
structure Counted (a : NodeIDAllocator) : Prop where
  objects : 4 ≤ a.numObjects
  values : 4 ≤ a.numValues
  nodes : a.numObjects + a.numValues = a.numNodes + 4
  room : a.numNodes ≤ UINT_MAX
  dense : a.strategy = .DENSE ∨ a.strategy = .REVERSE_DENSE → a.numNodes + 3 ≤ UINT_MAX

/-- The invariant of the runs in which nothing goes wrong. -/
structure Inv (maxFieldLimit : ℕ) (h : History) : Prop where
  counted : Counted h.allocator
  used : ∀ id ∈ h.ids, Used maxFieldLimit h id
  least : ∀ id ∈ h.ids, 4 ≤ id
  nodup : h.ids.Nodup
  objects : h.allocator.strategy = .DBUG → ∀ b ∈ h.objects, b < h.allocator.numNodes
  bases : h.allocator.strategy = .DBUG → ∀ p ∈ h.geps, p.1 < h.multiplier maxFieldLimit

theorem Inv.add {maxFieldLimit : ℕ} {h h' : History} {id : ℕ} (hinv : Inv maxFieldLimit h)
    (hids : h'.ids = h.ids ++ [id]) (hcounted : Counted h'.allocator)
    (hkeeps : ∀ i, Used maxFieldLimit h i → Used maxFieldLimit h' i)
    (hused : Used maxFieldLimit h' id) (hfresh : ¬ Used maxFieldLimit h id) (hleast : 4 ≤ id)
    (hobjects : h'.allocator.strategy = .DBUG → ∀ b ∈ h'.objects, b < h'.allocator.numNodes)
    (hbases : h'.allocator.strategy = .DBUG → ∀ p ∈ h'.geps, p.1 < h'.multiplier maxFieldLimit) :
    Inv maxFieldLimit h' := by
  refine ⟨hcounted, ?_, ?_, ?_, hobjects, hbases⟩
  · rw [hids]
    intro i hi
    rcases mem_append.mp hi with hi | hi
    · exact hkeeps i (hinv.used i hi)
    · rw [mem_singleton.mp hi]
      exact hused
  · rw [hids]
    intro i hi
    rcases mem_append.mp hi with hi | hi
    · exact hinv.least i hi
    · rw [mem_singleton.mp hi]
      exact hleast
  · rw [hids, nodup_append]
    refine ⟨hinv.nodup, nodup_singleton id, ?_⟩
    rintro i hi j hj rfl
    rw [mem_singleton.mp hj] at hi
    exact hfresh (hinv.used id hi)

variable {maxFieldLimit : ℕ} {h : History} {id : ℕ} {a : NodeIDAllocator}

section

variable (hinv : Inv maxFieldLimit h)
include hinv

/-- An allocation of the plain ways counts an object or a value. -/
theorem Inv.count (hs : h.allocator.strategy ≠ .DBUG)
    (hdense : h.allocator.strategy = .DENSE ∨ h.allocator.strategy = .REVERSE_DENSE →
      h.allocator.numNodes + 4 ≤ UINT_MAX) (hroom : h.allocator.numNodes < UINT_MAX)
    (hid : h.allocator.allocateObjectId = some (id, a) ∨ h.allocator.allocateValueId = some (id, a))
    (objects : List ℕ) (geps : List (ℕ × ℕ)) :
    Inv maxFieldLimit ⟨a, h.ids ++ [id], objects, geps⟩ := by
  obtain ⟨⟨o, v, s, n, strategy⟩, ids, objs, gs⟩ := h
  obtain ⟨hobj, hval, hnodes, -, -⟩ := hinv.counted
  simp only at hobj hval hnodes hdense hroom hs
  simp only [allocateObjectId, allocateValueId, increaseNumOfObjAndNodes, increment_eq hroom,
    increment_eq (show o < UINT_MAX by omega), increment_eq (show v < UINT_MAX by omega)] at hid
  rcases hid with hid | hid
  all_goals
    obtain ⟨-, hid⟩ := ite_none_right_eq_some.mp hid
    cases hid
    cases strategy with
    | DBUG => exact absurd rfl hs
    | DENSE =>
      have hroom4 := hdense (.inl rfl)
      refine hinv.add rfl ⟨?_, ?_, ?_, hroom, fun _ => hroom4⟩ ?_ ?_ ?_ ?_ nofun nofun
      all_goals simp only [Used]
      all_goals omega
    | REVERSE_DENSE =>
      have hroom4 := hdense (.inr rfl)
      refine hinv.add rfl ⟨?_, ?_, ?_, hroom, fun _ => hroom4⟩ ?_ ?_ ?_ ?_ nofun nofun
      all_goals simp only [Used]
      all_goals omega
    | SEQ =>
      refine hinv.add rfl ⟨?_, ?_, ?_, hroom, nofun⟩ ?_ ?_ ?_ ?_ nofun nofun
      all_goals simp only [Used]
      all_goals omega

theorem Inv.plain (hs : h.allocator.strategy = .DBUG)
    (hok : h.geps = [] ∨ h.allocator.numNodes < h.multiplier maxFieldLimit)
    (hs' : a.strategy = .DBUG) (hcounted : Counted a) (hsymbols : a.numSymbols = h.allocator.numSymbols)
    (hnodes : a.numNodes = h.allocator.numNodes + 1) {objects : List ℕ}
    (hobjects : ∀ b ∈ objects, b ∈ h.objects ∨ b = h.allocator.numNodes) :
    Inv maxFieldLimit ⟨a, h.ids ++ [h.allocator.numNodes], objects, h.geps⟩ := by
  have hmul : History.multiplier maxFieldLimit ⟨a, h.ids ++ [h.allocator.numNodes], objects, h.geps⟩ =
      h.multiplier maxFieldLimit := by
    show a.gepMultiplier maxFieldLimit = h.allocator.gepMultiplier maxFieldLimit
    rw [gepMultiplier, gepMultiplier, hsymbols]
  have hfour : 4 ≤ h.allocator.numNodes := by
    obtain ⟨hobj, hval, hsum, -, -⟩ := hinv.counted
    omega
  refine hinv.add rfl hcounted ?_ ?_ ?_ hfour ?_ ?_
  · intro i hi
    simp only [Used, hs, hs', hmul, hnodes] at hi ⊢
    exact hi.imp_left fun ⟨h4, hlt, hm⟩ => ⟨h4, lt_succ_of_lt hlt, hm⟩
  · simp only [Used, hs', hmul, hnodes]
    exact .inl ⟨hfour, lt_succ_self _, hok⟩
  · simp only [Used, hs]
    rintro (⟨-, hlt, -⟩ | ⟨p, hp, heq⟩)
    · exact absurd hlt (lt_irrefl _)
    · have hlt := hok.resolve_left (ne_nil_of_mem hp)
      have hle := le_packed (h.multiplier maxFieldLimit) p
      omega
  · intro _ b hb
    rcases hobjects b hb with hb | rfl
    · have := hinv.objects hs b hb
      simp only [hnodes]
      omega
    · simp only [hnodes]
      omega
  · intro _ p hp
    rw [hmul]
    exact hinv.bases hs p hp

end

theorem Inv.gep {base offset : ℕ} (hinv : Inv maxFieldLimit h) (hs : h.allocator.strategy = .DBUG)
    (hok : h.allocator.numNodes ≤ h.multiplier maxFieldLimit ∧
      (offset + 1) * h.multiplier maxFieldLimit + base ≤ UINT_MAX)
    (hroom : h.allocator.numNodes < UINT_MAX) (hbase : base ∈ h.objects)
    (hnew : (base, offset) ∉ h.geps)
    (hid : h.allocator.allocateGepObjectId base offset maxFieldLimit = some (id, a)) :
    Inv maxFieldLimit ⟨a, h.ids ++ [id], h.objects, h.geps ++ [(base, offset)]⟩ := by
  obtain ⟨⟨o, v, s, n, strategy⟩, ids, objs, gs⟩ := h
  obtain rfl : strategy = .DBUG := hs
  obtain ⟨hobj, hval, hnodes, -, -⟩ := hinv.counted
  obtain ⟨hle, hfits⟩ := hok
  have hlt : base < n := hinv.objects rfl base hbase
  simp only at hobj hval hnodes hroom hle hfits hnew
  simp only [allocateGepObjectId, mod_eq_of_lt (lt_succ_of_le hfits)] at hid
  obtain ⟨i, hi, hid⟩ := bind_eq_some_iff.mp hid
  obtain ⟨-, hi⟩ := ite_none_right_eq_some.mp hi
  cases hi
  obtain ⟨-, hid⟩ := ite_none_right_eq_some.mp hid
  obtain ⟨hpack, rfl⟩ := Prod.mk.inj (some.inj hid)
  rw [increaseNumOfObjAndNodes, increment_eq hroom, increment_eq (show o < UINT_MAX by omega)]
  have hmul := le_packed (gepMultiplier ⟨o, v, s, n, .DBUG⟩ maxFieldLimit) (base, offset)
  rw [packed, hpack] at hmul
  have hbeyond : n ≤ id := hle.trans hmul
  refine hinv.add rfl ⟨le_succ_of_le hobj, hval, by simp only; omega, hroom,
    fun hd => by rcases hd with hd | hd <;> exact nomatch hd⟩ ?_ ?_ ?_ (by omega) ?_ ?_
  · intro i hi
    rcases hi with ⟨h4, hin, -⟩ | ⟨p, hp, heq⟩
    · exact .inl ⟨h4, lt_succ_of_lt hin, .inr (lt_of_lt_of_le hin hle)⟩
    · exact .inr ⟨p, mem_append_left _ hp, heq⟩
  · exact .inr ⟨(base, offset), mem_append_right _ mem_cons_self, hpack.symm⟩
  · rintro (⟨-, hin, -⟩ | ⟨p, hp, heq⟩)
    · exact absurd hin (Nat.not_lt_of_le hbeyond)
    · have hsame : p = (base, offset) := packed_inj (q := (base, offset)) (hinv.bases rfl p hp)
        (lt_of_lt_of_le hlt hle) (heq.symm.trans hpack.symm)
      rw [hsame] at hp
      exact hnew hp
  · intro _ b hb
    exact lt_succ_of_lt (hinv.objects rfl b hb)
  · intro _ p hp
    rcases mem_append.mp hp with hp | hp
    · exact hinv.bases rfl p hp
    · rw [mem_singleton.mp hp]
      exact lt_of_lt_of_le hlt hle

theorem allocateGepObjectId_eq {a : NodeIDAllocator} (hs : a.strategy ≠ .DBUG)
    (base offset maxFieldLimit : ℕ) :
    a.allocateGepObjectId base offset maxFieldLimit = a.allocateObjectId := by
  obtain ⟨o, v, s, n, strategy⟩ := a
  cases strategy with
  | DENSE => rfl
  | REVERSE_DENSE => rfl
  | SEQ => rfl
  | DBUG => exact absurd rfl hs

theorem StepOk.plain {call : AllocCall} (hok : StepOk maxFieldLimit h call)
    (hs : h.allocator.strategy = .DBUG) (hcall : ∀ base offset, call ≠ .gep base offset) :
    h.geps = [] ∨ h.allocator.numNodes < h.multiplier maxFieldLimit := by
  cases call with
  | object =>
    simp only [StepOk, hs] at hok
    exact hok
  | gep base offset => exact absurd rfl (hcall base offset)
  | value =>
    simp only [StepOk, hs] at hok
    exact hok

theorem StepOk.dense {call : AllocCall} (hok : StepOk maxFieldLimit h call)
    (hs : h.allocator.strategy = .DENSE ∨ h.allocator.strategy = .REVERSE_DENSE) :
    h.allocator.numNodes + 4 ≤ UINT_MAX := by
  rcases hs with hs | hs
  · simp only [StepOk, hs] at hok
    exact hok
  · simp only [StepOk, hs] at hok
    exact hok

section

variable (hinv : Inv maxFieldLimit h)
include hinv

theorem Inv.object (hok : StepOk maxFieldLimit h .object)
    (hroom : h.allocator.numNodes < UINT_MAX)
    (hid : h.allocator.allocateObjectId = some (id, a)) :
    Inv maxFieldLimit ⟨a, h.ids ++ [id], h.objects ++ [id], h.geps⟩ := by
  by_cases hs : h.allocator.strategy = .DBUG
  · obtain ⟨hobj, hval, hnodes, -, -⟩ := hinv.counted
    simp only [allocateObjectId, hs, increaseNumOfObjAndNodes, increment_eq hroom,
      increment_eq (show h.allocator.numObjects < UINT_MAX by omega)] at hid
    obtain ⟨-, hid⟩ := ite_none_right_eq_some.mp hid
    cases hid
    refine hinv.plain hs (hok.plain hs fun _ _ hc => nomatch hc) ?_ ?_ ?_ ?_ fun b hb => ?_
    · rfl
    · exact ⟨le_succ_of_le hobj, hval, by simp only; omega, hroom,
        fun hd => by rcases hd with hd | hd <;> exact nomatch hd⟩
    · rfl
    · rfl
    · exact (mem_append.mp hb).imp_right mem_singleton.mp
  · exact hinv.count hs hok.dense hroom (.inl hid) _ _

theorem Inv.value (hok : StepOk maxFieldLimit h .value)
    (hroom : h.allocator.numNodes < UINT_MAX)
    (hid : h.allocator.allocateValueId = some (id, a)) :
    Inv maxFieldLimit ⟨a, h.ids ++ [id], h.objects, h.geps⟩ := by
  by_cases hs : h.allocator.strategy = .DBUG
  · obtain ⟨hobj, hval, hnodes, -, -⟩ := hinv.counted
    simp only [allocateValueId, hs, increment_eq hroom,
      increment_eq (show h.allocator.numValues < UINT_MAX by omega)] at hid
    obtain ⟨-, hid⟩ := ite_none_right_eq_some.mp hid
    cases hid
    refine hinv.plain hs (hok.plain hs fun _ _ hc => nomatch hc) ?_ ?_ ?_ ?_ fun b hb => .inl hb
    · rfl
    · exact ⟨hobj, le_succ_of_le hval, by simp only; omega, hroom,
        fun hd => by rcases hd with hd | hd <;> exact nomatch hd⟩
    · rfl
    · rfl
  · exact hinv.count hs hok.dense hroom (.inr hid) _ _

theorem Inv.symbols (hgeps : h.geps = []) :
    Inv maxFieldLimit { h with allocator := h.allocator.endSymbolAllocation } := by
  refine ⟨⟨hinv.counted.objects, hinv.counted.values, hinv.counted.nodes, hinv.counted.room,
    hinv.counted.dense⟩, fun i hi => ?_, hinv.least, hinv.nodup, hinv.objects, fun _ p hp => ?_⟩
  · obtain ⟨⟨o, v, s, n, strategy⟩, ids, objs, gs⟩ := h
    have hused := hinv.used i hi
    cases strategy with
    | DENSE => exact hused
    | REVERSE_DENSE => exact hused
    | SEQ => exact hused
    | DBUG =>
      rcases hused with ⟨h4, hlt, -⟩ | ⟨p, hp, -⟩
      · exact .inl ⟨h4, hlt, .inl hgeps⟩
      · rw [hgeps] at hp
        cases hp
  · rw [hgeps] at hp
    cases hp

end

variable {strategy : Strategy}

theorem Runs.inv (hr : Runs strategy maxFieldLimit (StepOk maxFieldLimit) h) :
    Inv maxFieldLimit h := by
  induction hr with
  | init =>
    have hroom : 4 + 3 ≤ UINT_MAX := by decide
    refine ⟨⟨le_rfl, le_rfl, rfl, le_of_add_le_left hroom, fun _ => hroom⟩, fun i hi => ?_,
      fun i hi => ?_,
      nodup_nil, fun _ b hb => ?_, fun _ p hp => ?_⟩
    · cases hi
    · cases hi
    · rcases mem_cons.mp hb with rfl | hb
      · exact (by decide : 0 < 4)
      · rw [mem_singleton.mp hb]
        exact (by decide : 1 < 4)
    · cases hp
  | object _ hok hroom hid ih => exact ih.object hok hroom hid
  | @gep h base offset id a _ hok hroom hbase _ hnew hid ih =>
    by_cases hs : h.allocator.strategy = .DBUG
    · simp only [StepOk, hs] at hok
      exact ih.gep hs hok hroom hbase hnew hid
    · rw [allocateGepObjectId_eq hs] at hid
      exact ih.count hs hok.dense hroom (.inl hid) _ _
  | value _ hok hroom hid ih => exact ih.value hok hroom hid
  | symbols _ hgeps ih => exact ih.symbols hgeps

/-- **Identifiers are distinct**, and none is one of the four special ones. -/
theorem Runs.ids_distinct (hr : Runs strategy maxFieldLimit (StepOk maxFieldLimit) h) :
    h.ids.Nodup ∧ ∀ id ∈ h.ids, 4 ≤ id :=
  ⟨hr.inv.nodup, hr.inv.least⟩

/-- One object, the end of the symbols, and the first field of the object: `1004` is base `4`
    with offset `0`. -/
def firstField : History where
  allocator := ⟨6, 4, 5, 6, .DBUG⟩
  ids := [4, 1004]
  objects := [0, 1, 4]
  geps := [(4, 0)]

theorem firstField_multiplier : gepMultiplier ⟨5, 4, 5, 5, .DBUG⟩ 512 = 1000 := by
  have hlog : Nat.clog 10 512 = 3 := by
    norm_num
  rw [gepMultiplier, if_neg (by decide), hlog]
  rfl

theorem firstField_runs {P : History → AllocCall → Prop}
    (hP : ∀ h call, StepOk 512 h call → P h call) : Runs .DBUG 512 P firstField := by
  have hobject : Runs .DBUG 512 P ⟨⟨5, 4, 4, 5, .DBUG⟩, [4], [0, 1, 4], []⟩ :=
    Runs.init.object (hP _ _ (.inl rfl)) (by decide) rfl
  have hsymbols : Runs .DBUG 512 P ⟨⟨5, 4, 5, 5, .DBUG⟩, [4], [0, 1, 4], []⟩ := hobject.symbols rfl
  have hok : StepOk 512 ⟨⟨5, 4, 5, 5, .DBUG⟩, [4], [0, 1, 4], []⟩ (.gep 4 0) := by
    show 5 ≤ gepMultiplier ⟨5, 4, 5, 5, .DBUG⟩ 512 ∧
      (0 + 1) * gepMultiplier ⟨5, 4, 5, 5, .DBUG⟩ 512 + 4 ≤ UINT_MAX
    rw [firstField_multiplier]
    decide
  have hid : allocateGepObjectId ⟨5, 4, 5, 5, .DBUG⟩ 4 0 512 =
      some (1004, ⟨6, 4, 5, 6, .DBUG⟩) := by
    simp only [allocateGepObjectId, firstField_multiplier]
    rfl
  exact hsymbols.gep (hP _ _ hok) (by decide) (by decide) (by decide) (by decide) hid

/-- The field of `firstField`. -/
theorem ids_distinct_firstField : [4, 1004].Nodup ∧ ∀ id ∈ [4, 1004], 4 ≤ id :=
  Runs.ids_distinct (firstField_runs fun _ _ hok => hok)

theorem Runs.values {P : History → AllocCall → Prop} (hP : ∀ h, P h .value)
    (hr : Runs .DBUG maxFieldLimit P h) (hs : h.allocator.strategy = .DBUG)
    (hpos : 0 < h.allocator.numNodes) (n : ℕ) (hn : h.allocator.numNodes + n ≤ UINT_MAX) : ∃ a,
    Runs .DBUG maxFieldLimit P ⟨a, h.ids ++ List.range' h.allocator.numNodes n, h.objects, h.geps⟩ ∧
    a.strategy = .DBUG ∧ a.numNodes = h.allocator.numNodes + n := by
  induction n with
  | zero => exact ⟨h.allocator, by rwa [range'_zero, append_nil], hs, rfl⟩
  | succ n ih =>
    obtain ⟨a, ha, hsa, hna⟩ := ih (by omega)
    have hroom : a.numNodes < UINT_MAX := by omega
    have hid : a.allocateValueId = some (a.numNodes,
        { a with numValues := increment a.numValues, numNodes := increment a.numNodes }) := by
      simp only [allocateValueId, hsa]
      exact if_pos (by omega)
    have hnext := ha.value (hP _) hroom hid
    rw [append_assoc, hna, ← range'_1_concat] at hnext
    exact ⟨_, hnext, hsa, (increment_eq (hna ▸ hroom)).trans (add_assoc _ _ _)⟩

/-- After the first field of object 4, the value that the counter numbers 1004 has the
    identifier of the field. -/
theorem debug_ids_clash : ¬ ∀ strategy maxFieldLimit h,
    Runs strategy maxFieldLimit (fun _ _ => True) h → h.ids.Nodup ∧ ∀ id ∈ h.ids, 4 ≤ id := by
  intro hall
  obtain ⟨a, hr, -, -⟩ := Runs.values (fun _ => trivial) (firstField_runs fun _ _ _ => trivial)
    rfl (by decide) 999 (by decide)
  have hnodup := (hall _ _ _ hr).1
  refine (nodup_append.mp hnodup).2.2 1004 ?_ 1004 ?_ rfl
  · exact mem_cons_of_mem 4 mem_cons_self
  · exact mem_range'_1.mpr ⟨by decide, by decide⟩

end SvfNodeIDAllocator
