import Mathlib

/-!
# The first-in-first-out worklist

A queue without repetitions: a deque for the order and, beside it, a set that answers
`find`. The queue carries the agreement of the two, so a worklist whose set has lost or
kept an element of the list cannot be built.
-/

namespace SvfWorkList

open List

variable {D : Type} [DecidableEq D]

structure FIFOWorkList (D : Type) [DecidableEq D] where
  dataSet : Finset D
  dataList : List D
  agree : ∀ d : D, d ∈ dataSet ↔ d ∈ dataList
  nodup : dataList.Nodup

namespace FIFOWorkList

/-- The worklist a constructor makes. -/
def empty : FIFOWorkList D where
  dataSet := ∅
  dataList := []
  agree := fun d => by simp
  nodup := nodup_nil

def isEmpty (w : FIFOWorkList D) : Bool := w.dataList.isEmpty

section

variable (w : FIFOWorkList D)

def find (data : D) : Bool := data ∈ w.dataSet

/-- `push(data)`: at the back, unless it is there already. -/
def push (data : D) : Bool × FIFOWorkList D :=
  if h : w.find data = true then (false, w)
  else
    (true,
      { dataSet := insert data w.dataSet
        dataList := w.dataList ++ [data]
        agree := fun d => by
          rw [Finset.mem_insert, mem_append, mem_singleton, w.agree, or_comm]
        nodup := by
          have hd : data ∉ w.dataList := fun hm => h (decide_eq_true ((w.agree data).mpr hm))
          refine nodup_append.mpr ⟨w.nodup, nodup_singleton data, ?_⟩
          intro a ha b hb heq
          rw [mem_singleton] at hb
          exact hd (hb ▸ heq ▸ ha) })

/-- `pop()`: the front element and the rest; `none` where the source asserts that the list
    is not empty. -/
def pop : Option (D × FIFOWorkList D) :=
  match h : w.dataList with
  | [] => none
  | d :: rest =>
    some (d,
      { dataSet := w.dataSet.erase d
        dataList := rest
        agree := fun x => by
          have hn := w.nodup
          rw [h] at hn
          rw [Finset.mem_erase, w.agree, h, mem_cons]
          constructor
          · rintro ⟨hne, rfl | hx⟩
            · exact absurd rfl hne
            · exact hx
          · intro hx
            exact ⟨fun he => (nodup_cons.mp hn).1 (he ▸ hx), Or.inr hx⟩
        nodup := by
          have hn := w.nodup
          rw [h] at hn
          exact (nodup_cons.mp hn).2 })

def den : Set D := {d | d ∈ w.dataList}

end

@[simp] theorem den_empty : (empty : FIFOWorkList D).den = ∅ := by
  ext d
  simp [den, empty]

@[simp] theorem den_push (w : FIFOWorkList D) (data : D) :
    (w.push data).2.den = insert data w.den := by
  rw [push]
  by_cases h : w.find data
  · rw [dif_pos h]
    have hmem : data ∈ w.den := (w.agree data).mp (of_decide_eq_true h)
    exact (Set.insert_eq_of_mem hmem).symm
  · rw [dif_neg h]
    ext d
    show d ∈ w.dataList ++ [data] ↔ d ∈ insert data w.den
    rw [mem_append, mem_singleton, Set.mem_insert_iff, or_comm]
    exact .rfl

theorem den_singleton (data : D) : (empty.push data).2.den = {data} := by
  rw [den_push, den_empty]
  exact insert_empty_eq data

theorem pop_spec {w : FIFOWorkList D} (h : w.isEmpty = false) :
    ∃ d w', w.pop = some (d, w') ∧ d ∈ w.den ∧ w'.den = w.den \ {d} := by
  obtain ⟨s, l, hag, hnd⟩ := w
  cases l with
  | nil => cases h
  | cons d rest =>
    refine ⟨d, _, rfl, mem_cons_self, ?_⟩
    ext x
    show x ∈ rest ↔ x ∈ d :: rest ∧ x ∉ ({d} : Set D)
    rw [Set.mem_singleton_iff, mem_cons]
    constructor
    · intro hx
      exact ⟨.inr hx, fun he => (nodup_cons.mp hnd).1 (he ▸ hx)⟩
    · rintro ⟨rfl | hx, hne⟩
      · exact absurd rfl hne
      · exact hx

theorem pop_some {w w' : FIFOWorkList D} {d : D} (h : w.pop = some (d, w')) :
    d ∈ w.den ∧ w'.den = w.den \ {d} := by
  have hne : w.isEmpty = false := by
    obtain ⟨s, l, hag, hnd⟩ := w
    cases l with
    | nil => cases h
    | cons d rest => rfl
  obtain ⟨x, v, hpop, hmem, hden⟩ := pop_spec hne
  cases hpop.symm.trans h
  exact ⟨hmem, hden⟩

theorem pop_cons {w : FIFOWorkList D} {d : D} {rest : List D} (h : w.dataList = d :: rest) :
    ∃ w', w.pop = some (d, w') ∧ w'.dataList = rest := by
  obtain ⟨s, l, hag, hnd⟩ := w
  cases h
  exact ⟨_, rfl, rfl⟩

theorem dataList_pop {w w' : FIFOWorkList D} {d : D} (h : w.pop = some (d, w')) :
    w.dataList = d :: w'.dataList := by
  cases hl : w.dataList with
  | nil =>
    obtain ⟨hmem, -⟩ := pop_some h
    rw [den, Set.mem_ofPred_eq, hl] at hmem
    cases hmem
  | cons x rest =>
    obtain ⟨v, hv, hrest⟩ := pop_cons hl
    cases hv.symm.trans h
    rw [hrest]

theorem dataList_push {w : FIFOWorkList D} {data : D} (h : data ∉ w.dataList) :
    (w.push data).2.dataList = w.dataList ++ [data] := by
  have hfind : ¬ w.find data := fun hf => h ((w.agree data).mp (of_decide_eq_true hf))
  rw [push, dif_neg hfind]

theorem dataList_pushAll (l : List D) : ∀ w : FIFOWorkList D, (w.dataList ++ l).Nodup →
    (l.foldl (fun w d => (w.push d).2) w).dataList = w.dataList ++ l := by
  induction l with
  | nil => exact fun w _ => (append_nil _).symm
  | cons d l ih =>
    intro w hnd
    have hd : d ∉ w.dataList := fun hm => (nodup_append.mp hnd).2.2 d hm d mem_cons_self rfl
    have hpush := dataList_push hd
    rw [foldl_cons, ih _ (by rw [hpush, append_assoc]; exact hnd), hpush, append_assoc]
    rfl

theorem den_pushAll (l : List D) : ∀ w : FIFOWorkList D,
    (l.foldl (fun w d => (w.push d).2) w).den = w.den ∪ {d | d ∈ l} := by
  induction l with
  | nil =>
    intro w
    ext d
    simp
  | cons d l ih =>
    intro w
    rw [foldl_cons, ih, den_push]
    ext x
    simp only [Set.mem_union, Set.mem_insert_iff, Set.mem_ofPred_eq, mem_cons]
    tauto

def pushNew (s : FIFOWorkList D × Finset D) (data : D) : FIFOWorkList D × Finset D :=
  if data ∈ s.2 then s else ((s.1.push data).2, insert data s.2)

theorem pushNew_spec (s : FIFOWorkList D × Finset D) (data : D) :
    (∀ d, d ∈ (pushNew s data).2 ↔ d ∈ s.2 ∨ d = data) ∧
    (pushNew s data).1.den = s.1.den ∪ {d | d = data ∧ d ∉ s.2} := by
  rw [pushNew]
  by_cases h : data ∈ s.2
  · rw [if_pos h]
    constructor
    · intro d
      exact ⟨.inl, fun hd => hd.elim id (fun he => he ▸ h)⟩
    · ext d
      constructor
      · exact .inl
      · rintro (hd | ⟨rfl, hn⟩)
        · exact hd
        · exact absurd h hn
  · rw [if_neg h]
    constructor
    · intro d
      rw [Finset.mem_insert, or_comm]
    · show (s.1.push data).2.den = _
      rw [den_push]
      ext d
      constructor
      · rintro (rfl | hd)
        · exact .inr ⟨rfl, h⟩
        · exact .inl hd
      · rintro (hd | ⟨rfl, -⟩)
        · exact .inr hd
        · exact .inl rfl

theorem pushNew_foldl (l : List D) : ∀ s : FIFOWorkList D × Finset D,
    (∀ d, d ∈ (l.foldl pushNew s).2 ↔ d ∈ s.2 ∨ d ∈ l) ∧
    (l.foldl pushNew s).1.den = s.1.den ∪ {d | d ∈ l ∧ d ∉ s.2} := by
  induction l with
  | nil =>
    intro s
    constructor
    · intro d
      simp
    · ext d
      simp
  | cons data l ih =>
    intro s
    obtain ⟨hvis, hden⟩ := pushNew_spec s data
    obtain ⟨hvis', hden'⟩ := ih (pushNew s data)
    rw [foldl_cons]
    constructor
    · intro d
      rw [hvis', hvis, mem_cons, or_assoc]
    · rw [hden', hden]
      ext d
      simp only [Set.mem_union, Set.mem_ofPred_eq, hvis, mem_cons]
      tauto

theorem length_push_le (w : FIFOWorkList D) (data : D) :
    (w.push data).2.dataList.length ≤ w.dataList.length + 1 := by
  by_cases h : data ∈ w.dataList
  · have hfind : w.find data := decide_eq_true ((w.agree data).mpr h)
    have hpush : (w.push data).2 = w := by rw [push, dif_pos hfind]
    rw [hpush]
    exact Nat.le_succ _
  · rw [dataList_push h, length_append]
    exact le_rfl

theorem pushNew_foldl_card (all : Finset D) (l : List D) : ∀ s : FIFOWorkList D × Finset D,
    (∀ d ∈ l, d ∈ all) →
    (all \ (l.foldl pushNew s).2).card + (l.foldl pushNew s).1.dataList.length ≤
      (all \ s.2).card + s.1.dataList.length := by
  induction l with
  | nil => exact fun s _ => le_rfl
  | cons data l ih =>
    intro s hall
    rw [foldl_cons]
    refine (ih (pushNew s data) fun d hd => hall d (mem_cons_of_mem _ hd)).trans ?_
    rw [pushNew]
    split
    case isTrue => exact le_rfl
    case isFalse hnew =>
      have hmem : data ∈ all \ s.2 := Finset.mem_sdiff.mpr ⟨hall data mem_cons_self, hnew⟩
      have hcard := Finset.card_erase_add_one hmem
      have hpush := length_push_le s.1 data
      show (all \ insert data s.2).card + (s.1.push data).2.dataList.length ≤ _
      rw [Finset.sdiff_insert]
      omega

theorem den_of_isEmpty {w : FIFOWorkList D} (h : w.isEmpty) : w.den = ∅ := by
  have hl : w.dataList = [] := isEmpty_iff.mp h
  ext d
  show d ∈ w.dataList ↔ d ∈ (∅ : Set D)
  rw [hl]
  simp

end FIFOWorkList

end SvfWorkList
