import SvfModel.WorkListProofs

/-!
# The worklists: a set beside a list

`FIFOWorkList`, `FILOWorkList` and the linked `List` are to be lists without repetitions whose
set answers `find`. What they promise is `InStep`: about the state a run has reached, and about
all that has been pushed and taken in the run.

The first two keep it in every run, as each operation updates both sides. `List` never inserts
into its set. So `find` is always false, `push` lets in what is pending, and the promise holds
exactly where everything that has been pushed has been popped (**`inStep_iff`**). Its nodes and
their pointers are right all the same (`LinkedList.Holds`).
-/

namespace SvfWorkList

open List Option
open Function (update_of_ne update_self)

variable {D : Type}

-- ── Disciplines

structure History (D : Type) where
  pushed : List D
  taken : List D

inductive Discipline where
  | fifo
  | filo

/-- The element that is next, and the others. -/
def Discipline.take : Discipline → List D → Option (D × List D)
  | fifo, l => l.head?.map fun d => (d, l.tail)
  | filo, l => l.getLast?.map fun d => (d, l.dropLast)

/-- In a queue everything is taken in the order in which it was pushed; in a stack what has been
    pushed and not taken waits in that order. -/
def Discipline.Ordered : Discipline → History D → List D → Prop
  | fifo, h, pending => h.pushed = h.taken ++ pending
  | filo, h, pending => pending.Sublist h.pushed

theorem Discipline.perm_of_take {order : Discipline} {l rest : List D} {d : D}
    (h : order.take l = some (d, rest)) : l.Perm (d :: rest) := by
  cases order with
  | fifo =>
    cases l with
    | nil => cases h
    | cons x l =>
      cases h
      exact .refl _
  | filo =>
    obtain ⟨x, hx, hd⟩ := map_eq_some_iff.mp h
    obtain ⟨rfl, rfl⟩ := Prod.mk.inj hd
    conv_lhs => rw [← dropLast_append_getLast? x hx]
    exact perm_append_singleton _ _

theorem Discipline.Ordered.take {order : Discipline} {h : History D} {l rest : List D} {d : D}
    (ho : order.Ordered h l) (ht : order.take l = some (d, rest)) :
    order.Ordered { h with taken := h.taken ++ [d] } rest := by
  cases order with
  | fifo =>
    cases l with
    | nil => cases ht
    | cons x l =>
      obtain ⟨rfl, rfl⟩ := Prod.mk.inj (some.inj ht)
      show h.pushed = h.taken ++ [x] ++ l
      rw [append_assoc]
      exact ho
  | filo =>
    obtain ⟨x, -, hd⟩ := map_eq_some_iff.mp ht
    cases hd
    exact (dropLast_sublist l).trans ho

theorem Discipline.Ordered.push {order : Discipline} {h : History D} {l : List D}
    (ho : order.Ordered h l) (d : D) :
    order.Ordered { h with pushed := h.pushed ++ [d] } (l ++ [d]) := by
  cases order with
  | fifo =>
    show h.pushed ++ [d] = h.taken ++ (l ++ [d])
    rw [← append_assoc, ← ho]
  | filo => exact ho.append (List.Sublist.refl [d])

variable [DecidableEq D]

-- ── First in, first out

namespace FIFOWorkList

section

variable (w : FIFOWorkList D)

def front : Option D := w.dataList.head?

def removeFront : Option (FIFOWorkList D) := w.pop.map Prod.snd

theorem find_iff {d : D} : w.find d ↔ d ∈ w.dataList :=
  decide_eq_true_iff.trans (w.agree d)

end

end FIFOWorkList

-- ── First in, last out

/-- The worklist of the source: `dataList` in push order, `dataSet` its elements. -/
structure FILOWorkList (D : Type) [DecidableEq D] where
  dataSet : Finset D
  dataList : List D
  agree : ∀ d : D, d ∈ dataSet ↔ d ∈ dataList
  nodup : dataList.Nodup

namespace FILOWorkList

omit [DecidableEq D] in
theorem mem_empty_iff (d : D) : d ∈ (∅ : Finset D) ↔ d ∈ ([] : List D) := by
  simp

def empty : FILOWorkList D where
  dataSet := ∅
  dataList := []
  agree := mem_empty_iff
  nodup := nodup_nil

section

variable (w : FILOWorkList D)

def isEmpty : Bool := w.dataList.isEmpty

def find (data : D) : Bool := data ∈ w.dataSet

/-- `push(data)`: at the back, unless it is there already. -/
def push (data : D) : Bool × FILOWorkList D :=
  if h : w.find data = true then (false, w)
  else
    (true,
      { dataSet := insert data w.dataSet
        dataList := w.dataList ++ [data]
        agree := fun d => by
          rw [Finset.mem_insert, mem_append, mem_singleton, w.agree, or_comm]
        nodup := by
          have hd : data ∉ w.dataList := fun hm => h (decide_eq_true ((w.agree data).mpr hm))
          exact nodup_append.mpr ⟨w.nodup, nodup_singleton data,
            fun a ha b hb heq => hd (mem_singleton.mp hb ▸ heq ▸ ha)⟩ })

def back : Option D := w.dataList.getLast?

/-- `pop()`: the back element and the rest; `none` where the source asserts that the list is
    not empty. -/
def pop : Option (D × FILOWorkList D) :=
  match h : w.dataList.getLast? with
  | none => none
  | some d =>
    some (d,
      { dataSet := w.dataSet.erase d
        dataList := w.dataList.dropLast
        agree := fun x => by
          have hl := dropLast_append_getLast? d h
          have hn := w.nodup
          rw [← hl, nodup_append] at hn
          rw [Finset.mem_erase, w.agree]
          conv_lhs => rw [← hl, mem_append, mem_singleton]
          constructor
          · rintro ⟨hne, hx | rfl⟩
            · exact hx
            · exact absurd rfl hne
          · intro hx
            exact ⟨hn.2.2 x hx d (mem_singleton_self d), Or.inl hx⟩
        nodup := w.nodup.sublist (dropLast_sublist _) })

def removeBack : Option (FILOWorkList D) := w.pop.map Prod.snd

theorem find_iff {d : D} : w.find d ↔ d ∈ w.dataList := decide_eq_true_iff.trans (w.agree d)

end

end FILOWorkList

-- ── The linked list

structure ListNode (D : Type) where
  data : D
  next : Option ℕ

/-- The class `List`: a set, and nodes on the heap that are reached from `head`. `fresh` is the
    address that the next `new` gives. -/
structure LinkedList (D : Type) where
  nodeSet : Finset D
  heap : ℕ → Option (ListNode D)
  head : Option ℕ
  tail : Option ℕ
  fresh : ℕ

namespace LinkedList

def empty : LinkedList D := ⟨∅, fun _ => none, none, none, 0⟩

def isEmpty (w : LinkedList D) : Bool := w.head.isNone

def find (w : LinkedList D) (data : D) : Bool := data ∈ w.nodeSet

def setNext (heap : ℕ → Option (ListNode D)) (tail : Option ℕ) (next : ℕ) :
    ℕ → Option (ListNode D) :=
  match tail with
  | none => heap
  | some t => Function.update heap t ((heap t).map fun node => { node with next := some next })

def push (w : LinkedList D) (data : D) : LinkedList D :=
  if w.find data then w
  else
    let heap := Function.update w.heap w.fresh (some ⟨data, none⟩)
    { w with
      heap := if w.head = none then heap else setNext heap w.tail w.fresh
      head := if w.head = none then some w.fresh else w.head
      tail := some w.fresh
      fresh := w.fresh + 1 }

def pop (w : LinkedList D) : Option (D × LinkedList D) :=
  w.head.bind fun head_node => (w.heap head_node).map fun node =>
    (node.data,
      { w with
        nodeSet := w.nodeSet.erase node.data
        heap := Function.update w.heap head_node none
        head := node.next
        tail := if node.next = none then none else w.tail })

/-- What is reached from a node; a list has no more nodes than have been allocated. -/
def walk (heap : ℕ → Option (ListNode D)) : ℕ → Option ℕ → List D
  | fuel + 1, some p =>
    match heap p with
    | none => []
    | some node => node.data :: walk heap fuel node.next
  | _, _ => []

def pending (w : LinkedList D) : List D := walk w.heap w.fresh w.head

end LinkedList

-- ── What a worklist promises

/-- A worklist as its users see it, and the elements that are pending in the order in which they
    have been pushed. A push may not say whether it has pushed, and there may be no `front()`. -/
structure Container (D : Type) where
  State : Type
  empty : State
  push : State → D → Option Bool × State
  pop : State → Option (D × State)
  hasFront : Bool
  front : State → Option D
  remove : State → Option State
  find : State → D → Bool
  isEmpty : State → Bool
  pending : State → List D

def FIFOWorkList.container (D : Type) [DecidableEq D] : Container D where
  State := FIFOWorkList D
  empty := FIFOWorkList.empty
  push := fun w d => ((w.push d).1, (w.push d).2)
  pop := FIFOWorkList.pop
  hasFront := true
  front := FIFOWorkList.front
  remove := FIFOWorkList.removeFront
  find := FIFOWorkList.find
  isEmpty := FIFOWorkList.isEmpty
  pending := FIFOWorkList.dataList

def FILOWorkList.container (D : Type) [DecidableEq D] : Container D where
  State := FILOWorkList D
  empty := FILOWorkList.empty
  push := fun w d => ((w.push d).1, (w.push d).2)
  pop := FILOWorkList.pop
  hasFront := true
  front := FILOWorkList.back
  remove := FILOWorkList.removeBack
  find := FILOWorkList.find
  isEmpty := FILOWorkList.isEmpty
  pending := FILOWorkList.dataList

def LinkedList.container (D : Type) [DecidableEq D] : Container D where
  State := LinkedList D
  empty := LinkedList.empty
  push := fun w d => (none, w.push d)
  pop := LinkedList.pop
  hasFront := false
  front := fun _ => none
  remove := fun _ => none
  find := LinkedList.find
  isEmpty := LinkedList.isEmpty
  pending := LinkedList.pending

/-- The runs of the operations. A push that says that it has not pushed is not recorded; one that
    says nothing is. -/
inductive Runs (C : Container D) : History D → C.State → Prop
  | empty : Runs C ⟨[], []⟩ C.empty
  | push {h : History D} {s : C.State} (hr : Runs C h s) (d : D) :
      Runs C (if (C.push s d).1 = some false then h else { h with pushed := h.pushed ++ [d] })
        (C.push s d).2
  | pop {h : History D} {s s' : C.State} {d : D} (hr : Runs C h s)
      (hpop : C.pop s = some (d, s')) : Runs C { h with taken := h.taken ++ [d] } s'
  | remove {h : History D} {s s' : C.State} {d : D} (hr : Runs C h s) (hfront : C.front s = some d)
      (hremove : C.remove s = some s') : Runs C { h with taken := h.taken ++ [d] } s'

/-- In a state, the set and the list agree, and every operation says and does what it should. -/
structure Agrees (C : Container D) (order : Discipline) (s : C.State) : Prop where
  find : ∀ d, C.find s d = true ↔ d ∈ C.pending s
  nodup : (C.pending s).Nodup
  isEmpty : C.isEmpty s = true ↔ C.pending s = []
  said : ∀ d b, (C.push s d).1 = some b → (b = true ↔ d ∉ C.pending s)
  push : ∀ d, C.pending (C.push s d).2 =
    if d ∈ C.pending s then C.pending s else C.pending s ++ [d]
  pop : (C.pop s).map (fun r => (r.1, C.pending r.2)) = order.take (C.pending s)
  front : C.hasFront = true → C.front s = (order.take (C.pending s)).map Prod.fst
  remove : C.hasFront = true → (C.remove s).map C.pending = (order.take (C.pending s)).map Prod.snd

/-- The set and the list are in step: in the state that has been reached, and as to all that has
    been pushed, which is taken once or pending. -/
structure InStep (C : Container D) (order : Discipline) (h : History D) (s : C.State) : Prop where
  agrees : Agrees C order s
  once : h.pushed.Perm (h.taken ++ C.pending s)
  ordered : order.Ordered h (C.pending s)

-- ── The worklists that update both sides

section Runs

variable {C : Container D} {order : Discipline} {h : History D} {s s' : C.State}

theorem InStep.taken (hs : InStep C order h s) {d : D}
    (ht : order.take (C.pending s) = some (d, C.pending s')) :
    h.pushed.Perm (h.taken ++ [d] ++ C.pending s') ∧
      order.Ordered { h with taken := h.taken ++ [d] } (C.pending s') := by
  refine ⟨hs.once.trans ?_, hs.ordered.take ht⟩
  rw [append_assoc]
  exact (Discipline.perm_of_take ht).append_left h.taken

/-- **A container that agrees in every state** keeps its promise in every run. -/
theorem inStep_of_agrees (hagrees : ∀ s : C.State, Agrees C order s)
    (hanswer : ∀ (s : C.State) (d : D), (C.push s d).1 ≠ none) (hempty : C.pending C.empty = [])
    (hfront : C.hasFront) (hr : Runs C h s) : InStep C order h s := by
  induction hr with
  | empty =>
    refine ⟨hagrees _, ?_, ?_⟩
    · rw [hempty]
      exact .refl _
    · rw [hempty]
      cases order with
      | fifo => rfl
      | filo => exact List.Sublist.refl []
  | @push h s hr d ih =>
    have hpush := (hagrees s).push d
    obtain ⟨b, hb⟩ := ne_none_iff_exists'.mp (hanswer s d)
    have hsaid := (hagrees s).said d b hb
    refine ⟨hagrees _, ?_, ?_⟩
    all_goals
      rw [hpush, hb]
      by_cases hd : d ∈ C.pending s
    · obtain rfl : b = false := Bool.eq_false_iff.mpr fun h => hsaid.mp h hd
      rw [if_pos rfl, if_pos hd]
      exact ih.once
    · obtain rfl : b := hsaid.mpr hd
      rw [if_neg (by decide), if_neg hd, ← append_assoc]
      exact ih.once.append_right [d]
    · obtain rfl : b = false := Bool.eq_false_iff.mpr fun h => hsaid.mp h hd
      rw [if_pos rfl, if_pos hd]
      exact ih.ordered
    · obtain rfl : b := hsaid.mpr hd
      rw [if_neg (by decide), if_neg hd]
      exact ih.ordered.push d
  | @pop h s s' d hr hpop ih =>
    have ht := (hagrees s).pop
    rw [hpop, map_some] at ht
    obtain ⟨honce, hord⟩ := ih.taken ht.symm
    exact ⟨hagrees _, honce, hord⟩
  | @remove h s s' d hr hd hremove ih =>
    have hfst := (hagrees s).front hfront
    have hsnd := (hagrees s).remove hfront
    rw [hd] at hfst
    rw [hremove, map_some] at hsnd
    obtain ⟨⟨x, rest⟩, ht, rfl⟩ := map_eq_some_iff.mp hfst.symm
    rw [ht, map_some] at hsnd
    cases hsnd
    obtain ⟨honce, hord⟩ := ih.taken ht
    exact ⟨hagrees _, honce, hord⟩

end Runs

theorem fst_dite {W : Type} (p : Prop) [Decidable p] (w : W) (f : ¬ p → W) :
    (if h : p then (false, w) else (true, f h)).1 ↔ ¬ p := by
  split <;> simp [*]

theorem FIFOWorkList.agrees (w : FIFOWorkList D) : Agrees (FIFOWorkList.container D) .fifo w where
  find d := w.find_iff
  nodup := w.nodup
  isEmpty := isEmpty_iff
  said d b hb := by
    cases hb
    exact (fst_dite _ _ _).trans (not_congr w.find_iff)
  push d := by
    show (w.push d).2.dataList = if d ∈ w.dataList then w.dataList else w.dataList ++ [d]
    by_cases hd : d ∈ w.dataList
    · rw [if_pos hd, FIFOWorkList.push, dif_pos (w.find_iff.mpr hd)]
    · rw [if_neg hd, FIFOWorkList.dataList_push hd]
  pop := by
    show w.pop.map (fun r => (r.1, r.2.dataList)) = _
    obtain ⟨s, l, hag, hnd⟩ := w
    cases l <;> rfl
  front _ := by
    show w.dataList.head? = (w.dataList.head?.map _).map Prod.fst
    cases w.dataList.head? <;> rfl
  remove _ := by
    show (w.pop.map Prod.snd).map FIFOWorkList.dataList = _
    obtain ⟨s, l, hag, hnd⟩ := w
    cases l <;> rfl

theorem FILOWorkList.pop_eq (w : FILOWorkList D) : w.pop.map (fun r => (r.1, r.2.dataList)) =
      w.dataList.getLast?.map fun d => (d, w.dataList.dropLast) := by
  rw [FILOWorkList.pop]
  split
  case h_1 h => rw [h, map_none, map_none]
  case h_2 d h =>
    rw [map_some]
    simp only [h, map_some]

theorem FILOWorkList.agrees (w : FILOWorkList D) : Agrees (FILOWorkList.container D) .filo w where
  find d := w.find_iff
  nodup := w.nodup
  isEmpty := List.isEmpty_iff
  said d b hb := by
    cases hb
    exact (fst_dite _ _ _).trans (not_congr w.find_iff)
  push d := by
    show (w.push d).2.dataList = if d ∈ w.dataList then w.dataList else w.dataList ++ [d]
    rw [FILOWorkList.push]
    by_cases hd : d ∈ w.dataList
    · rw [if_pos hd, dif_pos (w.find_iff.mpr hd)]
    · rw [if_neg hd, dif_neg (mt w.find_iff.mp hd)]
  pop := FILOWorkList.pop_eq w
  front _ := by
    show w.dataList.getLast? = (w.dataList.getLast?.map _).map Prod.fst
    cases w.dataList.getLast? <;> rfl
  remove _ := by
    have hpop := congrArg (Option.map Prod.snd) (FILOWorkList.pop_eq w)
    rw [Option.map_map] at hpop
    show (w.pop.map Prod.snd).map FILOWorkList.dataList = _
    rw [Option.map_map]
    exact hpop

-- ── The linked list

namespace LinkedList

/-- Every node points to the one after it. -/
def Linked (heap : ℕ → Option (ListNode D)) : List (ℕ × D) → Prop
  | [] => True
  | c :: cells => heap c.1 = some ⟨c.2, cells.head?.map Prod.fst⟩ ∧ Linked heap cells

/-- The nodes of the list with their addresses. Nothing is ever in the set. -/
structure Holds (w : LinkedList D) (cells : List (ℕ × D)) : Prop where
  head : w.head = cells.head?.map Prod.fst
  tail : w.tail = cells.getLast?.map Prod.fst
  linked : Linked w.heap cells
  fresh : ∀ c ∈ cells, c.1 < w.fresh
  nodup : (cells.map Prod.fst).Nodup
  set : w.nodeSet = ∅

section

omit [DecidableEq D]

theorem Linked.congr {heap heap' : ℕ → Option (ListNode D)} {cells : List (ℕ × D)}
    (h : Linked heap cells) (hsame : ∀ c ∈ cells, heap' c.1 = heap c.1) : Linked heap' cells := by
  induction cells with
  | nil => trivial
  | cons c cells ih =>
    exact ⟨(hsame c mem_cons_self).trans h.1, ih h.2 (forall_mem_cons.mp hsame).2⟩

theorem Linked.last {heap : ℕ → Option (ListNode D)} {front : List (ℕ × D)} {last : ℕ × D}
    (h : Linked heap (front ++ [last])) : heap last.1 = some ⟨last.2, none⟩ := by
  induction front with
  | nil => exact h.1
  | cons c front ih => exact ih h.2

theorem Linked.concat {heap heap' : ℕ → Option (ListNode D)} {front : List (ℕ × D)}
    {last : ℕ × D} {d : ℕ × D} (h : Linked heap (front ++ [last]))
    (hfront : ∀ c ∈ front, heap' c.1 = heap c.1) (hlast : heap' last.1 = some ⟨last.2, some d.1⟩)
    (hd : heap' d.1 = some ⟨d.2, none⟩) : Linked heap' (front ++ [last] ++ [d]) := by
  induction front with
  | nil => exact ⟨hlast, hd, trivial⟩
  | cons c front ih =>
    have hnext : (front ++ [last] ++ [d]).head? = (front ++ [last]).head? := by
      cases front <;> rfl
    refine ⟨?_, ih h.2 (forall_mem_cons.mp hfront).2⟩
    show heap' c.1 = some ⟨c.2, (front ++ [last] ++ [d]).head?.map Prod.fst⟩
    rw [hnext]
    exact (hfront c mem_cons_self).trans h.1

theorem walk_eq {heap : ℕ → Option (ListNode D)} {cells : List (ℕ × D)} (h : Linked heap cells) :
    ∀ {fuel : ℕ}, cells.length ≤ fuel →
      walk heap fuel (cells.head?.map Prod.fst) = cells.map Prod.snd := by
  induction cells with
  | nil =>
    intro fuel _
    cases fuel <;> rfl
  | cons c cells ih =>
    intro fuel hfuel
    obtain ⟨fuel, rfl⟩ : ∃ k, fuel = k + 1 := ⟨fuel - 1, by rw [length_cons] at hfuel; omega⟩
    rw [head?_cons, map_some, walk, h.1]
    show c.2 :: walk heap fuel (cells.head?.map Prod.fst) = c.2 :: cells.map Prod.snd
    rw [ih h.2 (Nat.le_of_succ_le_succ hfuel)]

end

variable {w : LinkedList D} {cells : List (ℕ × D)}

omit [DecidableEq D] in
theorem Holds.pending (h : Holds w cells) : w.pending = cells.map Prod.snd := by
  have hsub : (cells.map Prod.fst).toFinset ⊆ Finset.range w.fresh := by
    intro a ha
    obtain ⟨c, hc, rfl⟩ := mem_map.mp (mem_toFinset.mp ha)
    exact Finset.mem_range.mpr (h.fresh c hc)
  have hlen := Finset.card_le_card hsub
  rw [toFinset_card_of_nodup h.nodup, length_map, Finset.card_range] at hlen
  rw [LinkedList.pending, h.head, walk_eq h.linked hlen]

theorem Holds.find (h : Holds w cells) (d : D) : w.find d = false := by
  rw [LinkedList.find, h.set]
  rfl

/-- **Step lemma**: a push appends a node, whether its element is pending or not. -/
theorem Holds.push (h : Holds w cells) (d : D) : Holds (w.push d) (cells ++ [(w.fresh, d)]) := by
  rw [LinkedList.push, h.find d, if_neg Bool.false_ne_true]
  have hfresh : ∀ c ∈ cells, c.1 ≠ w.fresh := fun c hc => (h.fresh c hc).ne
  constructor
  case head =>
    show (if w.head = none then some w.fresh else w.head) = _
    rw [h.head]
    cases cells <;> rfl
  case tail =>
    show some w.fresh = ((cells ++ [(w.fresh, d)]).getLast?).map Prod.fst
    rw [getLast?_append_of_ne_nil _ (cons_ne_nil _ _)]
    rfl
  case linked =>
    show Linked (if w.head = none then _ else _) _
    cases hcells : cells.reverse with
    | nil =>
      obtain rfl := reverse_eq_nil_iff.mp hcells
      have hhead : w.head = none := h.head
      rw [if_pos hhead]
      exact ⟨update_self .., trivial⟩
    | cons last front =>
      have hsplit : cells = front.reverse ++ [last] := by
        rw [← reverse_reverse cells, hcells, reverse_cons]
      have htail : w.tail = some last.1 := by
        rw [h.tail, hsplit, getLast?_concat]
        rfl
      have hhead : w.head ≠ none := by
        rw [h.head, hsplit]
        cases front.reverse <;> exact some_ne_none _
      have hmem : last ∈ cells := by
        rw [hsplit]
        exact mem_append_right _ (mem_singleton_self last)
      have hother : ∀ c ∈ front.reverse, c.1 ≠ last.1 := by
        have hnd := h.nodup
        rw [hsplit, map_append, nodup_append] at hnd
        exact fun c hc => hnd.2.2 c.1 (mem_map_of_mem hc) last.1 (mem_singleton_self _)
      have hold := h.linked
      rw [hsplit] at hold
      rw [if_neg hhead, htail, hsplit]
      refine hold.concat ?_ ?_ ?_
      · intro c hc
        have hcell : c ∈ cells := hsplit ▸ mem_append_left _ hc
        rw [setNext, update_of_ne (hother c hc), update_of_ne (hfresh c hcell)]
      · rw [setNext, update_self, update_of_ne (hfresh last hmem), hold.last]
        rfl
      · rw [setNext, update_of_ne (hfresh last hmem).symm]
        exact update_self ..
  case fresh =>
    intro c hc
    rcases mem_append.mp hc with hc | hc
    · exact (h.fresh c hc).trans (Nat.lt_succ_self _)
    · rw [mem_singleton.mp hc]
      exact Nat.lt_succ_self _
  case nodup =>
    rw [map_append, nodup_append]
    refine ⟨h.nodup, nodup_singleton _, fun a ha b hb => ?_⟩
    obtain ⟨c, hc, rfl⟩ := mem_map.mp ha
    rw [mem_singleton.mp hb]
    exact hfresh c hc
  case set => exact h.set

/-- **Step lemma**: a pop takes the first node, if there is one. -/
theorem Holds.pop {c : ℕ × D} (h : Holds w (c :: cells)) :
    ∃ w', w.pop = some (c.2, w') ∧ Holds w' cells := by
  have hhead : w.head = some c.1 := h.head
  have hnode := h.linked.1
  have hnd := nodup_cons.mp h.nodup
  refine ⟨_, by rw [LinkedList.pop, hhead, bind_some, hnode, map_some], ?_⟩
  constructor
  case head => rfl
  case tail =>
    show (if cells.head?.map Prod.fst = none then none else w.tail) = _
    rw [h.tail]
    cases cells <;> rfl
  case linked =>
    refine h.linked.2.congr fun d hd => update_of_ne ?_ _ _
    exact fun heq => hnd.1 (heq ▸ mem_map_of_mem hd)
  case fresh => exact (forall_mem_cons.mp h.fresh).2
  case nodup => exact hnd.2
  case set =>
    show w.nodeSet.erase c.2 = ∅
    rw [h.set]
    rfl

theorem Holds.pop_nil (h : Holds w []) : w.pop = none := by
  have hhead : w.head = none := h.head
  rw [LinkedList.pop, hhead, bind_none]

/-- **Run lemma**: the list has what has been pushed and not been popped, in this order. -/
theorem holds_of_runs {h : History D} {s : (container D).State} (hr : Runs (container D) h s) :
    ∃ cells, Holds (D := D) s cells ∧ h.pushed = h.taken ++ cells.map Prod.snd := by
  induction hr with
  | empty =>
    refine ⟨[], ?_, rfl⟩
    exact ⟨rfl, rfl, trivial, nofun, nodup_nil, rfl⟩
  | @push h s hr d ih =>
    obtain ⟨cells, hs, hall⟩ := ih
    refine ⟨_, hs.push d, ?_⟩
    have hanswer : ((container D).push s d).1 ≠ some false := nofun
    rw [if_neg hanswer, map_append, ← append_assoc, ← hall]
    rfl
  | @pop h s s' d hr hpop ih =>
    obtain ⟨cells, hs, hall⟩ := ih
    cases cells with
    | nil => cases hs.pop_nil.symm.trans hpop
    | cons c cells =>
      obtain ⟨w', hw', hcells⟩ := hs.pop
      cases hw'.symm.trans hpop
      refine ⟨cells, hcells, ?_⟩
      show h.pushed = h.taken ++ [c.2] ++ cells.map Prod.snd
      rw [hall, append_assoc]
      rfl
  | remove hr hfront hremove ih => cases hfront

/-- **The list is in step** exactly where everything that has been pushed has been popped. -/
theorem inStep_iff {h : History D} {s : LinkedList D} (hr : Runs (container D) h s) :
    InStep (container D) .fifo h s ↔ h.pushed = h.taken := by
  obtain ⟨cells, hs, hall⟩ := holds_of_runs hr
  constructor
  · intro hin
    cases cells with
    | nil => rw [hall, map_nil, append_nil]
    | cons c cells =>
      -- the first element is pending, and `find` does not find it
      have hmem : c.2 ∈ s.pending := by
        rw [hs.pending]
        exact mem_cons_self
      cases (hs.find c.2).symm.trans ((hin.agrees.find c.2).mpr hmem)
  · intro heq
    have hnil : cells = [] := by
      rw [heq, self_eq_append_right, map_eq_nil_iff] at hall
      exact hall
    subst hnil
    have hpending : s.pending = [] := hs.pending
    constructor
    case agrees =>
      constructor
      case find =>
        intro d
        show s.find d ↔ d ∈ s.pending
        rw [hs.find d, hpending]
        exact iff_of_false Bool.false_ne_true not_mem_nil
      case nodup =>
        show s.pending.Nodup
        rw [hpending]
        exact nodup_nil
      case isEmpty =>
        have hhead : s.head = none := hs.head
        refine iff_of_true ?_ hpending
        show s.head.isNone
        rw [hhead]
        rfl
      case said => exact fun d b hb => nomatch hb
      case push =>
        intro d
        show (s.push d).pending = if d ∈ s.pending then s.pending else s.pending ++ [d]
        rw [(hs.push d).pending, hpending, if_neg not_mem_nil]
        rfl
      case pop =>
        show s.pop.map _ = Discipline.fifo.take s.pending
        rw [hs.pop_nil, hpending]
        rfl
      case front => exact nofun
      case remove => exact nofun
    case once =>
      show h.pushed.Perm (h.taken ++ s.pending)
      rw [hpending, heq, append_nil]
    case ordered =>
      show h.pushed = h.taken ++ s.pending
      rw [hpending, heq, append_nil]

end LinkedList

-- ── All three

/-- **The worklists.** `FIFOWorkList` and `FILOWorkList` are in step in every run; `List` is where
    everything that has been pushed has been popped, and nowhere else. -/
theorem worklists_inStep_iff :
    (∀ h s, Runs (FIFOWorkList.container D) h s → InStep (FIFOWorkList.container D) .fifo h s) ∧
    (∀ h s, Runs (FILOWorkList.container D) h s → InStep (FILOWorkList.container D) .filo h s) ∧
    ∀ h s, Runs (LinkedList.container D) h s →
      (InStep (LinkedList.container D) .fifo h s ↔ h.pushed = h.taken) := by
  refine ⟨fun h s hr => ?_, fun h s hr => ?_, fun h s hr => LinkedList.inStep_iff hr⟩
  · exact inStep_of_agrees FIFOWorkList.agrees (fun _ _ => some_ne_none _) rfl rfl hr
  · exact inStep_of_agrees FILOWorkList.agrees (fun _ _ => some_ne_none _) rfl rfl hr

/-- A number is pushed twice: it is pending twice, and is not found. -/
theorem linkedList_not_inStep : let w := ((LinkedList.empty : LinkedList ℕ).push 7).push 7
    Runs (LinkedList.container ℕ) ⟨[7, 7], []⟩ w ∧ w.find 7 = false ∧ w.pending = [7, 7] ∧
      ¬ InStep (LinkedList.container ℕ) .fifo ⟨[7, 7], []⟩ w := by
  have hr : Runs (LinkedList.container ℕ) ⟨[7, 7], []⟩
      (((LinkedList.empty : LinkedList ℕ).push 7).push 7) := (Runs.empty.push 7).push 7
  refine ⟨hr, by decide, by decide, fun h => ?_⟩
  exact absurd (h.agrees.find 7) (by decide)

end SvfWorkList
