import SvfModel.HierarchicalOrderProofs
import SvfModel.LoopProofs
import SvfModel.SccProofs

/-!
# `WTO`: a weak topological order by one recursive search

Bourdoncle's algorithm. A visit numbers its node, follows the edges and returns the smallest
number that it has met on the stack. If that is the node's own, the node is finished. If an
edge came back to it, the nodes above it on the stack get the number 0 again, and
`component` visits them a second time, without the head, to order the inside of the cycle.

What a visit does is `VisitSpec`: `xs` is what it leaves on the stack and `q` what it adds to
the partition. A node returns to the stack of its caller only with an edge to a node further
down, so a second visit, whose nodes have no such edge, leaves nothing.
-/

namespace SvfWTO

open SvfHierarchicalOrder SvfScc List Option Nat
open Relation (ReflTransGen)
open WithTop (coe_ne_top top_ne_zero zero_ne_top)

/-- A finite directed graph: the nodes, and the targets of a node's out edges in order. -/
structure Graph (N : Type) where
  nodes : List N
  nodes_all : ∀ n : N, n ∈ nodes
  successors : N → List N

/-- A number of the search: 0 for a node that is not visited, `⊤` (`UINT_MAX`) for a finished
    one. -/
abbrev CycleDepthNumber := WithTop Nat

/-- The state of the search. -/
structure WTO (N : Type) where
  getCDN : N → CycleDepthNumber
  num : Nat
  stack : List N

variable {N : Type}

namespace WTO

section Search

variable [DecidableEq N]

def setCDN (s : WTO N) (n : N) (dfn : CycleDepthNumber) : WTO N :=
  { s with getCDN := Function.update s.getCDN n dfn }

/-- The first lines of `visit`: the node is pushed and numbered. -/
def enter (s : WTO N) (node : N) : WTO N :=
  let s := { s with stack := node :: s.stack }
  let s := { s with num := s.num + 1 }
  s.setCDN node s.num

def popTo (node : N) : WTO N → List N → WTO N
  | s, [] => { s with stack := [] }
  | s, element :: stack =>
    if element = node then { s with stack := stack }
    else popTo node (s.setCDN element 0) stack

/-- The local variables of `visit`. -/
structure Visit (N : Type) where
  state : WTO N
  head : CycleDepthNumber
  loop : Bool
  partition : List (WTOComponent N)

structure Result (N : Type) where
  state : WTO N
  head : CycleDepthNumber
  partition : List (WTOComponent N)

def Visit.lower (r : Visit N) (min : CycleDepthNumber) : Visit N :=
  if min ≤ r.head then { r with head := min, loop := true } else r

/-- One iteration of `visit`'s loop. -/
def Visit.follow (visit : WTO N → N → List (WTOComponent N) → Option (Result N)) (r : Visit N)
    (succ : N) : Option (Visit N) :=
  if r.state.getCDN succ = 0 then
    (visit r.state succ r.partition).map fun t =>
      Visit.lower { r with state := t.state, partition := t.partition } t.head
  else some (r.lower (r.state.getCDN succ))

def component (graph : Graph N) (visit : WTO N → N → List (WTOComponent N) → Option (Result N))
    (s : WTO N) (node : N) : Option (WTO N × WTOComponent N) :=
  ((graph.successors node).foldlM
    (fun (r : WTO N × List (WTOComponent N)) succ =>
      if r.1.getCDN succ = 0 then
        (visit r.1 succ r.2).map fun t => (t.state, t.partition)
      else some r)
    (s, [])).map fun r => (r.1, .cycle node r.2)

def Visit.finish (graph : Graph N)
    (visit : WTO N → N → List (WTOComponent N) → Option (Result N)) (r : Visit N) (node : N) :
    Option (Result N) :=
  if r.head = r.state.getCDN node then
    let s := r.state.setCDN node ⊤
    if r.loop then
      (component graph visit (popTo node s s.stack) node).map fun c =>
        ⟨c.1, r.head, c.2 :: r.partition⟩
    else some ⟨{ s with stack := s.stack.tail }, r.head, .node node :: r.partition⟩
  else some ⟨r.state, r.head, r.partition⟩

def visit (graph : Graph N) : Nat → WTO N → N → List (WTOComponent N) → Option (Result N)
  | 0, _, _, _ => none
  | fuel + 1, s, node, partition =>
    ((graph.successors node).foldlM (Visit.follow (visit graph fuel))
      ⟨s.enter node, (s.enter node).num, false, partition⟩).bind
      fun r => r.finish graph (visit graph fuel) node

/-- A `WTO` object as its constructor makes it. -/
def new : WTO N := ⟨fun _ => 0, 0, []⟩

/-- `init()`: the components of the order. The last number given is returned beside them. -/
def init (graph : Graph N) (entry : N) (fuel : Nat) : Option (List (WTOComponent N) × Nat) :=
  (visit graph fuel new entry []).map fun t => (t.partition, t.state.num)

end Search

-- ── what a visit does

variable {graph : Graph N}

def Edge (graph : Graph N) (a b : N) : Prop := b ∈ graph.successors a

/-- A path whose nodes after the first are not visited in `s`. -/
def White (graph : Graph N) (s : WTO N) : N → N → Prop :=
  ReflTransGen fun a b => Edge graph a b ∧ s.getCDN b = 0

/-- Numbers, once given, are kept. -/
def Keep (s t : WTO N) : Prop := ∀ u, s.getCDN u ≠ 0 → t.getCDN u = s.getCDN u

theorem Keep.trans {s t r : WTO N} (h : Keep s t) (h' : Keep t r) : Keep s r := by
  intro u hu
  rw [h' u (by rw [h u hu]; exact hu), h u hu]

theorem Keep.ne_zero {s t : WTO N} (h : Keep s t) {u : N} (hu : s.getCDN u ≠ 0) :
    t.getCDN u ≠ 0 := by
  rw [h u hu]
  exact hu

theorem Keep.was_zero {s t : WTO N} (h : Keep s t) {u : N} (hu : t.getCDN u = 0) :
    s.getCDN u = 0 := by
  by_contra hs
  exact h.ne_zero hs hu

/-- The components `q` are what is finished from `s` to `t`, and every edge from them leads to
    a finished node and is placed, if it leads to one of them. -/
structure Added (graph : Graph N) (s t : WTO N) (q : List (WTOComponent N)) : Prop where
  nodup : (orderAll q).Nodup
  mem : ∀ u, u ∈ orderAll q ↔ s.getCDN u = 0 ∧ t.getCDN u = ⊤
  edges : ∀ u w, u ∈ orderAll q → Edge graph u w →
    t.getCDN w = ⊤ ∧ (s.getCDN w = ⊤ ∨ (w ∈ orderAll q ∧ Placed q u w))

theorem Added.refl (graph : Graph N) (s : WTO N) : Added graph s s [] where
  nodup := nodup_nil
  mem := fun u => by
    refine iff_of_false not_mem_nil fun h => ?_
    rw [h.1] at h
    exact absurd h.2 zero_ne_top
  edges := fun u _ hu => absurd hu not_mem_nil

theorem Added.trans {s t r : WTO N} {q q' : List (WTOComponent N)} (h : Added graph s t q)
    (h' : Added graph t r q') (hst : Keep s t) (htr : Keep t r) :
    Added graph s r (q' ++ q) where
  nodup := by
    rw [orderAll_append]
    refine nodup_append.mpr ⟨h'.nodup, h.nodup, fun a ha b hb hab => ?_⟩
    subst hab
    have h0 := ((h'.mem a).mp ha).1
    rw [((h.mem a).mp hb).2] at h0
    exact top_ne_zero h0
  mem := fun u => by
    rw [orderAll_append, mem_append, h'.mem, h.mem]
    constructor
    · rintro (⟨ht, hr⟩ | ⟨hs, ht⟩)
      · exact ⟨hst.was_zero ht, hr⟩
      · refine ⟨hs, ?_⟩
        rw [htr u (by rw [ht]; exact top_ne_zero)]
        exact ht
    · rintro ⟨hs, hr⟩
      by_cases ht : t.getCDN u = 0
      · exact .inl ⟨ht, hr⟩
      · exact .inr ⟨hs, (htr u ht).symm.trans hr⟩
  edges := fun u w hu he => by
    have hold : t.getCDN w = ⊤ → r.getCDN w = ⊤ ∧ (s.getCDN w = ⊤ ∨ w ∈ orderAll q) := by
      intro ht
      refine ⟨(htr w (by rw [ht]; exact top_ne_zero)).trans ht, ?_⟩
      by_cases hs : s.getCDN w = 0
      · exact .inr ((h.mem w).mpr ⟨hs, ht⟩)
      · exact .inl ((hst w hs).symm.trans ht)
    rw [orderAll_append, mem_append] at hu ⊢
    rcases hu with hu | hu
    · obtain ⟨hr, ht | ⟨hw, hplaced⟩⟩ := h'.edges u w hu he
      · refine ⟨hr, (hold ht).2.imp_right fun hw => ⟨.inr hw, ?_⟩⟩
        exact placed_append hu hw
      · exact ⟨hr, .inr ⟨.inl hw, hplaced.append_right q⟩⟩
    · obtain ⟨ht, hw⟩ := h.edges u w hu he
      refine ⟨(hold ht).1, hw.imp_right fun ⟨hw, hplaced⟩ => ⟨.inr hw, ?_⟩⟩
      exact hplaced.append_left q'

/-- How many numbers a search that finishes `k` nodes gives at most. -/
def visits (k : Nat) : Nat := k * (k + 1) / 2

theorem visits_succ (k : Nat) : visits (k + 1) = visits k + (k + 1) := by
  rw [visits, visits]
  have h : (k + 1) * (k + 1 + 1) = k * (k + 1) + 2 * (k + 1) := by ring
  rw [h]
  omega

theorem visits_add (m k : Nat) : visits m + visits k ≤ visits (m + k) := by
  induction k with
  | zero => exact le_rfl
  | succ k ih =>
    rw [← add_assoc, visits_succ, visits_succ]
    omega

/-- The state at the beginning of a visit: the stack holds the nodes with a number. -/
structure Stacked (s : WTO N) : Prop where
  num_le : ∀ w ∈ s.stack, s.getCDN w ≠ 0 ∧ s.getCDN w ≤ s.num
  mem : ∀ u, s.getCDN u ≠ 0 → s.getCDN u ≠ ⊤ → u ∈ s.stack

/-- **What a visit of `v` does**, from the state `s`. It leaves `xs` on the stack and adds `q`
    to the partition. -/
structure VisitSpec (graph : Graph N) (s : WTO N) (v : N) (p : List (WTOComponent N))
    (t : Result N) (xs : List N) (q : List (WTOComponent N)) : Prop where
  partition : t.partition = q ++ p
  added : Added graph s t.state q
  keep : Keep s t.state
  num_ge : s.num ≤ t.state.num
  num_le : t.state.num ≤ s.num + xs.length + visits (orderAll q).length
  visited : t.state.getCDN v ≠ 0
  white : ∀ u, s.getCDN u = 0 → t.state.getCDN u ≠ 0 → White graph s v u
  bound : ∀ u, s.getCDN u = 0 → t.state.getCDN u ≠ 0 → t.state.getCDN u ≠ ⊤ →
    s.num < t.state.getCDN u ∧ t.state.getCDN u ≤ t.state.num
  stack : t.state.stack = xs ++ s.stack
  nodup : xs.Nodup
  mem_xs : ∀ u, u ∈ xs ↔ s.getCDN u = 0 ∧ t.state.getCDN u ≠ 0 ∧ t.state.getCDN u ≠ ⊤
  tree : ∀ x ∈ xs, ReflTransGen (fun a b => Edge graph a b ∧ b ∈ xs) v x
  succ : ∀ u w, s.getCDN u = 0 → t.state.getCDN u ≠ 0 → Edge graph u w → t.state.getCDN w ≠ 0
  low : ∀ x w, x ∈ xs → w ∈ s.stack → Edge graph x w → t.head ≤ s.getCDN w
  root : xs = [] → s.num < t.head
  back : xs ≠ [] → v ∈ xs ∧
    ∃ x w, x ∈ xs ∧ w ∈ s.stack ∧ Edge graph x w ∧ t.head = s.getCDN w

/-- In the loop of a visit of `v` that began in the state `s`, with the successors `pre` done.
    `xs` is what is on the stack above `v`. -/
structure LoopInv (graph : Graph N) (s : WTO N) (v : N) (p : List (WTOComponent N))
    (pre : List N) (r : Visit N) (xs : List N) (q : List (WTOComponent N)) : Prop where
  partition : r.partition = q ++ p
  added : Added graph s r.state q
  keep : Keep s r.state
  self : r.state.getCDN v = (s.num + 1 : Nat)
  num_ge : s.num + 1 ≤ r.state.num
  num_le : r.state.num ≤ s.num + 1 + xs.length + visits (orderAll q).length
  white : ∀ u, s.getCDN u = 0 → r.state.getCDN u ≠ 0 → White graph s v u
  bound : ∀ u, u ≠ v → s.getCDN u = 0 → r.state.getCDN u ≠ 0 → r.state.getCDN u ≠ ⊤ →
    (s.num + 1 : Nat) < r.state.getCDN u ∧ r.state.getCDN u ≤ r.state.num
  stack : r.state.stack = xs ++ v :: s.stack
  nodup : xs.Nodup
  mem_xs : ∀ u, u ∈ xs ↔ u ≠ v ∧ s.getCDN u = 0 ∧ r.state.getCDN u ≠ 0 ∧ r.state.getCDN u ≠ ⊤
  tree : ∀ x ∈ xs, ReflTransGen (fun a b => Edge graph a b ∧ b ∈ xs) v x
  succ : ∀ u w, u ≠ v → s.getCDN u = 0 → r.state.getCDN u ≠ 0 → Edge graph u w →
    r.state.getCDN w ≠ 0
  visited : ∀ w ∈ pre, r.state.getCDN w ≠ 0
  low : ∀ x w, x ∈ xs → w ∈ s.stack → Edge graph x w → r.head ≤ s.getCDN w
  low_self : ∀ w ∈ pre, w ∈ s.stack → r.head ≤ s.getCDN w
  head_le : r.head ≤ (s.num + 1 : Nat)
  back : r.head = (s.num + 1 : Nat) ∨
    ∃ x w, (x = v ∨ x ∈ xs) ∧ w ∈ s.stack ∧ Edge graph x w ∧ r.head = s.getCDN w
  loop_head : r.head ≠ (s.num + 1 : Nat) → r.loop = true
  loop_xs : xs ≠ [] → r.loop = true
  loop_self : v ∈ pre → r.loop = true

variable {s : WTO N} {v : N} {p : List (WTOComponent N)} {pre xs : List N} {r : Visit N}
  {q : List (WTOComponent N)}

section

variable (h : LoopInv graph s v p pre r xs q)
include h

theorem LoopInv.keep_stack (hs : Stacked s) {w : N}
    (hw : w ∈ s.stack) : r.state.getCDN w = s.getCDN w :=
  h.keep w (hs.num_le w hw).1

theorem LoopInv.stacked (hs : Stacked s) : Stacked r.state where
  num_le := by
    intro w hw
    rw [h.stack, mem_append, mem_cons] at hw
    rcases hw with hw | rfl | hw
    · obtain ⟨hwv, hw0, hw1, hw2⟩ := (h.mem_xs w).mp hw
      exact ⟨hw1, (h.bound w hwv hw0 hw1 hw2).2⟩
    · rw [h.self]
      exact ⟨by exact_mod_cast succ_ne_zero s.num, by exact_mod_cast h.num_ge⟩
    · rw [h.keep_stack hs hw]
      obtain ⟨hw1, hw2⟩ := hs.num_le w hw
      refine ⟨hw1, hw2.trans ?_⟩
      exact_mod_cast (le_succ s.num).trans h.num_ge
  mem := by
    intro u hu hu'
    rw [h.stack, mem_append, mem_cons]
    by_cases hs0 : s.getCDN u = 0
    · by_cases huv : u = v
      · exact .inr (.inl huv)
      · exact .inl ((h.mem_xs u).mpr ⟨huv, hs0, hu, hu'⟩)
    · rw [h.keep u hs0] at hu'
      exact .inr (.inr (hs.mem u hs0 hu'))

theorem LoopInv.place (hs : Stacked s) {w : N}
    (hw : r.state.getCDN w ≠ 0) (hw' : r.state.getCDN w ≠ ⊤) :
    w ∈ xs ∨ w = v ∨ (w ∈ s.stack ∧ r.state.getCDN w = s.getCDN w) := by
  have hmem := (h.stacked hs).mem w hw hw'
  rw [h.stack, mem_append, mem_cons] at hmem
  exact hmem.imp_right fun hm => hm.imp_right fun hm => ⟨hm, h.keep_stack hs hm⟩

end

theorem lower_spec (r : Visit N) (m : CycleDepthNumber) :
    (r.lower m).state = r.state ∧ (r.lower m).partition = r.partition ∧
    ((m ≤ r.head ∧ (r.lower m).head = m ∧ (r.lower m).loop) ∨
      (r.head < m ∧ (r.lower m).head = r.head ∧ (r.lower m).loop = r.loop)) := by
  rw [Visit.lower]
  by_cases h : m ≤ r.head
  · rw [if_pos h]
    exact ⟨rfl, rfl, .inl ⟨h, rfl, rfl⟩⟩
  · rw [if_neg h]
    exact ⟨rfl, rfl, .inr ⟨not_le.mp h, rfl, rfl⟩⟩

section

variable (h : LoopInv graph s v p pre r xs q)
include h

theorem LoopInv.seen (hs : Stacked s) {w : N} (he : Edge graph v w) (hw : r.state.getCDN w ≠ 0) :
    LoopInv graph s v p (pre ++ [w]) (r.lower (r.state.getCDN w)) xs q := by
  obtain ⟨hstate, hpart, hlower⟩ := lower_spec r (r.state.getCDN w)
  have hle : (r.lower (r.state.getCDN w)).head ≤ r.head := by
    rcases hlower with ⟨hm, hh, -⟩ | ⟨-, hh, -⟩
    · rw [hh]
      exact hm
    · exact hh.le
  constructor
  case partition => exact hpart.trans h.partition
  case visited =>
    rw [hstate]
    intro x hx
    rcases mem_append.mp hx with hx | hx
    · exact h.visited x hx
    · rw [mem_singleton.mp hx]
      exact hw
  case low => exact fun x y hx hy hxy => hle.trans (h.low x y hx hy hxy)
  case low_self =>
    intro x hx hxs
    rcases mem_append.mp hx with hx | hx
    · exact hle.trans (h.low_self x hx hxs)
    · rw [mem_singleton.mp hx] at hxs ⊢
      rw [← h.keep_stack hs hxs]
      rcases hlower with ⟨-, hh, -⟩ | ⟨hm, hh, -⟩
      · exact hh.le
      · rw [hh]
        exact hm.le
  case head_le => exact hle.trans h.head_le
  case back =>
    rcases hlower with ⟨hm, hh, -⟩ | ⟨-, hh, -⟩
    · rw [hh]
      have hfin : r.state.getCDN w ≠ ⊤ := by
        intro htop
        rw [htop] at hm
        exact absurd (hm.trans h.head_le) (not_le.mpr (WithTop.coe_lt_top _))
      rcases h.place hs hw hfin with hx | rfl | ⟨hx, hold⟩
      · -- a node above `v` has a greater number than `v`
        obtain ⟨hxv, hx0, hx1, hx2⟩ := (h.mem_xs w).mp hx
        exact absurd (hm.trans h.head_le) (not_le.mpr (h.bound w hxv hx0 hx1 hx2).1)
      · exact .inl h.self
      · exact .inr ⟨v, w, .inl rfl, hx, he, hold⟩
    · rw [hh]
      exact h.back
  case loop_head =>
    rcases hlower with ⟨-, -, hl⟩ | ⟨-, hh, hl⟩
    · exact fun _ => hl
    · rw [hh, hl]
      exact h.loop_head
  case loop_xs =>
    intro hne
    rcases hlower with ⟨-, -, hl⟩ | ⟨-, -, hl⟩
    · exact hl
    · rw [hl]
      exact h.loop_xs hne
  case loop_self =>
    intro hv
    rcases hlower with ⟨-, -, hl⟩ | ⟨hm, -, hl⟩
    · exact hl
    · rw [hl]
      rcases mem_append.mp hv with hv | hv
      · exact h.loop_self hv
      · -- an edge to `v` itself is not less than a head that is still `v`'s number
        refine h.loop_head fun hh => ?_
        rw [← mem_singleton.mp hv, h.self, hh] at hm
        exact lt_irrefl _ hm
  case added =>
    rw [hstate]
    exact h.added
  case keep =>
    rw [hstate]
    exact h.keep
  case self =>
    rw [hstate]
    exact h.self
  case num_ge =>
    rw [hstate]
    exact h.num_ge
  case num_le =>
    rw [hstate]
    exact h.num_le
  case white =>
    rw [hstate]
    exact h.white
  case bound =>
    rw [hstate]
    exact h.bound
  case stack =>
    rw [hstate]
    exact h.stack
  case mem_xs =>
    rw [hstate]
    exact h.mem_xs
  case succ =>
    rw [hstate]
    exact h.succ
  case nodup => exact h.nodup
  case tree => exact h.tree

/-- The stack when a visited successor returns, above `v`. -/
theorem nodup_above {w : N} {t : Result N} {xs' : List N}
    {q' : List (WTOComponent N)} (ht : VisitSpec graph r.state w r.partition t xs' q') :
    (xs' ++ xs).Nodup := by
  refine nodup_append.mpr ⟨ht.nodup, h.nodup, fun a ha b hb hab => ?_⟩
  subst hab
  exact ((h.mem_xs a).mp hb).2.2.1 ((ht.mem_xs a).mp ha).1

/-- An iteration at a successor that is visited. -/
theorem LoopInv.called (hs : Stacked s) {w : N}
    (he : Edge graph v w) {t : Result N} {xs' : List N} {q' : List (WTOComponent N)}
    (hw : r.state.getCDN w = 0) (ht : VisitSpec graph r.state w r.partition t xs' q') :
    LoopInv graph s v p (pre ++ [w])
      (Visit.lower { r with state := t.state, partition := t.partition } t.head)
      (xs' ++ xs) (q' ++ q) := by
  obtain ⟨hstate, hpart, hlower⟩ :=
    lower_spec { r with state := t.state, partition := t.partition } t.head
  have hkeep : Keep s t.state := h.keep.trans ht.keep
  have hself : t.state.getCDN v = (s.num + 1 : Nat) := by
    rw [ht.keep v (by rw [h.self]; exact_mod_cast succ_ne_zero s.num)]
    exact h.self
  -- a child that leaves something on the stack has an edge to a node on it
  have hback : xs' ≠ [] → w ∈ xs' ∧ ∃ x y, x ∈ xs' ∧ Edge graph x y ∧
      ((y ∈ xs ∧ r.head < t.head) ∨ (y = v ∧ t.head = (s.num + 1 : Nat)) ∨
        (y ∈ s.stack ∧ t.head = s.getCDN y)) := by
    intro hne
    obtain ⟨hwx, x, y, hx, hy, hxy, hh⟩ := ht.back hne
    refine ⟨hwx, x, y, hx, hxy, ?_⟩
    rw [h.stack, mem_append, mem_cons] at hy
    rcases hy with hy | rfl | hy
    · obtain ⟨hyv, hy0, hy1, hy2⟩ := (h.mem_xs y).mp hy
      rw [hh]
      exact .inl ⟨hy, h.head_le.trans_lt (h.bound y hyv hy0 hy1 hy2).1⟩
    · exact .inr (.inl ⟨rfl, hh.trans h.self⟩)
    · exact .inr (.inr ⟨hy, hh.trans (h.keep_stack hs hy)⟩)
  -- a child that leaves nothing returns its own number, which is greater than the head
  have hroot : t.head ≤ r.head → xs' ≠ [] := by
    intro hle hnil
    have hlt := ht.root hnil
    have hnum : ((s.num + 1 : Nat) : CycleDepthNumber) ≤ r.state.num := by
      exact_mod_cast h.num_ge
    exact absurd (hle.trans (h.head_le.trans hnum)) (not_le.mpr hlt)
  have hle : (Visit.lower { r with state := t.state, partition := t.partition } t.head).head ≤
      r.head := by
    rcases hlower with ⟨hm, hh, -⟩ | ⟨-, hh, -⟩
    · rw [hh]
      exact hm
    · exact hh.le
  have hle' : xs' ≠ [] →
      (Visit.lower { r with state := t.state, partition := t.partition } t.head).head ≤ t.head := by
    intro _
    rcases hlower with ⟨-, hh, -⟩ | ⟨hm, hh, -⟩
    · exact hh.le
    · rw [hh]
      exact hm.le
  constructor
  case partition =>
    rw [hpart, append_assoc, ← h.partition]
    exact ht.partition
  case added =>
    rw [hstate]
    exact h.added.trans ht.added h.keep ht.keep
  case keep =>
    rw [hstate]
    exact hkeep
  case self =>
    rw [hstate]
    exact hself
  case num_ge =>
    rw [hstate]
    exact h.num_ge.trans ht.num_ge
  case num_le =>
    rw [hstate, orderAll_append, length_append, length_append]
    have h1 := ht.num_le
    have h2 := h.num_le
    have h3 := visits_add (orderAll q').length (orderAll q).length
    show t.state.num ≤ _
    omega
  case white =>
    rw [hstate]
    intro u hu hu'
    by_cases hr : r.state.getCDN u = 0
    · have hwhite := ht.white u hr hu'
      refine .head ⟨he, h.keep.was_zero hw⟩ ?_
      exact ReflTransGen.mono (fun a b hab => ⟨hab.1, h.keep.was_zero hab.2⟩) w u hwhite
    · exact h.white u hu hr
  case bound =>
    rw [hstate]
    intro u huv hu hu1 hu2
    by_cases hr : r.state.getCDN u = 0
    · obtain ⟨hlt, hnum⟩ := ht.bound u hr hu1 hu2
      refine ⟨lt_of_le_of_lt ?_ hlt, hnum⟩
      exact_mod_cast h.num_ge
    · have hold := ht.keep u hr
      show (s.num + 1 : Nat) < t.state.getCDN u ∧ t.state.getCDN u ≤ t.state.num
      have hu2' : t.state.getCDN u ≠ ⊤ := hu2
      rw [hold] at hu2' ⊢
      obtain ⟨hlt, hnum⟩ := h.bound u huv hu hr hu2'
      refine ⟨hlt, hnum.trans ?_⟩
      exact_mod_cast ht.num_ge
  case stack =>
    rw [hstate, append_assoc, ← h.stack]
    exact ht.stack
  case nodup => exact nodup_above h ht
  case mem_xs =>
    rw [hstate]
    intro u
    show u ∈ xs' ++ xs ↔ u ≠ v ∧ s.getCDN u = 0 ∧ t.state.getCDN u ≠ 0 ∧ t.state.getCDN u ≠ ⊤
    rw [mem_append, ht.mem_xs, h.mem_xs]
    constructor
    · rintro (⟨hu0, hu1, hu2⟩ | ⟨huv, hu0, hu1, hu2⟩)
      · refine ⟨?_, h.keep.was_zero hu0, hu1, hu2⟩
        rintro rfl
        rw [h.self] at hu0
        exact absurd hu0 (by exact_mod_cast succ_ne_zero s.num)
      · rw [ht.keep u hu1]
        exact ⟨huv, hu0, hu1, hu2⟩
    · rintro ⟨huv, hu0, hu1, hu2⟩
      by_cases hr : r.state.getCDN u = 0
      · exact .inl ⟨hr, hu1, hu2⟩
      · rw [ht.keep u hr] at hu1 hu2
        exact .inr ⟨huv, hu0, hu1, hu2⟩
  case tree =>
    intro x hx
    rcases mem_append.mp hx with hx | hx
    · have hwx := (hback (ne_nil_of_mem hx)).1
      refine .head ⟨he, mem_append_left xs hwx⟩ ?_
      exact ReflTransGen.mono (fun a b hab => ⟨hab.1, mem_append_left xs hab.2⟩) w x (ht.tree x hx)
    · exact ReflTransGen.mono (fun a b hab => ⟨hab.1, mem_append_right xs' hab.2⟩) v x (h.tree x hx)
  case succ =>
    rw [hstate]
    intro u y huv hu hu' huy
    by_cases hr : r.state.getCDN u = 0
    · exact ht.succ u y hr hu' huy
    · exact ht.keep.ne_zero (h.succ u y huv hu hr huy)
  case visited =>
    rw [hstate]
    intro x hx
    rcases mem_append.mp hx with hx | hx
    · exact ht.keep.ne_zero (h.visited x hx)
    · rw [mem_singleton.mp hx]
      exact ht.visited
  case low =>
    intro x y hx hy hxy
    rcases mem_append.mp hx with hx | hx
    · have hy' : y ∈ r.state.stack := by
        rw [h.stack]
        exact mem_append_right xs (mem_cons_of_mem v hy)
      have hlow := ht.low x y hx hy' hxy
      rw [h.keep_stack hs hy] at hlow
      exact (hle' (ne_nil_of_mem hx)).trans hlow
    · exact hle.trans (h.low x y hx hy hxy)
  case low_self =>
    intro x hx hxs
    rcases mem_append.mp hx with hx | hx
    · exact hle.trans (h.low_self x hx hxs)
    · rw [mem_singleton.mp hx] at hxs
      have hold := h.keep_stack hs hxs
      rw [hw] at hold
      exact absurd hold.symm (hs.num_le w hxs).1
  case head_le => exact hle.trans h.head_le
  case back =>
    rcases hlower with ⟨hm, hh, -⟩ | ⟨-, hh, -⟩
    · rw [hh]
      obtain ⟨-, x, y, hx, hxy, hy⟩ := hback (hroot hm)
      rcases hy with ⟨-, hlt⟩ | ⟨-, hself'⟩ | ⟨hy, hnum⟩
      · exact absurd hm (not_le.mpr hlt)
      · exact .inl hself'
      · exact .inr ⟨x, y, .inr (mem_append_left xs hx), hy, hxy, hnum⟩
    · rw [hh]
      refine h.back.imp_right ?_
      rintro ⟨x, y, hx, hy, hxy, hnum⟩
      exact ⟨x, y, hx.imp_right (mem_append_right xs'), hy, hxy, hnum⟩
  case loop_head =>
    rcases hlower with ⟨-, -, hl⟩ | ⟨-, hh, hl⟩
    · exact fun _ => hl
    · rw [hh, hl]
      exact h.loop_head
  case loop_xs =>
    intro hne
    rcases hlower with ⟨-, -, hl⟩ | ⟨hm, -, hl⟩
    · exact hl
    · rw [hl]
      by_cases hxs : xs = []
      · -- the first child to leave something leaves an edge to `v` or further down
        have hne' : xs' ≠ [] := by
          rintro rfl
          exact hne hxs
        refine h.loop_head fun hh => ?_
        have hm' : r.head < t.head := hm
        rw [hh] at hm'
        obtain ⟨-, x, y, -, -, hy⟩ := hback hne'
        rcases hy with ⟨hy, -⟩ | ⟨-, hself'⟩ | ⟨hy, hnum⟩
        · rw [hxs] at hy
          cases hy
        · rw [hself'] at hm'
          exact lt_irrefl _ hm'
        · rw [hnum] at hm'
          have hnum' : ((s.num : Nat) : CycleDepthNumber) ≤ (s.num + 1 : Nat) := by
            exact_mod_cast le_succ s.num
          exact absurd ((hs.num_le y hy).2.trans hnum') (not_le.mpr hm')
      · exact h.loop_xs hxs
  case loop_self =>
    intro hv
    have hvpre : v ∈ pre := by
      rcases mem_append.mp hv with hv | hv
      · exact hv
      · rw [← mem_singleton.mp hv, h.self] at hw
        exact absurd hw (by exact_mod_cast succ_ne_zero s.num)
    rcases hlower with ⟨-, -, hl⟩ | ⟨-, -, hl⟩
    · exact hl
    · rw [hl]
      exact h.loop_self hvpre

-- ── the end of a visit

theorem LoopInv.self_ne : r.state.getCDN v ≠ 0 ∧ r.state.getCDN v ≠ ⊤ := by
  rw [h.self]
  exact ⟨by exact_mod_cast succ_ne_zero s.num, coe_ne_top⟩

end

section

variable (h : LoopInv graph s v p (graph.successors v) r xs q)
include h

theorem LoopInv.stay (hv : s.getCDN v = 0) (hhead : r.head ≠ (s.num + 1 : Nat)) :
    VisitSpec graph s v p ⟨r.state, r.head, r.partition⟩ (xs ++ [v]) q := by
  have hvxs : v ∉ xs := fun hm => ((h.mem_xs v).mp hm).1 rfl
  constructor
  case partition => exact h.partition
  case added => exact h.added
  case keep => exact h.keep
  case num_ge => exact (le_succ s.num).trans h.num_ge
  case num_le =>
    rw [length_append, length_singleton]
    have := h.num_le
    show r.state.num ≤ _
    omega
  case visited => exact h.self_ne.1
  case white => exact h.white
  case bound =>
    intro u hu hu1 hu2
    show (s.num : CycleDepthNumber) < r.state.getCDN u ∧ r.state.getCDN u ≤ r.state.num
    by_cases huv : u = v
    · rw [huv, h.self]
      exact ⟨by exact_mod_cast lt_succ_self s.num, by exact_mod_cast h.num_ge⟩
    · obtain ⟨hlt, hle⟩ := h.bound u huv hu hu1 hu2
      refine ⟨lt_trans ?_ hlt, hle⟩
      exact_mod_cast lt_succ_self s.num
  case stack =>
    rw [append_assoc]
    exact h.stack
  case nodup =>
    refine nodup_append.mpr ⟨h.nodup, nodup_singleton v, fun a ha b hb hab => ?_⟩
    rw [mem_singleton.mp hb] at hab
    exact hvxs (hab ▸ ha)
  case mem_xs =>
    intro u
    rw [mem_append, mem_singleton, h.mem_xs]
    constructor
    · rintro (⟨-, hu⟩ | rfl)
      · exact hu
      · exact ⟨hv, h.self_ne⟩
    · intro hu
      by_cases huv : u = v
      · exact .inr huv
      · exact .inl ⟨huv, hu⟩
  case tree =>
    intro x hx
    rcases mem_append.mp hx with hx | hx
    · exact ReflTransGen.mono (fun a b hab => ⟨hab.1, mem_append_left [v] hab.2⟩) v x (h.tree x hx)
    · rw [mem_singleton.mp hx]
  case succ =>
    intro u w hu hu' huw
    by_cases huv : u = v
    · exact h.visited w (huv ▸ huw)
    · exact h.succ u w huv hu hu' huw
  case low =>
    intro x w hx hw hxw
    rcases mem_append.mp hx with hx | hx
    · exact h.low x w hx hw hxw
    · rw [mem_singleton.mp hx] at hxw
      exact h.low_self w hxw hw
  case root =>
    intro hnil
    exact absurd hnil (by simp)
  case back =>
    intro _
    obtain ⟨x, w, hx, hw, hxw, hh⟩ := h.back.resolve_left hhead
    refine ⟨mem_append_right xs (mem_singleton.mpr rfl), x, w, ?_, hw, hxw, hh⟩
    rcases hx with rfl | hx
    · exact mem_append_right xs (mem_singleton.mpr rfl)
    · exact mem_append_left [v] hx

section

variable {x w : N} (hs : Stacked s) (hhead : r.head = (s.num + 1 : Nat)) (hx : x = v ∨ x ∈ xs)
include hs hhead hx

theorem LoopInv.no_back (hw : w ∈ s.stack) : ¬ Edge graph x w := by
  intro hxw
  have hlow : r.head ≤ s.getCDN w := by
    rcases hx with rfl | hx
    · exact h.low_self w hxw hw
    · exact h.low x w hx hw hxw
  rw [hhead] at hlow
  have hnum : ((s.num : Nat) : CycleDepthNumber) < (s.num + 1 : Nat) := by
    exact_mod_cast lt_succ_self s.num
  exact absurd (hlow.trans (hs.num_le w hw).2) (not_le.mpr hnum)

theorem LoopInv.target (hxw : Edge graph x w) : w = v ∨ w ∈ xs ∨ r.state.getCDN w = ⊤ := by
  have hw : r.state.getCDN w ≠ 0 := by
    rcases hx with rfl | hx
    · exact h.visited w hxw
    · obtain ⟨hxv, hx0, hx1, -⟩ := (h.mem_xs x).mp hx
      exact h.succ x w hxv hx0 hx1 hxw
  by_cases htop : r.state.getCDN w = ⊤
  · exact .inr (.inr htop)
  · rcases h.place hs hw htop with hw | hw | ⟨hw, -⟩
    · exact .inr (.inl hw)
    · exact .inl hw
    · exact absurd hxw (h.no_back hs hhead hx hw)

end

end

theorem LoopInv.finished (h : LoopInv graph s v p pre r xs q) {w : N}
    (hw : r.state.getCDN w = ⊤) : s.getCDN w = ⊤ ∨ w ∈ orderAll q := by
  by_cases hs0 : s.getCDN w = 0
  · exact .inr ((h.added.mem w).mpr ⟨hs0, hw⟩)
  · exact .inl ((h.keep w hs0).symm.trans hw)

section Search

variable [DecidableEq N]

theorem setCDN_getCDN (s : WTO N) (n u : N) (d : CycleDepthNumber) :
    (s.setCDN n d).getCDN u = if u = n then d else s.getCDN u :=
  Function.update_apply ..

/-- A root without a loop: a vertex. -/
theorem LoopInv.vertex (h : LoopInv graph s v p (graph.successors v) r xs q) (hs : Stacked s)
    (hv : s.getCDN v = 0) (hhead : r.head = (s.num + 1 : Nat)) (hloop : ¬ r.loop) :
    VisitSpec graph s v p
      ⟨{ r.state.setCDN v ⊤ with stack := (r.state.setCDN v ⊤).stack.tail }, r.head,
        .node v :: r.partition⟩ [] (.node v :: q) := by
  have hxs : xs = [] := by
    by_contra hne
    exact hloop (h.loop_xs hne)
  subst hxs
  have hget := fun u => r.state.setCDN_getCDN v u ⊤
  have hget_ne : ∀ u, u ≠ v → (r.state.setCDN v ⊤).getCDN u = r.state.getCDN u :=
    fun u hu => (hget u).trans (if_neg hu)
  have hget_v : (r.state.setCDN v ⊤).getCDN v = ⊤ := (hget v).trans (if_pos rfl)
  have hvq : v ∉ orderAll q := fun hm => h.self_ne.2 ((h.added.mem v).mp hm).2
  -- nothing is left unfinished
  have hdone : ∀ u, s.getCDN u = 0 → (r.state.setCDN v ⊤).getCDN u ≠ 0 →
      (r.state.setCDN v ⊤).getCDN u = ⊤ := by
    intro u hu hu'
    by_cases huv : u = v
    · rw [huv]
      exact hget_v
    · rw [hget_ne u huv] at hu' ⊢
      by_contra htop
      cases (h.mem_xs u).mpr ⟨huv, hu, hu', htop⟩
  have htarget : ∀ w, Edge graph v w → r.state.getCDN w = ⊤ := by
    intro w hvw
    rcases h.target hs hhead (.inl rfl) hvw with rfl | hw | hw
    · exact absurd (h.loop_self hvw) hloop
    · cases hw
    · exact hw
  constructor
  case partition =>
    rw [h.partition]
    rfl
  case added =>
    constructor
    case nodup =>
      exact nodup_cons.mpr ⟨hvq, h.added.nodup⟩
    case mem =>
      intro u
      show u ∈ v :: orderAll q ↔ s.getCDN u = 0 ∧ (r.state.setCDN v ⊤).getCDN u = ⊤
      rw [mem_cons, h.added.mem]
      by_cases huv : u = v
      · rw [huv]
        exact iff_of_true (.inl rfl) ⟨hv, hget_v⟩
      · rw [hget_ne u huv, or_iff_right huv]
    case edges =>
      intro u w hu huw
      show (r.state.setCDN v ⊤).getCDN w = ⊤ ∧ _
      have hkeep : r.state.getCDN w = ⊤ → (r.state.setCDN v ⊤).getCDN w = ⊤ := by
        intro hw
        by_cases hwv : w = v
        · rw [hwv]
          exact hget_v
        · rw [hget_ne w hwv]
          exact hw
      rcases mem_cons.mp hu with rfl | hu
      · have hw := htarget w huw
        refine ⟨hkeep hw, (h.finished hw).imp_right fun hw => ⟨mem_cons_of_mem u hw, ?_⟩⟩
        exact placed_append (q := [.node u]) (mem_singleton.mpr rfl) hw
      · obtain ⟨hw, hplaced⟩ := h.added.edges u w hu huw
        refine ⟨hkeep hw, hplaced.imp_right fun ⟨hw, hplaced⟩ => ⟨mem_cons_of_mem v hw, ?_⟩⟩
        exact hplaced.append_left [.node v]
  case keep =>
    intro u hu
    have huv : u ≠ v := by
      rintro rfl
      exact hu hv
    exact (hget_ne u huv).trans (h.keep u hu)
  case num_ge => exact (le_succ s.num).trans h.num_ge
  case num_le =>
    have h1 := h.num_le
    have h2 : (orderAll (.node v :: q)).length = (orderAll q).length + 1 := rfl
    rw [h2, visits_succ]
    show r.state.num ≤ _
    rw [length_nil] at h1 ⊢
    omega
  case visited =>
    show (r.state.setCDN v ⊤).getCDN v ≠ 0
    rw [hget_v]
    exact top_ne_zero
  case white =>
    intro u hu hu'
    by_cases huv : u = v
    · rw [huv]
      exact .refl
    · exact h.white u hu (by rw [← hget_ne u huv]; exact hu')
  case bound => exact fun u hu hu1 hu2 => absurd (hdone u hu hu1) hu2
  case stack =>
    show r.state.stack.tail = [] ++ s.stack
    rw [h.stack]
    rfl
  case nodup => exact nodup_nil
  case mem_xs =>
    intro u
    exact iff_of_false not_mem_nil fun hu => hu.2.2 (hdone u hu.1 hu.2.1)
  case tree => exact nofun
  case succ =>
    intro u w hu hu' huw
    show (r.state.setCDN v ⊤).getCDN w ≠ 0
    have hw : r.state.getCDN w ≠ 0 := by
      by_cases huv : u = v
      · exact h.visited w (huv ▸ huw)
      · exact h.succ u w huv hu (by rw [← hget_ne u huv]; exact hu') huw
    by_cases hwv : w = v
    · rw [hwv, hget_v]
      exact top_ne_zero
    · rw [hget_ne w hwv]
      exact hw
  case low => exact nofun
  case root =>
    intro _
    show (s.num : CycleDepthNumber) < r.head
    rw [hhead]
    exact_mod_cast lt_succ_self s.num
  case back => exact fun hne => absurd rfl hne

theorem popTo_spec (v : N) (stack : List N) : ∀ (xs : List N) (s : WTO N), v ∉ xs →
      (popTo v s (xs ++ v :: stack)).stack = stack ∧
      (popTo v s (xs ++ v :: stack)).num = s.num ∧
      ∀ u, (popTo v s (xs ++ v :: stack)).getCDN u = if u ∈ xs then 0 else s.getCDN u := by
  intro xs
  induction xs with
  | nil =>
    intro s _
    rw [nil_append, popTo, if_pos rfl]
    exact ⟨rfl, rfl, fun u => (if_neg not_mem_nil).symm⟩
  | cons x xs ih =>
    intro s hv
    rw [mem_cons, not_or] at hv
    have hpop : popTo v s (x :: xs ++ v :: stack) = popTo v (s.setCDN x 0) (xs ++ v :: stack) :=
      if_neg (fun he => hv.1 he.symm)
    obtain ⟨hstack, hnum, hget⟩ := ih (s.setCDN x 0) hv.2
    rw [hpop]
    refine ⟨hstack, hnum, fun u => ?_⟩
    rw [hget, setCDN_getCDN]
    by_cases hux : u = x
    · rw [if_pos hux, ite_self, if_pos (mem_cons.mpr (.inl hux))]
    · rw [if_neg hux]
      by_cases hu : u ∈ xs
      · rw [if_pos hu, if_pos (mem_cons_of_mem x hu)]
      · rw [if_neg hu, if_neg (fun hm => (mem_cons.mp hm).elim hux hu)]

/-- The state in which the component of the root `v` is ordered: `v` is finished and the nodes
    `xs` that were above it are not visited again. -/
structure Opened (graph : Graph N) (s : WTO N) (v : N) (r : Visit N) (xs : List N) (t : WTO N) :
    Prop where
  num : t.num = r.state.num
  stack : t.stack = s.stack
  self : t.getCDN v = ⊤
  zero : ∀ u ∈ xs, t.getCDN u = 0
  other : ∀ u, u ≠ v → u ∉ xs → t.getCDN u = r.state.getCDN u

theorem LoopInv.opened (h : LoopInv graph s v p pre r xs q) :
    Opened graph s v r xs (popTo v (r.state.setCDN v ⊤) (r.state.setCDN v ⊤).stack) := by
  have hvxs : v ∉ xs := fun hm => ((h.mem_xs v).mp hm).1 rfl
  have hst : (r.state.setCDN v ⊤).stack = xs ++ v :: s.stack := h.stack
  obtain ⟨hstack, hnum, hget⟩ := popTo_spec v s.stack xs (r.state.setCDN v ⊤) hvxs
  rw [hst]
  constructor
  case num => exact hnum
  case stack => exact hstack
  case self => rw [hget, if_neg hvxs, setCDN_getCDN, if_pos rfl]
  case zero =>
    intro u hu
    rw [hget, if_pos hu]
  case other =>
    intro u huv hu
    rw [hget, if_neg hu, setCDN_getCDN, if_neg huv]

section

variable {s₁ : WTO N}

section

omit [DecidableEq N]

section

variable (ho : Opened graph s v r xs s₁)
include ho

theorem Opened.stacked (h : LoopInv graph s v p pre r xs q) (hs : Stacked s) (hv : s.getCDN v = 0) :
    Stacked s₁ where
  num_le := by
    intro w hw
    rw [ho.stack] at hw
    obtain ⟨hw1, hw2⟩ := hs.num_le w hw
    have hwv : w ≠ v := by
      rintro rfl
      exact hw1 hv
    have hwx : w ∉ xs := fun hm => hw1 ((h.mem_xs w).mp hm).2.1
    rw [ho.other w hwv hwx, h.keep w hw1, ho.num]
    refine ⟨hw1, hw2.trans ?_⟩
    exact_mod_cast (le_succ s.num).trans h.num_ge
  mem := by
    intro u hu hu'
    have huv : u ≠ v := by
      rintro rfl
      exact hu' ho.self
    have hux : u ∉ xs := fun hm => hu (ho.zero u hm)
    rw [ho.other u huv hux] at hu hu'
    rw [ho.stack]
    exact (((h.place hs hu hu').resolve_left hux).resolve_left huv).1

theorem Opened.closed (h : LoopInv graph s v p (graph.successors v) r xs q) (hs : Stacked s)
    (hhead : r.head = (s.num + 1 : Nat)) {x w : N} (hx : x = v ∨ x ∈ xs) (hxw : Edge graph x w)
    (hw : s₁.getCDN w = 0) : w ∈ xs := by
  rcases h.target hs hhead hx hxw with rfl | hwx | htop
  · rw [ho.self] at hw
    exact absurd hw top_ne_zero
  · exact hwx
  · by_contra hwx
    have hwv : w ≠ v := by
      rintro rfl
      exact h.self_ne.2 htop
    rw [ho.other w hwv hwx, htop] at hw
    exact top_ne_zero hw

theorem Opened.ncard_lt [Finite N] (h : LoopInv graph s v p pre r xs q) (hv : s.getCDN v = 0) :
    {u | s₁.getCDN u = 0}.ncard < {u | s.getCDN u = 0}.ncard := by
  have hself : s₁.getCDN v ≠ 0 := by
    rw [ho.self]
    exact top_ne_zero
  refine Set.ncard_lt_ncard ⟨fun u hu => ?_, fun hsub => hself (hsub hv)⟩ (Set.toFinite _)
  by_cases hux : u ∈ xs
  · exact ((h.mem_xs u).mp hux).2.1
  · have huv : u ≠ v := by
      rintro rfl
      exact hself hu
    have hu' : s₁.getCDN u = 0 := hu
    rw [ho.other u huv hux] at hu'
    exact h.keep.was_zero hu'

end

end

end

/-- In the loop of `component`, begun in the state `s₁`: every visit so far has stayed in `C`
    and has left nothing on the stack. -/
structure ComponentInv (graph : Graph N) (C : List N) (s₁ : WTO N) (pre : List N) (t : WTO N)
    (parts : List (WTOComponent N)) : Prop where
  added : Added graph s₁ t parts
  keep : Keep s₁ t
  inside : ∀ u, s₁.getCDN u = 0 → t.getCDN u ≠ 0 → u ∈ C ∧ t.getCDN u = ⊤
  num_ge : s₁.num ≤ t.num
  num_le : t.num ≤ s₁.num + visits (orderAll parts).length
  stack : t.stack = s₁.stack
  visited : ∀ w ∈ pre, t.getCDN w ≠ 0

omit [DecidableEq N] in
theorem ComponentInv.refl (graph : Graph N) (C : List N) (s₁ : WTO N) :
    ComponentInv graph C s₁ [] s₁ [] where
  added := Added.refl graph s₁
  keep := fun _ _ => rfl
  inside := fun _ hu hu' => absurd hu hu'
  num_ge := le_rfl
  num_le := le_add_right _ _
  stack := rfl
  visited := nofun

omit [DecidableEq N] in
theorem ComponentInv.stacked {C : List N} {s₁ t : WTO N} {pre : List N}
    {parts : List (WTOComponent N)} (h : ComponentInv graph C s₁ pre t parts)
    (hs1 : Stacked s₁) : Stacked t where
  num_le := by
    intro w hw
    rw [h.stack] at hw
    obtain ⟨hw1, hw2⟩ := hs1.num_le w hw
    rw [h.keep w hw1]
    refine ⟨hw1, hw2.trans ?_⟩
    exact_mod_cast h.num_ge
  mem := by
    intro u hu hu'
    rw [h.stack]
    by_cases hs0 : s₁.getCDN u = 0
    · exact absurd (h.inside u hs0 hu).2 hu'
    · rw [h.keep u hs0] at hu'
      exact hs1.mem u hs0 hu'

def VisitsTo (graph : Graph N) (fuel : Nat) : Prop :=
  ∀ (s : WTO N) (v : N) (p : List (WTOComponent N)), Stacked s → s.getCDN v = 0 →
    {u | s.getCDN u = 0}.ncard ≤ fuel →
    ∃ t xs q, visit graph fuel s v p = some t ∧ VisitSpec graph s v p t xs q

omit [DecidableEq N] in
theorem Keep.ncard_le [Finite N] {s t : WTO N} (h : Keep s t) :
    {u | t.getCDN u = 0}.ncard ≤ {u | s.getCDN u = 0}.ncard :=
  Set.ncard_le_ncard (fun _ hu => h.was_zero hu) (Set.toFinite _)

/-- The loop of `component`: nothing leaves `C`, whose edges do not lead down the stack. -/
theorem component_loop [Finite N] {fuel : Nat} (ih : VisitsTo graph fuel) {C : List N}
    {s₁ : WTO N} (hs1 : Stacked s₁) (hfuel : {u | s₁.getCDN u = 0}.ncard ≤ fuel)
    (hclosed : ∀ x w, x = v ∨ x ∈ C → Edge graph x w → s₁.getCDN w = 0 → w ∈ C)
    (hdown : ∀ x w, x ∈ C → w ∈ s₁.stack → ¬ Edge graph x w) :
    ∀ (rest pre : List N) (t : WTO N) (parts : List (WTOComponent N)),
      graph.successors v = pre ++ rest → ComponentInv graph C s₁ pre t parts →
      ∃ t' parts', rest.foldlM (fun (r : WTO N × List (WTOComponent N)) succ =>
          if r.1.getCDN succ = 0 then
            (visit graph fuel r.1 succ r.2).map fun t => (t.state, t.partition)
          else some r) (t, parts) = some (t', parts') ∧
        ComponentInv graph C s₁ (graph.successors v) t' parts' := by
  intro rest
  induction rest with
  | nil =>
    intro pre t parts hpre h
    rw [append_nil] at hpre
    exact ⟨t, parts, rfl, hpre ▸ h⟩
  | cons w rest ihrest =>
    intro pre t parts hpre h
    have hsplit : graph.successors v = (pre ++ [w]) ++ rest := by
      rw [hpre, append_assoc]
      rfl
    have hvw : Edge graph v w := by
      show w ∈ graph.successors v
      rw [hpre]
      exact mem_append_right pre mem_cons_self
    by_cases hw : t.getCDN w = 0
    · obtain ⟨t1, xs', q', hcall, hspec⟩ := ih t w parts (h.stacked hs1) hw
        (h.keep.ncard_le.trans hfuel)
      have hwC : w ∈ C := hclosed v w (.inl rfl) hvw (h.keep.was_zero hw)
      -- the new nodes are in `C`, so none of them has an edge down the stack
      have hwhite : ∀ u, White graph t w u → u ∈ C := by
        intro u hu
        induction hu with
        | refl => exact hwC
        | tail _ hstep ihpath =>
          exact hclosed _ _ (.inr ihpath) hstep.1 (h.keep.was_zero hstep.2)
      have hinC : ∀ u, t.getCDN u = 0 → t1.state.getCDN u ≠ 0 → u ∈ C :=
        fun u hu hu' => hwhite u (hspec.white u hu hu')
      have hnil : xs' = [] := by
        by_contra hne
        obtain ⟨-, x, y, hx, hy, hxy, -⟩ := hspec.back hne
        obtain ⟨hx0, hx1, -⟩ := (hspec.mem_xs x).mp hx
        rw [h.stack] at hy
        exact hdown x y (hinC x hx0 hx1) hy hxy
      subst hnil
      have hnext : ComponentInv graph C s₁ (pre ++ [w]) t1.state (q' ++ parts) := by
        constructor
        case added => exact h.added.trans hspec.added h.keep hspec.keep
        case keep => exact h.keep.trans hspec.keep
        case inside =>
          intro u hu hu'
          by_cases ht : t.getCDN u = 0
          · refine ⟨hinC u ht hu', ?_⟩
            by_contra htop
            cases (hspec.mem_xs u).mpr ⟨ht, hu', htop⟩
          · rw [hspec.keep u ht]
            exact h.inside u hu ht
        case num_ge => exact h.num_ge.trans hspec.num_ge
        case num_le =>
          have h1 := h.num_le
          have h2 := hspec.num_le
          have h3 := visits_add (orderAll q').length (orderAll parts).length
          rw [length_nil] at h2
          rw [orderAll_append, length_append]
          omega
        case stack => exact hspec.stack.trans h.stack
        case visited =>
          intro x hx
          rcases mem_append.mp hx with hx | hx
          · exact hspec.keep.ne_zero (h.visited x hx)
          · rw [mem_singleton.mp hx]
            exact hspec.visited
      obtain ⟨t', parts', hfold, ht'⟩ := ihrest (pre ++ [w]) t1.state (q' ++ parts) hsplit hnext
      refine ⟨t', parts', ?_, ht'⟩
      rw [foldlM_cons, if_pos hw, hcall]
      show rest.foldlM _ (t1.state, t1.partition) = _
      rw [hspec.partition]
      exact hfold
    · obtain ⟨t', parts', hfold, ht'⟩ := ihrest (pre ++ [w]) t parts hsplit
        { h with
          visited := fun x hx => by
            rcases mem_append.mp hx with hx | hx
            · exact h.visited x hx
            · rw [mem_singleton.mp hx]
              exact hw }
      refine ⟨t', parts', ?_, ht'⟩
      rw [foldlM_cons, if_neg hw]
      exact hfold

omit [DecidableEq N] in
/-- When the loop of `component` is over, everything above the root has been finished: it is
    reachable from the root inside `xs`, and edges from finished nodes lead to finished ones. -/
theorem ComponentInv.all_done {s₁ t : WTO N} {parts : List (WTOComponent N)}
    (h : ComponentInv graph xs s₁ (graph.successors v) t parts) (hv : v ∉ xs)
    (hzero : ∀ u ∈ xs, s₁.getCDN u = 0)
    (htree : ∀ x ∈ xs, ReflTransGen (fun a b => Edge graph a b ∧ b ∈ xs) v x) :
    ∀ x ∈ xs, t.getCDN x = ⊤ := by
  have hpath : ∀ x, ReflTransGen (fun a b => Edge graph a b ∧ b ∈ xs) v x →
      x = v ∨ (x ∈ xs ∧ t.getCDN x = ⊤) := by
    intro x hx
    induction hx with
    | refl => exact .inl rfl
    | tail _ hstep ih =>
      obtain ⟨he, hb⟩ := hstep
      refine .inr ⟨hb, ?_⟩
      rcases ih with rfl | ⟨ha, htop⟩
      · exact (h.inside _ (hzero _ hb) (h.visited _ he)).2
      · exact (h.added.edges _ _ ((h.added.mem _).mpr ⟨hzero _ ha, htop⟩) he).1
  intro x hx
  refine ((hpath x (htree x hx)).resolve_left ?_).2
  rintro rfl
  exact hv hx

/-- A root with a loop: a cycle. -/
theorem LoopInv.cycle (h : LoopInv graph s v p (graph.successors v) r xs q) (hs : Stacked s)
    (hv : s.getCDN v = 0) (hhead : r.head = (s.num + 1 : Nat)) {s₁ t : WTO N}
    {parts : List (WTOComponent N)} (ho : Opened graph s v r xs s₁)
    (hc : ComponentInv graph xs s₁ (graph.successors v) t parts) :
    VisitSpec graph s v p ⟨t, r.head, .cycle v parts :: r.partition⟩ [] (.cycle v parts :: q) := by
  have hvxs : v ∉ xs := fun hm => ((h.mem_xs v).mp hm).1 rfl
  have hdone := hc.all_done hvxs ho.zero h.tree
  have hv_top : t.getCDN v = ⊤ := by
    rw [hc.keep v (by rw [ho.self]; exact top_ne_zero)]
    exact ho.self
  -- other nodes with a number keep it
  have hother : ∀ u, u ≠ v → u ∉ xs → r.state.getCDN u ≠ 0 → t.getCDN u = r.state.getCDN u := by
    intro u huv hux hu
    have hu1 := ho.other u huv hux
    rw [hc.keep u (by rw [hu1]; exact hu), hu1]
  have hr_zero : ∀ u, s.getCDN u = 0 → t.getCDN u ≠ 0 → r.state.getCDN u ≠ 0 := by
    intro u hu hu' hr
    have huv : u ≠ v := by
      rintro rfl
      exact h.self_ne.1 hr
    have hux : u ∉ xs := fun hm => ((h.mem_xs u).mp hm).2.2.1 hr
    exact hux (hc.inside u ((ho.other u huv hux).trans hr) hu').1
  have htop : ∀ u, r.state.getCDN u = ⊤ → t.getCDN u = ⊤ := by
    intro u hu
    have huv : u ≠ v := by
      rintro rfl
      exact h.self_ne.2 hu
    have hux : u ∉ xs := fun hm => ((h.mem_xs u).mp hm).2.2.2 hu
    rw [hother u huv hux (by rw [hu]; exact top_ne_zero)]
    exact hu
  have hfinished : ∀ u, s.getCDN u = 0 → t.getCDN u ≠ 0 → t.getCDN u = ⊤ := by
    intro u hu hu'
    by_cases huv : u = v
    · rw [huv]
      exact hv_top
    · by_cases hux : u ∈ xs
      · exact hdone u hux
      · have hr := hr_zero u hu hu'
        refine htop u ?_
        by_contra hnot
        exact hux ((h.mem_xs u).mpr ⟨huv, hu, hr, hnot⟩)
  have hparts : ∀ u, u ∈ orderAll parts ↔ u ∈ xs := by
    intro u
    rw [hc.added.mem]
    constructor
    · rintro ⟨hu, hu'⟩
      exact (hc.inside u hu (by rw [hu']; exact top_ne_zero)).1
    · intro hu
      exact ⟨ho.zero u hu, hdone u hu⟩
  have hlength : (orderAll parts).length = xs.length :=
    ((perm_ext_iff_of_nodup hc.added.nodup h.nodup).mpr hparts).length_eq
  have horder : orderAll (.cycle v parts :: q) = (v :: orderAll parts) ++ orderAll q := rfl
  have hcycle : orderAll [.cycle v parts] = v :: orderAll parts := by
    show (v :: orderAll parts) ++ [] = _
    rw [append_nil]
  -- an edge from the cycle to a node finished outside it goes forward
  have hout : ∀ u w, u = v ∨ u ∈ xs → r.state.getCDN w = ⊤ →
      t.getCDN w = ⊤ ∧ (s.getCDN w = ⊤ ∨ (w ∈ orderAll (.cycle v parts :: q) ∧
        Placed (.cycle v parts :: q) u w)) := by
    intro u w hu hw
    refine ⟨htop w hw, (h.finished hw).imp_right fun hw => ⟨?_, ?_⟩⟩
    · rw [horder]
      exact mem_append_right _ hw
    · refine placed_append (q := [.cycle v parts]) ?_ hw
      rw [hcycle, mem_cons, hparts]
      exact hu
  constructor
  case partition =>
    rw [h.partition]
    rfl
  case added =>
    constructor
    case nodup =>
      rw [horder]
      refine nodup_append.mpr ⟨?_, h.added.nodup, fun a ha b hb hab => ?_⟩
      · refine nodup_cons.mpr ⟨fun hm => hvxs ((hparts v).mp hm), hc.added.nodup⟩
      · subst hab
        have hra := ((h.added.mem a).mp hb).2
        rcases mem_cons.mp ha with rfl | ha
        · exact h.self_ne.2 hra
        · exact ((h.mem_xs a).mp ((hparts a).mp ha)).2.2.2 hra
    case mem =>
      intro u
      rw [horder, mem_append, mem_cons, hparts, h.added.mem]
      constructor
      · rintro ((rfl | hu) | ⟨hu, hu'⟩)
        · exact ⟨hv, hv_top⟩
        · exact ⟨((h.mem_xs u).mp hu).2.1, hdone u hu⟩
        · exact ⟨hu, htop u hu'⟩
      · rintro ⟨hu, hu'⟩
        have hr := hr_zero u hu (by rw [hu']; exact top_ne_zero)
        by_cases huv : u = v
        · exact .inl (.inl huv)
        · by_cases hux : u ∈ xs
          · exact .inl (.inr hux)
          · refine .inr ⟨hu, ?_⟩
            by_contra hnot
            exact hux ((h.mem_xs u).mpr ⟨huv, hu, hr, hnot⟩)
    case edges =>
      intro u w hu huw
      rw [horder, mem_append, mem_cons, hparts] at hu
      rcases hu with hu | hu
      · rcases h.target hs hhead hu huw with rfl | hw | hw
        · -- back to the head of the cycle
          refine ⟨hv_top, .inr ⟨?_, ?_⟩⟩
          · rw [horder]
            exact mem_append_left _ mem_cons_self
          · refine Placed.append_right (q := [.cycle w parts]) (placed_head ?_) q
            exact mem_cons.mpr (hu.imp_right (hparts u).mpr)
        · -- inside the cycle
          refine ⟨hdone w hw, .inr ⟨?_, ?_⟩⟩
          · rw [horder]
            exact mem_append_left _ (mem_cons_of_mem v ((hparts w).mpr hw))
          · refine Placed.append_right (q := [.cycle v parts]) ?_ q
            rcases hu with rfl | hu
            · exact placed_of_head ((hparts w).mpr hw)
            · have hplaced := (hc.added.edges u w ((hparts u).mpr hu) huw).2
              have hzero := ho.zero w hw
              have hnot : s₁.getCDN w ≠ ⊤ := by
                rw [hzero]
                exact zero_ne_top
              exact (hplaced.resolve_left hnot).2.cycle v
        · exact hout u w hu hw
      · obtain ⟨hw, hplaced⟩ := h.added.edges u w hu huw
        refine ⟨htop w hw, hplaced.imp_right fun ⟨hw, hplaced⟩ => ⟨?_, ?_⟩⟩
        · rw [horder]
          exact mem_append_right _ hw
        · exact hplaced.append_left [.cycle v parts]
  case keep =>
    intro u hu
    have huv : u ≠ v := by
      rintro rfl
      exact hu hv
    have hux : u ∉ xs := fun hm => hu ((h.mem_xs u).mp hm).2.1
    have hr := h.keep u hu
    show t.getCDN u = s.getCDN u
    rw [hother u huv hux (by rw [hr]; exact hu), hr]
  case num_ge =>
    refine ((le_succ s.num).trans h.num_ge).trans ?_
    rw [← ho.num]
    exact hc.num_ge
  case num_le =>
    have h1 := h.num_le
    have h2 := hc.num_le
    have h3 := visits_add (xs.length + 1) (orderAll q).length
    rw [ho.num, hlength] at h2
    rw [horder, length_append, length_cons, hlength, length_nil]
    rw [visits_succ xs.length] at h3
    show t.num ≤ _
    omega
  case visited =>
    show t.getCDN v ≠ 0
    rw [hv_top]
    exact top_ne_zero
  case white => exact fun u hu hu' => h.white u hu (hr_zero u hu hu')
  case bound => exact fun u hu hu1 hu2 => absurd (hfinished u hu hu1) hu2
  case stack => exact hc.stack.trans ho.stack
  case nodup => exact nodup_nil
  case mem_xs =>
    intro u
    exact iff_of_false not_mem_nil fun hu => hu.2.2 (hfinished u hu.1 hu.2.1)
  case tree => exact nofun
  case succ =>
    intro u w hu hu' huw
    show t.getCDN w ≠ 0
    have hr := hr_zero u hu hu'
    have hw : r.state.getCDN w ≠ 0 := by
      by_cases huv : u = v
      · exact h.visited w (huv ▸ huw)
      · exact h.succ u w huv hu hr huw
    by_cases hwv : w = v
    · rw [hwv, hv_top]
      exact top_ne_zero
    · by_cases hwx : w ∈ xs
      · rw [hdone w hwx]
        exact top_ne_zero
      · rw [hother w hwv hwx hw]
        exact hw
  case low => exact nofun
  case root =>
    intro _
    show (s.num : CycleDepthNumber) < r.head
    rw [hhead]
    exact_mod_cast lt_succ_self s.num
  case back => exact fun hne => absurd rfl hne

-- ── every visit returns

theorem loopInv_enter (hv : s.getCDN v = 0) :
    LoopInv graph s v p [] ⟨s.enter v, ((s.enter v).num : Nat), false, p⟩ [] [] := by
  have hget : ∀ u, (s.enter v).getCDN u = if u = v then ((s.num + 1 : Nat) : CycleDepthNumber)
      else s.getCDN u := fun u => Function.update_apply ..
  have hget_ne : ∀ u, u ≠ v → (s.enter v).getCDN u = s.getCDN u :=
    fun u hu => (hget u).trans (if_neg hu)
  -- a node that was not visited has a number now if it is `v`
  have hnew : ∀ u, u ≠ v → s.getCDN u = 0 → (s.enter v).getCDN u ≠ 0 → False := by
    intro u huv hu hu'
    rw [hget_ne u huv] at hu'
    exact hu' hu
  constructor
  case partition => rfl
  case added =>
    refine ⟨nodup_nil, fun u => iff_of_false not_mem_nil fun hu => ?_, nofun⟩
    obtain ⟨hu, hu'⟩ := hu
    by_cases huv : u = v
    · rw [hget, if_pos huv] at hu'
      exact coe_ne_top hu'
    · rw [hget_ne u huv, hu] at hu'
      exact zero_ne_top hu'
  case keep =>
    intro u hu
    refine hget_ne u ?_
    rintro rfl
    exact hu hv
  case self => exact (hget v).trans (if_pos rfl)
  case num_ge => exact le_rfl
  case num_le => exact le_add_right _ _
  case white =>
    intro u hu hu'
    by_cases huv : u = v
    · rw [huv]
      exact .refl
    · exact (hnew u huv hu hu').elim
  case bound => exact fun u huv hu hu' => (hnew u huv hu hu').elim
  case stack => rfl
  case nodup => exact nodup_nil
  case mem_xs =>
    intro u
    exact iff_of_false not_mem_nil fun hu => hnew u hu.1 hu.2.1 hu.2.2.1
  case tree => exact nofun
  case succ => exact fun u w huv hu hu' => (hnew u huv hu hu').elim
  case visited => exact nofun
  case low => exact nofun
  case low_self => exact nofun
  case head_le => exact le_rfl
  case back => exact .inl rfl
  case loop_head => exact fun hne => absurd rfl hne
  case loop_xs => exact fun hne => absurd rfl hne
  case loop_self => exact nofun

omit [DecidableEq N] in
theorem LoopInv.ncard_lt [Finite N] (h : LoopInv graph s v p pre r xs q) (hv : s.getCDN v = 0) :
    {u | r.state.getCDN u = 0}.ncard < {u | s.getCDN u = 0}.ncard := by
  refine Set.ncard_lt_ncard ⟨fun u hu => h.keep.was_zero hu, fun hsub => ?_⟩ (Set.toFinite _)
  exact h.self_ne.1 (hsub hv)

theorem visit_loop [Finite N] {fuel : Nat} (ih : VisitsTo graph fuel) (hs : Stacked s)
    (hv : s.getCDN v = 0) (hfuel : {u | s.getCDN u = 0}.ncard ≤ fuel + 1) :
    ∀ (rest pre : List N) (r : Visit N) (xs : List N) (q : List (WTOComponent N)),
      graph.successors v = pre ++ rest → LoopInv graph s v p pre r xs q →
      ∃ r' xs' q', rest.foldlM (Visit.follow (visit graph fuel)) r = some r' ∧
        LoopInv graph s v p (graph.successors v) r' xs' q' := by
  intro rest
  induction rest with
  | nil =>
    intro pre r xs q hpre h
    rw [append_nil] at hpre
    exact ⟨r, xs, q, rfl, hpre ▸ h⟩
  | cons w rest ihrest =>
    intro pre r xs q hpre h
    have hsplit : graph.successors v = (pre ++ [w]) ++ rest := by
      rw [hpre, append_assoc]
      rfl
    have hvw : Edge graph v w := by
      show w ∈ graph.successors v
      rw [hpre]
      exact mem_append_right pre mem_cons_self
    by_cases hw : r.state.getCDN w = 0
    · have hless := h.ncard_lt hv
      obtain ⟨t, xs', q', hcall, ht⟩ := ih r.state w r.partition (h.stacked hs) hw (by omega)
      obtain ⟨r', xs2, q2, hfold, hr'⟩ := ihrest (pre ++ [w]) _ _ _ hsplit (h.called hs hvw hw ht)
      refine ⟨r', xs2, q2, ?_, hr'⟩
      rw [foldlM_cons, Visit.follow, if_pos hw, hcall]
      exact hfold
    · obtain ⟨r', xs2, q2, hfold, hr'⟩ := ihrest (pre ++ [w]) _ _ _ hsplit (h.seen hs hvw hw)
      refine ⟨r', xs2, q2, ?_, hr'⟩
      rw [foldlM_cons, Visit.follow, if_neg hw]
      exact hfold

theorem visit_spec [Finite N] : ∀ fuel : Nat, VisitsTo graph fuel := by
  intro fuel
  induction fuel with
  | zero =>
    intro s v p _ hv hfuel
    have hempty : {u | s.getCDN u = 0} = ∅ :=
      (Set.ncard_eq_zero (Set.toFinite _)).mp (le_zero.mp hfuel)
    exact absurd (show v ∈ {u | s.getCDN u = 0} from hv) (by rw [hempty]; exact id)
  | succ fuel ih =>
    intro s v p hs hv hfuel
    obtain ⟨r, xs, q, hfold, h⟩ := visit_loop ih hs hv hfuel (graph.successors v) [] _ [] [] rfl
      (loopInv_enter (p := p) hv)
    have hself := h.self
    have hvisit : visit graph (fuel + 1) s v p = r.finish graph (visit graph fuel) v := by
      rw [visit, hfold]
      rfl
    by_cases hhead : r.head = (s.num + 1 : Nat)
    · by_cases hloop : r.loop
      · -- the nodes above `v` are visited again
        have ho := h.opened
        obtain ⟨t, parts, hcomp, hc⟩ := component_loop ih (ho.stacked h hs hv) (by
            have := ho.ncard_lt h hv
            omega)
          (fun x w hx hxw => ho.closed h hs hhead hx hxw)
          (fun x w hx hw => h.no_back hs hhead (.inr hx) (ho.stack ▸ hw))
          (graph.successors v) [] _ [] rfl (ComponentInv.refl graph xs _)
        refine ⟨_, [], _, ?_, h.cycle hs hv hhead ho hc⟩
        rw [hvisit, Visit.finish, if_pos (hhead.trans hself.symm)]
        show (if r.loop = true then _ else _) = _
        rw [if_pos hloop, component, hcomp]
        rfl
      · refine ⟨_, [], _, ?_, h.vertex hs hv hhead hloop⟩
        rw [hvisit, Visit.finish, if_pos (hhead.trans hself.symm)]
        show (if r.loop = true then _ else _) = _
        rw [if_neg hloop]
    · refine ⟨_, xs ++ [v], q, ?_, h.stay hv hhead⟩
      rw [hvisit, Visit.finish, if_neg (fun he => hhead (he.trans hself))]

-- ── the order

omit [DecidableEq N] in
/-- `component` has the answers that it has with a visit that answers less often. -/
theorem component_mono {f g : WTO N → N → List (WTOComponent N) → Option (Result N)}
    (hfg : ∀ s v p t, f s v p = some t → g s v p = some t) (s : WTO N) (node : N)
    (c : WTO N × WTOComponent N) (h : component graph f s node = some c) :
    component graph g s node = some c := by
  rw [component] at h ⊢
  obtain ⟨a, ha, rfl⟩ := map_eq_some_iff.mp h
  refine map_eq_some_iff.mpr ⟨a, SvfLoop.foldlM_mono ?_ _ _ _ ha, rfl⟩
  intro b w b' hb
  by_cases hw : b.1.getCDN w = 0
  · rw [if_pos hw] at hb ⊢
    obtain ⟨t, ht, rfl⟩ := map_eq_some_iff.mp hb
    exact map_eq_some_iff.mpr ⟨t, hfg _ _ _ _ ht, rfl⟩
  · rw [if_neg hw] at hb ⊢
    exact hb

theorem finish_mono {f g : WTO N → N → List (WTOComponent N) → Option (Result N)}
    (hfg : ∀ s v p t, f s v p = some t → g s v p = some t) (r : Visit N) (node : N)
    (t : Result N) (h : r.finish graph f node = some t) : r.finish graph g node = some t := by
  rw [Visit.finish] at h ⊢
  by_cases hhead : r.head = r.state.getCDN node
  · rw [if_pos hhead] at h ⊢
    by_cases hloop : r.loop
    · simp only [hloop, if_true] at h ⊢
      obtain ⟨c, hc, rfl⟩ := map_eq_some_iff.mp h
      exact map_eq_some_iff.mpr ⟨c, component_mono hfg _ _ _ hc, rfl⟩
    · simp only [hloop] at h ⊢
      exact h
  · rw [if_neg hhead] at h ⊢
    exact h

theorem visit_succ : ∀ (fuel : Nat) (s : WTO N) (v : N) (p : List (WTOComponent N))
    (t : Result N), visit graph fuel s v p = some t → visit graph (fuel + 1) s v p = some t := by
  intro fuel
  induction fuel with
  | zero => exact fun s v p t h => nomatch h
  | succ fuel ih =>
    intro s v p t h
    rw [visit] at h ⊢
    obtain ⟨r, hr, ht⟩ := bind_eq_some_iff.mp h
    refine bind_eq_some_iff.mpr ⟨r, SvfLoop.foldlM_mono ?_ _ _ _ hr, finish_mono ih _ _ _ ht⟩
    intro r w r' hr'
    rw [Visit.follow] at hr' ⊢
    by_cases hw : r.state.getCDN w = 0
    · rw [if_pos hw] at hr' ⊢
      obtain ⟨t', ht', rfl⟩ := map_eq_some_iff.mp hr'
      exact map_eq_some_iff.mpr ⟨t', ih _ _ _ _ ht', rfl⟩
    · rw [if_neg hw] at hr' ⊢
      exact hr'

theorem init_succ (entry : N) (fuel : Nat) (t : List (WTOComponent N) × Nat)
    (h : init graph entry fuel = some t) : init graph entry (fuel + 1) = some t := by
  obtain ⟨r, hr, rfl⟩ := map_eq_some_iff.mp h
  exact map_eq_some_iff.mpr ⟨r, visit_succ fuel _ _ _ _ hr, rfl⟩

end Search

end WTO

end SvfWTO
