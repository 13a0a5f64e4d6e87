import Mathlib

/-!
# `ConstraintGraph`: moving the edges of a merged node

Each edge of the constraint graph is kept in the set of its kind of the graph, and in several sets
of both of its nodes. The sets tell edges apart by kind, source and target. When a node is merged
into its representative, `moveEdgesToRepNode` takes its edges out of all of them and adds each
anew with the representative as its end. Copy and gep edges that would become self loops are
dropped, and a gep whose offset may not be zero is reported to the caller. `Addr` edges are
dropped, too: the points-to sets have been united before.

The heart is `foldl_moveOne_covers`: taking out and adding anew one edge after the other neither loses an
edge nor makes one up, as long as no new edge is one of those still to be moved. Two normal geps
that come to lie between the same ends are one entry of the sets, and one access path is lost.
So access paths are kept where such geps agree (**`moveEdgesToRepNode_merged`**).
-/

namespace SvfConstraintGraph

open List

-- ── Edges and their sets

structure AccessPath (A : Type) where
  fldIdx : ℤ
  rest : A

inductive ConstraintEdgeK where
  | Addr
  | Copy
  | Store
  | Load
  | NormalGep
  | VariantGep
  deriving DecidableEq

inductive EdgeData (A : Type) where
  | Addr
  | Copy
  | Store
  | Load
  | NormalGep (ap : AccessPath A)
  | VariantGep

inductive EdgeSet where
  | all
  | addr
  | direct
  | copy
  | gep
  | load
  | store
  deriving DecidableEq

@[ext]
structure ConstraintEdge (N A : Type) where
  src : N
  dst : N
  data : EdgeData A

/-- The names of all sets: those of the graph, and those of each node. -/
inductive Index (N : Type) where
  | graph (set : EdgeSet)
  | outgoing (n : N) (set : EdgeSet)
  | incoming (n : N) (set : EdgeSet)
  deriving DecidableEq

variable {N A : Type}

def EdgeData.kind : EdgeData A → ConstraintEdgeK
  | Addr => .Addr
  | Copy => .Copy
  | Store => .Store
  | Load => .Load
  | NormalGep _ => .NormalGep
  | VariantGep => .VariantGep

def ConstraintEdgeK.isDirect : ConstraintEdgeK → Bool
  | Copy | NormalGep | VariantGep => true
  | Addr | Store | Load => false

def ConstraintEdgeK.graphSet : ConstraintEdgeK → EdgeSet
  | Addr => .addr
  | Store => .store
  | Load => .load
  | Copy | NormalGep | VariantGep => .direct

def ConstraintEdgeK.nodeSets : ConstraintEdgeK → List EdgeSet
  | Addr => [.addr, .all]
  | Store => [.store, .all]
  | Load => [.load, .all]
  | Copy => [.direct, .all, .copy]
  | NormalGep | VariantGep => [.direct, .all, .gep]

/-- What `equalGEdge` compares. -/
def ConstraintEdge.key (e : ConstraintEdge N A) : ConstraintEdgeK × N × N :=
  (e.data.kind, e.src, e.dst)

def indexes (key : ConstraintEdgeK × N × N) : List (Index N) :=
  .graph key.1.graphSet :: (key.1.nodeSets.map (Index.outgoing key.2.1) ++
    key.1.nodeSets.map (Index.incoming key.2.2))

def isZeroOffsettedGepCGEdge (e : ConstraintEdge N A) : Bool :=
  match e.data with
  | .NormalGep ap => decide (ap.fldIdx = 0)
  | _ => false

/-- The constraint graph. A map that does not mention a node is `none` or empty there, and a set is
    a list in the order of its iteration. -/
structure ConstraintGraph (N A : Type) where
  nodes : Finset N
  nodeToRepMap : N → Option N
  nodeToSubsMap : N → Finset N
  isPWCNode : N → Bool
  sets : Index N → List (ConstraintEdge N A)

namespace ConstraintGraph

def sccRepNode (g : ConstraintGraph N A) (id : N) : N := (g.nodeToRepMap id).getD id

def getConstraintNode (g : ConstraintGraph N A) (id : N) : N := g.sccRepNode id

variable [DecidableEq N]

section

variable (g : ConstraintGraph N A)

def hasEdge (src dst : N) (kind : ConstraintEdgeK) : Bool :=
  (g.sets (.graph kind.graphSet)).any fun f => f.key = (kind, src, dst)

def insertEdge (e : ConstraintEdge N A) : ConstraintGraph N A :=
  { g with
    sets := fun i =>
      if i ∈ indexes e.key then
        if (g.sets i).any fun f => f.key = e.key then g.sets i else e :: g.sets i
      else g.sets i }

def eraseEdge (e : ConstraintEdge N A) : ConstraintGraph N A :=
  { g with
    sets := fun i =>
      if i ∈ indexes (e.data.kind, g.getConstraintNode e.src, g.getConstraintNode e.dst) then
        (g.sets i).filter fun f => f.key ≠ e.key
      else g.sets i }

-- ── Adding and removing edges

section

variable (src dst : N)

def addCGEdge (data : EdgeData A) : ConstraintGraph N A :=
  let srcNode := g.getConstraintNode src
  let dstNode := g.getConstraintNode dst
  if g.hasEdge srcNode dstNode data.kind then g else g.insertEdge ⟨srcNode, dstNode, data⟩

def addAddrCGEdge : ConstraintGraph N A :=
  g.addCGEdge src dst .Addr

def addCopyCGEdge : ConstraintGraph N A :=
  let srcNode := g.getConstraintNode src
  let dstNode := g.getConstraintNode dst
  if g.hasEdge srcNode dstNode .Copy || srcNode = dstNode then g
  else g.insertEdge ⟨srcNode, dstNode, .Copy⟩

def addNormalGepCGEdge (ap : AccessPath A) : ConstraintGraph N A :=
  g.addCGEdge src dst (.NormalGep ap)

def addVariantGepCGEdge : ConstraintGraph N A :=
  g.addCGEdge src dst .VariantGep

def addLoadCGEdge : ConstraintGraph N A :=
  g.addCGEdge src dst .Load

def addStoreCGEdge : ConstraintGraph N A :=
  g.addCGEdge src dst .Store

end

section

variable (e : ConstraintEdge N A)

def removeAddrEdge : ConstraintGraph N A :=
  g.eraseEdge e

def removeLoadEdge : ConstraintGraph N A :=
  g.eraseEdge e

def removeStoreEdge : ConstraintGraph N A :=
  g.eraseEdge e

def removeDirectEdge : ConstraintGraph N A :=
  g.eraseEdge e

-- ── Moving edges

def reTarget (src dst : N) : ConstraintGraph N A :=
  match e.data with
  | .Load => (g.removeLoadEdge e).addLoadCGEdge src dst
  | .Store => (g.removeStoreEdge e).addStoreCGEdge src dst
  | .Copy => (g.removeDirectEdge e).addCopyCGEdge src dst
  | .NormalGep ap => (g.removeDirectEdge e).addNormalGepCGEdge src dst ap
  | .VariantGep => (g.removeDirectEdge e).addVariantGepCGEdge src dst
  | .Addr => g.removeAddrEdge e

end

end

def reTargetDstOfEdge (newDstNode : N) (g : ConstraintGraph N A) (e : ConstraintEdge N A) :
    ConstraintGraph N A :=
  g.reTarget e e.src newDstNode

def reTargetSrcOfEdge (newSrcNode : N) (g : ConstraintGraph N A) (e : ConstraintEdge N A) :
    ConstraintGraph N A :=
  g.reTarget e newSrcNode e.dst

/-- An edge inside of the component: a copy or a gep is removed, and the flag is set by a gep
    whose offset may not be zero. -/
def moveInside (reTargetEdge : ConstraintGraph N A → ConstraintEdge N A → ConstraintGraph N A)
    (acc : ConstraintGraph N A × Bool) (e : ConstraintEdge N A) : ConstraintGraph N A × Bool :=
  match e.data with
  | .Copy => (acc.1.removeDirectEdge e, acc.2)
  | .NormalGep _ => (acc.1.removeDirectEdge e, acc.2 || !isZeroOffsettedGepCGEdge e)
  | .VariantGep => (acc.1.removeDirectEdge e, acc.2 || !isZeroOffsettedGepCGEdge e)
  | .Load => (reTargetEdge acc.1 e, acc.2)
  | .Store => (reTargetEdge acc.1 e, acc.2)
  | .Addr => (acc.1.removeAddrEdge e, acc.2)

/-- The edges are split by the representative of their other end, and each part is worked off from
    its back. -/
def moveEdges (reTargetEdge : ConstraintGraph N A → ConstraintEdge N A → ConstraintGraph N A)
    (otherEnd : ConstraintEdge N A → N) (rep : N) (edges : List (ConstraintEdge N A))
    (g : ConstraintGraph N A) : ConstraintGraph N A × Bool :=
  let nonSccEdges := edges.filter fun e => g.sccRepNode (otherEnd e) ≠ rep
  let sccEdges := edges.filter fun e => g.sccRepNode (otherEnd e) = rep
  sccEdges.reverse.foldl (moveInside reTargetEdge)
    (nonSccEdges.reverse.foldl reTargetEdge g, false)

section

variable (g : ConstraintGraph N A)

def moveInEdgesToRepNode (node rep : N) : ConstraintGraph N A × Bool :=
  moveEdges (reTargetDstOfEdge rep) ConstraintEdge.src rep (g.sets (.incoming node .all)) g

def moveOutEdgesToRepNode (node rep : N) : ConstraintGraph N A × Bool :=
  moveEdges (reTargetSrcOfEdge rep) ConstraintEdge.dst rep (g.sets (.outgoing node .all)) g

/-- `moveEdgesToRepNode(node, rep)`, which returns whether a gep inside of the component may change
    the offset. -/
def moveEdgesToRepNode (node rep : N) : ConstraintGraph N A × Bool :=
  let gepIn := g.moveInEdgesToRepNode node rep
  let gepOut := gepIn.1.moveOutEdgesToRepNode node rep
  (gepOut.1, gepIn.2 || gepOut.2)

-- ── Consistent sets

def Edges : Set (ConstraintEdge N A) :=
  {e | e ∈ g.sets (.graph e.data.kind.graphSet)}

end

/-- The sets agree, no two edges are equal for them, and the ends of an edge are no merged
    nodes. -/
structure Indexed (g : ConstraintGraph N A) : Prop where
  index : ∀ i e, e ∈ g.sets i ↔ e ∈ g.Edges ∧ i ∈ indexes e.key
  unique : ∀ e ∈ g.Edges, ∀ f ∈ g.Edges, e.key = f.key → e = f
  live : ∀ e ∈ g.Edges, g.sccRepNode e.src = e.src ∧ g.sccRepNode e.dst = e.dst

end ConstraintGraph

-- ── Sets of edges

section Moves

/-- A set without the edges that are equal to one. -/
def del (E : Set (ConstraintEdge N A)) (e : ConstraintEdge N A) : Set (ConstraintEdge N A) :=
  {f | f ∈ E ∧ f.key ≠ e.key}

def put (E : Set (ConstraintEdge N A)) (e : ConstraintEdge N A) : Set (ConstraintEdge N A) :=
  {f | f ∈ E ∨ (f = e ∧ ∀ f' ∈ E, f'.key ≠ e.key)}

def moveOne (move : ConstraintEdge N A → Option (ConstraintEdge N A))
    (E : Set (ConstraintEdge N A)) (e : ConstraintEdge N A) : Set (ConstraintEdge N A) :=
  match move e with
  | none => del E e
  | some e' => put (del E e) e'

variable {move : ConstraintEdge N A → Option (ConstraintEdge N A)} {E : Set (ConstraintEdge N A)}
  {e f : ConstraintEdge N A}

theorem moveOne_congr (move move' : ConstraintEdge N A → Option (ConstraintEdge N A))
    (h : move e = move' e) : moveOne move E e = moveOne move' E e := by
  unfold moveOne
  rw [h]

theorem mem_moveOne (h : f ∈ moveOne move E e) : (f ∈ E ∧ f.key ≠ e.key) ∨ move e = some f := by
  unfold moveOne at h
  cases hmove : move e with
  | none =>
    rw [hmove] at h
    exact .inl h
  | some e' =>
    rw [hmove] at h
    rcases h with h | ⟨rfl, -⟩
    · exact .inl h
    · exact .inr rfl

theorem moveOne_keeps (hf : f ∈ E) (hne : f.key ≠ e.key) : f ∈ moveOne move E e := by
  unfold moveOne
  cases move e with
  | none => exact ⟨hf, hne⟩
  | some e' => exact .inl ⟨hf, hne⟩

theorem moveOne_covers {e' : ConstraintEdge N A} (h : move e = some e') :
    ∃ f ∈ moveOne move E e, f.key = e'.key := by
  unfold moveOne
  rw [h]
  by_cases hold : ∃ f ∈ del E e, f.key = e'.key
  · obtain ⟨f, hf, hkey⟩ := hold
    exact ⟨f, .inl hf, hkey⟩
  · refine ⟨e', .inr ⟨rfl, ?_⟩, rfl⟩
    intro f hf hkey
    exact hold ⟨f, hf, hkey⟩

section

variable {l : List (ConstraintEdge N A)}

theorem mem_foldl_moveOne (h : f ∈ l.foldl (moveOne move) E) :
    (f ∈ E ∧ ∀ e ∈ l, f.key ≠ e.key) ∨ ∃ e ∈ l, move e = some f := by
  induction l generalizing E with
  | nil => exact .inl ⟨h, nofun⟩
  | cons e l ih =>
    rcases ih h with ⟨hf, hl⟩ | ⟨d, hd, hmove⟩
    · rcases mem_moveOne hf with ⟨hfE, hne⟩ | hmove
      · exact .inl ⟨hfE, List.forall_mem_cons.mpr ⟨hne, hl⟩⟩
      · exact .inr ⟨e, mem_cons_self, hmove⟩
    · exact .inr ⟨d, mem_cons_of_mem e hd, hmove⟩

theorem foldl_moveOne_keeps (hf : f ∈ E) (hl : ∀ e ∈ l, f.key ≠ e.key) :
    f ∈ l.foldl (moveOne move) E := by
  induction l generalizing E with
  | nil => exact hf
  | cons e l ih =>
    obtain ⟨hne, hl⟩ := List.forall_mem_cons.mp hl
    exact ih (moveOne_keeps hf hne) hl

/-- **Moves.** If no target is one of the edges to be moved, each target is there at the end, or an
    edge equal to it. -/
theorem foldl_moveOne_covers (hfresh : ∀ e ∈ l, ∀ e', move e = some e' → ∀ d ∈ l, e'.key ≠ d.key)
    {e' : ConstraintEdge N A} (he : e ∈ l) (hmove : move e = some e') :
    ∃ f ∈ l.foldl (moveOne move) E, f.key = e'.key := by
  induction l generalizing E with
  | nil => cases he
  | cons d l ih =>
    have hrest : ∀ e ∈ l, ∀ e', move e = some e' → ∀ d ∈ l, e'.key ≠ d.key := by
      intro e1 he1 e1' hmove1 d1 hd1
      exact hfresh e1 (mem_cons_of_mem d he1) e1' hmove1 d1 (mem_cons_of_mem d hd1)
    rw [foldl_cons]
    rcases List.mem_cons.mp he with rfl | he
    · obtain ⟨f, hf, hkey⟩ := moveOne_covers (E := E) hmove
      refine ⟨f, foldl_moveOne_keeps hf ?_, hkey⟩
      intro d1 hd1
      rw [hkey]
      exact hfresh e mem_cons_self e' hmove d1 (mem_cons_of_mem e hd1)
    · exact ih hrest he

end

end Moves

namespace ConstraintGraph

variable [DecidableEq N] {g : ConstraintGraph N A} {e : ConstraintEdge N A}

-- ── One edge

variable {k : ConstraintEdgeK} {x y : N} {s : EdgeSet}

section

omit [DecidableEq N]

theorem graph_mem_indexes : Index.graph s ∈ indexes (k, x, y) ↔ s = k.graphSet := by
  simp [indexes]

theorem outgoing_mem_indexes {x y n : N} :
    Index.outgoing n s ∈ indexes (k, x, y) ↔ n = x ∧ s ∈ k.nodeSets := by
  simp [indexes, eq_comm, and_comm]

theorem incoming_mem_indexes {x y n : N} :
    Index.incoming n s ∈ indexes (k, x, y) ↔ n = y ∧ s ∈ k.nodeSets := by
  simp [indexes, eq_comm, and_comm]

end

theorem all_mem_nodeSets (k : ConstraintEdgeK) : EdgeSet.all ∈ k.nodeSets := by
  cases k <;> decide

/-- The edges of a kind between two nodes are found by `hasEdge`. -/
theorem Indexed.hasEdge_iff (h : g.Indexed) :
    g.hasEdge x y k ↔ ∃ f ∈ g.Edges, f.key = (k, x, y) := by
  unfold hasEdge
  rw [any_eq_true]
  constructor
  · rintro ⟨f, hf, hkey⟩
    exact ⟨f, ((h.index _ f).mp hf).1, of_decide_eq_true hkey⟩
  · rintro ⟨f, hf, hkey⟩
    refine ⟨f, (h.index _ f).mpr ⟨hf, ?_⟩, decide_eq_true hkey⟩
    rw [hkey]
    exact graph_mem_indexes.mpr rfl

/-- `eraseEdge` on an edge between nodes that are not merged. -/
theorem mem_eraseEdge (hsrc : g.sccRepNode e.src = e.src) (hdst : g.sccRepNode e.dst = e.dst)
    (h : g.Indexed) {i : Index N} {f : ConstraintEdge N A} :
    f ∈ (g.eraseEdge e).sets i ↔ f ∈ g.sets i ∧ f.key ≠ e.key := by
  have hindex : indexes (e.data.kind, g.getConstraintNode e.src, g.getConstraintNode e.dst) =
      indexes e.key := by
    rw [getConstraintNode, getConstraintNode, hsrc, hdst]
    rfl
  unfold eraseEdge
  dsimp only
  rw [hindex]
  by_cases hi : i ∈ indexes e.key
  · rw [if_pos hi, mem_filter, decide_eq_true_iff]
  · rw [if_neg hi]
    constructor
    · intro hf
      refine ⟨hf, fun hkey => hi ?_⟩
      rw [← hkey]
      exact ((h.index i f).mp hf).2
    · exact And.left

section

variable (h : g.Indexed) (hsrc : g.sccRepNode e.src = e.src) (hdst : g.sccRepNode e.dst = e.dst)
include h hsrc hdst

theorem Indexed.eraseEdge :
    (g.eraseEdge e).Indexed ∧ (g.eraseEdge e).Edges = del g.Edges e := by
  have hedges : (g.eraseEdge e).Edges = del g.Edges e := by
    ext f
    exact mem_eraseEdge hsrc hdst h
  refine ⟨⟨?_, ?_, ?_⟩, hedges⟩
  · intro i f
    rw [mem_eraseEdge hsrc hdst h, hedges, h.index i f]
    constructor
    · rintro ⟨⟨hf, hi⟩, hne⟩
      exact ⟨⟨hf, hne⟩, hi⟩
    · rintro ⟨⟨hf, hne⟩, hi⟩
      exact ⟨⟨hf, hi⟩, hne⟩
  · rw [hedges]
    intro d hd f hf hkey
    exact h.unique d hd.1 f hf.1 hkey
  · rw [hedges]
    intro f hf
    exact h.live f hf.1

theorem Indexed.insertEdge (hnew : ∀ f ∈ g.Edges, f.key ≠ e.key) :
    (g.insertEdge e).Indexed ∧ (g.insertEdge e).Edges = put g.Edges e := by
  have hmem : ∀ i f, f ∈ (g.insertEdge e).sets i ↔ f ∈ g.sets i ∨ (f = e ∧ i ∈ indexes e.key) := by
    intro i f
    unfold ConstraintGraph.insertEdge
    dsimp only
    by_cases hi : i ∈ indexes e.key
    · have hnone : ¬ ((g.sets i).any fun f => f.key = e.key) := by
        rw [any_eq_true]
        rintro ⟨d, hd, hkey⟩
        exact hnew d ((h.index i d).mp hd).1 (of_decide_eq_true hkey)
      rw [if_pos hi, if_neg hnone, mem_cons, or_comm]
      exact or_congr_right (and_iff_left_of_imp fun _ => hi).symm
    · rw [if_neg hi]
      exact (or_iff_left fun hf => hi hf.2).symm
  have hedges : (g.insertEdge e).Edges = put g.Edges e := by
    ext f
    refine (hmem _ f).trans (or_congr_right ?_)
    constructor
    · rintro ⟨rfl, -⟩
      exact ⟨rfl, hnew⟩
    · rintro ⟨rfl, -⟩
      exact ⟨rfl, graph_mem_indexes.mpr rfl⟩
  refine ⟨⟨?_, ?_, ?_⟩, hedges⟩
  · intro i f
    rw [hmem, hedges, h.index i f]
    constructor
    · rintro (⟨hf, hi⟩ | ⟨rfl, hi⟩)
      · exact ⟨.inl hf, hi⟩
      · exact ⟨.inr ⟨rfl, hnew⟩, hi⟩
    · rintro ⟨hf | ⟨rfl, -⟩, hi⟩
      · exact .inl ⟨hf, hi⟩
      · exact .inr ⟨rfl, hi⟩
  · rw [hedges]
    rintro d (hd | ⟨rfl, -⟩) f (hf | ⟨rfl, -⟩) hkey
    · exact h.unique d hd f hf hkey
    · exact absurd hkey (hnew d hd)
    · exact absurd hkey.symm (hnew f hf)
    · rfl
  · rw [hedges]
    rintro f (hf | ⟨rfl, -⟩)
    · exact h.live f hf
    · exact ⟨hsrc, hdst⟩

end

-- ── Operations on edges

/-- An operation on edges leaves the sets consistent with the given edges, and nothing else
    changes. -/
structure Becomes (g g' : ConstraintGraph N A) (E : Set (ConstraintEdge N A)) : Prop where
  indexed : g'.Indexed
  edges : g'.Edges = E
  frame : g' = { g with sets := g'.sets }

omit [DecidableEq N] in
theorem Becomes.sccRepNode {g g' : ConstraintGraph N A} {E : Set (ConstraintEdge N A)}
    (h : Becomes g g' E) (x : N) : g'.sccRepNode x = g.sccRepNode x := by
  rw [h.frame]
  rfl

omit [DecidableEq N] in
theorem Becomes.trans {g g' g'' : ConstraintGraph N A} {E E' : Set (ConstraintEdge N A)}
    (h : Becomes g g' E) (h' : Becomes g' g'' E') : Becomes g g'' E' where
  indexed := h'.indexed
  edges := h'.edges
  frame := by
    rw [h'.frame, h.frame]

theorem Indexed.eraseEdge_becomes (h : g.Indexed) (hsrc : g.sccRepNode e.src = e.src)
    (hdst : g.sccRepNode e.dst = e.dst) : Becomes g (g.eraseEdge e) (del g.Edges e) where
  indexed := (h.eraseEdge hsrc hdst).1
  edges := (h.eraseEdge hsrc hdst).2
  frame := rfl

omit [DecidableEq N] in
theorem put_of_exists {E : Set (ConstraintEdge N A)} (h : ∃ f ∈ E, f.key = e.key) :
    put E e = E := by
  obtain ⟨f, hf, hkey⟩ := h
  ext d
  constructor
  · rintro (hd | ⟨-, hnone⟩)
    · exact hd
    · exact absurd hkey (hnone f hf)
  · exact .inl

theorem Indexed.addCGEdge (h : g.Indexed) (hx : g.sccRepNode x = x) (hy : g.sccRepNode y = y)
    (data : EdgeData A) :
    Becomes g (g.addCGEdge x y data) (put g.Edges ⟨x, y, data⟩) := by
  unfold ConstraintGraph.addCGEdge getConstraintNode
  dsimp only
  rw [hx, hy]
  by_cases hold : g.hasEdge x y data.kind
  · rw [if_pos hold, put_of_exists (h.hasEdge_iff.mp hold)]
    exact ⟨h, rfl, rfl⟩
  · rw [if_neg hold]
    have hnew : ∀ f ∈ g.Edges, f.key ≠ (⟨x, y, data⟩ : ConstraintEdge N A).key :=
      fun f hf hkey => hold (h.hasEdge_iff.mpr ⟨f, hf, hkey⟩)
    have hins := h.insertEdge (e := ⟨x, y, data⟩) hx hy hnew
    exact ⟨hins.1, hins.2, rfl⟩

theorem addCopyCGEdge_eq (hne : g.sccRepNode x ≠ g.sccRepNode y) :
    g.addCopyCGEdge x y = g.addCGEdge x y .Copy := by
  unfold addCopyCGEdge ConstraintGraph.addCGEdge getConstraintNode
  dsimp only
  rw [decide_eq_false hne, Bool.or_false]
  rfl

def reTargeted (x y : N) (e : ConstraintEdge N A) : Option (ConstraintEdge N A) :=
  if e.data.kind = .Addr then none else some ⟨x, y, e.data⟩

theorem Indexed.reTarget (h : g.Indexed) (hx : g.sccRepNode x = x) (hy : g.sccRepNode y = y)
    (hsrc : g.sccRepNode e.src = e.src) (hdst : g.sccRepNode e.dst = e.dst)
    (hcopy : e.data.kind = .Copy → x ≠ y) :
    Becomes g (g.reTarget e x y) (moveOne (reTargeted x y) g.Edges e) := by
  have herase := h.eraseEdge_becomes hsrc hdst
  have hx' : (g.eraseEdge e).sccRepNode x = x := (herase.sccRepNode x).trans hx
  have hy' : (g.eraseEdge e).sccRepNode y = y := (herase.sccRepNode y).trans hy
  have hadd : ∀ data, e.data = data → data.kind ≠ .Addr →
      Becomes g ((g.eraseEdge e).addCGEdge x y data) (moveOne (reTargeted x y) g.Edges e) := by
    intro data hdata hkind
    have hmove : reTargeted x y e = some ⟨x, y, data⟩ := by
      rw [reTargeted, hdata, if_neg hkind]
    rw [moveOne, hmove, ← herase.edges]
    exact herase.trans (herase.indexed.addCGEdge hx' hy' data)
  unfold ConstraintGraph.reTarget
  cases hdata : e.data with
  | Load => exact hadd .Load hdata (by simp [EdgeData.kind])
  | Store => exact hadd .Store hdata (by simp [EdgeData.kind])
  | Copy =>
    have hne : (g.eraseEdge e).sccRepNode x ≠ (g.eraseEdge e).sccRepNode y := by
      rw [hx', hy']
      exact hcopy (by rw [hdata]; rfl)
    dsimp only [removeDirectEdge]
    rw [addCopyCGEdge_eq hne]
    exact hadd .Copy hdata (by simp [EdgeData.kind])
  | NormalGep ap => exact hadd (.NormalGep ap) hdata (by simp [EdgeData.kind])
  | VariantGep => exact hadd .VariantGep hdata (by simp [EdgeData.kind])
  | Addr =>
    have hmove : reTargeted x y e = none := by
      rw [reTargeted, hdata]
      exact if_pos rfl
    rw [moveOne, hmove]
    exact herase

omit [DecidableEq N] in
theorem foldl_becomes (step : ConstraintGraph N A → ConstraintEdge N A → ConstraintGraph N A)
    (move : ConstraintEdge N A → Option (ConstraintEdge N A))
    {l : List (ConstraintEdge N A)} (h : g.Indexed)
    (hstep : ∀ g', g'.Indexed → (∀ x, g'.sccRepNode x = g.sccRepNode x) → ∀ e ∈ l,
      Becomes g' (step g' e) (moveOne move g'.Edges e)) :
    Becomes g (l.foldl step g) (l.foldl (moveOne move) g.Edges) := by
  induction l generalizing g with
  | nil => exact ⟨h, rfl, rfl⟩
  | cons e l ih =>
    have hone := hstep g h (fun _ => rfl) e mem_cons_self
    rw [foldl_cons, foldl_cons, ← hone.edges]
    refine hone.trans (ih hone.indexed ?_)
    intro g' hg' hrep e' he'
    refine hstep g' hg' ?_ e' (mem_cons_of_mem e he')
    intro x
    exact (hrep x).trans (hone.sccRepNode x)

-- ── The edges of one direction

def isCriticalGep (e : ConstraintEdge N A) : Bool :=
  match e.data with
  | .NormalGep _ => !isZeroOffsettedGepCGEdge e
  | .VariantGep => !isZeroOffsettedGepCGEdge e
  | _ => false

/-- What becomes of an edge whose new ends are `x` and `y`, if it lies inside of the component. -/
def moved (inside : Bool) (x y : N) (e : ConstraintEdge N A) : Option (ConstraintEdge N A) :=
  if e.data.kind.isDirect && inside then none else reTargeted x y e

theorem moveInside_eq
    (reTargetEdge : ConstraintGraph N A → ConstraintEdge N A → ConstraintGraph N A)
    (acc : ConstraintGraph N A × Bool) (e : ConstraintEdge N A) :
    moveInside reTargetEdge acc e = (if e.data.kind.isDirect then acc.1.eraseEdge e
        else if e.data.kind = .Addr then acc.1.eraseEdge e else reTargetEdge acc.1 e,
        acc.2 || isCriticalGep e) := by
  unfold moveInside isCriticalGep
  cases hdata : e.data <;> simp [EdgeData.kind, ConstraintEdgeK.isDirect, removeDirectEdge,
    removeAddrEdge]

theorem Indexed.moveInside (h : g.Indexed) (hx : g.sccRepNode x = x) (hy : g.sccRepNode y = y)
    (hsrc : g.sccRepNode e.src = e.src) (hdst : g.sccRepNode e.dst = e.dst)
    {reTargetEdge : ConstraintGraph N A → ConstraintEdge N A → ConstraintGraph N A}
    (hre : reTargetEdge g e = g.reTarget e x y) (flag : Bool) :
    Becomes g (ConstraintGraph.moveInside reTargetEdge (g, flag) e).1
      (moveOne (moved true x y) g.Edges e) := by
  have herase := h.eraseEdge_becomes hsrc hdst
  rw [moveInside_eq]
  by_cases hdirect : e.data.kind.isDirect
  · have hmove : moved true x y e = none := by
      rw [moved, hdirect]
      rfl
    rw [moveOne, hmove, if_pos hdirect]
    exact herase
  · have hmove : moved true x y e = reTargeted x y e := by
      rw [moved, if_neg (by simpa using hdirect)]
    rw [moveOne, hmove, if_neg hdirect]
    by_cases haddr : e.data.kind = .Addr
    · rw [if_pos haddr, reTargeted, if_pos haddr]
      exact herase
    · rw [if_neg haddr]
      dsimp only
      rw [hre]
      refine h.reTarget hx hy hsrc hdst ?_
      intro hcopy
      rw [hcopy] at hdirect
      exact absurd rfl hdirect

theorem foldl_moveInside
    (reTargetEdge : ConstraintGraph N A → ConstraintEdge N A → ConstraintGraph N A)
    (l : List (ConstraintEdge N A)) (g : ConstraintGraph N A) (flag : Bool) :
    l.foldl (ConstraintGraph.moveInside reTargetEdge) (g, flag) =
      (l.foldl (fun g e => (ConstraintGraph.moveInside reTargetEdge (g, false) e).1) g,
        flag || l.any isCriticalGep) := by
  induction l generalizing g flag with
  | nil => simp
  | cons e l ih =>
    have hone : ConstraintGraph.moveInside reTargetEdge (g, flag) e =
        ((ConstraintGraph.moveInside reTargetEdge (g, false) e).1, flag || isCriticalGep e) := by
      rw [moveInside_eq, moveInside_eq]
    rw [foldl_cons, hone, ih, foldl_cons, any_cons, Bool.or_assoc]

def moveOrder (g : ConstraintGraph N A) (otherEnd : ConstraintEdge N A → N) (rep : N)
    (edges : List (ConstraintEdge N A)) : List (ConstraintEdge N A) :=
  (edges.filter fun e => g.sccRepNode (otherEnd e) ≠ rep).reverse ++
    (edges.filter fun e => g.sccRepNode (otherEnd e) = rep).reverse

theorem mem_moveOrder {otherEnd : ConstraintEdge N A → N} {rep : N}
    {edges : List (ConstraintEdge N A)} : e ∈ g.moveOrder otherEnd rep edges ↔ e ∈ edges := by
  unfold moveOrder
  rw [mem_append, mem_reverse, mem_reverse, mem_filter, mem_filter, ← and_or_left]
  refine and_iff_left ?_
  simp only [decide_eq_true_eq]
  exact (em _).symm

/-- **One direction.** `ends` are the new ends of an edge. -/
theorem Indexed.moveEdges (h : g.Indexed)
    (reTargetEdge : ConstraintGraph N A → ConstraintEdge N A → ConstraintGraph N A)
    (otherEnd : ConstraintEdge N A → N) (rep : N) (edges : List (ConstraintEdge N A))
    (ends : ConstraintEdge N A → N × N)
    (hre : ∀ g e, reTargetEdge g e = g.reTarget e (ends e).1 (ends e).2)
    (hedges : ∀ e ∈ edges, e ∈ g.Edges)
    (hother : ∀ e ∈ edges, g.sccRepNode (otherEnd e) = otherEnd e)
    (hends : ∀ e ∈ edges, g.sccRepNode (ends e).1 = (ends e).1 ∧
      g.sccRepNode (ends e).2 = (ends e).2)
    (hcopy : ∀ e ∈ edges, otherEnd e ≠ rep → (ends e).1 ≠ (ends e).2) :
    Becomes g (ConstraintGraph.moveEdges reTargetEdge otherEnd rep edges g).1
      ((g.moveOrder otherEnd rep edges).foldl
        (moveOne fun e => moved (decide (otherEnd e = rep)) (ends e).1 (ends e).2 e) g.Edges) ∧
    (ConstraintGraph.moveEdges reTargetEdge otherEnd rep edges g).2 =
      edges.any fun e => decide (otherEnd e = rep) && isCriticalGep e := by
  unfold ConstraintGraph.moveEdges moveOrder
  dsimp only
  rw [foldl_moveInside]
  constructor
  · rw [foldl_append]
    have hfirst := foldl_becomes reTargetEdge
      (fun e => moved (decide (otherEnd e = rep)) (ends e).1 (ends e).2 e)
      (l := (edges.filter fun e => g.sccRepNode (otherEnd e) ≠ rep).reverse) h ?_
    · rw [← hfirst.edges]
      refine hfirst.trans (foldl_becomes _ _ hfirst.indexed ?_)
      intro g' hg' hrep e he
      rw [mem_reverse, mem_filter, decide_eq_true_eq] at he
      have hrep' : ∀ x, g'.sccRepNode x = g.sccRepNode x :=
        fun x => (hrep x).trans (hfirst.sccRepNode x)
      have hin : otherEnd e = rep := (hother e he.1).symm.trans he.2
      have hlive := h.live e (hedges e he.1)
      have hmove := hg'.moveInside (e := e) (x := (ends e).1) (y := (ends e).2)
        ((hrep' _).trans (hends e he.1).1) ((hrep' _).trans (hends e he.1).2)
        ((hrep' _).trans hlive.1) ((hrep' _).trans hlive.2) (hre g' e) false
      have heq : moved (decide (otherEnd e = rep)) (ends e).1 (ends e).2 e =
          moved true (ends e).1 (ends e).2 e := by
        rw [decide_eq_true hin]
      exact moveOne_congr (fun e => moved _ _ _ e) _ heq ▸ hmove
    · intro g' hg' hrep e he
      rw [mem_reverse, mem_filter, decide_eq_true_eq] at he
      have hout : otherEnd e ≠ rep := hother e he.1 ▸ he.2
      have hlive := h.live e (hedges e he.1)
      have hmove := hg'.reTarget (e := e) (x := (ends e).1) (y := (ends e).2)
        ((hrep _).trans (hends e he.1).1) ((hrep _).trans (hends e he.1).2)
        ((hrep _).trans hlive.1) ((hrep _).trans hlive.2) (fun _ => hcopy e he.1 hout)
      have heq : moved (decide (otherEnd e = rep)) (ends e).1 (ends e).2 e =
          reTargeted (ends e).1 (ends e).2 e := by
        rw [moved, decide_eq_false hout, Bool.and_false]
        rfl
      rw [hre]
      exact moveOne_congr (fun e => moved _ _ _ e) _ heq ▸ hmove
  · dsimp only
    rw [Bool.false_or, any_reverse, any_filter, Bool.eq_iff_iff, any_eq_true, any_eq_true]
    refine exists_congr fun e => and_congr_right fun he => ?_
    rw [hother e he]

section

omit [DecidableEq N]

section

variable {d e : ConstraintEdge N A} (h : d.key = e.key)
include h

theorem src_eq_of_key : d.src = e.src :=
  congrArg (fun k => k.2.1) h

theorem dst_eq_of_key : d.dst = e.dst :=
  congrArg (fun k => k.2.2) h

theorem kind_eq_of_key : d.data.kind = e.data.kind :=
  congrArg Prod.fst h

end

theorem moved_eq_some {inside : Bool} {f : ConstraintEdge N A} : moved inside x y e = some f ↔
      e.data.kind ≠ .Addr ∧ ¬ (e.data.kind.isDirect ∧ inside) ∧ f = ⟨x, y, e.data⟩ := by
  unfold moved reTargeted
  by_cases hin : (e.data.kind.isDirect && inside)
  · rw [if_pos hin]
    rw [Bool.and_eq_true] at hin
    simp [hin]
  · rw [if_neg hin]
    rw [Bool.and_eq_true] at hin
    by_cases haddr : e.data.kind = .Addr
    · simp [haddr]
    · rw [if_neg haddr, Option.some.injEq]
      exact ⟨fun h => ⟨haddr, hin, h.symm⟩, fun h => h.2.2.symm⟩

end

/-- The edges with one end at a node have been moved, and the others are left. -/
structure OneWay (E E' : Set (ConstraintEdge N A)) (endOf : ConstraintEdge N A → N) (node : N)
    (move : ConstraintEdge N A → Option (ConstraintEdge N A)) : Prop where
  sound : ∀ f ∈ E', (f ∈ E ∧ endOf f ≠ node) ∨ ∃ e ∈ E, endOf e = node ∧ move e = some f
  keeps : ∀ f ∈ E, endOf f ≠ node → f ∈ E'
  covers : ∀ e ∈ E, endOf e = node → ∀ e', move e = some e' → ∃ f ∈ E', f.key = e'.key

section

omit [DecidableEq N]

theorem oneWay_foldl {E : Set (ConstraintEdge N A)} {endOf : ConstraintEdge N A → N} {node : N}
    {move : ConstraintEdge N A → Option (ConstraintEdge N A)} {l : List (ConstraintEdge N A)}
    (hl : ∀ e, e ∈ l ↔ e ∈ E ∧ endOf e = node)
    (hkey : ∀ d e : ConstraintEdge N A, d.key = e.key → endOf d = endOf e)
    (hmove : ∀ e e', move e = some e' → endOf e' ≠ node) :
    OneWay E (l.foldl (moveOne move) E) endOf node move where
  sound f hf := by
    rcases mem_foldl_moveOne hf with ⟨hfE, hne⟩ | ⟨e, he, hm⟩
    · exact .inl ⟨hfE, fun hend => hne f ((hl f).mpr ⟨hfE, hend⟩) rfl⟩
    · exact .inr ⟨e, ((hl e).mp he).1, ((hl e).mp he).2, hm⟩
  keeps f hf hend := by
    refine foldl_moveOne_keeps hf ?_
    intro e he heq
    exact hend ((hkey f e heq).trans ((hl e).mp he).2)
  covers e he hend e' hm := by
    refine foldl_moveOne_covers ?_ ((hl e).mpr ⟨he, hend⟩) hm
    intro d _ d' hd d'' hd'' heq
    exact hmove d d' hd ((hkey d' d'' heq).trans ((hl d'').mp hd'').2)

theorem Indexed.mem_incoming (h : g.Indexed) {node : N} :
    e ∈ g.sets (.incoming node .all) ↔ e ∈ g.Edges ∧ e.dst = node := by
  rw [h.index]
  refine and_congr_right fun _ => ?_
  rw [ConstraintEdge.key, incoming_mem_indexes]
  exact ⟨fun hi => hi.1.symm, fun hd => ⟨hd.symm, all_mem_nodeSets _⟩⟩

theorem Indexed.mem_outgoing (h : g.Indexed) {node : N} :
    e ∈ g.sets (.outgoing node .all) ↔ e ∈ g.Edges ∧ e.src = node := by
  rw [h.index]
  refine and_congr_right fun _ => ?_
  rw [ConstraintEdge.key, outgoing_mem_indexes]
  exact ⟨fun hi => hi.1.symm, fun hd => ⟨hd.symm, all_mem_nodeSets _⟩⟩

end

/-- What becomes of an incoming edge. -/
def moveIn (rep : N) (e : ConstraintEdge N A) : Option (ConstraintEdge N A) :=
  moved (decide (e.src = rep)) e.src rep e

/-- What becomes of an outgoing edge. -/
def moveOut (rep : N) (e : ConstraintEdge N A) : Option (ConstraintEdge N A) :=
  moved (decide (e.dst = rep)) rep e.dst e

section

variable {node rep : N} (h : g.Indexed) (hne : node ≠ rep) (hrep : g.sccRepNode rep = rep)
include h hne hrep

/-- **Incoming edges.** -/
theorem Indexed.moveInEdgesToRepNode :
    Becomes g (g.moveInEdgesToRepNode node rep).1 (g.moveInEdgesToRepNode node rep).1.Edges ∧
      OneWay g.Edges (g.moveInEdgesToRepNode node rep).1.Edges ConstraintEdge.dst node
        (moveIn rep) ∧
      ((g.moveInEdgesToRepNode node rep).2 ↔
        ∃ e ∈ g.Edges, e.dst = node ∧ e.src = rep ∧ isCriticalGep e) := by
  have hmem : ∀ e, e ∈ g.sets (.incoming node .all) ↔ e ∈ g.Edges ∧ e.dst = node :=
    fun e => h.mem_incoming
  obtain ⟨hbecomes, hflag⟩ := h.moveEdges (reTargetDstOfEdge rep) ConstraintEdge.src rep
    (g.sets (.incoming node .all)) (fun e => (e.src, rep)) (fun _ _ => rfl)
    (fun e he => ((hmem e).mp he).1) (fun e he => (h.live e ((hmem e).mp he).1).1)
    (fun e he => ⟨(h.live e ((hmem e).mp he).1).1, hrep⟩) (fun e _ hout => hout)
  refine ⟨⟨hbecomes.indexed, rfl, hbecomes.frame⟩, ?_, ?_⟩
  · unfold ConstraintGraph.moveInEdgesToRepNode
    rw [hbecomes.edges]
    refine oneWay_foldl ?_ (fun d e => dst_eq_of_key) ?_
    · intro e
      rw [mem_moveOrder]
      exact hmem e
    · intro e e' hm
      obtain ⟨-, -, rfl⟩ := moved_eq_some.mp hm
      exact hne.symm
  · unfold ConstraintGraph.moveInEdgesToRepNode
    rw [hflag, any_eq_true]
    refine exists_congr fun e => ?_
    rw [hmem, Bool.and_eq_true, decide_eq_true_eq, and_assoc]

/-- **Outgoing edges.** -/
theorem Indexed.moveOutEdgesToRepNode :
    Becomes g (g.moveOutEdgesToRepNode node rep).1 (g.moveOutEdgesToRepNode node rep).1.Edges ∧
      OneWay g.Edges (g.moveOutEdgesToRepNode node rep).1.Edges ConstraintEdge.src node
        (moveOut rep) ∧
      ((g.moveOutEdgesToRepNode node rep).2 ↔
        ∃ e ∈ g.Edges, e.src = node ∧ e.dst = rep ∧ isCriticalGep e) := by
  have hmem : ∀ e, e ∈ g.sets (.outgoing node .all) ↔ e ∈ g.Edges ∧ e.src = node :=
    fun e => h.mem_outgoing
  obtain ⟨hbecomes, hflag⟩ := h.moveEdges (reTargetSrcOfEdge rep) ConstraintEdge.dst rep
    (g.sets (.outgoing node .all)) (fun e => (rep, e.dst)) (fun _ _ => rfl)
    (fun e he => ((hmem e).mp he).1) (fun e he => (h.live e ((hmem e).mp he).1).2)
    (fun e he => ⟨hrep, (h.live e ((hmem e).mp he).1).2⟩) (fun e _ hout => hout.symm)
  refine ⟨⟨hbecomes.indexed, rfl, hbecomes.frame⟩, ?_, ?_⟩
  · unfold ConstraintGraph.moveOutEdgesToRepNode
    rw [hbecomes.edges]
    refine oneWay_foldl ?_ (fun d e => src_eq_of_key) ?_
    · intro e
      rw [mem_moveOrder]
      exact hmem e
    · intro e e' hm
      obtain ⟨-, -, rfl⟩ := moved_eq_some.mp hm
      exact hne.symm
  · unfold ConstraintGraph.moveOutEdgesToRepNode
    rw [hflag, any_eq_true]
    refine exists_congr fun e => ?_
    rw [hmem, Bool.and_eq_true, decide_eq_true_eq, and_assoc]

end

-- ── The merge

def redirect (node rep : N) (e : ConstraintEdge N A) : ConstraintEdge N A :=
  ⟨if e.src = node then rep else e.src, if e.dst = node then rep else e.dst, e.data⟩

def Touches (node : N) (e : ConstraintEdge N A) : Prop := e.src = node ∨ e.dst = node

def Loop (node rep : N) (e : ConstraintEdge N A) : Prop :=
  Touches node e ∧ (redirect node rep e).src = (redirect node rep e).dst

/-- An edge of the node that is dropped: an `Addr` edge, or a copy or gep that becomes a self
    loop. -/
def Dropped (node rep : N) (e : ConstraintEdge N A) : Prop :=
  (Touches node e ∧ e.data.kind = .Addr) ∨ (Loop node rep e ∧ e.data.kind.isDirect = true)

/-- A node has been merged into its representative. -/
structure Merged (g : ConstraintGraph N A) (node rep : N) (r : ConstraintGraph N A × Bool) :
    Prop where
  /-- The sets of the graph and of the nodes agree, and nothing but them has changed. -/
  becomes : Becomes g r.1 r.1.Edges
  /-- No edge is made up. -/
  sound : ∀ f ∈ r.1.Edges, ∃ e ∈ g.Edges, ¬ Dropped node rep e ∧ f = redirect node rep e
  /-- The edges of other nodes are left. -/
  untouched : ∀ e ∈ g.Edges, ¬ Touches node e → e ∈ r.1.Edges
  /-- An edge of the node is one of the representative. -/
  kept : ∀ e ∈ g.Edges, ¬ Dropped node rep e →
    ∃ f ∈ r.1.Edges, f.key = (redirect node rep e).key
  /-- It has its access path, if the edges that come to lie beside it have the same. -/
  path : ∀ e ∈ g.Edges, ¬ Dropped node rep e →
    (∀ d ∈ g.Edges, (redirect node rep d).key = (redirect node rep e).key → d.data = e.data) →
    redirect node rep e ∈ r.1.Edges
  /-- The node has no edge any more. -/
  gone : ∀ f ∈ r.1.Edges, ¬ Touches node f
  /-- The caller is told of a dropped gep whose offset may not be zero, if a gep of the node to
      itself is like one of the same kind to the representative. -/
  critical : (∀ d ∈ g.Edges, ∀ e ∈ g.Edges, d.src = node → d.dst = rep → e.src = node →
      e.dst = node → d.data.kind = e.data.kind → d.data = e.data) →
    (r.2 = true ↔ ∃ e ∈ g.Edges, Loop node rep e ∧ isCriticalGep e = true)

section Merge

variable {node rep : N} {E E' F : Set (ConstraintEdge N A)} {f : ConstraintEdge N A}

theorem redirect_of_not_touches (h : ¬ Touches node e) : redirect node rep e = e := by
  rw [Touches, not_or] at h
  rw [redirect, if_neg h.1, if_neg h.2]

omit [DecidableEq N] in
theorem isCriticalGep_congr {d : ConstraintEdge N A} (h : d.data = e.data) :
    isCriticalGep d = isCriticalGep e := by
  unfold isCriticalGep isZeroOffsettedGepCGEdge
  rw [h]

omit [DecidableEq N] in
theorem not_addr_of_critical (h : isCriticalGep e) : e.data.kind ≠ .Addr := by
  intro haddr
  unfold isCriticalGep at h
  cases hdata : e.data <;> rw [hdata] at h haddr
  case Addr => exact Bool.false_ne_true h
  all_goals exact absurd haddr (by simp [EdgeData.kind])

theorem OneWay.dst_ne (h : OneWay E E' ConstraintEdge.dst node (moveIn rep)) (hne : node ≠ rep)
    (hf : f ∈ E') : f.dst ≠ node := by
  rcases h.sound f hf with ⟨-, hd⟩ | ⟨e, -, -, hm⟩
  · exact hd
  · obtain ⟨-, -, rfl⟩ := moved_eq_some.mp hm
    exact hne.symm

theorem OneWay.src_ne (h : OneWay E E' ConstraintEdge.src node (moveOut rep)) (hne : node ≠ rep)
    (hf : f ∈ E') : f.src ≠ node := by
  rcases h.sound f hf with ⟨-, hs⟩ | ⟨e, -, -, hm⟩
  · exact hs
  · obtain ⟨-, -, rfl⟩ := moved_eq_some.mp hm
    exact hne.symm

theorem OneWay.source_in (h : OneWay E E' ConstraintEdge.dst node (moveIn rep)) (hf : f ∈ E') :
    ∃ e ∈ E, e.src = f.src ∧ e.data = f.data ∧ (redirect node rep e).dst = f.dst ∧
      (e.dst = node → e.data.kind ≠ .Addr ∧ ¬ (e.data.kind.isDirect ∧ e.src = rep)) := by
  rcases h.sound f hf with ⟨hfE, hd⟩ | ⟨e, he, hd, hm⟩
  · exact ⟨f, hfE, rfl, rfl, if_neg hd, fun hd' => absurd hd' hd⟩
  · obtain ⟨haddr, hdirect, rfl⟩ := moved_eq_some.mp hm
    rw [decide_eq_true_eq] at hdirect
    exact ⟨e, he, rfl, rfl, if_pos hd, fun _ => ⟨haddr, hdirect⟩⟩

theorem sound_of_oneWay (hin : OneWay E E' ConstraintEdge.dst node (moveIn rep))
    (hout : OneWay E' F ConstraintEdge.src node (moveOut rep)) (hf : f ∈ F) :
    ∃ e ∈ E, ¬ Dropped node rep e ∧ f = redirect node rep e := by
  rcases hout.sound f hf with ⟨hf', hs⟩ | ⟨d, hd, hs, hm⟩
  · obtain ⟨e, he, hsrc, hdata, hdst, hdrop⟩ := hin.source_in hf'
    have hrsrc : (redirect node rep e).src = e.src := if_neg (hsrc.symm ▸ hs)
    refine ⟨e, he, ?_, ?_⟩
    · have hto : Touches node e → e.dst = node := fun ht => ht.resolve_left (hsrc.symm ▸ hs)
      rintro (⟨ht, haddr⟩ | ⟨⟨ht, hloop⟩, hdirect⟩)
      · exact (hdrop (hto ht)).1 haddr
      · refine (hdrop (hto ht)).2 ⟨hdirect, ?_⟩
        rw [← hrsrc, hloop]
        exact if_pos (hto ht)
    · exact ConstraintEdge.ext (hsrc.symm.trans hrsrc.symm) hdst.symm hdata.symm
  · obtain ⟨haddr, hdirect, rfl⟩ := moved_eq_some.mp hm
    rw [decide_eq_true_eq] at hdirect
    obtain ⟨e, he, hsrc, hdata, hdst, -⟩ := hin.source_in hd
    have hrsrc : (redirect node rep e).src = rep := if_pos (hsrc.trans hs)
    refine ⟨e, he, ?_, ?_⟩
    · rintro (⟨-, haddr'⟩ | ⟨⟨-, hloop⟩, hdirect'⟩)
      · exact haddr (hdata ▸ haddr')
      · refine hdirect ⟨hdata ▸ hdirect', ?_⟩
        rw [← hdst, ← hloop, hrsrc]
    · exact ConstraintEdge.ext hrsrc.symm hdst.symm hdata.symm

theorem kept_of_oneWay (hne : node ≠ rep) (hin : OneWay E E' ConstraintEdge.dst node (moveIn rep))
    (hout : OneWay E' F ConstraintEdge.src node (moveOut rep)) (he : e ∈ E)
    (hdrop : ¬ Dropped node rep e) : ∃ f ∈ F, f.key = (redirect node rep e).key := by
  rw [Dropped, not_or, not_and, not_and] at hdrop
  obtain ⟨haddr, hloop⟩ := hdrop
  by_cases hd : e.dst = node
  · have hrdst : (redirect node rep e).dst = rep := if_pos hd
    have hm : moveIn rep e = some ⟨e.src, rep, e.data⟩ := by
      refine moved_eq_some.mpr ⟨haddr (.inr hd), ?_, rfl⟩
      rw [decide_eq_true_eq]
      rintro ⟨hdirect, hs⟩
      refine hloop ⟨.inr hd, ?_⟩ hdirect
      rw [hrdst, ← hs]
      exact if_neg fun h => hne (h.symm.trans hs)
    obtain ⟨f, hf, hkey⟩ := hin.covers e he hd _ hm
    by_cases hs : e.src = node
    · -- an edge of the node to itself is moved twice
      have hrsrc : (redirect node rep e).src = rep := if_pos hs
      have hm' : moveOut rep f = some ⟨rep, f.dst, f.data⟩ := by
        refine moved_eq_some.mpr ⟨?_, ?_, rfl⟩
        · rw [kind_eq_of_key hkey]
          exact haddr (.inr hd)
        · rintro ⟨hdirect, -⟩
          rw [kind_eq_of_key hkey] at hdirect
          exact hloop ⟨.inr hd, hrsrc.trans hrdst.symm⟩ hdirect
      obtain ⟨f', hf', hkey'⟩ := hout.covers f hf ((src_eq_of_key hkey).trans hs) _ hm'
      refine ⟨f', hf', hkey'.trans ?_⟩
      rw [ConstraintEdge.key, ConstraintEdge.key, hrsrc, hrdst, kind_eq_of_key hkey]
      exact congrArg _ (congrArg _ (dst_eq_of_key hkey))
    · have hrsrc : (redirect node rep e).src = e.src := if_neg hs
      refine ⟨f, hout.keeps f hf (fun h => hs ((src_eq_of_key hkey).symm.trans h)), ?_⟩
      rw [hkey, ConstraintEdge.key, ConstraintEdge.key, hrsrc, hrdst]
      rfl
  · have hrdst : (redirect node rep e).dst = e.dst := if_neg hd
    have he' := hin.keeps e he hd
    by_cases hs : e.src = node
    · have hrsrc : (redirect node rep e).src = rep := if_pos hs
      have hm : moveOut rep e = some ⟨rep, e.dst, e.data⟩ := by
        refine moved_eq_some.mpr ⟨haddr (.inl hs), ?_, rfl⟩
        rw [decide_eq_true_eq]
        rintro ⟨hdirect, hto⟩
        exact hloop ⟨.inl hs, by rw [hrsrc, hrdst, hto]⟩ hdirect
      obtain ⟨f, hf, hkey⟩ := hout.covers e he' hs _ hm
      refine ⟨f, hf, hkey.trans ?_⟩
      rw [ConstraintEdge.key, ConstraintEdge.key, hrsrc, hrdst]
      rfl
    · refine ⟨e, hout.keeps e he' hs, ?_⟩
      rw [redirect_of_not_touches (by rw [Touches, not_or]; exact ⟨hs, hd⟩)]

theorem critical_of_oneWay (hne : node ≠ rep) (hunique : ∀ d ∈ E, ∀ e ∈ E, d.key = e.key → d = e)
    (hin : OneWay E E' ConstraintEdge.dst node (moveIn rep))
    (hagree : ∀ d ∈ E, ∀ e ∈ E, d.src = node → d.dst = rep → e.src = node → e.dst = node →
      d.data.kind = e.data.kind → d.data = e.data) :
    ((∃ e ∈ E, e.dst = node ∧ e.src = rep ∧ isCriticalGep e) ∨
      ∃ e ∈ E', e.src = node ∧ e.dst = rep ∧ isCriticalGep e) ↔
    ∃ e ∈ E, Loop node rep e ∧ isCriticalGep e := by
  constructor
  · rintro (⟨e, he, hd, hs, hcrit⟩ | ⟨f, hf, hs, hd, hcrit⟩)
    · refine ⟨e, he, ⟨.inr hd, ?_⟩, hcrit⟩
      rw [redirect, if_pos hd, if_neg fun h => hne (h.symm.trans hs)]
      exact hs
    · obtain ⟨e, he, hsrc, hdata, hdst, -⟩ := hin.source_in hf
      refine ⟨e, he, ⟨.inl (hsrc.trans hs), ?_⟩, isCriticalGep_congr hdata ▸ hcrit⟩
      rw [hdst, hd]
      exact if_pos (hsrc.trans hs)
  · rintro ⟨e, he, ⟨ht, hloop⟩, hcrit⟩
    by_cases hd : e.dst = node
    · have hrdst : (redirect node rep e).dst = rep := if_pos hd
      by_cases hs : e.src = node
      · -- a gep of the node to itself meets one to the representative, or becomes it
        have hm : moveIn rep e = some ⟨e.src, rep, e.data⟩ := by
          refine moved_eq_some.mpr ⟨not_addr_of_critical hcrit, ?_, rfl⟩
          rw [decide_eq_true_eq, hs]
          exact fun h => hne h.2
        obtain ⟨f, hf, hkey⟩ := hin.covers e he hd _ hm
        have hfs : f.src = node := (src_eq_of_key hkey).trans hs
        have hfd : f.dst = rep := dst_eq_of_key hkey
        have hdata : f.data = e.data := by
          rcases hin.sound f hf with ⟨hfE, -⟩ | ⟨d, hdE, hdd, hdm⟩
          · exact hagree f hfE e he hfs hfd hs hd (congrArg Prod.fst hkey)
          · obtain ⟨-, -, rfl⟩ := moved_eq_some.mp hdm
            have hde : d = e := by
              refine hunique d hdE e he ?_
              have hk : d.data.kind = e.data.kind := congrArg Prod.fst hkey
              have hds : d.src = e.src := hfs.trans hs.symm
              rw [ConstraintEdge.key, ConstraintEdge.key, hk, hds, hdd, hd]
            rw [hde]
        exact .inr ⟨f, hf, hfs, hfd, isCriticalGep_congr hdata ▸ hcrit⟩
      · rw [hrdst] at hloop
        exact .inl ⟨e, he, hd, (if_neg hs).symm.trans hloop, hcrit⟩
    · have hs : e.src = node := ht.resolve_right hd
      have hrsrc : (redirect node rep e).src = rep := if_pos hs
      rw [hrsrc] at hloop
      exact .inr ⟨e, hin.keeps e he hd, hs, (hloop.trans (if_neg hd)).symm, hcrit⟩

theorem Indexed.moveEdgesToRepNode (h : g.Indexed) (hne : node ≠ rep)
    (hrep : g.sccRepNode rep = rep) : Merged g node rep (g.moveEdgesToRepNode node rep) := by
  obtain ⟨hb1, hin, hflag1⟩ := h.moveInEdgesToRepNode hne hrep
  obtain ⟨hb2, hout, hflag2⟩ := hb1.indexed.moveOutEdgesToRepNode hne
    ((hb1.sccRepNode rep).trans hrep)
  unfold ConstraintGraph.moveEdgesToRepNode
  constructor
  case becomes => exact hb1.trans hb2
  case sound => exact fun f hf => sound_of_oneWay hin hout hf
  case untouched =>
    intro e he ht
    rw [Touches, not_or] at ht
    exact hout.keeps e (hin.keeps e he ht.2) ht.1
  case kept => exact fun e he hdrop => kept_of_oneWay hne hin hout he hdrop
  case path =>
    intro e he hdrop hagree
    obtain ⟨f, hf, hkey⟩ := kept_of_oneWay hne hin hout he hdrop
    obtain ⟨d, hd, -, rfl⟩ := sound_of_oneWay hin hout hf
    have heq : redirect node rep d = redirect node rep e :=
      ConstraintEdge.ext (src_eq_of_key hkey) (dst_eq_of_key hkey) (hagree d hd hkey)
    exact heq ▸ hf
  case gone =>
    rintro f hf (hs | hd)
    · exact hout.src_ne hne hf hs
    · rcases hout.sound f hf with ⟨hf', -⟩ | ⟨e, he, -, hm⟩
      · exact hin.dst_ne hne hf' hd
      · obtain ⟨-, -, rfl⟩ := moved_eq_some.mp hm
        exact hin.dst_ne hne he hd
  case critical =>
    intro hagree
    rw [Bool.or_eq_true, hflag1, hflag2]
    exact critical_of_oneWay hne h.unique hin hagree

end Merge

/-- **Merging keeps the constraints.** Every edge of the merged node but the dropped ones is one of
    its representative, other edges are left, and no edge is made up. -/
theorem moveEdgesToRepNode_merged (g : ConstraintGraph N A) (node rep : N) (h : g.Indexed)
    (hne : node ≠ rep) (hrep : g.sccRepNode rep = rep) :
    Merged g node rep (g.moveEdgesToRepNode node rep) :=
  h.moveEdgesToRepNode hne hrep

/-- A graph without edges. -/
def empty (nodes : Finset N) : ConstraintGraph N A where
  nodes := nodes
  nodeToRepMap := fun _ => none
  nodeToSubsMap := fun _ => ∅
  isPWCNode := fun _ => false
  sets := fun _ => []

omit [DecidableEq N] in
theorem empty_indexed (nodes : Finset N) : (empty nodes : ConstraintGraph N A).Indexed where
  index _ _ := ⟨fun h => absurd h not_mem_nil, fun h => absurd h.1 not_mem_nil⟩
  unique _ h := absurd h not_mem_nil
  live _ h := absurd h not_mem_nil

/-- A load from the first node to the second, which is merged into the third. -/
theorem moveEdgesToRepNode_merged_load :
    Merged (addLoadCGEdge (empty {0, 1, 2} : ConstraintGraph ℕ Unit) 0 1) 1 2
      (moveEdgesToRepNode (addLoadCGEdge (empty {0, 1, 2}) 0 1) 1 2) :=
  moveEdgesToRepNode_merged _ 1 2
    ((empty_indexed {0, 1, 2}).addCGEdge (x := 0) (y := 1) rfl rfl .Load).indexed (by decide) rfl

/-- The address of the first node is no edge to the representative of the second. -/
theorem not_keeps_addr : ¬ ∀ (N A : Type) [DecidableEq N] (g : ConstraintGraph N A) (node rep : N),
    g.Indexed → node ≠ rep → g.sccRepNode node = node → g.sccRepNode rep = rep →
    ∀ e ∈ g.Edges, e.dst = node → e.src ≠ node → e.src ≠ rep →
      ∃ f ∈ (g.moveEdgesToRepNode node rep).1.Edges,
        f.src = e.src ∧ f.dst = rep ∧ f.data = e.data := by
  intro h
  have hindexed := ((empty_indexed {0, 1, 2}).addCGEdge (A := Unit) (x := 0) (y := 1) rfl rfl
    .Addr).indexed
  obtain ⟨f, hf, -, -, hdata⟩ := h ℕ Unit (addAddrCGEdge (empty {0, 1, 2}) 0 1) 1 2 hindexed
    (by decide) rfl rfl ⟨0, 1, .Addr⟩ (mem_singleton_self _) rfl (by decide) (by decide)
  have hf' : f ∈ (moveEdgesToRepNode (addAddrCGEdge (empty {0, 1, 2} : ConstraintGraph ℕ Unit)
      0 1) 1 2).1.sets (.graph .addr) := by
    have hmem : f ∈ (moveEdgesToRepNode (addAddrCGEdge (empty {0, 1, 2} : ConstraintGraph ℕ Unit)
      0 1) 1 2).1.sets (.graph f.data.kind.graphSet) := hf
    rw [hdata] at hmem
    exact hmem
  cases hf'

end ConstraintGraph

end SvfConstraintGraph
