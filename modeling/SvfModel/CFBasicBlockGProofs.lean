import Mathlib

/-!
# The basic-block graph refines the ICFG

`CFBasicBlockGBuilder` groups the ICFG nodes of each basic block: calls and returns stand alone,
the nodes between them share one basic-block node, and the entry and exit nodes of a function
are put at the front and at the back of their blocks. The edge builders address these vectors
by position, with `front()`, `back()` and `i + 1`.

The heart is `init_cuts`: the vector of a block is the block's node sequence, cut wherever two
neighbours are not both plain instructions. With it each loop of the edge builders adds exactly
the edges one can name, and `build_refines_icfg_iff` says when these are all edges of the ICFG:
an intra-procedural edge must lead from the last node of a block to the first node of another
one, or to the next node of its own block.
-/

set_option linter.unusedSectionVars false

namespace SvfCFBBG

open List
open Function (comp_apply update update_eq_self update_idem update_of_ne update_self)
open Relation (TransGen)
open Option (bind_eq_bind bind_some)

-- ── The ICFG, the module and the graph that is built

inductive ICFGNodeK
  | IntraBlock | FunEntryBlock | FunExitBlock | FunCallBlock | FunRetBlock | GlobalBlock
deriving DecidableEq

inductive ICFGEdgeK
  | IntraCF | CallCF | RetCF
deriving DecidableEq

/-- The edges of an ICFG form a set ordered by kind, source and destination, so these three
    determine an edge. -/
structure ICFGEdge (N : Type) where
  src : N
  dst : N
  kind : ICFGEdgeK
deriving DecidableEq

/-- Nodes `N` of functions `F` and blocks `B`, made for instructions `I`. The global node and
    the entry and exit nodes of external functions have no block. -/
structure ICFG (F B I N : Type) where
  nodes : List N
  edges : List (ICFGEdge N)
  kind : N → ICFGNodeK
  getFun : N → Option F
  getBB : N → Option B
  getICFGNode : I → N
  getRetICFGNode : N → N
  getFunEntryICFGNode : F → N
  getFunExitICFGNode : F → N

structure SVFModule (F B I : Type) where
  functions : List F
  blocks : F → List B
  insts : B → List I
  isIntrinsicInst : I → Bool
  hasReturn : F → Bool

structure CFBasicBlockEdge (N : Type) where
  src : List N
  dst : List N
  icfgEdge : ICFGEdge N
deriving DecidableEq

structure CFBasicBlockGraph (N : Type) where
  nodes : List (List N)
  edges : List (CFBasicBlockEdge N)
deriving DecidableEq

abbrev BBToNodes (B N : Type) := AList fun _ : B => List (List N)

variable {F B I N : Type} [DecidableEq F] [DecidableEq B] [DecidableEq N]

section

variable (icfg : ICFG F B I N)

def ICFG.getOutEdges (node : N) : List (ICFGEdge N) :=
  icfg.edges.filter fun edge => edge.src = node

def ICFG.getInEdges (node : N) : List (ICFGEdge N) :=
  icfg.edges.filter fun edge => edge.dst = node

def ICFG.getICFGEdge (src dst : N) (kind : ICFGEdgeK) : Option (ICFGEdge N) :=
  (icfg.getOutEdges src).find? fun edge => edge.dst = dst ∧ edge.kind = kind

end

/-- `bbToNodes[bb]`, which is empty for a block without an entry and for the null block. -/
def BBToNodes.at (bbToNodes : BBToNodes B N) : Option B → List (List N)
  | none => []
  | some bb => (bbToNodes.lookup bb).getD []

def BBToNodes.push_back (bbToNodes : BBToNodes B N) (bb : B) (pNode : List N) : BBToNodes B N :=
  bbToNodes.insert bb (bbToNodes.at (some bb) ++ [pNode])

/-- Edges are kept in sets. -/
def CFBasicBlockGraph.addCFBBEdge (g : CFBasicBlockGraph N) (edge : CFBasicBlockEdge N) :
    CFBasicBlockGraph N :=
  { g with edges := g.edges.insert edge }

-- ── `CFBasicBlockGBuilder`

-- `none` is a read outside a vector: `front()`, `back()` or `[0]` of an empty one, or an index
-- below `size() - 1` where that has wrapped around.

/-- The loop body of `initCFBasicBlockGNodes` for one instruction. -/
def initInst (m : SVFModule F B I) (icfg : ICFG F B I N) (bb : B) (bbToNodes : BBToNodes B N)
    (inst : I) : Option (BBToNodes B N) :=
  if m.isIntrinsicInst inst then some bbToNodes else
  let icfgNode := icfg.getICFGNode inst
  if icfg.kind icfgNode = .FunCallBlock then
    some ((bbToNodes.push_back bb [icfgNode]).push_back bb [icfg.getRetICFGNode icfgNode])
  else
    match bbToNodes.lookup bb with
    | none => some (bbToNodes.insert bb [[icfgNode]])
    | some nodes => do
        let pNode ← nodes.getLast?
        let first ← pNode.head?
        if icfg.kind first ≠ .FunRetBlock then
          some (bbToNodes.insert bb (nodes.dropLast ++ [pNode ++ [icfgNode]]))
        else
          some (bbToNodes.push_back bb [icfgNode])

def initBlock (m : SVFModule F B I) (icfg : ICFG F B I N) (bbToNodes : BBToNodes B N) (bb : B) :
    Option (BBToNodes B N) :=
  (m.insts bb).foldlM (initInst m icfg bb) bbToNodes

/-- The entry node goes to the front of its block. -/
def initFunEntry (icfg : ICFG F B I N) (func : F) (bbToNodes : BBToNodes B N) : BBToNodes B N :=
  match icfg.getBB (icfg.getFunEntryICFGNode func) with
  | some bb => bbToNodes.insert bb ([icfg.getFunEntryICFGNode func] :: bbToNodes.at (some bb))
  | none => bbToNodes

def initFunExit (icfg : ICFG F B I N) (func : F) (bbToNodes : BBToNodes B N) : BBToNodes B N :=
  match icfg.getBB (icfg.getFunExitICFGNode func) with
  | some bb => bbToNodes.push_back bb [icfg.getFunExitICFGNode func]
  | none => bbToNodes

def initFunction (m : SVFModule F B I) (icfg : ICFG F B I N) (bbToNodes : BBToNodes B N)
    (func : F) : Option (BBToNodes B N) := do
  let bbToNodes ← (m.blocks func).foldlM (initBlock m icfg) bbToNodes
  some (initFunExit icfg func (initFunEntry icfg func bbToNodes))

def initCFBasicBlockGNodes (m : SVFModule F B I) (icfg : ICFG F B I N) : Option (BBToNodes B N) :=
  m.functions.foldlM (initFunction m icfg) ∅

section

variable (icfg : ICFG F B I N)

def addInterBBEdge (bbToNodes : BBToNodes B N) (g : CFBasicBlockGraph N) :
    Option (CFBasicBlockGraph N) :=
  icfg.nodes.foldlM (fun g node => (icfg.getOutEdges node).foldlM (fun g succ =>
    if succ.kind = .IntraCF ∧ icfg.getFun node = icfg.getFun succ.dst ∧
        icfg.getBB node ≠ icfg.getBB succ.dst then do
      let src ← (bbToNodes.at (icfg.getBB node)).getLast?
      let dst ← (bbToNodes.at (icfg.getBB succ.dst)).head?
      some (g.addCFBBEdge ⟨src, dst, succ⟩)
    else some g) g) g

def addIntraBBEdge (bbToNodes : BBToNodes B N) (g : CFBasicBlockGraph N) :
    Option (CFBasicBlockGraph N) :=
  bbToNodes.entries.foldlM (fun g bbNodes =>
    if bbNodes.2 = [] then none else
    (List.range (bbNodes.2.length - 1)).foldlM (fun g i => do
      let node ← bbNodes.2[i]?
      let next ← bbNodes.2[i + 1]?
      let src ← node.getLast?
      let dst ← next.head?
      match icfg.getICFGEdge src dst .IntraCF with
      | some icfgEdge => some (g.addCFBBEdge ⟨node, next, icfgEdge⟩)
      | none => some g) g) g

def addCallEdges (bbToNodes : BBToNodes B N) (node : List N) (call : N)
    (g : CFBasicBlockGraph N) : Option (CFBasicBlockGraph N) :=
  (icfg.getOutEdges call).foldlM (fun g icfgEdge =>
    if icfgEdge.kind = .CallCF then do
      let dst ← (bbToNodes.at (icfg.getBB icfgEdge.dst)).head?
      some (g.addCFBBEdge ⟨node, dst, icfgEdge⟩)
    else some g) g

end

section

variable (m : SVFModule F B I)

section

variable (icfg : ICFG F B I N)

def addRetEdges (bbToNodes : BBToNodes B N)
    (node : List N) (ret : N) (g : CFBasicBlockGraph N) : Option (CFBasicBlockGraph N) :=
  (icfg.getInEdges ret).foldlM (fun g icfgEdge =>
    if icfgEdge.kind = .RetCF then do
      let func ← icfg.getFun icfgEdge.src
      if m.hasReturn func then
        let src ← (bbToNodes.at (icfg.getBB icfgEdge.src)).getLast?
        some (g.addCFBBEdge ⟨src, node, icfgEdge⟩)
      else some g
    else some g) g

def addInterProceduralEdge
    (bbToNodes : BBToNodes B N) (g : CFBasicBlockGraph N) : Option (CFBasicBlockGraph N) :=
  bbToNodes.entries.foldlM (fun g bbNodes =>
    (List.range bbNodes.2.length).foldlM (fun g i => do
      let node ← bbNodes.2[i]?
      let front ← node.head?
      match icfg.kind front with
      | .FunCallBlock => addCallEdges icfg bbToNodes node front g
      | .FunRetBlock => addRetEdges m icfg bbToNodes node front g
      | _ => some g) g) g

def build : Option (CFBasicBlockGraph N) := do
  let bbToNodes ← initCFBasicBlockGNodes m icfg
  let g ← addInterBBEdge icfg bbToNodes ⟨bbToNodes.entries.flatMap fun bbNodes => bbNodes.2, []⟩
  let g ← addIntraBBEdge icfg bbToNodes g
  addInterProceduralEdge m icfg bbToNodes g

-- ── What the graph has to say about the ICFG

/-- The ICFG nodes of an instruction: intrinsics have none, a call has its call node and its
    return node. -/
def nodesOfInst (inst : I) : List N :=
  if m.isIntrinsicInst inst then []
  else if icfg.kind (icfg.getICFGNode inst) = .FunCallBlock then
    [icfg.getICFGNode inst, icfg.getRetICFGNode (icfg.getICFGNode inst)]
  else [icfg.getICFGNode inst]

def nodesOfBlockIn (func : F) (bb : B) : List N :=
  (if icfg.getBB (icfg.getFunEntryICFGNode func) = some bb then
      [icfg.getFunEntryICFGNode func] else []) ++
    ((m.insts bb).flatMap (nodesOfInst m icfg) ++
    if icfg.getBB (icfg.getFunExitICFGNode func) = some bb then
      [icfg.getFunExitICFGNode func] else [])

def nodesOfBlock (bb : B) : List N :=
  m.functions.flatMap fun func => if bb ∈ m.blocks func then nodesOfBlockIn m icfg func bb else []

/-- The nodes of non-intrinsic instructions, the return nodes, and the entry and exit nodes
    that have a block. -/
def Listed (n : N) : Prop :=
  ∃ bb ∈ m.functions.flatMap m.blocks, n ∈ nodesOfBlock m icfg bb

end

end

def Consecutive {α : Type} (l : List α) (x y : α) : Prop :=
  ∃ i, l[i]? = some x ∧ l[i + 1]? = some y

/-- What `ICFGBuilder` guarantees: nodes stand where their block says, edges other than the
    one out of the global node join listed nodes, and each kind of edge joins nodes of its
    kinds, intra-procedural ones within a function (`checkIntraEdgeParents`). -/
structure BuiltOver (m : SVFModule F B I) (icfg : ICFG F B I N) : Prop where
  blocks_nodup : (m.functions.flatMap m.blocks).Nodup
  nodes_nodup : ∀ bb ∈ m.functions.flatMap m.blocks, (nodesOfBlock m icfg bb).Nodup
  getBB_nodes : ∀ bb ∈ m.functions.flatMap m.blocks, ∀ n ∈ nodesOfBlock m icfg bb,
    icfg.getBB n = some bb
  getFun_nodes : ∀ bb ∈ m.functions.flatMap m.blocks, ∀ n ∈ nodesOfBlock m icfg bb,
    ∃ func ∈ m.functions, icfg.getFun n = some func
  entry_block : ∀ func ∈ m.functions, ∀ bb ∈ icfg.getBB (icfg.getFunEntryICFGNode func),
    bb ∈ m.blocks func
  exit_block : ∀ func ∈ m.functions, ∀ bb ∈ icfg.getBB (icfg.getFunExitICFGNode func),
    bb ∈ m.blocks func
  kind_entry : ∀ func ∈ m.functions,
    icfg.kind (icfg.getFunEntryICFGNode func) = .FunEntryBlock
  kind_exit : ∀ func ∈ m.functions, icfg.kind (icfg.getFunExitICFGNode func) = .FunExitBlock
  kind_inst : ∀ bb ∈ m.functions.flatMap m.blocks, ∀ inst ∈ m.insts bb,
    m.isIntrinsicInst inst = false →
    icfg.kind (icfg.getICFGNode inst) = .IntraBlock ∨
      icfg.kind (icfg.getICFGNode inst) = .FunCallBlock ∧
        icfg.kind (icfg.getRetICFGNode (icfg.getICFGNode inst)) = .FunRetBlock
  edge_nodes : ∀ edge ∈ icfg.edges, edge.src ∈ icfg.nodes
  edge_dst : ∀ edge ∈ icfg.edges, Listed m icfg edge.dst
  edge_src : ∀ edge ∈ icfg.edges, Listed m icfg edge.src ∨
    edge.kind = .IntraCF ∧ icfg.getFun edge.src = none ∧ icfg.getBB edge.src = none
  edge_intra : ∀ edge ∈ icfg.edges, edge.kind = .IntraCF → Listed m icfg edge.src →
    icfg.getFun edge.src = icfg.getFun edge.dst
  edge_call : ∀ edge ∈ icfg.edges, edge.kind = .CallCF →
    icfg.kind edge.src = .FunCallBlock ∧ icfg.kind edge.dst = .FunEntryBlock
  edge_ret : ∀ edge ∈ icfg.edges, edge.kind = .RetCF →
    icfg.kind edge.src = .FunExitBlock ∧ icfg.kind edge.dst = .FunRetBlock

/-- The edges to be carried over: those between listed nodes, where a return edge counts if
    its function returns. -/
def Carried (m : SVFModule F B I) (icfg : ICFG F B I N) (edge : ICFGEdge N) : Prop :=
  edge ∈ icfg.edges ∧ Listed m icfg edge.src ∧
    (edge.kind = .RetCF → ∃ func, icfg.getFun edge.src = some func ∧ m.hasReturn func = true)

def ICFGStep (m : SVFModule F B I) (icfg : ICFG F B I N) (x y : N) : Prop :=
  ∃ edge, Carried m icfg edge ∧ edge.src = x ∧ edge.dst = y

/-- A step of a path in the basic-block graph: to the next member of a basic-block node, or
    from the last member of one to the first member of a successor. -/
def CFBBStep (g : CFBasicBlockGraph N) (x y : N) : Prop :=
  (∃ node ∈ g.nodes, Consecutive node x y) ∨
    ∃ edge ∈ g.edges, x ∈ edge.src.getLast? ∧ y ∈ edge.dst.head?

/-- **What the basic-block graph is for.** -/
structure Refines (m : SVFModule F B I) (icfg : ICFG F B I N) (g : CFBasicBlockGraph N) : Prop where
  members : ∀ n, Listed m icfg n → g.nodes.countP (fun node => n ∈ node) = 1
  represented : ∀ edge, Carried m icfg edge →
    (∃ node ∈ g.nodes, Consecutive node edge.src edge.dst) ∨
      ∃ e ∈ g.edges, e.icfgEdge = edge ∧ edge.src ∈ e.src.getLast? ∧ edge.dst ∈ e.dst.head?
  edges_carried : ∀ e ∈ g.edges, Carried m icfg e.icfgEdge ∧ e.src ∈ g.nodes ∧ e.dst ∈ g.nodes ∧
    e.icfgEdge.src ∈ e.src.getLast? ∧ e.icfgEdge.dst ∈ e.dst.head?
  paths : ∀ x y, Listed m icfg x → Listed m icfg y →
    (TransGen (ICFGStep m icfg) x y ↔ TransGen (CFBBStep g) x y)

/-- Every intra-procedural edge leads to the next node of its own block, or from the last
    node of a block to the first node of another one. -/
def EdgesAtEnds (m : SVFModule F B I) (icfg : ICFG F B I N) : Prop :=
  ∀ edge ∈ icfg.edges, edge.kind = .IntraCF → ∀ bb ∈ icfg.getBB edge.src,
    ∀ bb' ∈ icfg.getBB edge.dst,
      (bb = bb' → Consecutive (nodesOfBlock m icfg bb) edge.src edge.dst) ∧
      (bb ≠ bb' → edge.src ∈ (nodesOfBlock m icfg bb).getLast? ∧
        edge.dst ∈ (nodesOfBlock m icfg bb').head?)

/-- Two plain instructions in a row are connected in the ICFG, as they are in live code. -/
def RowsConnected (m : SVFModule F B I) (icfg : ICFG F B I N) : Prop :=
  ∀ bb ∈ m.functions.flatMap m.blocks, ∀ x y, Consecutive (nodesOfBlock m icfg bb) x y →
    icfg.kind x = .IntraBlock → icfg.kind y = .IntraBlock →
      TransGen (ICFGStep m icfg) x y

-- ── Lists cut into groups

section Groups

variable {α : Type} {r : α → α → Bool}

theorem splitBy_concat_alone {l : List α} {y : α} (h : ∀ x ∈ l.getLast?, r x y = false) :
    (l ++ [y]).splitBy r = l.splitBy r ++ [[y]] := by
  rw [splitBy_append]
  · rfl
  · intro x hx z hz
    rw [← Option.some.inj (hz : some y = some z)]
    exact h x hx

theorem splitBy_cons_alone {l : List α} {x : α} (h : ∀ y, r x y = false) :
    (x :: l).splitBy r = [x] :: l.splitBy r := by
  have happ := splitBy_append (r := r) (l := [x]) (m := l) fun z hz y _ => by
    rw [← Option.some.inj (hz : some x = some z)]
    exact h y
  exact happ

theorem splitBy_concat_joined {l : List α} {g : List α} {x y : α}
    (hg : g ∈ (l.splitBy r).getLast?) (hx : x ∈ l.getLast?) (h : r x y) :
    (l ++ [y]).splitBy r = (l.splitBy r).dropLast ++ [g ++ [y]] := by
  have hsplit : (l.splitBy r).dropLast ++ [g] = l.splitBy r := dropLast_append_getLast? g hg
  have hgmem : g ∈ l.splitBy r := mem_of_getLast? hg
  have hgne : g ≠ [] := ne_nil_of_mem_splitBy hgmem
  have hxg : g.getLast? = some x := by
    have hlast : (l.splitBy r).flatten.getLast? = some x := by
      rw [flatten_splitBy]
      exact hx
    rw [← hsplit, flatten_append, flatten_singleton, getLast?_append_of_ne_nil _ hgne] at hlast
    exact hlast
  rw [splitBy_eq_iff]
  refine ⟨?_, ?_, ?_, ?_⟩
  · calc l ++ [y] = ((l.splitBy r).dropLast ++ [g]).flatten ++ [y] := by
          rw [hsplit, flatten_splitBy]
      _ = ((l.splitBy r).dropLast ++ [g ++ [y]]).flatten := by simp
  · intro hnil
    rcases mem_append.mp hnil with hnil | hnil
    · exact nil_notMem_splitBy r l (mem_of_mem_dropLast hnil)
    · simp at hnil
  · intro m hm
    rcases mem_append.mp hm with hm | hm
    · exact isChain_of_mem_splitBy (mem_of_mem_dropLast hm)
    · rw [mem_singleton.mp hm, isChain_append]
      refine ⟨isChain_of_mem_splitBy hgmem, isChain_singleton y, ?_⟩
      intro a ha b hb
      rw [hxg] at ha
      rw [← Option.some.inj ha, ← Option.some.inj (hb : some y = some b)]
      exact h
  · have hchain := isChain_getLast_head_splitBy r l
    rw [← hsplit, isChain_append] at hchain
    rw [isChain_append]
    refine ⟨hchain.1, isChain_singleton _, ?_⟩
    intro a ha b hb
    obtain ⟨hane, _, hab⟩ := hchain.2.2 a ha g rfl
    have hbeq : b = g ++ [y] := (Option.some.inj (hb : some (g ++ [y]) = some b)).symm
    subst hbeq
    refine ⟨hane, by simp, ?_⟩
    rw [head_append_of_ne_nil hgne]
    exact hab

theorem consecutive_cons_cons {l : List α} {a b x y : α} :
    Consecutive (a :: b :: l) x y ↔ a = x ∧ b = y ∨ Consecutive (b :: l) x y := by
  constructor
  · rintro ⟨i, hx, hy⟩
    cases i with
    | zero => exact .inl ⟨Option.some.inj hx, Option.some.inj hy⟩
    | succ i => exact .inr ⟨i, hx, hy⟩
  · rintro (⟨rfl, rfl⟩ | ⟨i, hx, hy⟩)
    · exact ⟨0, rfl, rfl⟩
    · exact ⟨i + 1, hx, hy⟩

theorem not_consecutive_singleton {a x y : α} : ¬ Consecutive [a] x y := by
  rintro ⟨i, -, hy⟩
  cases hy

theorem not_consecutive_nil {x y : α} : ¬ Consecutive ([] : List α) x y := by
  rintro ⟨i, hx, -⟩
  cases hx

theorem Consecutive.mem {l : List α} {x y : α} (h : Consecutive l x y) : x ∈ l ∧ y ∈ l := by
  obtain ⟨i, hx, hy⟩ := h
  exact ⟨mem_of_getElem? hx, mem_of_getElem? hy⟩

theorem consecutive_append {l l' : List α} {x y : α} : Consecutive (l ++ l') x y ↔
      Consecutive l x y ∨ Consecutive l' x y ∨ x ∈ l.getLast? ∧ y ∈ l'.head? := by
  induction l with
  | nil => simp [not_consecutive_nil]
  | cons a l ih =>
    cases l with
    | nil =>
      cases l' with
      | nil => simp [not_consecutive_nil, not_consecutive_singleton]
      | cons b l' =>
        simp only [cons_append, nil_append, consecutive_cons_cons,
          not_consecutive_singleton, false_or, getLast?_singleton, head?_cons,
          Option.mem_def, Option.some.injEq]
        exact or_comm
    | cons b l =>
      simp only [cons_append, consecutive_cons_cons, getLast?_cons_cons] at ih ⊢
      rw [ih, or_assoc]

theorem consecutive_flatten {gs : List (List α)} (hne : [] ∉ gs) {x y : α} :
    Consecutive gs.flatten x y ↔ (∃ g ∈ gs, Consecutive g x y) ∨
      ∃ g g', Consecutive gs g g' ∧ x ∈ g.getLast? ∧ y ∈ g'.head? := by
  induction gs with
  | nil => simp [not_consecutive_nil]
  | cons g gs ih =>
    have hne' : [] ∉ gs := fun h => hne (mem_cons_of_mem _ h)
    rw [flatten_cons, consecutive_append, ih hne']
    cases gs with
    | nil => simp [not_consecutive_nil, not_consecutive_singleton]
    | cons g' gs =>
      have hhead : ((g' :: gs).flatten).head? = g'.head? := by
        rw [flatten_cons, head?_append_of_ne_nil]
        rintro rfl
        exact hne' mem_cons_self
      rw [hhead]
      simp only [consecutive_cons_cons, mem_cons, or_and_right, exists_or,
        exists_eq_left, and_assoc]
      constructor
      · rintro (h | (h | h) | h)
        · exact .inl (.inl h)
        · exact .inl (.inr h)
        · exact .inr (.inr h)
        · exact .inr (.inl ⟨g, g', rfl, rfl, h.1, h.2⟩)
      · rintro ((h | h) | ⟨_, _, rfl, rfl, h⟩ | h)
        · exact .inl h
        · exact .inr (.inl (.inl h))
        · exact .inr (.inr h)
        · exact .inr (.inl (.inr h))

theorem countP_mem_eq_one [DecidableEq α] {gs : List (List α)} (hnodup : gs.flatten.Nodup)
    {x : α} (hx : x ∈ gs.flatten) : gs.countP (fun g => x ∈ g) = 1 := by
  induction gs with
  | nil => cases hx
  | cons g gs ih =>
    rw [flatten_cons, nodup_append] at hnodup
    by_cases hg : x ∈ g
    · have hzero : gs.countP (fun g => x ∈ g) = 0 := by
        rw [countP_eq_zero]
        intro g' hg' hxg'
        exact hnodup.2.2 x hg x (mem_flatten.mpr ⟨g', hg', of_decide_eq_true hxg'⟩) rfl
      rw [countP_cons_of_pos (by simpa using hg), hzero]
    · have hrest : x ∈ gs.flatten := (mem_append.mp hx).resolve_left hg
      rw [countP_cons_of_neg (by simpa using hg), ih hnodup.2.1 hrest]

end Groups

-- ── The vectors of the blocks

/-- Two nodes that share a basic-block node when they are neighbours. -/
def joins (icfg : ICFG F B I N) (x y : N) : Bool :=
  icfg.kind x = .IntraBlock ∧ icfg.kind y = .IntraBlock

def Cut (icfg : ICFG F B I N) (bbToNodes : BBToNodes B N) (cur : B → List N) : Prop :=
  ∀ bb, bbToNodes.lookup bb =
    if cur bb = [] then none else some ((cur bb).splitBy (joins icfg))

variable {m : SVFModule F B I} {icfg : ICFG F B I N} {bbToNodes : BBToNodes B N}
  {cur : B → List N}

theorem joins_false_left {x y : N} (h : icfg.kind x ≠ .IntraBlock) : joins icfg x y = false := by
  simp [joins, h]

theorem joins_false_right {x y : N} (h : icfg.kind y ≠ .IntraBlock) : joins icfg x y = false := by
  simp [joins, h]

variable {bb : B} {func : F} {edge : ICFGEdge N} {n : N}

section

variable (h : Cut icfg bbToNodes cur)
include h

theorem Cut.at_eq (bb : B) :
    bbToNodes.at (some bb) = (cur bb).splitBy (joins icfg) := by
  rw [BBToNodes.at, h bb]
  split
  case isTrue hnil => rw [hnil]; rfl
  case isFalse => rfl

theorem Cut.insert {v : List (List N)} {l : List N} (hne : l ≠ [])
    (hv : v = l.splitBy (joins icfg)) :
    Cut icfg (bbToNodes.insert bb v) (update cur bb l) := by
  intro bb'
  by_cases hbb : bb' = bb
  · subst hbb
    rw [AList.lookup_insert, update_self, if_neg hne, hv]
  · rw [AList.lookup_insert_ne hbb, update_of_ne hbb]
    exact h bb'

theorem Cut.push_back (bb : B) (y : N)
    (halone : ∀ x ∈ (cur bb).getLast?, joins icfg x y = false) :
    Cut icfg (bbToNodes.push_back bb [y]) (update cur bb (cur bb ++ [y])) := by
  refine h.insert (by simp) ?_
  rw [h.at_eq, splitBy_concat_alone halone]

end

/-- Instructions may follow: the last basic-block node is a row of plain instructions or a
    return. -/
def OpenEnd (icfg : ICFG F B I N) (l : List N) : Prop :=
  ∀ x ∈ l.getLast?, icfg.kind x = .IntraBlock ∨ icfg.kind x = .FunRetBlock

theorem kind_of_row {g : List N} {a b : N}
    (hchain : (a :: b :: g).IsChain fun x y => joins icfg x y) :
    ∀ x ∈ a :: b :: g, icfg.kind x = .IntraBlock := by
  have hjoin : ∀ x y, joins icfg x y → icfg.kind x = .IntraBlock ∧ icfg.kind y = .IntraBlock := by
    intro x y h
    simpa [joins] using h
  induction g generalizing a b with
  | nil =>
    have hab := hjoin a b (isChain_cons_cons.mp hchain).1
    intro x hx
    rcases mem_cons.mp hx with rfl | hx
    · exact hab.1
    · rw [mem_singleton.mp hx]
      exact hab.2
  | cons c g ih =>
    obtain ⟨hab, hrest⟩ := isChain_cons_cons.mp hchain
    intro x hx
    rcases mem_cons.mp hx with rfl | hx
    · exact (hjoin _ b hab).1
    · exact ih hrest x hx

theorem group_eq_singleton {l g : List N} {x : N} (hg : g ∈ l.splitBy (joins icfg)) (hx : x ∈ g)
    (hkind : icfg.kind x ≠ .IntraBlock) : g = [x] := by
  cases g with
  | nil => cases hx
  | cons a g =>
    cases g with
    | nil => rw [mem_singleton.mp hx]
    | cons b g =>
      exact absurd (kind_of_row (isChain_of_mem_splitBy hg) x hx) hkind

theorem kind_head_of_getLast {l g : List N} {x first : N}
    (hg : g ∈ l.splitBy (joins icfg)) (hx : x ∈ g.getLast?) (hfirst : first ∈ g.head?)
    (hkind : icfg.kind x = .IntraBlock) : icfg.kind first = .IntraBlock := by
  by_contra hne
  rw [group_eq_singleton hg (mem_of_mem_head? hfirst) hne] at hx
  have hfx : first = x := Option.some.inj (hx : some first = some x)
  rw [hfx] at hne
  exact hne hkind

theorem exists_getLast_splitBy (icfg : ICFG F B I N) {l : List N} (hne : l ≠ []) :
    ∃ g x, g ∈ (l.splitBy (joins icfg)).getLast? ∧ x ∈ l.getLast? ∧ x ∈ g.getLast? := by
  have hsplit : l.splitBy (joins icfg) ≠ [] := splitBy_ne_nil.mpr hne
  refine ⟨(l.splitBy (joins icfg)).getLast hsplit, l.getLast hne,
    getLast?_eq_some_getLast hsplit, getLast?_eq_some_getLast hne, ?_⟩
  rw [← getLast_getLast_splitBy (joins icfg) hne]
  exact getLast?_eq_some_getLast _

/-- **One instruction** appends its nodes to its block. -/
theorem initInst_cuts (h : Cut icfg bbToNodes cur) {inst : I} (hopen : OpenEnd icfg (cur bb))
    (hkind : m.isIntrinsicInst inst = false → icfg.kind (icfg.getICFGNode inst) = .IntraBlock ∨
        icfg.kind (icfg.getICFGNode inst) = .FunCallBlock ∧
          icfg.kind (icfg.getRetICFGNode (icfg.getICFGNode inst)) = .FunRetBlock) :
    OpenEnd icfg (cur bb ++ nodesOfInst m icfg inst) ∧
      ∃ t, initInst m icfg bb bbToNodes inst = some t ∧
        Cut icfg t (update cur bb (cur bb ++ nodesOfInst m icfg inst)) := by
  rw [initInst, nodesOfInst]
  cases hintr : m.isIntrinsicInst inst with
  | true =>
    rw [if_pos rfl, if_pos rfl, append_nil, update_eq_self]
    exact ⟨hopen, bbToNodes, rfl, h⟩
  | false =>
    rw [if_neg Bool.false_ne_true, if_neg Bool.false_ne_true]
    dsimp only
    rcases hkind hintr with hintra | ⟨hcall, hret⟩
    · have hnotcall : icfg.kind (icfg.getICFGNode inst) ≠ .FunCallBlock := by
        rw [hintra]
        exact nofun
      rw [if_neg hnotcall, if_neg hnotcall]
      refine ⟨fun x hx => ?_, ?_⟩
      · rw [getLast?_concat] at hx
        rw [← Option.some.inj (hx : some (icfg.getICFGNode inst) = some x)]
        exact .inl hintra
      · by_cases hnil : cur bb = []
        · have hlookup : bbToNodes.lookup bb = none := by rw [h bb, if_pos hnil]
          rw [hlookup, hnil]
          exact ⟨_, rfl, h.insert (cons_ne_nil _ _) rfl⟩
        · have hlookup : bbToNodes.lookup bb = some ((cur bb).splitBy (joins icfg)) := by
            rw [h bb, if_neg hnil]
          obtain ⟨g, x, hg, hx, hxg⟩ := exists_getLast_splitBy icfg hnil
          have hgmem : g ∈ (cur bb).splitBy (joins icfg) := mem_of_getLast? hg
          rw [hlookup]
          dsimp only
          rw [hg]
          rcases hopen x hx with hkindx | hkindx
          · have hgne : g ≠ [] := ne_nil_of_mem_splitBy hgmem
            have hfirst := kind_head_of_getLast hgmem hxg (head?_eq_some_head hgne) hkindx
            have hjoin : joins icfg x (icfg.getICFGNode inst) := by
              simp [joins, hkindx, hintra]
            refine ⟨bbToNodes.insert bb
              (((cur bb).splitBy (joins icfg)).dropLast ++ [g ++ [icfg.getICFGNode inst]]), ?_,
              h.insert (by simp) (splitBy_concat_joined hg hx hjoin).symm⟩
            simp [head?_eq_some_head hgne, hfirst]
          · have hgx : g = [x] := group_eq_singleton hgmem (mem_of_mem_getLast? hxg)
              (by rw [hkindx]; exact nofun)
            refine ⟨bbToNodes.push_back bb [icfg.getICFGNode inst], ?_, h.push_back bb _ ?_⟩
            · simp [hgx, hkindx]
            · intro z hz
              rw [Option.some.inj ((hz : (cur bb).getLast? = some z).symm.trans hx)]
              exact joins_false_left (by rw [hkindx]; exact nofun)
    · rw [if_pos hcall, if_pos hcall]
      have hcallne : icfg.kind (icfg.getICFGNode inst) ≠ .IntraBlock := by
        rw [hcall]
        exact nofun
      refine ⟨fun x hx => ?_, _, rfl, ?_⟩
      · rw [getLast?_append_of_ne_nil _ (cons_ne_nil _ _)] at hx
        rw [← Option.some.inj (hx : some (icfg.getRetICFGNode (icfg.getICFGNode inst)) = some x)]
        exact .inr hret
      · have hfirst := h.push_back bb (icfg.getICFGNode inst) fun _ _ => joins_false_right hcallne
        have hsecond := hfirst.push_back bb (icfg.getRetICFGNode (icfg.getICFGNode inst)) fun _ _ =>
            joins_false_right (by rw [hret]; exact nofun)
        rw [update_self, update_idem, append_assoc] at hsecond
        exact hsecond

/-- The kinds of the nodes of an instruction, where it has any. -/
def InstKinds (m : SVFModule F B I) (icfg : ICFG F B I N) (inst : I) : Prop :=
  m.isIntrinsicInst inst = false →
    icfg.kind (icfg.getICFGNode inst) = .IntraBlock ∨
      icfg.kind (icfg.getICFGNode inst) = .FunCallBlock ∧
        icfg.kind (icfg.getRetICFGNode (icfg.getICFGNode inst)) = .FunRetBlock

theorem initInsts_cuts (bb : B) {insts : List I} (hkind : ∀ inst ∈ insts, InstKinds m icfg inst)
    (h : Cut icfg bbToNodes cur) (hopen : OpenEnd icfg (cur bb)) :
    ∃ t, insts.foldlM (initInst m icfg bb) bbToNodes = some t ∧
      Cut icfg t (update cur bb (cur bb ++ insts.flatMap (nodesOfInst m icfg))) := by
  induction insts generalizing bbToNodes cur with
  | nil =>
    rw [flatMap_nil, append_nil, update_eq_self]
    exact ⟨bbToNodes, rfl, h⟩
  | cons inst insts ih =>
    obtain ⟨hopen', t, ht, hcut⟩ := initInst_cuts h hopen (hkind inst mem_cons_self)
    rw [← update_self bb (cur bb ++ nodesOfInst m icfg inst) cur] at hopen'
    obtain ⟨t', ht', hcut'⟩ := ih (forall_mem_cons.mp hkind).2 hcut hopen'
    rw [update_self, update_idem, append_assoc] at hcut'
    refine ⟨t', ?_, hcut'⟩
    rw [foldlM_cons, ht]
    exact ht'

theorem initBlocks_cuts {bbs : List B} (hnodup : bbs.Nodup)
    (hkind : ∀ bb ∈ bbs, ∀ inst ∈ m.insts bb, InstKinds m icfg inst)
    (h : Cut icfg bbToNodes cur) (hempty : ∀ bb ∈ bbs, cur bb = []) :
    ∃ t, bbs.foldlM (initBlock m icfg) bbToNodes = some t ∧ Cut icfg t fun bb =>
        if bb ∈ bbs then (m.insts bb).flatMap (nodesOfInst m icfg) else cur bb := by
  induction bbs generalizing bbToNodes cur with
  | nil => exact ⟨bbToNodes, rfl, h⟩
  | cons bb bbs ih =>
    obtain ⟨hnotin, hnodup'⟩ := nodup_cons.mp hnodup
    have hnil : cur bb = [] := hempty bb mem_cons_self
    obtain ⟨t, ht, hcut⟩ := initInsts_cuts bb (hkind bb mem_cons_self) h (by rw [hnil]; exact nofun)
    rw [hnil, nil_append] at hcut
    obtain ⟨t', ht', hcut'⟩ := ih hnodup' (forall_mem_cons.mp hkind).2 hcut fun b hb => by
        rw [update_of_ne (fun hbb : b = bb => hnotin (hbb ▸ hb))]
        exact hempty b (mem_cons_of_mem _ hb)
    refine ⟨t', ?_, ?_⟩
    · rw [foldlM_cons, initBlock, ht]
      exact ht'
    · convert hcut' using 2 with b
      by_cases hb : b = bb
      · subst hb
        rw [if_pos mem_cons_self, if_neg hnotin, update_self]
      · rw [update_of_ne hb]
        simp only [mem_cons, hb, false_or]

def nodesIfIn (m : SVFModule F B I) (icfg : ICFG F B I N) (func : F) (bb : B) : List N :=
  if bb ∈ m.blocks func then nodesOfBlockIn m icfg func bb else []

theorem initFunEntry_cuts (hkind : icfg.kind (icfg.getFunEntryICFGNode func) ≠ .IntraBlock)
    (h : Cut icfg bbToNodes cur) :
    Cut icfg (initFunEntry icfg func bbToNodes) fun bb =>
      (if icfg.getBB (icfg.getFunEntryICFGNode func) = some bb then
        [icfg.getFunEntryICFGNode func] else []) ++ cur bb := by
  rw [initFunEntry]
  cases hbb : icfg.getBB (icfg.getFunEntryICFGNode func) with
  | none => exact h
  | some b =>
    convert h.insert (cons_ne_nil (icfg.getFunEntryICFGNode func) (cur b)) ?_ using 2 with bb
    · by_cases heq : bb = b
      · subst heq
        rw [if_pos rfl, update_self]
        rfl
      · rw [if_neg (fun hsome => heq (Option.some.inj hsome).symm), update_of_ne heq]
        rfl
    · rw [h.at_eq, splitBy_cons_alone fun y => joins_false_left hkind]

theorem initFunExit_cuts (hkind : icfg.kind (icfg.getFunExitICFGNode func) ≠ .IntraBlock)
    (h : Cut icfg bbToNodes cur) :
    Cut icfg (initFunExit icfg func bbToNodes) fun bb =>
      cur bb ++ if icfg.getBB (icfg.getFunExitICFGNode func) = some bb then
        [icfg.getFunExitICFGNode func] else [] := by
  rw [initFunExit]
  cases hbb : icfg.getBB (icfg.getFunExitICFGNode func) with
  | none =>
    convert h using 2 with bb
    rw [if_neg (Option.some_ne_none bb).symm, append_nil]
  | some b =>
    convert h.push_back b (icfg.getFunExitICFGNode func)
      (fun _ _ => joins_false_right hkind) using 2 with bb
    by_cases heq : bb = b
    · subst heq
      rw [if_pos rfl, update_self]
    · rw [if_neg (fun hsome => heq (Option.some.inj hsome).symm), update_of_ne heq, append_nil]

/-- **One function** fills its own blocks. -/
theorem initFunction_cuts (hnodup : (m.blocks func).Nodup)
    (hkind : ∀ bb ∈ m.blocks func, ∀ inst ∈ m.insts bb, InstKinds m icfg inst)
    (hkindEntry : icfg.kind (icfg.getFunEntryICFGNode func) = .FunEntryBlock)
    (hkindExit : icfg.kind (icfg.getFunExitICFGNode func) = .FunExitBlock)
    (hentry : ∀ bb ∈ icfg.getBB (icfg.getFunEntryICFGNode func), bb ∈ m.blocks func)
    (hexit : ∀ bb ∈ icfg.getBB (icfg.getFunExitICFGNode func), bb ∈ m.blocks func)
    (h : Cut icfg bbToNodes cur) (hempty : ∀ bb ∈ m.blocks func, cur bb = []) :
    ∃ t, initFunction m icfg bbToNodes func = some t ∧
      Cut icfg t fun bb => cur bb ++ nodesIfIn m icfg func bb := by
  obtain ⟨t, ht, hcut⟩ := initBlocks_cuts hnodup hkind h hempty
  refine ⟨initFunExit icfg func (initFunEntry icfg func t), ?_, ?_⟩
  · rw [initFunction, ht]
    rfl
  · convert initFunExit_cuts (by rw [hkindExit]; exact nofun)
      (initFunEntry_cuts (by rw [hkindEntry]; exact nofun) hcut) using 2 with bb
    rw [nodesIfIn]
    by_cases hbb : bb ∈ m.blocks func
    · rw [if_pos hbb, if_pos hbb, hempty bb hbb, nodesOfBlockIn, nil_append, append_assoc]
    · have hnotEntry : icfg.getBB (icfg.getFunEntryICFGNode func) ≠ some bb := fun heq =>
        hbb (hentry bb heq)
      have hnotExit : icfg.getBB (icfg.getFunExitICFGNode func) ≠ some bb := fun heq =>
        hbb (hexit bb heq)
      rw [if_neg hbb, if_neg hbb, if_neg hnotEntry, if_neg hnotExit, nil_append]

theorem initFunctions_cuts {funcs : List F} (hblocks : (funcs.flatMap m.blocks).Nodup)
    (hkind : ∀ bb ∈ funcs.flatMap m.blocks, ∀ inst ∈ m.insts bb, InstKinds m icfg inst)
    (hkindEntry : ∀ func ∈ funcs, icfg.kind (icfg.getFunEntryICFGNode func) = .FunEntryBlock)
    (hkindExit : ∀ func ∈ funcs, icfg.kind (icfg.getFunExitICFGNode func) = .FunExitBlock)
    (hentry : ∀ func ∈ funcs, ∀ bb ∈ icfg.getBB (icfg.getFunEntryICFGNode func), bb ∈ m.blocks func)
    (hexit : ∀ func ∈ funcs, ∀ bb ∈ icfg.getBB (icfg.getFunExitICFGNode func), bb ∈ m.blocks func)
    (h : Cut icfg bbToNodes cur) (hempty : ∀ bb ∈ funcs.flatMap m.blocks, cur bb = []) :
    ∃ t, funcs.foldlM (initFunction m icfg) bbToNodes = some t ∧
      Cut icfg t fun bb => cur bb ++ funcs.flatMap fun func => nodesIfIn m icfg func bb := by
  induction funcs generalizing bbToNodes cur with
  | nil =>
    refine ⟨bbToNodes, rfl, ?_⟩
    simpa using h
  | cons func funcs ih =>
    rw [flatMap_cons, nodup_append] at hblocks
    have hin : ∀ bb ∈ m.blocks func, bb ∈ (func :: funcs).flatMap m.blocks := fun bb hbb =>
      mem_flatMap.mpr ⟨func, mem_cons_self, hbb⟩
    have hlater : ∀ bb ∈ funcs.flatMap m.blocks, bb ∈ (func :: funcs).flatMap m.blocks :=
      fun bb hbb => mem_append.mpr (.inr hbb)
    obtain ⟨t, ht, hcut⟩ := initFunction_cuts hblocks.1 (fun bb hbb => hkind bb (hin bb hbb))
      (hkindEntry func mem_cons_self) (hkindExit func mem_cons_self)
      (hentry func mem_cons_self) (hexit func mem_cons_self) h
      fun bb hbb => hempty bb (hin bb hbb)
    obtain ⟨t', ht', hcut'⟩ := ih hblocks.2.1 (fun bb hbb => hkind bb (hlater bb hbb))
      (forall_mem_cons.mp hkindEntry).2
      (forall_mem_cons.mp hkindExit).2
      (forall_mem_cons.mp hentry).2
      (forall_mem_cons.mp hexit).2 hcut fun bb hbb => by
        have hother : bb ∉ m.blocks func := fun hbb' => hblocks.2.2 bb hbb' bb hbb rfl
        rw [hempty bb (hlater bb hbb), nodesIfIn, if_neg hother, append_nil]
    refine ⟨t', ?_, ?_⟩
    · rw [foldlM_cons, ht]
      exact ht'
    · convert hcut' using 2 with bb
      rw [flatMap_cons, append_assoc]

/-- **The vectors after `initCFBasicBlockGNodes`**: each block's nodes, cut where two
    neighbours are not both plain instructions. No read is outside a vector. -/
theorem init_cuts (hwf : BuiltOver m icfg) :
    ∃ bbToNodes, initCFBasicBlockGNodes m icfg = some bbToNodes ∧
      Cut icfg bbToNodes (nodesOfBlock m icfg) := by
  have hstart : Cut icfg (∅ : BBToNodes B N) fun _ => [] := by
    intro bb
    rw [if_pos rfl]
    rfl
  obtain ⟨t, ht, hcut⟩ := initFunctions_cuts hwf.blocks_nodup hwf.kind_inst hwf.kind_entry
    hwf.kind_exit hwf.entry_block hwf.exit_block hstart fun _ _ => rfl
  exact ⟨t, ht, hcut⟩

-- ── What the edge loops add

def AddsExactly (step : CFBasicBlockGraph N → Option (CFBasicBlockGraph N))
    (P : CFBasicBlockEdge N → Prop) : Prop :=
  ∀ g, ∃ g', step g = some g' ∧ g'.nodes = g.nodes ∧ ∀ e, e ∈ g'.edges ↔ e ∈ g.edges ∨ P e

theorem addsExactly_skip : AddsExactly (N := N) some fun _ => False :=
  fun g => ⟨g, rfl, rfl, fun _ => (or_false _).symm.to_iff⟩

theorem addsExactly_add (edge : CFBasicBlockEdge N) :
    AddsExactly (fun g => some (g.addCFBBEdge edge)) (· = edge) := fun _ =>
  ⟨_, rfl, rfl, fun _ => mem_insert_iff.trans or_comm⟩

theorem AddsExactly.congr {step : CFBasicBlockGraph N → Option (CFBasicBlockGraph N)}
    {P Q : CFBasicBlockEdge N → Prop} (h : AddsExactly step P) (hPQ : ∀ e, P e ↔ Q e) :
    AddsExactly step Q := by
  intro g
  obtain ⟨g', hg', hnodes, hedges⟩ := h g
  exact ⟨g', hg', hnodes, fun e => (hedges e).trans (or_congr_right (hPQ e))⟩

theorem AddsExactly.foldlM {β : Type} {xs : List β}
    {body : CFBasicBlockGraph N → β → Option (CFBasicBlockGraph N)}
    {P : β → CFBasicBlockEdge N → Prop}
    (h : ∀ x ∈ xs, AddsExactly (fun g => body g x) (P x)) :
    AddsExactly (fun g => xs.foldlM body g) fun e => ∃ x ∈ xs, P x e := by
  induction xs with
  | nil => exact fun g => ⟨g, rfl, rfl, fun _ => by simp⟩
  | cons x xs ih =>
    intro g
    obtain ⟨g1, hg1, hnodes1, hedges1⟩ := h x mem_cons_self g
    obtain ⟨g2, hg2, hnodes2, hedges2⟩ := ih (forall_mem_cons.mp h).2 g1
    dsimp only at hg1 hg2 hedges2 ⊢
    refine ⟨g2, ?_, hnodes2.trans hnodes1, fun e => ?_⟩
    · rw [foldlM_cons, hg1]
      exact hg2
    · rw [hedges2, hedges1, or_assoc, exists_mem_cons_iff]

theorem mem_getOutEdges {node : N} :
    edge ∈ icfg.getOutEdges node ↔ edge ∈ icfg.edges ∧ edge.src = node := by
  simp [ICFG.getOutEdges]

theorem mem_getInEdges {node : N} :
    edge ∈ icfg.getInEdges node ↔ edge ∈ icfg.edges ∧ edge.dst = node := by
  simp [ICFG.getInEdges]

theorem getICFGEdge_eq_some {src dst : N} {kind : ICFGEdgeK} :
    icfg.getICFGEdge src dst kind = some edge ↔
      edge ∈ icfg.edges ∧ edge.kind = kind ∧ edge.src = src ∧ edge.dst = dst := by
  constructor
  · intro h
    have hmem := mem_getOutEdges.mp (mem_of_find?_eq_some h)
    have hprop := find?_some h
    simp only [decide_eq_true_eq] at hprop
    exact ⟨hmem.1, hprop.2, hmem.2, hprop.1⟩
  · rintro ⟨hmem, hkind, hsrc, hdst⟩
    cases hfind : icfg.getICFGEdge src dst kind with
    | none =>
      have hno := find?_eq_none.mp hfind edge (mem_getOutEdges.mpr ⟨hmem, hsrc⟩)
      exact absurd (by simp [hdst, hkind]) hno
    | some edge' =>
      have hmem' := mem_getOutEdges.mp (mem_of_find?_eq_some hfind)
      have hprop' := find?_some hfind
      simp only [decide_eq_true_eq] at hprop'
      cases edge
      cases edge'
      simp_all

theorem Listed.at_getBB (hwf : BuiltOver m icfg) (hcut : Cut icfg bbToNodes (nodesOfBlock m icfg))
    (hn : Listed m icfg n) :
    ∃ bb ∈ m.functions.flatMap m.blocks, icfg.getBB n = some bb ∧ n ∈ nodesOfBlock m icfg bb ∧
      bbToNodes.at (icfg.getBB n) = (nodesOfBlock m icfg bb).splitBy (joins icfg) ∧
      bbToNodes.at (icfg.getBB n) ≠ [] := by
  obtain ⟨bb, hbb, hmem⟩ := hn
  have hget := hwf.getBB_nodes bb hbb n hmem
  refine ⟨bb, hbb, hget, hmem, ?_, ?_⟩
  · rw [hget, hcut.at_eq]
  · rw [hget, hcut.at_eq, splitBy_ne_nil]
    exact ne_nil_of_mem hmem

def InterBB (m : SVFModule F B I) (icfg : ICFG F B I N) (bbToNodes : BBToNodes B N)
    (e : CFBasicBlockEdge N) : Prop :=
  e.icfgEdge ∈ icfg.edges ∧ e.icfgEdge.kind = .IntraCF ∧ Listed m icfg e.icfgEdge.src ∧
    icfg.getBB e.icfgEdge.src ≠ icfg.getBB e.icfgEdge.dst ∧
    e.src ∈ (bbToNodes.at (icfg.getBB e.icfgEdge.src)).getLast? ∧
    e.dst ∈ (bbToNodes.at (icfg.getBB e.icfgEdge.dst)).head?

theorem addInterBBEdge_adds (hwf : BuiltOver m icfg)
    (hcut : Cut icfg bbToNodes (nodesOfBlock m icfg)) :
    AddsExactly (addInterBBEdge icfg bbToNodes) (InterBB m icfg bbToNodes) := by
  have hbody : ∀ node ∈ icfg.nodes, ∀ succ ∈ icfg.getOutEdges node,
      AddsExactly (fun g : CFBasicBlockGraph N =>
        if succ.kind = .IntraCF ∧ icfg.getFun node = icfg.getFun succ.dst ∧
            icfg.getBB node ≠ icfg.getBB succ.dst then do
          let src ← (bbToNodes.at (icfg.getBB node)).getLast?
          let dst ← (bbToNodes.at (icfg.getBB succ.dst)).head?
          some (g.addCFBBEdge ⟨src, dst, succ⟩)
        else some g)
      fun e => e.icfgEdge = succ ∧ InterBB m icfg bbToNodes e := by
    intro node _ succ hsucc
    obtain ⟨hedge, rfl⟩ := mem_getOutEdges.mp hsucc
    by_cases hcond : succ.kind = .IntraCF ∧ icfg.getFun succ.src = icfg.getFun succ.dst ∧
        icfg.getBB succ.src ≠ icfg.getBB succ.dst
    · have hdst := hwf.edge_dst succ hedge
      have hsrc : Listed m icfg succ.src := by
        rcases hwf.edge_src succ hedge with hsrc | ⟨-, hglobal, -⟩
        · exact hsrc
        · obtain ⟨bb, hbb, hmem⟩ := hdst
          obtain ⟨func, -, hfunc⟩ := hwf.getFun_nodes bb hbb _ hmem
          rw [hcond.2.1, hfunc] at hglobal
          cases hglobal
      obtain ⟨_, _, _, _, _, hsrcne⟩ := hsrc.at_getBB hwf hcut
      obtain ⟨_, _, _, _, _, hdstne⟩ := hdst.at_getBB hwf hcut
      have hlast := getLast?_eq_some_getLast hsrcne
      have hhead := head?_eq_some_head hdstne
      simp only [if_pos hcond, hlast, hhead, bind_eq_bind, bind_some]
      refine (addsExactly_add _).congr fun e => ?_
      constructor
      · rintro rfl
        exact ⟨rfl, hedge, hcond.1, hsrc, hcond.2.2, hlast, hhead⟩
      · rintro ⟨rfl, -, -, -, -, hlast', hhead'⟩
        cases e with
        | mk src dst edge =>
          rw [hlast] at hlast'
          rw [hhead] at hhead'
          rw [Option.some.inj hlast', Option.some.inj hhead']
    · simp only [if_neg hcond]
      refine addsExactly_skip.congr fun e => iff_of_false not_false ?_
      rintro ⟨rfl, -, hkind, hsrc, hne, -⟩
      exact hcond ⟨hkind, hwf.edge_intra _ hedge hkind hsrc, hne⟩
  refine (AddsExactly.foldlM fun node hnode =>
    AddsExactly.foldlM fun succ hsucc => hbody node hnode succ hsucc).congr fun e => ?_
  constructor
  · rintro ⟨_, _, _, _, _, h⟩
    exact h
  · intro h
    exact ⟨e.icfgEdge.src, hwf.edge_nodes _ h.1, e.icfgEdge, mem_getOutEdges.mpr ⟨h.1, rfl⟩, rfl, h⟩

def IntraBB (icfg : ICFG F B I N) (bbToNodes : BBToNodes B N) (e : CFBasicBlockEdge N) : Prop :=
  ∃ bbNodes ∈ bbToNodes.entries, Consecutive bbNodes.2 e.src e.dst ∧ e.icfgEdge ∈ icfg.edges ∧
    e.icfgEdge.kind = .IntraCF ∧ e.icfgEdge.src ∈ e.src.getLast? ∧ e.icfgEdge.dst ∈ e.dst.head?

theorem Cut.entries (hcut : Cut icfg bbToNodes cur) {bbNodes : Sigma fun _ : B => List (List N)}
    (h : bbNodes ∈ bbToNodes.entries) :
    cur bbNodes.1 ≠ [] ∧ bbNodes.2 = (cur bbNodes.1).splitBy (joins icfg) := by
  have hlookup : bbToNodes.lookup bbNodes.1 = some bbNodes.2 := AList.mem_lookup_iff.mpr h
  rw [hcut] at hlookup
  by_cases hnil : cur bbNodes.1 = []
  · rw [if_pos hnil] at hlookup
    cases hlookup
  · rw [if_neg hnil] at hlookup
    exact ⟨hnil, (Option.some.inj hlookup).symm⟩

theorem addIntraBBEdge_adds (hcut : Cut icfg bbToNodes cur) :
    AddsExactly (addIntraBBEdge icfg bbToNodes) (IntraBB icfg bbToNodes) := by
  refine (AddsExactly.foldlM fun bbNodes hmem => ?_).congr fun e => .rfl
  obtain ⟨hcur, hsplit⟩ := hcut.entries hmem
  have hne : bbNodes.2 ≠ [] := by
    rw [hsplit, splitBy_ne_nil]
    exact hcur
  have hmembers : ∀ node ∈ bbNodes.2, node ≠ [] := fun node hnode =>
    ne_nil_of_mem_splitBy (hsplit ▸ hnode)
  simp only [if_neg hne]
  refine (AddsExactly.foldlM (P := fun i e => bbNodes.2[i]? = some e.src ∧
    bbNodes.2[i + 1]? = some e.dst ∧ e.icfgEdge ∈ icfg.edges ∧ e.icfgEdge.kind = .IntraCF ∧
      e.icfgEdge.src ∈ e.src.getLast? ∧ e.icfgEdge.dst ∈ e.dst.head?) fun i hi => ?_).congr
    fun e => ?_
  · have hlt : i + 1 < bbNodes.2.length := by
      have := mem_range.mp hi
      omega
    have hnode := getElem?_eq_getElem (Nat.lt_of_succ_lt hlt)
    have hnext := getElem?_eq_getElem hlt
    have hlast := getLast?_eq_some_getLast (hmembers _ (mem_of_getElem? hnode))
    have hhead := head?_eq_some_head (hmembers _ (mem_of_getElem? hnext))
    simp only [hnode, hnext, hlast, hhead, bind_eq_bind, bind_some, Option.some.injEq]
    cases hfind : icfg.getICFGEdge _ _ .IntraCF with
    | none =>
      refine addsExactly_skip.congr fun e => iff_of_false not_false ?_
      rintro ⟨hsrc, hdst, hedge, hkind, hlast', hhead'⟩
      rw [← hsrc, hlast] at hlast'
      rw [← hdst, hhead] at hhead'
      have hsome := getICFGEdge_eq_some.mpr ⟨hedge, hkind, (Option.some.inj hlast').symm,
        (Option.some.inj hhead').symm⟩
      rw [hfind] at hsome
      cases hsome
    | some edge =>
      obtain ⟨hedge, hkind, hsrc, hdst⟩ := getICFGEdge_eq_some.mp hfind
      refine (addsExactly_add _).congr fun e => ?_
      constructor
      · rintro rfl
        exact ⟨rfl, rfl, hedge, hkind, hsrc ▸ hlast, hdst ▸ hhead⟩
      · rintro ⟨hsrc', hdst', hedge', hkind', hlast', hhead'⟩
        rw [← hsrc', hlast] at hlast'
        rw [← hdst', hhead] at hhead'
        have hsome := getICFGEdge_eq_some.mpr ⟨hedge', hkind', (Option.some.inj hlast').symm,
          (Option.some.inj hhead').symm⟩
        cases e with
        | mk src dst icfgEdge =>
          dsimp only at hsrc' hdst' hsome
          rw [hfind] at hsome
          rw [hsrc', hdst', Option.some.inj hsome]
  · constructor
    · rintro ⟨i, _, hsrc, hdst, hrest⟩
      exact ⟨⟨i, hsrc, hdst⟩, hrest⟩
    · rintro ⟨⟨i, hsrc, hdst⟩, hrest⟩
      refine ⟨i, mem_range.mpr ?_, hsrc, hdst, hrest⟩
      have := (List.getElem?_eq_some_iff.mp hdst).1
      omega

def CallBB (icfg : ICFG F B I N) (bbToNodes : BBToNodes B N) (node : List N)
    (e : CFBasicBlockEdge N) : Prop :=
  e.src = node ∧ e.icfgEdge.src ∈ node.head? ∧ e.icfgEdge ∈ icfg.edges ∧
    e.icfgEdge.kind = .CallCF ∧ e.dst ∈ (bbToNodes.at (icfg.getBB e.icfgEdge.dst)).head?

def RetBB (m : SVFModule F B I) (icfg : ICFG F B I N) (bbToNodes : BBToNodes B N) (node : List N)
    (e : CFBasicBlockEdge N) : Prop :=
  e.dst = node ∧ e.icfgEdge.dst ∈ node.head? ∧ e.icfgEdge ∈ icfg.edges ∧
    e.icfgEdge.kind = .RetCF ∧
    (∃ func, icfg.getFun e.icfgEdge.src = some func ∧ m.hasReturn func = true) ∧
    e.src ∈ (bbToNodes.at (icfg.getBB e.icfgEdge.src)).getLast?

section

variable (hwf : BuiltOver m icfg)
    (hcut : Cut icfg bbToNodes (nodesOfBlock m icfg)) {node : List N} {front : N}
include hwf hcut

theorem addCallEdges_adds (hfront : node.head? = some front) :
    AddsExactly (addCallEdges icfg bbToNodes node front) (CallBB icfg bbToNodes node) := by
  refine (AddsExactly.foldlM (P := fun edge e => e.icfgEdge = edge ∧
    CallBB icfg bbToNodes node e) fun edge hedge => ?_).congr fun e => ?_
  · obtain ⟨hmem, hsrc⟩ := mem_getOutEdges.mp hedge
    by_cases hkind : edge.kind = .CallCF
    · obtain ⟨_, _, _, _, _, hne⟩ := (hwf.edge_dst edge hmem).at_getBB hwf hcut
      have hhead := head?_eq_some_head hne
      simp only [if_pos hkind, hhead, bind_eq_bind, bind_some]
      refine (addsExactly_add _).congr fun e => ?_
      constructor
      · rintro rfl
        exact ⟨rfl, rfl, hsrc ▸ hfront, hmem, hkind, hhead⟩
      · rintro ⟨rfl, rfl, -, -, -, hhead'⟩
        cases e with
        | mk src dst icfgEdge =>
          rw [hhead] at hhead'
          rw [Option.some.inj hhead']
    · simp only [if_neg hkind]
      refine addsExactly_skip.congr fun e => iff_of_false not_false ?_
      rintro ⟨rfl, -, -, -, hkind', -⟩
      exact hkind hkind'
  · constructor
    · rintro ⟨_, _, _, h⟩
      exact h
    · intro h
      have hsrc : e.icfgEdge.src = front := Option.mem_unique h.2.1 hfront
      exact ⟨e.icfgEdge, mem_getOutEdges.mpr ⟨h.2.2.1, hsrc⟩, rfl, h⟩

theorem addRetEdges_adds (hfront : node.head? = some front) :
    AddsExactly (addRetEdges m icfg bbToNodes node front) (RetBB m icfg bbToNodes node) := by
  refine (AddsExactly.foldlM (P := fun edge e => e.icfgEdge = edge ∧
    RetBB m icfg bbToNodes node e) fun edge hedge => ?_).congr fun e => ?_
  · obtain ⟨hmem, hdst⟩ := mem_getInEdges.mp hedge
    by_cases hkind : edge.kind = .RetCF
    · have hsrc : Listed m icfg edge.src := by
        rcases hwf.edge_src edge hmem with hsrc | ⟨hintra, -, -⟩
        · exact hsrc
        · rw [hkind] at hintra
          cases hintra
      obtain ⟨bb, hbb, _, hin, _, hne⟩ := hsrc.at_getBB hwf hcut
      obtain ⟨func, _, hfunc⟩ := hwf.getFun_nodes bb hbb _ hin
      have hlast := getLast?_eq_some_getLast hne
      simp only [if_pos hkind, hfunc, hlast, bind_eq_bind, bind_some]
      by_cases hreturn : m.hasReturn func
      · simp only [if_pos hreturn]
        refine (addsExactly_add _).congr fun e => ?_
        constructor
        · rintro rfl
          exact ⟨rfl, rfl, hdst ▸ hfront, hmem, hkind, ⟨func, hfunc, hreturn⟩, hlast⟩
        · rintro ⟨rfl, rfl, -, -, -, -, hlast'⟩
          cases e with
          | mk src dst icfgEdge =>
            rw [hlast] at hlast'
            rw [Option.some.inj hlast']
      · simp only [if_neg hreturn]
        refine addsExactly_skip.congr fun e => iff_of_false not_false ?_
        rintro ⟨rfl, -, -, -, -, ⟨func', hfunc', hreturn'⟩, -⟩
        rw [hfunc] at hfunc'
        rw [Option.some.inj hfunc'] at hreturn
        exact hreturn hreturn'
    · simp only [if_neg hkind]
      refine addsExactly_skip.congr fun e => iff_of_false not_false ?_
      rintro ⟨rfl, -, -, -, hkind', -⟩
      exact hkind hkind'
  · constructor
    · rintro ⟨_, _, _, h⟩
      exact h
    · intro h
      have hdst : e.icfgEdge.dst = front := Option.mem_unique h.2.1 hfront
      exact ⟨e.icfgEdge, mem_getInEdges.mpr ⟨h.2.2.1, hdst⟩, rfl, h⟩

theorem addInterProceduralEdge_adds :
    AddsExactly (addInterProceduralEdge m icfg bbToNodes) fun e =>
      ∃ bbNodes ∈ bbToNodes.entries, ∃ node ∈ bbNodes.2,
        CallBB icfg bbToNodes node e ∨ RetBB m icfg bbToNodes node e := by
  refine (AddsExactly.foldlM fun bbNodes hmem => ?_).congr fun e => .rfl
  obtain ⟨_, hsplit⟩ := hcut.entries hmem
  refine (AddsExactly.foldlM (P := fun i e => ∃ node, bbNodes.2[i]? = some node ∧
    (CallBB icfg bbToNodes node e ∨ RetBB m icfg bbToNodes node e)) fun i hi => ?_).congr
      fun e => ?_
  · obtain ⟨node, hnode⟩ : ∃ node, bbNodes.2[i]? = some node :=
      ⟨_, getElem?_eq_getElem (mem_range.mp hi)⟩
    have hmemNode : node ∈ (nodesOfBlock m icfg bbNodes.1).splitBy (joins icfg) :=
      hsplit ▸ mem_of_getElem? hnode
    have hne : node ≠ [] := ne_nil_of_mem_splitBy hmemNode
    have hfront := head?_eq_some_head hne
    simp only [hnode, hfront, bind_eq_bind, bind_some, Option.some.injEq, exists_eq_left']
    -- Only a call node has call edges out of it, and only a return node return edges into it.
    have hcall : ∀ e, CallBB icfg bbToNodes node e → icfg.kind (node.head hne) = .FunCallBlock := by
      rintro e ⟨-, hsrc, hedge, hkind, -⟩
      rw [hfront] at hsrc
      rw [Option.some.inj hsrc]
      exact (hwf.edge_call _ hedge hkind).1
    have hret : ∀ e, RetBB m icfg bbToNodes node e → icfg.kind (node.head hne) = .FunRetBlock := by
      rintro e ⟨-, hdst, hedge, hkind, -⟩
      rw [hfront] at hdst
      rw [Option.some.inj hdst]
      exact (hwf.edge_ret _ hedge hkind).2
    generalize icfg.kind (node.head hne) = k at hcall hret
    have hneither : ∀ e, k ≠ .FunCallBlock → k ≠ .FunRetBlock →
        (False ↔ CallBB icfg bbToNodes node e ∨ RetBB m icfg bbToNodes node e) := by
      intro e hnotcall hnotret
      refine iff_of_false not_false ?_
      rintro (h | h)
      · exact hnotcall (hcall e h)
      · exact hnotret (hret e h)
    cases k with
    | FunCallBlock =>
      refine (addCallEdges_adds hwf hcut hfront).congr fun e => ?_
      exact (or_iff_left fun h => nomatch hret e h).symm
    | FunRetBlock =>
      refine (addRetEdges_adds hwf hcut hfront).congr fun e => ?_
      exact (or_iff_right fun h => nomatch hcall e h).symm
    | IntraBlock => exact addsExactly_skip.congr fun e => hneither e nofun nofun
    | FunEntryBlock => exact addsExactly_skip.congr fun e => hneither e nofun nofun
    | FunExitBlock => exact addsExactly_skip.congr fun e => hneither e nofun nofun
    | GlobalBlock => exact addsExactly_skip.congr fun e => hneither e nofun nofun
  · constructor
    · rintro ⟨i, _, node, hnode, h⟩
      exact ⟨node, mem_of_getElem? hnode, h⟩
    · rintro ⟨node, hnode, h⟩
      obtain ⟨i, hi⟩ := mem_iff_getElem?.mp hnode
      have hlt := (List.getElem?_eq_some_iff.mp hi).1
      exact ⟨i, mem_range.mpr hlt, node, hi, h⟩

end

-- ── The graph of a run

theorem flatMap_nodesIfIn {funcs : List F} (hnodup : (funcs.flatMap m.blocks).Nodup)
    (hfunc : func ∈ funcs) (hbb : bb ∈ m.blocks func) :
    (funcs.flatMap fun f => nodesIfIn m icfg f bb) = nodesOfBlockIn m icfg func bb := by
  induction funcs with
  | nil => cases hfunc
  | cons f funcs ih =>
    rw [flatMap_cons, nodup_append] at hnodup
    rw [flatMap_cons]
    rcases mem_cons.mp hfunc with rfl | hlater
    · have hothers : (funcs.flatMap fun f => nodesIfIn m icfg f bb) = [] := by
        rw [flatMap_eq_nil_iff]
        intro f hf
        rw [nodesIfIn, if_neg]
        intro hbb'
        exact hnodup.2.2 bb hbb bb (mem_flatMap.mpr ⟨f, hf, hbb'⟩) rfl
      rw [hothers, append_nil, nodesIfIn, if_pos hbb]
    · have hnot : bb ∉ m.blocks f := fun hbb' =>
        hnodup.2.2 bb hbb' bb (mem_flatMap.mpr ⟨func, hlater, hbb⟩) rfl
      rw [ih hnodup.2.1 hlater, nodesIfIn, if_neg hnot, nil_append]

theorem nodesOfBlock_eq (hwf : BuiltOver m icfg) (hfunc : func ∈ m.functions)
    (hbb : bb ∈ m.blocks func) : nodesOfBlock m icfg bb = nodesOfBlockIn m icfg func bb :=
  flatMap_nodesIfIn hwf.blocks_nodup hfunc hbb

theorem mem_blocks_of_nodes (hne : nodesOfBlock m icfg bb ≠ []) :
    bb ∈ m.functions.flatMap m.blocks := by
  obtain ⟨n, hn⟩ := exists_mem_of_ne_nil _ hne
  obtain ⟨func, hfunc, hn⟩ := mem_flatMap.mp hn
  by_cases hbb : bb ∈ m.blocks func
  · exact mem_flatMap.mpr ⟨func, hfunc, hbb⟩
  · rw [if_neg hbb] at hn
    cases hn

theorem kind_nodesOfInst {inst : I} (hkind : InstKinds m icfg inst)
    (hn : n ∈ nodesOfInst m icfg inst) :
    icfg.kind n ≠ .FunEntryBlock ∧ icfg.kind n ≠ .FunExitBlock := by
  rw [nodesOfInst] at hn
  cases hintr : m.isIntrinsicInst inst with
  | true =>
    rw [if_pos hintr] at hn
    cases hn
  | false =>
    rw [if_neg (by rw [hintr]; exact Bool.false_ne_true)] at hn
    rcases hkind hintr with hintra | ⟨hcall, hret⟩
    · rw [if_neg (by rw [hintra]; exact nofun)] at hn
      rw [mem_singleton.mp hn, hintra]
      exact ⟨nofun, nofun⟩
    · rw [if_pos hcall] at hn
      rcases mem_cons.mp hn with rfl | hn
      · rw [hcall]
        exact ⟨nofun, nofun⟩
      · rw [mem_singleton.mp hn, hret]
        exact ⟨nofun, nofun⟩

theorem ends_of_kind (hwf : BuiltOver m icfg) (hbb : bb ∈ m.functions.flatMap m.blocks)
    (hn : n ∈ nodesOfBlock m icfg bb) :
    (icfg.kind n = .FunEntryBlock → n ∈ (nodesOfBlock m icfg bb).head?) ∧
      (icfg.kind n = .FunExitBlock → n ∈ (nodesOfBlock m icfg bb).getLast?) := by
  obtain ⟨func, hfunc, hin⟩ := mem_flatMap.mp hbb
  rw [nodesOfBlock_eq hwf hfunc hin, nodesOfBlockIn] at hn ⊢
  rcases mem_append.mp hn with hn | hn
  · split at hn
    case isTrue hbb' =>
      rw [if_pos hbb', mem_singleton.mp hn, hwf.kind_entry func hfunc]
      exact ⟨fun _ => rfl, nofun⟩
    case isFalse => cases hn
  · rcases mem_append.mp hn with hn | hn
    · obtain ⟨inst, hinst, hn⟩ := mem_flatMap.mp hn
      have hkind := kind_nodesOfInst (hwf.kind_inst bb hbb inst hinst) hn
      exact ⟨fun h => absurd h hkind.1, fun h => absurd h hkind.2⟩
    · split at hn
      case isTrue hbb' =>
        rw [if_pos hbb', mem_singleton.mp hn, ← append_assoc, getLast?_concat,
          hwf.kind_exit func hfunc]
        exact ⟨nofun, fun _ => rfl⟩
      case isFalse => cases hn

/-- What a run of the builder leaves behind. -/
structure Built (m : SVFModule F B I) (icfg : ICFG F B I N) (bbToNodes : BBToNodes B N)
    (g : CFBasicBlockGraph N) : Prop where
  cut : Cut icfg bbToNodes (nodesOfBlock m icfg)
  nodes : g.nodes = bbToNodes.entries.flatMap fun bbNodes => bbNodes.2
  edges : ∀ e, e ∈ g.edges ↔ (InterBB m icfg bbToNodes e ∨ IntraBB icfg bbToNodes e) ∨
    ∃ bbNodes ∈ bbToNodes.entries, ∃ node ∈ bbNodes.2,
      CallBB icfg bbToNodes node e ∨ RetBB m icfg bbToNodes node e

/-- **The builder reads inside its vectors**, and this is the graph it builds. -/
theorem build_built (hwf : BuiltOver m icfg) :
    ∃ bbToNodes g, build m icfg = some g ∧ Built m icfg bbToNodes g := by
  obtain ⟨t, ht, hcut⟩ := init_cuts hwf
  obtain ⟨g1, hg1, hnodes1, hedges1⟩ := addInterBBEdge_adds hwf hcut
    ⟨t.entries.flatMap fun bbNodes => bbNodes.2, []⟩
  obtain ⟨g2, hg2, hnodes2, hedges2⟩ := addIntraBBEdge_adds hcut g1
  obtain ⟨g3, hg3, hnodes3, hedges3⟩ := addInterProceduralEdge_adds hwf hcut g2
  refine ⟨t, g3, ?_, hcut, ?_, fun e => ?_⟩
  · rw [build, ht]
    show (addInterBBEdge icfg t _).bind _ = _
    rw [hg1, bind_some, hg2]
    exact hg3
  · rw [hnodes3, hnodes2, hnodes1]
  · rw [hedges3, hedges2, hedges1]
    simp only [not_mem_nil, false_or]

section Run

variable {g : CFBasicBlockGraph N}

theorem Built.mem_nodes (h : Built m icfg bbToNodes g) {node : List N} :
    node ∈ g.nodes ↔ ∃ bb ∈ m.functions.flatMap m.blocks,
      node ∈ (nodesOfBlock m icfg bb).splitBy (joins icfg) := by
  rw [h.nodes, mem_flatMap]
  constructor
  · rintro ⟨bbNodes, hmem, hnode⟩
    obtain ⟨hne, hsplit⟩ := h.cut.entries hmem
    exact ⟨bbNodes.1, mem_blocks_of_nodes hne, hsplit ▸ hnode⟩
  · rintro ⟨bb, hbb, hnode⟩
    have hne : nodesOfBlock m icfg bb ≠ [] := by
      intro hnil
      rw [hnil] at hnode
      cases hnode
    have hlookup := h.cut bb
    rw [if_neg hne] at hlookup
    exact ⟨_, AList.mem_lookup_iff.mp hlookup, hnode⟩

/-- **Each listed node is in one basic-block node.** -/
theorem Built.members (h : Built m icfg bbToNodes g) (hwf : BuiltOver m icfg) {n : N}
    (hn : Listed m icfg n) : g.nodes.countP (fun node => n ∈ node) = 1 := by
  have hflatten : g.nodes.flatten =
      bbToNodes.entries.flatMap fun bbNodes => nodesOfBlock m icfg bbNodes.1 := by
    rw [h.nodes, flatMap_def, flatten_flatten, flatMap_def, map_map]
    refine congrArg List.flatten (map_congr_left fun bbNodes hmem => ?_)
    rw [comp_apply, (h.cut.entries hmem).2, flatten_splitBy]
  have hblock : ∀ bbNodes ∈ bbToNodes.entries, bbNodes.1 ∈ m.functions.flatMap m.blocks :=
    fun bbNodes hmem => mem_blocks_of_nodes (h.cut.entries hmem).1
  refine countP_mem_eq_one ?_ ?_
  · rw [hflatten, nodup_flatMap]
    refine ⟨fun bbNodes hmem => hwf.nodes_nodup _ (hblock bbNodes hmem), ?_⟩
    refine (nodupKeys_iff_pairwise.mp bbToNodes.nodupKeys).imp_of_mem ?_
    intro a b ha hb hne n hna hnb
    have hgetA := hwf.getBB_nodes _ (hblock a ha) n hna
    have hgetB := hwf.getBB_nodes _ (hblock b hb) n hnb
    rw [hgetA] at hgetB
    exact hne (Option.some.inj hgetB)
  · obtain ⟨bb, hbb, hmem⟩ := hn
    rw [← flatten_splitBy (joins icfg) (nodesOfBlock m icfg bb)] at hmem
    obtain ⟨node, hnode, hin⟩ := mem_flatten.mp hmem
    exact mem_flatten.mpr ⟨node, h.mem_nodes.mpr ⟨bb, hbb, hnode⟩, hin⟩

theorem head_of_head_splitBy {l first : List N} {x : N} (hx : x ∈ l.head?)
    (hfirst : first ∈ (l.splitBy (joins icfg)).head?) : x ∈ first.head? := by
  obtain ⟨rest, hrest⟩ := head?_eq_some_iff.mp hfirst
  have hne : first ≠ [] := by
    rintro rfl
    exact nil_notMem_splitBy (joins icfg) l (hrest ▸ mem_cons_self)
  rw [← flatten_splitBy (joins icfg) l, hrest, flatten_cons, head?_append_of_ne_nil _ hne] at hx
  exact hx

theorem head_eq_head_splitBy {l first : List N} {x : N} (hx : x ∈ first.head?)
    (hfirst : first ∈ (l.splitBy (joins icfg)).head?) : x ∈ l.head? := by
  cases hl : l with
  | nil =>
    rw [hl] at hfirst
    cases hfirst
  | cons y l' =>
    have hy := head_of_head_splitBy (x := y) (by rw [hl]; rfl) hfirst
    rw [Option.mem_unique hx hy]
    rfl

theorem last_of_last_splitBy {l last : List N} {x : N} (hx : x ∈ l.getLast?)
    (hlast : last ∈ (l.splitBy (joins icfg)).getLast?) : x ∈ last.getLast? := by
  have hne : l ≠ [] := by
    rintro rfl
    cases hx
  obtain ⟨g, y, hg, hy, hyg⟩ := exists_getLast_splitBy icfg hne
  rw [Option.mem_unique hx hy, Option.mem_unique hlast hg]
  exact hyg

theorem last_eq_last_splitBy {l last : List N} {x : N} (hx : x ∈ last.getLast?)
    (hlast : last ∈ (l.splitBy (joins icfg)).getLast?) : x ∈ l.getLast? := by
  have hne : l ≠ [] := by
    rintro rfl
    cases hlast
  obtain ⟨g, y, hg, hy, hyg⟩ := exists_getLast_splitBy icfg hne
  rw [Option.mem_unique hlast hg] at hx
  rw [Option.mem_unique hx hyg]
  exact hy

theorem mem_of_group {l node : List N} (hnode : node ∈ l.splitBy (joins icfg)) {x : N}
    (hx : x ∈ node) : x ∈ l := by
  rw [← flatten_splitBy (joins icfg) l]
  exact mem_flatten.mpr ⟨node, hnode, hx⟩

theorem singleton_mem_splitBy {l : List N} {x : N} (hx : x ∈ l)
    (hkind : icfg.kind x ≠ .IntraBlock) : [x] ∈ l.splitBy (joins icfg) := by
  rw [← flatten_splitBy (joins icfg) l] at hx
  obtain ⟨node, hnode, hin⟩ := mem_flatten.mp hx
  rw [← group_eq_singleton hnode hin hkind]
  exact hnode

theorem getBB_of_consecutive (hwf : BuiltOver m icfg) {bb : B} {x y : N}
    (h : Consecutive (nodesOfBlock m icfg bb) x y) :
    bb ∈ m.functions.flatMap m.blocks ∧ icfg.getBB x = some bb ∧ icfg.getBB y = some bb := by
  have hbb : bb ∈ m.functions.flatMap m.blocks := mem_blocks_of_nodes (ne_nil_of_mem h.mem.1)
  exact ⟨hbb, hwf.getBB_nodes bb hbb x h.mem.1, hwf.getBB_nodes bb hbb y h.mem.2⟩

/-- Neighbours in a block are neighbours in one of its basic-block nodes, or the last and the
    first member of neighbouring ones. -/
theorem consecutive_groups (icfg : ICFG F B I N) {l : List N} {x y : N} :
    Consecutive l x y ↔ (∃ g ∈ l.splitBy (joins icfg), Consecutive g x y) ∨
      ∃ g g', Consecutive (l.splitBy (joins icfg)) g g' ∧ x ∈ g.getLast? ∧ y ∈ g'.head? := by
  rw [← consecutive_flatten (nil_notMem_splitBy (joins icfg) l), flatten_splitBy]

section

variable (h : Built m icfg bbToNodes g)
include h

theorem Built.mem_entries {bb : B} {n : N} (hn : n ∈ nodesOfBlock m icfg bb) :
    ⟨bb, (nodesOfBlock m icfg bb).splitBy (joins icfg)⟩ ∈ bbToNodes.entries := by
  have hlookup := h.cut bb
  rw [if_neg (ne_nil_of_mem hn)] at hlookup
  exact AList.mem_lookup_iff.mp hlookup

theorem Built.intra_edge {e : CFBasicBlockEdge N}
    (he : e ∈ g.edges) (hkind : e.icfgEdge.kind = .IntraCF) :
    InterBB m icfg bbToNodes e ∨ IntraBB icfg bbToNodes e := by
  rcases (h.edges e).mp he with hintra | ⟨_, _, _, _, hcall | hret⟩
  · exact hintra
  · cases hkind.symm.trans hcall.2.2.2.1
  · cases hkind.symm.trans hret.2.2.2.1

section

variable (hwf : BuiltOver m icfg)
include hwf

/-- An edge that the graph represents leads to the next node of its block, or from the last
    node of a block to the first node of another one. -/
theorem Built.edgesAtEnds (hrep : ∀ edge, Carried m icfg edge →
      (∃ node ∈ g.nodes, Consecutive node edge.src edge.dst) ∨
        ∃ e ∈ g.edges, e.icfgEdge = edge ∧ edge.src ∈ e.src.getLast? ∧ edge.dst ∈ e.dst.head?) :
    EdgesAtEnds m icfg := by
  intro edge hedge hkind bb hbb bb' hbb'
  have hsrc : Listed m icfg edge.src := by
    rcases hwf.edge_src edge hedge with hsrc | ⟨-, -, hnone⟩
    · exact hsrc
    · rw [(hbb : icfg.getBB edge.src = some bb)] at hnone
      cases hnone
  -- Two neighbours of a block `b` can only be an edge from `bb = b` to `bb' = b`.
  have hsame : ∀ b, Consecutive (nodesOfBlock m icfg b) edge.src edge.dst →
      (bb = bb' → Consecutive (nodesOfBlock m icfg bb) edge.src edge.dst) ∧
      (bb ≠ bb' → edge.src ∈ (nodesOfBlock m icfg bb).getLast? ∧
        edge.dst ∈ (nodesOfBlock m icfg bb').head?) := by
    intro b hb
    obtain ⟨-, hgetSrc, hgetDst⟩ := getBB_of_consecutive hwf hb
    have hbbeq : bb = b := Option.some.inj ((hbb : icfg.getBB edge.src = some bb).symm.trans hgetSrc)
    have hbbeq' : bb' = b :=
      Option.some.inj ((hbb' : icfg.getBB edge.dst = some bb').symm.trans hgetDst)
    rw [hbbeq, hbbeq']
    exact ⟨fun _ => hb, fun hne => absurd rfl hne⟩
  have hcarried : Carried m icfg edge := by
    refine ⟨hedge, hsrc, fun hret => ?_⟩
    rw [hkind] at hret
    cases hret
  rcases hrep edge hcarried with ⟨node, hnode, hcons⟩ | ⟨e, he, rfl, hlast, hhead⟩
  · obtain ⟨b, -, hgroup⟩ := h.mem_nodes.mp hnode
    exact hsame b ((consecutive_groups icfg).mpr (.inl ⟨node, hgroup, hcons⟩))
  · rcases h.intra_edge he hkind with ⟨-, -, -, hne, hsrcAt, hdstAt⟩ | ⟨bbNodes, hmem, hcons, -⟩
    · rw [(hbb : icfg.getBB _ = some bb), h.cut.at_eq] at hsrcAt
      rw [(hbb' : icfg.getBB _ = some bb'), h.cut.at_eq] at hdstAt
      rw [(hbb : icfg.getBB _ = some bb), (hbb' : icfg.getBB _ = some bb')] at hne
      refine ⟨fun heq => absurd (congrArg some heq) hne, fun _ => ⟨?_, ?_⟩⟩
      · exact last_eq_last_splitBy hlast hsrcAt
      · exact head_eq_head_splitBy hhead hdstAt
    · rw [(h.cut.entries hmem).2] at hcons
      exact hsame bbNodes.1 ((consecutive_groups icfg).mpr (.inr ⟨_, _, hcons, hlast, hhead⟩))

section

variable (hends : EdgesAtEnds m icfg)
include hends

/-- **Every edge to be carried over is represented.** -/
theorem Built.represented {edge : ICFGEdge N} (hcarried : Carried m icfg edge) :
    (∃ node ∈ g.nodes, Consecutive node edge.src edge.dst) ∨
      ∃ e ∈ g.edges, e.icfgEdge = edge ∧ edge.src ∈ e.src.getLast? ∧ edge.dst ∈ e.dst.head? := by
  obtain ⟨hedge, hsrc, hreturn⟩ := hcarried
  obtain ⟨bb, hbb, hgetSrc, hsrcMem, hatSrc, hneSrc⟩ := hsrc.at_getBB hwf h.cut
  obtain ⟨bb', hbb', hgetDst, hdstMem, hatDst, hneDst⟩ :=
    (hwf.edge_dst edge hedge).at_getBB hwf h.cut
  obtain ⟨last, hlast⟩ : ∃ last, (bbToNodes.at (icfg.getBB edge.src)).getLast? = some last :=
    ⟨_, getLast?_eq_some_getLast hneSrc⟩
  obtain ⟨first, hhead⟩ : ∃ first, (bbToNodes.at (icfg.getBB edge.dst)).head? = some first :=
    ⟨_, head?_eq_some_head hneDst⟩
  have hlastGroup : last ∈ ((nodesOfBlock m icfg bb).splitBy (joins icfg)).getLast? := by
    rw [← hatSrc]
    exact hlast
  have hheadGroup : first ∈ ((nodesOfBlock m icfg bb').splitBy (joins icfg)).head? := by
    rw [← hatDst]
    exact hhead
  cases hkind : edge.kind with
  | IntraCF =>
    obtain ⟨hsame, hother⟩ := hends edge hedge hkind bb hgetSrc bb' hgetDst
    by_cases heq : bb = bb'
    · rcases (consecutive_groups icfg).mp (hsame heq) with ⟨node, hnode, hcons⟩ | ⟨x, y, hcons, hx, hy⟩
      · exact .inl ⟨node, h.mem_nodes.mpr ⟨bb, hbb, hnode⟩, hcons⟩
      · refine .inr ⟨⟨x, y, edge⟩, (h.edges _).mpr (.inl (.inr ?_)), rfl, hx, hy⟩
        exact ⟨_, h.mem_entries hsrcMem, hcons, hedge, hkind, hx, hy⟩
    · obtain ⟨hx, hy⟩ := hother heq
      have hne : icfg.getBB edge.src ≠ icfg.getBB edge.dst := by
        rw [hgetSrc, hgetDst]
        exact fun hsome => heq (Option.some.inj hsome)
      refine .inr ⟨⟨last, first, edge⟩, (h.edges _).mpr (.inl (.inl ?_)), rfl,
        last_of_last_splitBy hx hlastGroup, head_of_head_splitBy hy hheadGroup⟩
      exact ⟨hedge, hkind, hsrc, hne, hlast, hhead⟩
  | CallCF =>
    obtain ⟨hcall, hentry⟩ := hwf.edge_call edge hedge hkind
    have hgroup : [edge.src] ∈ (nodesOfBlock m icfg bb).splitBy (joins icfg) :=
      singleton_mem_splitBy hsrcMem (by rw [hcall]; exact nofun)
    have hy := (ends_of_kind hwf hbb' hdstMem).1 hentry
    refine .inr ⟨⟨[edge.src], first, edge⟩, (h.edges _).mpr (.inr ?_), rfl, rfl,
      head_of_head_splitBy hy hheadGroup⟩
    exact ⟨_, h.mem_entries hsrcMem, [edge.src], hgroup, .inl ⟨rfl, rfl, hedge, hkind, hhead⟩⟩
  | RetCF =>
    obtain ⟨hexit, hret⟩ := hwf.edge_ret edge hedge hkind
    have hgroup : [edge.dst] ∈ (nodesOfBlock m icfg bb').splitBy (joins icfg) :=
      singleton_mem_splitBy hdstMem (by rw [hret]; exact nofun)
    have hx := (ends_of_kind hwf hbb hsrcMem).2 hexit
    refine .inr ⟨⟨last, [edge.dst], edge⟩, (h.edges _).mpr (.inr ?_), rfl,
      last_of_last_splitBy hx hlastGroup, rfl⟩
    exact ⟨_, h.mem_entries hdstMem, [edge.dst], hgroup,
      .inr ⟨rfl, rfl, hedge, hkind, hreturn hkind, hlast⟩⟩

/-- **Every edge of the graph is one of these**, from the node that ends with its source to
    the node that starts with its destination. -/
theorem Built.edges_carried {e : CFBasicBlockEdge N} (he : e ∈ g.edges) :
    Carried m icfg e.icfgEdge ∧ e.src ∈ g.nodes ∧ e.dst ∈ g.nodes ∧
      e.icfgEdge.src ∈ e.src.getLast? ∧ e.icfgEdge.dst ∈ e.dst.head? := by
  rcases (h.edges e).mp he with (hinter | hintra) | ⟨bbNodes, hmem, node, hnode, hcall | hret⟩
  · obtain ⟨hedge, hkind, hsrc, hne, hlast, hhead⟩ := hinter
    obtain ⟨bb, hbb, hgetSrc, -, hatSrc, -⟩ := hsrc.at_getBB hwf h.cut
    obtain ⟨bb', hbb', hgetDst, -, hatDst, -⟩ := (hwf.edge_dst _ hedge).at_getBB hwf h.cut
    rw [hatSrc] at hlast
    rw [hatDst] at hhead
    have hneBB : bb ≠ bb' := by
      rintro rfl
      exact hne (hgetSrc.trans hgetDst.symm)
    obtain ⟨hx, hy⟩ := (hends _ hedge hkind bb hgetSrc bb' hgetDst).2 hneBB
    refine ⟨⟨hedge, hsrc, fun hret => ?_⟩, h.mem_nodes.mpr ⟨bb, hbb, mem_of_getLast? hlast⟩,
      h.mem_nodes.mpr ⟨bb', hbb', mem_of_mem_head? hhead⟩, last_of_last_splitBy hx hlast,
      head_of_head_splitBy hy hhead⟩
    rw [hkind] at hret
    cases hret
  · obtain ⟨bbNodes, hmem, hcons, hedge, hkind, hx, hy⟩ := hintra
    obtain ⟨hne, hsplit⟩ := h.cut.entries hmem
    have hbb : bbNodes.1 ∈ m.functions.flatMap m.blocks := mem_blocks_of_nodes hne
    rw [hsplit] at hcons
    refine ⟨⟨hedge, ⟨bbNodes.1, hbb, ?_⟩, fun hret => ?_⟩,
      h.mem_nodes.mpr ⟨_, hbb, hcons.mem.1⟩, h.mem_nodes.mpr ⟨_, hbb, hcons.mem.2⟩, hx, hy⟩
    · exact mem_of_group hcons.mem.1 (mem_of_getLast? hx)
    · rw [hkind] at hret
      cases hret
  · obtain ⟨hsrcEq, hfront, hedge, hkind, hhead⟩ := hcall
    obtain ⟨hne, hsplit⟩ := h.cut.entries hmem
    have hbb : bbNodes.1 ∈ m.functions.flatMap m.blocks := mem_blocks_of_nodes hne
    obtain ⟨hkindSrc, hentry⟩ := hwf.edge_call _ hedge hkind
    obtain ⟨bb', hbb', -, hdstMem, hatDst, -⟩ := (hwf.edge_dst _ hedge).at_getBB hwf h.cut
    rw [hsplit] at hnode
    rw [hatDst] at hhead
    have hsingle := group_eq_singleton hnode (mem_of_mem_head? hfront)
      (by rw [hkindSrc]; exact nofun)
    refine ⟨⟨hedge, ⟨bbNodes.1, hbb, mem_of_group hnode (mem_of_mem_head? hfront)⟩,
      fun hret => ?_⟩, h.mem_nodes.mpr ⟨_, hbb, hsrcEq ▸ hnode⟩,
      h.mem_nodes.mpr ⟨bb', hbb', mem_of_mem_head? hhead⟩, ?_,
      head_of_head_splitBy ((ends_of_kind hwf hbb' hdstMem).1 hentry) hhead⟩
    · rw [hkind] at hret
      cases hret
    · rw [hsrcEq, hsingle]
      rfl
  · obtain ⟨hdstEq, hfront, hedge, hkind, hreturn, hlast⟩ := hret
    obtain ⟨hne, hsplit⟩ := h.cut.entries hmem
    have hbb : bbNodes.1 ∈ m.functions.flatMap m.blocks := mem_blocks_of_nodes hne
    obtain ⟨hexit, -⟩ := hwf.edge_ret _ hedge hkind
    have hsrc : Listed m icfg e.icfgEdge.src := by
      rcases hwf.edge_src _ hedge with hsrc | ⟨hintra, -⟩
      · exact hsrc
      · rw [hkind] at hintra
        cases hintra
    obtain ⟨bb', hbb', -, hsrcMem, hatSrc, -⟩ := hsrc.at_getBB hwf h.cut
    rw [hsplit] at hnode
    rw [hatSrc] at hlast
    exact ⟨⟨hedge, hsrc, fun _ => hreturn⟩, h.mem_nodes.mpr ⟨bb', hbb', mem_of_getLast? hlast⟩,
      h.mem_nodes.mpr ⟨_, hbb, hdstEq ▸ hnode⟩,
      last_of_last_splitBy ((ends_of_kind hwf hbb' hsrcMem).2 hexit) hlast, hdstEq ▸ hfront⟩

/-- **Paths**: a step of the ICFG is a step of the graph, and a step of the graph is a path of
    the ICFG. -/
theorem Built.refines (hrows : RowsConnected m icfg) : Refines m icfg g where
  members n hn := h.members hwf hn
  represented edge hcarried := h.represented hwf hends hcarried
  edges_carried e he := h.edges_carried hwf hends he
  paths := by
    intro x y _ _
    constructor
    · refine TransGen.mono ?_ x y
      rintro x y ⟨edge, hcarried, rfl, rfl⟩
      rcases h.represented hwf hends hcarried with hnode | ⟨e, he, rfl, hx, hy⟩
      · exact .inl hnode
      · exact .inr ⟨e, he, hx, hy⟩
    · refine TransGen.closed ?_ x y
      rintro x y (⟨node, hnode, hcons⟩ | ⟨e, he, hx, hy⟩)
      · obtain ⟨bb, hbb, hgroup⟩ := h.mem_nodes.mp hnode
        -- A basic-block node with two neighbours is a row of plain instructions.
        have hplain : ∀ z ∈ node, icfg.kind z = .IntraBlock := by
          intro z hz
          by_contra hkind
          rw [group_eq_singleton hgroup hz hkind] at hcons
          exact not_consecutive_singleton hcons
        exact hrows bb hbb x y ((consecutive_groups icfg).mpr (.inl ⟨node, hgroup, hcons⟩))
          (hplain x hcons.mem.1) (hplain y hcons.mem.2)
      · obtain ⟨hcarried, -, -, hx', hy'⟩ := h.edges_carried hwf hends he
        exact .single ⟨e.icfgEdge, hcarried, Option.mem_unique hx' hx, Option.mem_unique hy' hy⟩

end

end

end

theorem joins_of_consecutive_groups {l : List N} {a b : List N} {x y : N}
    (hcons : Consecutive (l.splitBy (joins icfg)) a b) (hx : x ∈ a.getLast?)
    (hy : y ∈ b.head?) : joins icfg x y = false := by
  obtain ⟨i, ha, hb⟩ := hcons
  have hchain := isChain_iff_getElem.mp (isChain_getLast_head_splitBy (joins icfg) l) i
      (List.getElem?_eq_some_iff.mp hb).1
  rw [(List.getElem?_eq_some_iff.mp ha).2, (List.getElem?_eq_some_iff.mp hb).2] at hchain
  obtain ⟨hane, hbne, hjoin⟩ := hchain
  rw [getLast?_eq_some_getLast hane] at hx
  rw [head?_eq_some_head hbne] at hy
  rw [← Option.some.inj hx, ← Option.some.inj hy]
  exact hjoin

theorem Built.rowsConnected (h : Built m icfg bbToNodes g) (href : Refines m icfg g) :
    RowsConnected m icfg := by
  intro bb hbb x y hcons hx hy
  rcases (consecutive_groups icfg).mp hcons with ⟨node, hnode, hcons'⟩ | ⟨a, b, hgroups, hxa, hyb⟩
  · refine (href.paths x y ⟨bb, hbb, hcons.mem.1⟩ ⟨bb, hbb, hcons.mem.2⟩).mpr ?_
    exact .single (.inl ⟨node, h.mem_nodes.mpr ⟨bb, hbb, hnode⟩, hcons'⟩)
  · have hjoin := joins_of_consecutive_groups hgroups hxa hyb
    simp [joins, hx, hy] at hjoin

end Run

/-- **The basic-block graph refines the ICFG exactly** if every intra-procedural edge leads to
    the next node of its block or from the end of a block to the start of another one, and
    the rows of plain instructions are connected. -/
theorem build_refines_icfg_iff (hwf : BuiltOver m icfg) : ∃ g, build m icfg = some g ∧
      (Refines m icfg g ↔ EdgesAtEnds m icfg ∧ RowsConnected m icfg) := by
  obtain ⟨t, g, hg, hbuilt⟩ := build_built hwf
  refine ⟨g, hg, ?_⟩
  constructor
  · intro href
    exact ⟨hbuilt.edgesAtEnds hwf href.represented, hbuilt.rowsConnected href⟩
  · rintro ⟨hends, hrows⟩
    exact hbuilt.refines hwf hends hrows

-- ── A loop of one block

instance (m : SVFModule F B I) (icfg : ICFG F B I N) (n : N) : Decidable (Listed m icfg n) :=
  inferInstanceAs (Decidable (∃ _ ∈ _, _))

/-- `main` calls a function in its block 0, goes through block 1 and returns from block 2. -/
def loopModule : SVFModule ℕ ℕ ℕ where
  functions := [0, 1]
  blocks func := if func = 0 then [0, 1, 2] else [3]
  insts bb := if bb = 0 then [0, 1] else if bb = 1 then [2, 3] else if bb = 2 then [4] else [5]
  isIntrinsicInst _ := false
  hasReturn _ := true

/-- Its ICFG with further edges `loops`. -/
def loopICFG (loops : List (ICFGEdge ℕ)) : ICFG ℕ ℕ ℕ ℕ where
  nodes := [0, 1, 2, 3, 4, 10, 11, 12, 13, 14, 15, 20]
  edges := [⟨0, 1, .IntraCF⟩, ⟨1, 10, .IntraCF⟩, ⟨10, 3, .CallCF⟩, ⟨3, 15, .IntraCF⟩,
    ⟨15, 4, .IntraCF⟩, ⟨4, 20, .RetCF⟩, ⟨20, 11, .IntraCF⟩, ⟨11, 12, .IntraCF⟩,
    ⟨12, 13, .IntraCF⟩, ⟨13, 14, .IntraCF⟩, ⟨14, 2, .IntraCF⟩] ++ loops
  kind n := if n = 0 then .GlobalBlock else if n = 1 ∨ n = 3 then .FunEntryBlock
    else if n = 2 ∨ n = 4 then .FunExitBlock else if n = 10 then .FunCallBlock
    else if n = 20 then .FunRetBlock else .IntraBlock
  getFun n := if n = 0 then none else if n = 3 ∨ n = 15 ∨ n = 4 then some 1 else some 0
  getBB n := if n = 0 then none else if n = 3 ∨ n = 15 ∨ n = 4 then some 3
    else if n = 14 ∨ n = 2 then some 2 else if n = 12 ∨ n = 13 then some 1 else some 0
  getICFGNode inst := 10 + inst
  getRetICFGNode _ := 20
  getFunEntryICFGNode func := if func = 0 then 1 else 3
  getFunExitICFGNode func := if func = 0 then 2 else 4

theorem loop_builtOver (loops : List (ICFGEdge ℕ)) (h : loops = [] ∨ loops = [⟨13, 12, .IntraCF⟩]) :
    BuiltOver loopModule (loopICFG loops) := by
  rcases h with rfl | rfl
  · constructor <;> decide
  · constructor <;> decide

theorem build_refines_icfg_straight : ∃ g, build loopModule (loopICFG []) = some g ∧
    (Refines loopModule (loopICFG []) g ↔
      EdgesAtEnds loopModule (loopICFG []) ∧ RowsConnected loopModule (loopICFG [])) :=
  build_refines_icfg_iff (loop_builtOver [] (.inl rfl))

/-- **Block 1 as a loop**: the edge from its last instruction to its first one joins nodes of
    one block, so `addInterBBEdge` leaves it out, and `addIntraBBEdge` looks only at pairs of
    neighbours. It is lost. -/
theorem build_loses_self_loop : BuiltOver loopModule (loopICFG [⟨13, 12, .IntraCF⟩]) ∧
      ¬ ∃ g, build loopModule (loopICFG [⟨13, 12, .IntraCF⟩]) = some g ∧
        Refines loopModule (loopICFG [⟨13, 12, .IntraCF⟩]) g := by
  refine ⟨loop_builtOver _ (.inr rfl), ?_⟩
  rintro ⟨g, hg, href⟩
  obtain ⟨t, g', hg', hbuilt⟩ := build_built (loop_builtOver _ (.inr rfl))
  have hgg : g' = g := Option.mem_unique hg' hg
  subst hgg
  have hends := hbuilt.edgesAtEnds (loop_builtOver _ (.inr rfl)) href.represented
  obtain ⟨i, hi, hi'⟩ := (hends ⟨13, 12, .IntraCF⟩ (by decide) rfl 1 rfl 1 rfl).1 rfl
  -- Block 1 holds the nodes 12 and 13, in this order.
  have hnodes : nodesOfBlock loopModule (loopICFG [⟨13, 12, .IntraCF⟩]) 1 = [12, 13] := by decide
  rw [hnodes] at hi hi'
  match i with
  | 0 => cases hi
  | 1 => cases hi'

end SvfCFBBG
