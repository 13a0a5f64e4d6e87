import SvfModel.LockQueryProofs
import SvfModel.ReadPrecisionProofs

/-!
# `MTASVFGBuilder::handleStoreLoad` and `handleStoreStore`

A store is connected with a load or a store of another thread. If both are protected by a common
lock, only the last store of the one span and the first access of the other one have to be. Which
these are is found by searches along the indirect edges, whatever object they are labelled with,
in the graph with the thread edges that it has when a node is first asked for; the answers are
kept. So a store of another object in the span, or an answer that was kept, takes the edge from
a store that is the last one of its object (**`handlePair_iff`**).
-/

namespace SvfLockQuery.LockAnalysis

open SvfLockAnalysis

variable {N I : Type} [DecidableEq N] [DecidableEq I] (s : LockAnalysis N I)

def isInSameCISpan (i1 i2 : I) : Bool :=
  if !s.isInsideCondIntraLock i1 && !s.isInsideCondIntraLock i2 then
    (s.intra.instCILocksMap i1).any fun cil1 => (s.intra.instCILocksMap i2).any fun cil2 => cil1 = cil2
  else false

def isInSameSpanUnderCxts (cxtStmt1 cxtStmt2 : CxtStmt N I) : Bool :=
  if !s.hasCxtLockfromCxtStmt cxtStmt1 || !s.hasCxtLockfromCxtStmt cxtStmt2 then true
  else decide (s.spans.getCxtLockfromCxtStmt cxtStmt1 ∩ s.spans.getCxtLockfromCxtStmt cxtStmt2 ≠ ∅)

def isInSameCSSpan (i1 i2 : I) : Bool :=
  if s.getCxtStmtfromInst i1 = ∅ ∨ s.getCxtStmtfromInst i2 = ∅ then false
  else decide (∀ cxtStmt1 ∈ s.getCxtStmtfromInst i1, ∀ cxtStmt2 ∈ s.getCxtStmtfromInst i2,
    cxtStmt1 = cxtStmt2 ∨ s.isInSameSpanUnderCxts cxtStmt1 cxtStmt2 = true)

def isInSameSpan (i1 i2 : I) : Bool :=
  if s.isInsideIntraLock i1 && s.isInsideIntraLock i2 then s.isInSameCISpan i1 i2
  else s.isInSameCSSpan i1 i2

end SvfLockQuery.LockAnalysis

namespace SvfThreadEdge

open SvfLoop SvfLockQuery SvfReadPrecision List

inductive AddModelFlag
  | ADDEDGE_NOEDGE | ADDEDGE_NONSPARSE | ADDEDGE_ALLOPT | ADDEDGE_NOMHP | ADDEDGE_NOALIAS
  | ADDEDGE_NOLOCK | ADDEDGE_NORP
deriving DecidableEq

/-- The graph before a thread edge is added, and the analyses that are asked. -/
structure Input (N I : Type) [DecidableEq N] [DecidableEq I] where
  svfg : SVFG
  inst : NodeID → I
  getPAGSrcNodeID : NodeID → NodeID
  getPAGDstNodeID : NodeID → NodeID
  mayHappenInParallel : I → I → Bool
  isAlias : NodeID → NodeID → Bool
  getPts : NodeID → Finset NodeID
  isProtectedByCommonLock : I → I → Bool
  lockana : LockAnalysis N I
  flag : AddModelFlag
  front : Finset NodeID → NodeID
  front_mem : ∀ s : Finset NodeID, s.Nonempty → front s ∈ s

structure Cache where
  answers : NodeID → Option Bool
  nodes : NodeID → Option (Finset NodeID)

/-- The thread edges; `headmap` with `prevset`, and `tailmap` with `succset`. -/
structure MTASVFGBuilder where
  tdEdges : List (NodeIDPair × Finset NodeID)
  head : Cache
  tail : Cache

/-- No node that is behind `n` is in its span, or the answer that was kept says so. The nodes are
    those that were kept, or else those behind it now. -/
def Cache.Clear (behind : NodeID → Set NodeID) (inSpan : NodeID → NodeID → Bool) (c : Cache)
    (n : NodeID) : Prop :=
  match c.answers n with
  | some b => b = true
  | none => ∀ y ∈ ((c.nodes n).map fun nodes => (nodes : Set NodeID)).getD (behind n),
      inSpan y n = false

/-- `isHeadofSpan(n)` and `isTailofSpan(n)`, with `getPrevNodes(n)` and `getSuccNodes(n)`. -/
def Cache.ask (found : NodeID → Finset NodeID) (inSpan : NodeID → NodeID → Bool) (c : Cache)
    (n : NodeID) : Bool × Cache :=
  match c.answers n with
  | some b => (b, c)
  | none =>
    let nodes := (c.nodes n).getD (found n)
    let b := decide (∀ y ∈ nodes, inSpan y n = false)
    (b, ⟨Function.update c.answers n (some b), Function.update c.nodes n (some nodes)⟩)

variable {N I : Type} [DecidableEq N] [DecidableEq I] (G : Input N I)

namespace Input

def edges (st : MTASVFGBuilder) : List SVFGEdge :=
  G.svfg.edges ++ st.tdEdges.map fun e => ⟨e.1.1, e.1.2, true, e.2⟩

def near (end1 end2 : SVFGEdge → NodeID) (edges : List SVFGEdge) (n : NodeID) : Finset NodeID :=
  ((edges.filter fun e => end1 e = n ∧ e.isIndirectVFGEdge).map end2).toFinset

def isStore (n : NodeID) : Bool := G.svfg.kind n = .Store

def getSuccNodes (edges : List SVFGEdge) : NodeID → ℕ → Option (Finset NodeID) :=
  searchNodes G.front (near SVFGEdge.src SVFGEdge.dst edges) G.svfg.isUse

def getPrevNodes (edges : List SVFGEdge) : NodeID → ℕ → Option (Finset NodeID) :=
  searchNodes G.front (near SVFGEdge.dst SVFGEdge.src edges) G.isStore

def sameSpan (y n : NodeID) : Bool := G.lockana.isInSameSpan (G.inst y) (G.inst n)

/-- Loads are passed over by `isTailofSpan`. -/
def tailSpan (y n : NodeID) : Bool := G.svfg.kind y ≠ .Load && G.sameSpan y n

/-- What the searches find in a graph. -/
structure Finds where
  succ : List SVFGEdge → NodeID → Finset NodeID
  prev : List SVFGEdge → NodeID → Finset NodeID
  succStops : ∀ edges n, Stops (G.getSuccNodes edges n) (succ edges n)
  prevStops : ∀ edges n, Stops (G.getPrevNodes edges n) (prev edges n)

variable (F : G.Finds)

section

variable (st : MTASVFGBuilder)

def isTailofSpan (n : NodeID) : Bool × MTASVFGBuilder :=
  let r := st.tail.ask (F.succ (G.edges st)) G.tailSpan n
  (r.1, { st with tail := r.2 })

def isHeadofSpan (n : NodeID) : Bool × MTASVFGBuilder :=
  let r := st.head.ask (F.prev (G.edges st)) G.sameSpan n
  (r.1, { st with head := r.2 })

def addTDEdges (srcId dstId : NodeID) (pts : Finset NodeID) : MTASVFGBuilder :=
  { st with
    tdEdges :=
      if st.tdEdges.any fun e => e.1 = (srcId, dstId) then
        st.tdEdges.map fun e => if e.1 = (srcId, dstId) then (e.1, e.2 ∪ pts) else e
      else ((srcId, dstId), pts) :: st.tdEdges }

section

variable (n1 n2 : NodeID)

/-- A store is connected if it is the tail of a span and the other node the head of one. -/
def connect (pts : Finset NodeID) : MTASVFGBuilder :=
  let t := isTailofSpan G F st n1
  if t.1 then
    let h := isHeadofSpan G F t.2 n2
    if h.1 then addTDEdges h.2 n1 n2 pts else h.2
  else t.2

def handleStoreLoad : MTASVFGBuilder :=
  let pts := G.getPts (G.getPAGDstNodeID n1) ∩ G.getPts (G.getPAGSrcNodeID n2)
  if G.flag ≠ .ADDEDGE_NOMHP && !G.mayHappenInParallel (G.inst n1) (G.inst n2) then st
  else if G.flag ≠ .ADDEDGE_NOALIAS && !G.isAlias (G.getPAGDstNodeID n1) (G.getPAGSrcNodeID n2) then st
  else if G.flag ≠ .ADDEDGE_NOLOCK && G.isProtectedByCommonLock (G.inst n1) (G.inst n2) then
    connect G F st n1 n2 pts
  else addTDEdges st n1 n2 pts

def handleStoreStore : MTASVFGBuilder :=
  let pts := G.getPts (G.getPAGDstNodeID n1) ∩ G.getPts (G.getPAGDstNodeID n2)
  if G.flag ≠ .ADDEDGE_NOMHP && !G.mayHappenInParallel (G.inst n1) (G.inst n2) then st
  else if G.flag ≠ .ADDEDGE_NOALIAS && !G.isAlias (G.getPAGDstNodeID n1) (G.getPAGDstNodeID n2) then st
  else if G.flag ≠ .ADDEDGE_NOLOCK && G.isProtectedByCommonLock (G.inst n1) (G.inst n2) then
    connect G F (connect G F st n1 n2 pts) n2 n1 pts
  else addTDEdges (addTDEdges st n1 n2 pts) n2 n1 pts

def handlePair : MTASVFGBuilder :=
  if G.svfg.kind n2 = .Load then handleStoreLoad G F st n1 n2 else handleStoreStore G F st n1 n2

end

end

-- ── What a pair should come to

/-- What the second node of a pair is accessed through. -/
def pointer (n2 : NodeID) : NodeID :=
  if G.svfg.kind n2 = .Load then G.getPAGSrcNodeID n2 else G.getPAGDstNodeID n2

/-- A store and an access of an object that run in parallel in spans of a common lock. -/
structure Locked (n1 n2 o : NodeID) : Prop where
  parallel : G.mayHappenInParallel (G.inst n1) (G.inst n2) = true
  mayAlias : G.isAlias (G.getPAGDstNodeID n1) (G.pointer n2) = true
  locked : G.isProtectedByCommonLock (G.inst n1) (G.inst n2) = true
  pts : o ∈ G.getPts (G.getPAGDstNodeID n1) ∩ G.getPts (G.pointer n2)

/-- The last store of the object in its span, and the first access of it in the other one. -/
def Outermost (n1 n2 o : NodeID) : Prop :=
  (∀ y, Next (Labelled G.svfg.edges o) (fun d => G.isStore d = true) n1 y → G.sameSpan y n1 = false) ∧
    ∀ y, Next (fun x y => Labelled G.svfg.edges o y x) (fun d => G.isStore d = true) n2 y →
      G.sameSpan y n2 = false

/-- The stops right behind `n`, along edges of whichever objects. -/
def behind (end1 end2 : SVFGEdge → NodeID) (isStop : NodeID → Bool) (edges : List SVFGEdge)
    (n : NodeID) : Set NodeID :=
  {y | Next (fun x y => ∃ e ∈ edges, end1 e = x ∧ e.isIndirectVFGEdge ∧ end2 e = y)
    (fun d => isStop d = true) n y}

def IsTail (st : MTASVFGBuilder) (n : NodeID) : Prop :=
  st.tail.Clear (behind SVFGEdge.src SVFGEdge.dst G.svfg.isUse (G.edges st)) G.tailSpan n

def IsHead (st : MTASVFGBuilder) (n : NodeID) : Prop :=
  st.head.Clear (behind SVFGEdge.dst SVFGEdge.src G.isStore (G.edges st)) G.sameSpan n

end Input

-- ── The answers that are kept

theorem Cache.ask_spec {found : NodeID → Finset NodeID} {behind : NodeID → Set NodeID}
    (hfound : ∀ n, (found n : Set NodeID) = behind n) (inSpan : NodeID → NodeID → Bool) (c : Cache)
    (n : NodeID) : ((c.ask found inSpan n).1 ↔ c.Clear behind inSpan n) ∧
      ∀ m, (c.ask found inSpan n).2.Clear behind inSpan m ↔ c.Clear behind inSpan m := by
  cases hans : c.answers n with
  | some b =>
    rw [Cache.ask, Cache.Clear, hans]
    exact ⟨.rfl, fun m => .rfl⟩
  | none =>
    have hclear : c.Clear behind inSpan n ↔ ∀ y ∈ (c.nodes n).getD (found n), inSpan y n = false := by
      rw [Cache.Clear, hans, ← hfound]
      cases c.nodes n <;> exact .rfl
    rw [Cache.ask, hans]
    refine ⟨decide_eq_true_iff.trans hclear.symm, fun m => ?_⟩
    by_cases hm : m = n
    · rw [hm, hclear, Cache.Clear]
      dsimp only
      rw [Function.update_self]
      exact decide_eq_true_iff
    · rw [Cache.Clear, Cache.Clear]
      dsimp only
      rw [Function.update_of_ne hm, Function.update_of_ne hm]

namespace Input

variable {G} {F : G.Finds} {st : MTASVFGBuilder} {n1 n2 a b x y o : NodeID} {pts : Finset NodeID}

theorem labelled_edges : Labelled (G.edges st) o x y ↔
    Labelled G.svfg.edges o x y ∨ ∃ e ∈ st.tdEdges, e.1 = (x, y) ∧ o ∈ e.2 := by
  rw [Labelled, edges, Labelled]
  constructor
  · rintro ⟨e, he, rfl, hind, rfl, ho⟩
    rcases List.mem_append.mp he with he | he
    · exact .inl ⟨e, he, rfl, hind, rfl, ho⟩
    · obtain ⟨t, ht, rfl⟩ := List.mem_map.mp he
      exact .inr ⟨t, ht, rfl, ho⟩
  · rintro (⟨e, he, hall⟩ | ⟨t, ht, hxy, ho⟩)
    · exact ⟨e, mem_append_left _ he, hall⟩
    · exact ⟨_, mem_append_right _ (mem_map_of_mem ht), congrArg Prod.fst hxy, rfl,
        congrArg Prod.snd hxy, ho⟩

/-- An object is added to the edge of one pair, whether there has been one or not. -/
theorem labelled_addTDEdges : Labelled (G.edges (addTDEdges st a b pts)) o x y ↔
    Labelled (G.edges st) o x y ∨ (x, y) = (a, b) ∧ o ∈ pts := by
  rw [labelled_edges, labelled_edges, or_assoc]
  refine or_congr_right ?_
  rw [addTDEdges]
  dsimp only
  split_ifs with hany
  · simp only [mem_map, exists_exists_and_eq_and]
    obtain ⟨t, ht, hab⟩ := List.any_eq_true.mp hany
    rw [decide_eq_true_eq] at hab
    constructor
    · rintro ⟨e, he, hxy, ho⟩
      split_ifs at hxy ho with heq
      · rcases Finset.mem_union.mp ho with ho | ho
        · exact .inl ⟨e, he, hxy, ho⟩
        · exact .inr ⟨hxy.symm.trans heq, ho⟩
      · exact .inl ⟨e, he, hxy, ho⟩
    · rintro (⟨e, he, hxy, ho⟩ | ⟨hxy, ho⟩)
      · refine ⟨e, he, ?_⟩
        split_ifs
        · exact ⟨hxy, Finset.mem_union_left _ ho⟩
        · exact ⟨hxy, ho⟩
      · refine ⟨t, ht, ?_⟩
        rw [if_pos hab]
        exact ⟨hab.trans hxy.symm, Finset.mem_union_right _ ho⟩
  · rw [exists_mem_cons_iff, or_comm]
    exact or_congr_right (and_congr_left' eq_comm)

-- ── What the searches find

variable (G) in
theorem search_spec (end1 end2 : SVFGEdge → NodeID) (isStop : NodeID → Bool) (edges : List SVFGEdge)
    (n : NodeID) : ∃ found, Stops (searchNodes G.front (near end1 end2 edges) isStop n) found ∧
      (found : Set NodeID) = behind end1 end2 isStop edges n := by
  have hmem : ∀ x y, y ∈ near end1 end2 edges x ↔
      ∃ e ∈ edges, end1 e = x ∧ e.isIndirectVFGEdge ∧ end2 e = y := fun x y => by
    simp only [near, mem_toFinset, mem_map, mem_filter, decide_eq_true_eq]
    exact exists_congr fun e => by tauto
  have hknown : ∀ n, near end1 end2 edges n ⊆ (edges.map end2).toFinset := fun n y hy => by
    obtain ⟨e, he, -, -, rfl⟩ := (hmem n y).mp hy
    exact List.mem_toFinset.mpr (mem_map_of_mem he)
  obtain ⟨found, hstops, hfound⟩ : ∃ found, Stops (searchNodes G.front _ isStop n) found ∧ _ :=
    searchNodes_spec G.front_mem hknown n
  refine ⟨found, hstops, Set.ext fun y => (hfound y).trans ?_⟩
  rw [funext fun x => funext fun y => propext (hmem x y)]
  rfl

variable (G) in
theorem exists_finds : Nonempty G.Finds := by
  choose succ hsucc using search_spec G SVFGEdge.src SVFGEdge.dst G.svfg.isUse
  choose prev hprev using search_spec G SVFGEdge.dst SVFGEdge.src G.isStore
  exact ⟨succ, prev, fun edges n => (hsucc edges n).1, fun edges n => (hprev edges n).1⟩

theorem coe_of_stops {end1 end2 : SVFGEdge → NodeID} {isStop : NodeID → Bool} {edges : List SVFGEdge}
    {n : NodeID} {found : Finset NodeID}
    (h : Stops (searchNodes G.front (near end1 end2 edges) isStop n) found) :
    (found : Set NodeID) = behind end1 end2 isStop edges n := by
  obtain ⟨found', hstops, hfound⟩ := search_spec G end1 end2 isStop edges n
  rw [h.unique hstops, hfound]

-- ── A pair

/-- Nothing has been asked that was not kept. -/
structure SameAnswers (G : Input N I) (st st' : MTASVFGBuilder) : Prop where
  edges : st'.tdEdges = st.tdEdges
  tail : ∀ m, IsTail G st' m ↔ IsTail G st m
  head : ∀ m, IsHead G st' m ↔ IsHead G st m

/-- **One direction**: the edge if both answers are positive, and else nothing but the answers. -/
theorem connect_spec : (IsTail G st n1 ∧ IsHead G st n2 →
      (connect G F st n1 n2 pts).tdEdges = (addTDEdges st n1 n2 pts).tdEdges) ∧
    (¬ (IsTail G st n1 ∧ IsHead G st n2) → SameAnswers G st (connect G F st n1 n2 pts)) := by
  obtain ⟨htail, htails⟩ :=
    Cache.ask_spec (fun n => coe_of_stops (F.succStops (G.edges st) n)) G.tailSpan st.tail n1
  obtain ⟨hhead, hheads⟩ :=
    Cache.ask_spec (fun n => coe_of_stops (F.prevStops (G.edges st) n)) G.sameSpan st.head n2
  rw [connect]
  dsimp only
  by_cases ht : (isTailofSpan G F st n1).1
  · rw [if_pos ht]
    by_cases hh : (isHeadofSpan G F (isTailofSpan G F st n1).2 n2).1
    · rw [if_pos hh]
      exact ⟨fun _ => rfl, fun hnot => absurd ⟨htail.mp ht, hhead.mp hh⟩ hnot⟩
    · rw [if_neg hh]
      exact ⟨fun hboth => absurd (hhead.mpr hboth.2) hh, fun _ => ⟨rfl, htails, hheads⟩⟩
  · rw [if_neg ht]
    exact ⟨fun hboth => absurd (htail.mpr hboth.1) ht, fun _ => ⟨rfl, htails, fun _ => .rfl⟩⟩

theorem labelled_connect : Labelled (G.edges (connect G F st n1 n2 pts)) o x y ↔
    Labelled (G.edges st) o x y ∨ ((x, y) = (n1, n2) ∧ o ∈ pts) ∧ IsTail G st n1 ∧ IsHead G st n2 := by
  by_cases hboth : IsTail G st n1 ∧ IsHead G st n2
  · rw [edges, connect_spec.1 hboth, ← edges, labelled_addTDEdges, and_iff_left hboth]
  · rw [edges, (connect_spec.2 hboth).edges, ← edges, or_iff_left fun h => hboth h.2]

/-- Back from the second node: that is the same question, or it adds nothing to the pair. -/
theorem labelled_connect_back : Labelled (G.edges (connect G F (connect G F st n1 n2 pts) n2 n1 pts)) o n1 n2 ↔
    Labelled (G.edges (connect G F st n1 n2 pts)) o n1 n2 := by
  rw [labelled_connect, or_iff_left_iff_imp]
  rintro ⟨⟨heq, ho⟩, hback⟩
  cases heq
  rw [labelled_connect]
  by_cases hboth : IsTail G st n1 ∧ IsHead G st n1
  · exact .inr ⟨⟨rfl, ho⟩, hboth⟩
  · have hsame : SameAnswers G st (connect G F st n1 n1 pts) := connect_spec.2 hboth
    exact absurd ⟨(hsame.tail n1).mp hback.1, (hsame.head n1).mp hback.2⟩ hboth

/-- Where the edge comes from. -/
theorem labelled_handlePair (h : Locked G n1 n2 o) : Labelled (G.edges (handlePair G F st n1 n2)) o n1 n2 ↔
    Labelled (G.edges st) o n1 n2 ∨ G.flag = .ADDEDGE_NOLOCK ∨ IsTail G st n1 ∧ IsHead G st n2 := by
  obtain ⟨hmhp, halias, hlock, hpts⟩ := h
  rw [pointer] at halias hpts
  have hpair {pts : Finset NodeID} : ((n1, n2) = (n1, n2) ∧ o ∈ pts) ↔ o ∈ pts := and_iff_right rfl
  rw [handlePair]
  by_cases hkind : G.svfg.kind n2 = .Load
  · rw [if_pos hkind] at halias hpts ⊢
    rw [handleStoreLoad, hmhp, halias, hlock]
    simp only [Bool.not_true, Bool.and_false, Bool.and_true, Bool.false_eq_true, if_false]
    by_cases hflag : G.flag = .ADDEDGE_NOLOCK
    · rw [if_neg (by rw [hflag]; decide), labelled_addTDEdges, hpair]
      exact iff_of_true (.inr hpts) (.inr (.inl hflag))
    · rw [if_pos (decide_eq_true hflag), labelled_connect, hpair, and_iff_right hpts, or_iff_right hflag]
  · rw [if_neg hkind] at halias hpts ⊢
    rw [handleStoreStore, hmhp, halias, hlock]
    simp only [Bool.not_true, Bool.and_false, Bool.and_true, Bool.false_eq_true, if_false]
    by_cases hflag : G.flag = .ADDEDGE_NOLOCK
    · rw [if_neg (by rw [hflag]; decide), labelled_addTDEdges, labelled_addTDEdges, hpair]
      exact iff_of_true (.inl (.inr hpts)) (.inr (.inl hflag))
    · rw [if_pos (decide_eq_true hflag), labelled_connect_back, labelled_connect, hpair,
        and_iff_right hpts, or_iff_right hflag]

def leastNode (s : Finset NodeID) : NodeID := if h : s.Nonempty then s.min' h else 0

local instance : NeZero 5 := ⟨by decide⟩

/-- Node `1` stores to `10` or `11` and then node `3` to `11`, both in the span of lock `3`; node
    `2` loads `10` in the span of lock `4`. -/
def twoSpans : Input Unit (Fin 5) where
  svfg := ⟨[1, 2, 3], fun n => if n = 2 then .Load else .Store, fun _ => true, [⟨1, 3, true, {11}⟩]⟩
  inst n := if n = 1 then 0 else if n = 3 then 1 else 2
  getPAGSrcNodeID := id
  getPAGDstNodeID := id
  mayHappenInParallel _ _ := true
  isAlias _ _ := true
  getPts n := if n = 1 then {10, 11} else if n = 3 then {11} else {10}
  isProtectedByCommonLock _ _ := true
  lockana := ⟨⟨SvfWorkList.FIFOWorkList.empty, fun _ => none, ∅⟩,
    ⟨fun _ => [], fun i => if i = 2 then [4] else if i < 2 then [3] else [], fun _ => []⟩⟩
  flag := .ADDEDGE_ALLOPT
  front := leastNode
  front_mem s h := by
    rw [leastNode, dif_pos h]
    exact s.min'_mem h

/-- Nothing has been added or kept. -/
def fresh : MTASVFGBuilder := ⟨[], ⟨fun _ => none, fun _ => none⟩, ⟨fun _ => none, fun _ => none⟩⟩

theorem twoSpans_locked : Locked twoSpans 1 2 10 := ⟨rfl, rfl, rfl, by decide⟩

end Input

end SvfThreadEdge
