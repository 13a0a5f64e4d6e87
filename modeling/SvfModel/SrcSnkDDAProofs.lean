import SvfModel.LoopProofs
import SvfModel.SearchProofs

/-!
# Forward and backward slices

`SrcSnkDDA` slices the value-flow graph once per source: forward with call strings of at most
`k` call sites, then backward from each sink that was found. The forward pass prunes by a
visited set of pairs of a node and a call string, the backward pass by a visited set of nodes
that all sinks share.

The heart is `Realizable.item`: along a realizable flow the call string of the traversal is the
top of the real call stack. A return with an empty call string is let through, so what a
truncation has forgotten is never held against a flow. `SearchProofs` does the rest: both passes
process exactly what they reach, in whatever order.
-/

set_option linter.unusedSectionVars false

namespace SvfSrcSnk

open SvfLoop SvfSearch List Option
open Finset (mem_insert mem_insert_self notMem_empty)

-- ── The value-flow graph and call strings

/-- Direct and indirect edges are told apart only to find their call site. -/
inductive SVFGEdgeK
  | Intra
  | Call (csId : ℕ)
  | Ret (csId : ℕ)
deriving DecidableEq

structure SVFG (V : Type) where
  outEdges : V → List (SVFGEdgeK × V)
  inEdges : V → List (SVFGEdgeK × V)
  agree : ∀ src kind dst, (kind, dst) ∈ outEdges src ↔ (kind, src) ∈ inEdges dst
  isGlobalSVFGNode : V → Bool

/-- `ContextCond`: its `context`, last call at the back. `concreteCxt` is left out, which
    `operator==` ignores. -/
abbrev ContextCond := List ℕ

/-- `maximumCxtLen` is `k`. -/
def ContextCond.pushContext (k : ℕ) (context : ContextCond) (ctx : ℕ) : ContextCond :=
  if context.length < k then context ++ [ctx]
  else if context ≠ [] then context.tail ++ [ctx]
  else context

def ContextCond.matchContext (context : ContextCond) (ctx : ℕ) : Option ContextCond :=
  if context = [] then some context
  else if context.getLast? = some ctx then some context.dropLast
  else none

/-- `CxtDPItem` -/
structure DPIm (V : Type) where
  cur : V
  context : ContextCond
deriving DecidableEq

structure ProgSlice (V : Type) where
  root : V
  forwardslice : Finset V
  backwardslice : Finset V
  sinks : Finset V
  partialReachable : Bool
  reachGlob : Bool

/-- `SrcSnkDDA` during the traversals for one source. `nodeToDPItemsMap` holds its items
    beside their own node, so it is a set of items. -/
structure Traversal (V : Type) where
  slice : ProgSlice V
  nodeToDPItemsMap : Finset (DPIm V)
  visitedSet : Finset V
  worklist : List (DPIm V)

/-- What is not fixed by the program: which item is popped, and the order of the sinks of a
    slice. The first-in-first-out worklist pops position 0. -/
structure Schedule (V : Type) where
  position : Traversal V → ℕ
  iterate : Finset V → List V
  mem_iterate : ∀ s v, v ∈ iterate s ↔ v ∈ s

variable {V : Type} [DecidableEq V] (g : SVFG V) (k : ℕ) (isSink : V → Bool)

-- ── The traversals

def pushIntoWorklist (item : DPIm V) (s : Traversal V) : Traversal V :=
  if item ∈ s.worklist then s else { s with worklist := s.worklist ++ [item] }

def popFromWorklist (sched : Schedule V) (s : Traversal V) : Option (DPIm V × Traversal V) :=
  let i := sched.position s % s.worklist.length
  s.worklist[i]?.map fun item => (item, { s with worklist := s.worklist.eraseIdx i })

def FWProcessCurNode (item : DPIm V) (s : Traversal V) : Traversal V :=
  if isSink item.cur then
    { s with slice := { s.slice with
        sinks := insert item.cur s.slice.sinks
        forwardslice := insert item.cur s.slice.forwardslice
        partialReachable := true } }
  else
    { s with slice := { s.slice with forwardslice := insert item.cur s.slice.forwardslice } }

/-- The item on the other side of an edge, if the call string lets it through. -/
def newItem (item : DPIm V) (edge : SVFGEdgeK × V) : Option (DPIm V) :=
  match edge.1 with
  | .Intra => some ⟨edge.2, item.context⟩
  | .Call csId => some ⟨edge.2, item.context.pushContext k csId⟩
  | .Ret csId => (item.context.matchContext csId).map fun context => ⟨edge.2, context⟩

def FWProcessOutgoingEdge (item : DPIm V) (s : Traversal V) (edge : SVFGEdgeK × V) : Traversal V :=
  if g.isGlobalSVFGNode edge.2 ∨ s.slice.reachGlob then
    { s with slice := { s.slice with reachGlob := true } }
  else
    match newItem k item edge with
    | none => s
    | some item' =>
      if item' ∈ s.nodeToDPItemsMap then s
      else pushIntoWorklist item'
        { s with nodeToDPItemsMap := insert item' s.nodeToDPItemsMap }

def forwardBody (sched : Schedule V) (s : Traversal V) : Option (Traversal V) :=
  (popFromWorklist sched s).map fun (item, s) =>
    (g.outEdges item.cur).foldl (FWProcessOutgoingEdge g k item) (FWProcessCurNode isSink item s)

def forwardTraverse (sched : Schedule V) (it : DPIm V) (fuel : ℕ) (s : Traversal V) :
    Option (Traversal V) :=
  whileM (fun s => !s.worklist.isEmpty) (forwardBody g k isSink sched) fuel
    (pushIntoWorklist it s)

def BWProcessCurNode (item : DPIm V) (s : Traversal V) : Traversal V :=
  if item.cur ∈ s.slice.forwardslice then
    { s with slice := { s.slice with backwardslice := insert item.cur s.slice.backwardslice } }
  else s

def BWProcessIncomingEdge (s : Traversal V) (edge : SVFGEdgeK × V) : Traversal V :=
  if edge.2 ∈ s.visitedSet then s
  else pushIntoWorklist ⟨edge.2, []⟩ { s with visitedSet := insert edge.2 s.visitedSet }

def backwardBody (sched : Schedule V) (s : Traversal V) : Option (Traversal V) :=
  (popFromWorklist sched s).map fun (item, s) =>
    (g.inEdges item.cur).foldl BWProcessIncomingEdge (BWProcessCurNode item s)

def backwardTraverse (sched : Schedule V) (it : DPIm V) (fuel : ℕ) (s : Traversal V) :
    Option (Traversal V) :=
  whileM (fun s => !s.worklist.isEmpty) (backwardBody g sched) fuel (pushIntoWorklist it s)

structure SrcSnkDDA (V : Type) where
  curSlice : Option (ProgSlice V)
  nodeToDPItemsMap : Finset (DPIm V)
  visitedSet : Finset V
  worklist : List (DPIm V)

def SrcSnkDDA.init : SrcSnkDDA V := ⟨none, ∅, ∅, []⟩

def setCurSlice (src : V) (s : SrcSnkDDA V) : Traversal V :=
  let slice : ProgSlice V := ⟨src, ∅, ∅, ∅, false, false⟩
  match s.curSlice with
  | some _ => ⟨slice, ∅, ∅, s.worklist⟩
  | none => ⟨slice, s.nodeToDPItemsMap, s.visitedSet, s.worklist⟩

def backwardSinks (sched : Schedule V) (fuel : ℕ) (s : Traversal V) : Option (Traversal V) :=
  if s.slice.reachGlob then some s
  else (sched.iterate s.slice.sinks).foldlM
    (fun s sink => backwardTraverse g sched ⟨sink, []⟩ fuel s) s

def analyzeSource (sched : Schedule V) (src : V) (fuel : ℕ) (s : SrcSnkDDA V) :
    Option (SrcSnkDDA V) :=
  ((forwardTraverse g k isSink sched ⟨src, []⟩ fuel (setCurSlice src s)).bind
    (backwardSinks g sched fuel)).map
      fun s => ⟨some s.slice, s.nodeToDPItemsMap, s.visitedSet, s.worklist⟩

/-- The states between two sources: any sources before, in any order, under any schedules. -/
inductive Between : SrcSnkDDA V → Prop
  | init : Between SrcSnkDDA.init
  | analyzed {s s' : SrcSnkDDA V} {sched : Schedule V} {src : V} {fuel : ℕ} (h : Between s)
      (hs : analyzeSource g k isSink sched src fuel s = some s') : Between s'

-- ── What the slices are for

/-- **A realizable flow** from `src` to a node, with the calls that have not returned, latest
    first. A return goes to the latest of them, or anywhere when there is none. -/
inductive Realizable (src : V) : List ℕ → V → Prop
  | source : Realizable src [] src
  | intra {stack : List ℕ} {v w : V} (h : Realizable src stack v)
      (he : (.Intra, w) ∈ g.outEdges v) : Realizable src stack w
  | call {stack : List ℕ} {v w : V} {csId : ℕ} (h : Realizable src stack v)
      (he : (.Call csId, w) ∈ g.outEdges v) : Realizable src (csId :: stack) w
  | ret {stack : List ℕ} {v w : V} {csId : ℕ} (h : Realizable src (csId :: stack) v)
      (he : (.Ret csId, w) ∈ g.outEdges v) : Realizable src stack w
  | unbalanced {v w : V} {csId : ℕ} (h : Realizable src [] v)
      (he : (.Ret csId, w) ∈ g.outEdges v) : Realizable src [] w

/-- A value-flow edge. -/
def Flows (v w : V) : Prop := ∃ kind, (kind, w) ∈ g.outEdges v

/-- One step of the forward pass. -/
def NextItem (item item' : DPIm V) : Prop :=
  ∃ edge ∈ g.outEdges item.cur, newItem k item edge = some item'

/-- The items of the forward pass. -/
def Items (src : V) : Set (DPIm V) := Reach (NextItem g k) {⟨src, []⟩}

/-- Some edge that the forward pass looks at leads to a global node. -/
def ReachesGlobal (src : V) : Prop :=
  ∃ item ∈ Items g k src, ∃ edge ∈ g.outEdges item.cur, g.isGlobalSVFGNode edge.2 = true

-- ── Call strings along a realizable flow

variable {g k isSink}

theorem pushContext_suffix {context stack : List ℕ} (csId : ℕ) (h : context <:+ stack) :
    ContextCond.pushContext k context csId <:+ stack ++ [csId] := by
  have happend : ∀ l : List ℕ, l <:+ stack → l ++ [csId] <:+ stack ++ [csId] := by
    rintro l ⟨older, rfl⟩
    exact ⟨older, (append_assoc older l [csId]).symm⟩
  rw [ContextCond.pushContext]
  split
  case isTrue => exact happend context h
  case isFalse =>
    split
    case isTrue => exact happend context.tail ((tail_suffix context).trans h)
    case isFalse hnil =>
      rw [not_not.mp hnil]
      exact nil_suffix

theorem matchContext_suffix {context stack : List ℕ} {csId : ℕ} (h : context <:+ stack ++ [csId]) :
    ∃ context', ContextCond.matchContext context csId = some context' ∧ context' <:+ stack := by
  rw [ContextCond.matchContext]
  rcases eq_nil_or_concat' context with rfl | ⟨context', c, rfl⟩
  · exact ⟨[], if_pos rfl, nil_suffix⟩
  · obtain ⟨older, holder⟩ := h
    rw [← append_assoc] at holder
    obtain ⟨hstack, hc⟩ := append_inj' holder rfl
    have hc' : c = csId := (List.cons.inj hc).1
    subst hc'
    rw [if_neg (by simp), if_pos (getLast?_concat), dropLast_concat]
    exact ⟨context', rfl, ⟨older, hstack⟩⟩

theorem item_next {src : V} {item item' : DPIm V} (h : item ∈ Items g k src)
    {edge : SVFGEdgeK × V} (hedge : edge ∈ g.outEdges item.cur)
    (hnew : newItem k item edge = some item') : item' ∈ Items g k src :=
  Reach.step h ⟨edge, hedge, hnew⟩

/-- **Truncation never cuts a realizable flow**: the forward pass follows it with the top of
    the call stack as its call string. -/
theorem Realizable.item {src : V} {stack : List ℕ} {v : V} (h : Realizable g src stack v) :
    ∃ context, (⟨v, context⟩ : DPIm V) ∈ Items g k src ∧ context <:+ stack.reverse := by
  induction h with
  | source => exact ⟨[], subset_reach rfl, suffix_refl []⟩
  | intra _ he ih =>
    obtain ⟨context, hitem, hsuffix⟩ := ih
    exact ⟨context, item_next hitem he rfl, hsuffix⟩
  | @call stack _ _ csId _ he ih =>
    obtain ⟨context, hitem, hsuffix⟩ := ih
    refine ⟨context.pushContext k csId, item_next hitem he rfl, ?_⟩
    rw [reverse_cons]
    exact pushContext_suffix csId hsuffix
  | @ret stack _ w csId _ he ih =>
    obtain ⟨context, hitem, hsuffix⟩ := ih
    rw [reverse_cons] at hsuffix
    obtain ⟨context', hmatch, hsuffix'⟩ := matchContext_suffix hsuffix
    refine ⟨context', item_next hitem he ?_, hsuffix'⟩
    show (ContextCond.matchContext context csId).map _ = _
    rw [hmatch]
    rfl
  | @unbalanced _ w csId _ he ih =>
    obtain ⟨context, hitem, hsuffix⟩ := ih
    have hnil : context = [] := suffix_nil.mp hsuffix
    subst hnil
    exact ⟨[], item_next hitem he rfl, suffix_refl []⟩

-- ── The items are finitely many

def callSites (g : SVFG V) : Set ℕ := {csId | ∃ v w, (.Call csId, w) ∈ g.outEdges v}

theorem callSites_finite [Finite V] : (callSites g).Finite := by
  have hunion : callSites g ⊆ ⋃ v, {csId | (.Call csId) ∈ (g.outEdges v).map Prod.fst} := by
    rintro csId ⟨v, w, hmem⟩
    exact Set.mem_iUnion.mpr ⟨v, mem_map.mpr ⟨_, hmem, rfl⟩⟩
  refine (Set.finite_iUnion fun v => ?_).subset hunion
  have hinj : Set.InjOn SVFGEdgeK.Call {csId | (.Call csId) ∈ (g.outEdges v).map Prod.fst} :=
    fun a _ b _ hab => SVFGEdgeK.Call.inj hab
  refine Set.Finite.of_finite_image (((g.outEdges v).map Prod.fst).finite_toSet.subset ?_) hinj
  rintro _ ⟨csId, hmem, rfl⟩
  exact hmem

theorem item_bounded {src : V} {item : DPIm V} (h : item ∈ Items g k src) :
    item.context.length ≤ k ∧ ∀ c ∈ item.context, c ∈ callSites g := by
  refine reach_subset (T := {item : DPIm V | item.context.length ≤ k ∧
    ∀ c ∈ item.context, c ∈ callSites g}) ?_ ?_ h
  · rintro _ rfl
    exact ⟨Nat.zero_le k, nofun⟩
  · rintro ⟨v, context⟩ ⟨hlen, hsites⟩ item' ⟨⟨kind, w⟩, hedge, hnew⟩
    dsimp only at hlen hsites hedge
    cases kind with
    | Intra =>
      cases hnew
      exact ⟨hlen, hsites⟩
    | Call csId =>
      cases hnew
      have hsite : csId ∈ callSites g := ⟨v, w, hedge⟩
      show (ContextCond.pushContext k context csId).length ≤ k ∧
        ∀ c ∈ ContextCond.pushContext k context csId, c ∈ callSites g
      rw [ContextCond.pushContext]
      have hadd : ∀ l : List ℕ, (∀ c ∈ l, c ∈ callSites g) →
          ∀ c ∈ l ++ [csId], c ∈ callSites g := by
        intro l hl c hc
        rcases mem_append.mp hc with hc | hc
        · exact hl c hc
        · exact mem_singleton.mp hc ▸ hsite
      split
      case isTrue hlt =>
        refine ⟨?_, hadd context hsites⟩
        rw [length_append, length_singleton]
        omega
      case isFalse hge =>
        split
        case isTrue hne =>
          refine ⟨?_, hadd _ fun c hc => hsites c (mem_of_mem_tail hc)⟩
          have hpos := length_pos_iff.mpr hne
          rw [length_append, length_singleton, length_tail]
          omega
        case isFalse => exact ⟨hlen, hsites⟩
    | Ret csId =>
      obtain ⟨context', hmatch, rfl⟩ := map_eq_some_iff.mp hnew
      have hsub : context' <:+: context := by
        rw [ContextCond.matchContext] at hmatch
        split at hmatch
        · exact some.inj hmatch ▸ infix_refl context
        · split at hmatch
          · exact some.inj hmatch ▸ (List.dropLast_prefix context).isInfix
          · cases hmatch
      exact ⟨hsub.length_le.trans hlen, fun c hc => hsites c (hsub.subset hc)⟩

theorem items_finite [Finite V] (src : V) : (Items g k src).Finite := by
  have := (callSites_finite (g := g)).to_subtype
  -- An item is a node and a short list over the finite set of call sites.
  let enc : V × {l : List (callSites g) // l.length ≤ k} → DPIm V :=
    fun x => ⟨x.1, x.2.1.map Subtype.val⟩
  have : Finite {l : List (callSites g) // l.length ≤ k} :=
    (finite_length_le (callSites g) k).to_subtype
  refine (Set.finite_range enc).subset fun item h => ?_
  obtain ⟨hlen, hsites⟩ := item_bounded h
  refine ⟨⟨item.cur, item.context.attachWith _ hsites, ?_⟩, ?_⟩
  · rw [length_attachWith]
    exact hlen
  · show (⟨item.cur, (item.context.attachWith _ hsites).map Subtype.val⟩ : DPIm V) = item
    rw [List.attachWith_map_subtype_val]

-- ── The worklist

variable {sched : Schedule V} {s : Traversal V}

@[simp] theorem pushIntoWorklist_slice (item : DPIm V) (s : Traversal V) :
    (pushIntoWorklist item s).slice = s.slice := by
  rw [pushIntoWorklist]
  split <;> rfl

@[simp] theorem pushIntoWorklist_items (item : DPIm V) (s : Traversal V) :
    (pushIntoWorklist item s).nodeToDPItemsMap = s.nodeToDPItemsMap := by
  rw [pushIntoWorklist]
  split <;> rfl

@[simp] theorem pushIntoWorklist_visitedSet (item : DPIm V) (s : Traversal V) :
    (pushIntoWorklist item s).visitedSet = s.visitedSet := by
  rw [pushIntoWorklist]
  split <;> rfl

theorem mem_pushIntoWorklist {item d : DPIm V} :
    d ∈ (pushIntoWorklist item s).worklist ↔ d = item ∨ d ∈ s.worklist := by
  rw [pushIntoWorklist]
  split
  case isTrue hmem =>
    constructor
    · exact .inr
    · rintro (rfl | hd)
      · exact hmem
      · exact hd
  case isFalse =>
    show d ∈ s.worklist ++ [item] ↔ _
    rw [mem_append, mem_singleton, or_comm]

theorem length_pushIntoWorklist_le (item : DPIm V) (s : Traversal V) :
    (pushIntoWorklist item s).worklist.length ≤ s.worklist.length + 1 := by
  rw [pushIntoWorklist]
  split
  case isTrue => exact Nat.le_succ _
  case isFalse => exact (length_append).le

theorem popFromWorklist_spec (sched : Schedule V) (hne : s.worklist ≠ []) :
    ∃ item rest, popFromWorklist sched s = some (item, { s with worklist := rest }) ∧
      item ∈ s.worklist ∧ rest ⊆ s.worklist ∧ (∀ d ∈ s.worklist, d = item ∨ d ∈ rest) ∧
      rest.length + 1 = s.worklist.length := by
  have hlt : sched.position s % s.worklist.length < s.worklist.length :=
    Nat.mod_lt _ (length_pos_iff.mpr hne)
  obtain ⟨item, hitem⟩ : ∃ item, s.worklist[sched.position s % s.worklist.length]? = some item :=
    ⟨_, getElem?_eq_getElem hlt⟩
  refine ⟨item, s.worklist.eraseIdx (sched.position s % s.worklist.length), ?_,
    mem_of_getElem? hitem, eraseIdx_subset, fun d hd => ?_, ?_⟩
  · simp only [popFromWorklist, hitem, map_some]
  · obtain ⟨j, hj⟩ := mem_iff_getElem?.mp hd
    by_cases heq : j = sched.position s % s.worklist.length
    · rw [heq, hitem] at hj
      exact .inl (some.inj hj).symm
    · refine .inr (mem_eraseIdx_iff_getElem?.mpr ⟨j, heq, hj⟩)
  · rw [length_eraseIdx_of_lt hlt]
    omega

-- ── The forward pass

structure Forward (g : SVFG V) (k : ℕ) (isSink : V → Bool) (src : V) (P : Set (DPIm V))
    (s : Traversal V) : Prop where
  root : s.slice.root = src
  backwardslice : s.slice.backwardslice = ∅
  visitedSet : s.visitedSet = ∅
  found : Found (NextItem g k) {⟨src, []⟩} {d | d ∈ s.worklist} {d | d ∈ s.nodeToDPItemsMap} P
  forwardslice : ∀ v, v ∈ s.slice.forwardslice ↔ ∃ item ∈ P, item.cur = v
  sinks : ∀ v, v ∈ s.slice.sinks ↔ v ∈ s.slice.forwardslice ∧ isSink v = true
  partialReachable : s.slice.partialReachable = true ↔ s.slice.sinks.Nonempty
  reachGlob : s.slice.reachGlob = true → ReachesGlobal g k src

/-- The edges of an item have been followed: none to a global node, and the items on their
    other sides are marked. -/
def Followed (g : SVFG V) (k : ℕ) (item : DPIm V) (edges : List (SVFGEdgeK × V))
    (s : Traversal V) : Prop :=
  ∀ edge ∈ edges, g.isGlobalSVFGNode edge.2 = false ∧
    ∀ d, newItem k item edge = some d → d ∈ s.nodeToDPItemsMap

/-- Items that are not marked yet, and items that wait. -/
noncomputable def todo (g : SVFG V) (k : ℕ) (src : V) (s : Traversal V) : ℕ :=
  (Items g k src \ {d | d ∈ s.nodeToDPItemsMap}).ncard + s.worklist.length

variable {src : V} {P : Set (DPIm V)} {item : DPIm V}

/-- **One edge** of a processed item. -/
theorem FWProcessOutgoingEdge_spec [Finite V] (h : Forward g k isSink src P s) (hitem : item ∈ P)
    {edge : SVFGEdgeK × V} (hedge : edge ∈ g.outEdges item.cur) :
    Forward g k isSink src P (FWProcessOutgoingEdge g k item s edge) ∧
      s.nodeToDPItemsMap ⊆ (FWProcessOutgoingEdge g k item s edge).nodeToDPItemsMap ∧
      todo g k src (FWProcessOutgoingEdge g k item s edge) ≤ todo g k src s ∧
      ((FWProcessOutgoingEdge g k item s edge).slice.reachGlob = false → s.slice.reachGlob = false ∧
          Followed g k item [edge] (FWProcessOutgoingEdge g k item s edge)) := by
  have hreached : item ∈ Items g k src := h.found.sound (.inl hitem)
  rw [FWProcessOutgoingEdge]
  by_cases hglobal : g.isGlobalSVFGNode edge.2 ∨ s.slice.reachGlob
  · rw [if_pos hglobal]
    refine ⟨?_, subset_rfl, le_rfl, nofun⟩
    refine ⟨h.root, h.backwardslice, h.visitedSet, h.found, h.forwardslice, h.sinks,
      h.partialReachable, fun _ => ?_⟩
    rcases hglobal with hglobal | hflag
    · exact ⟨item, hreached, edge, hedge, hglobal⟩
    · exact h.reachGlob hflag
  · rw [if_neg hglobal]
    obtain ⟨hnotGlobal, hflag⟩ := not_or.mp hglobal
    rw [Bool.not_eq_true] at hnotGlobal hflag
    have hfollowed : ∀ s' : Traversal V,
        (∀ d, newItem k item edge = some d → d ∈ s'.nodeToDPItemsMap) →
          Followed g k item [edge] s' := by
      intro s' hmarked e he
      rw [mem_singleton.mp he]
      exact ⟨hnotGlobal, hmarked⟩
    cases hnew : newItem k item edge with
    | none =>
      refine ⟨h, subset_rfl, le_rfl, fun _ => ⟨hflag, hfollowed s fun d hd => ?_⟩⟩
      cases hnew.symm.trans hd
    | some item' =>
      dsimp only
      by_cases hmarked : item' ∈ s.nodeToDPItemsMap
      · rw [if_pos hmarked]
        refine ⟨h, subset_rfl, le_rfl, fun _ => ⟨hflag, hfollowed s fun d hd => ?_⟩⟩
        rw [← mem_unique hnew hd]
        exact hmarked
      · rw [if_neg hmarked]
        have hfound := h.found.visit hitem ⟨edge, hedge, hnew⟩
        refine ⟨?_, ?_, ?_, fun _ => ⟨?_, hfollowed _ fun d hd => ?_⟩⟩
        · refine ⟨?_, ?_, ?_, ?_, ?_, ?_, ?_, ?_⟩
          · rw [pushIntoWorklist_slice]
            exact h.root
          · rw [pushIntoWorklist_slice]
            exact h.backwardslice
          · rw [pushIntoWorklist_visitedSet]
            exact h.visitedSet
          · convert hfound using 1
            · ext d
              exact mem_pushIntoWorklist
            · ext d
              rw [pushIntoWorklist_items]
              exact mem_insert
          · rw [pushIntoWorklist_slice]
            exact h.forwardslice
          · rw [pushIntoWorklist_slice]
            exact h.sinks
          · rw [pushIntoWorklist_slice]
            exact h.partialReachable
          · rw [pushIntoWorklist_slice]
            exact h.reachGlob
        · rw [pushIntoWorklist_items]
          exact Finset.subset_insert _ _
        · have hlen := length_pushIntoWorklist_le item'
            { s with nodeToDPItemsMap := insert item' s.nodeToDPItemsMap }
          have hcard : (Items g k src \
              {d | d ∈ (pushIntoWorklist item'
                { s with nodeToDPItemsMap := insert item' s.nodeToDPItemsMap }).nodeToDPItemsMap}).ncard <
              (Items g k src \ {d | d ∈ s.nodeToDPItemsMap}).ncard := by
            refine Set.ncard_lt_ncard ?_ ((items_finite src).sdiff)
            rw [pushIntoWorklist_items]
            refine ⟨fun d hd => ⟨hd.1, fun hmem => hd.2 (Finset.mem_insert_of_mem hmem)⟩,
              fun hsub => ?_⟩
            have hmem : item' ∈ Items g k src \ {d | d ∈ s.nodeToDPItemsMap} :=
              ⟨item_next hreached hedge hnew, hmarked⟩
            exact (hsub hmem).2 (mem_insert_self item' _)
          rw [todo, todo]
          dsimp only at hlen
          omega
        · exact hflag
        · rw [pushIntoWorklist_items, ← mem_unique hnew hd]
          exact mem_insert_self item' _

theorem outEdges_spec [Finite V] (hitem : item ∈ P) (edges : List (SVFGEdgeK × V)) :
    ∀ {s : Traversal V}, Forward g k isSink src P s → (∀ edge ∈ edges, edge ∈ g.outEdges item.cur) →
      Forward g k isSink src P (edges.foldl (FWProcessOutgoingEdge g k item) s) ∧
        s.nodeToDPItemsMap ⊆ (edges.foldl (FWProcessOutgoingEdge g k item) s).nodeToDPItemsMap ∧
        todo g k src (edges.foldl (FWProcessOutgoingEdge g k item) s) ≤ todo g k src s ∧
        ((edges.foldl (FWProcessOutgoingEdge g k item) s).slice.reachGlob = false →
          s.slice.reachGlob = false ∧
            Followed g k item edges (edges.foldl (FWProcessOutgoingEdge g k item) s)) := by
  induction edges with
  | nil => exact fun h _ => ⟨h, subset_rfl, le_rfl, fun hf => ⟨hf, nofun⟩⟩
  | cons edge edges ih =>
    intro s h hedges
    obtain ⟨h1, hsub1, htodo1, hflag1⟩ :=
      FWProcessOutgoingEdge_spec h hitem (hedges edge mem_cons_self)
    obtain ⟨h2, hsub2, htodo2, hflag2⟩ := ih h1 (forall_mem_cons.mp hedges).2
    refine ⟨h2, hsub1.trans hsub2, htodo2.trans htodo1, fun hfalse => ?_⟩
    obtain ⟨hfalse1, hfollowed₂⟩ := hflag2 hfalse
    obtain ⟨hfalse0, hfollowed₁⟩ := hflag1 hfalse1
    refine ⟨hfalse0, fun e he => ?_⟩
    rcases mem_cons.mp he with rfl | he
    · obtain ⟨hnotGlobal, hmarked⟩ := hfollowed₁ e (mem_singleton_self e)
      exact ⟨hnotGlobal, fun d hd => hsub2 (hmarked d hd)⟩
    · exact hfollowed₂ e he

/-- The invariant of the forward loop: until a global node is met, the edges of the processed
    items have been followed. -/
def ForwardInv (g : SVFG V) (k : ℕ) (isSink : V → Bool) (src : V) (P : Set (DPIm V))
    (s : Traversal V) : Prop :=
  Forward g k isSink src P s ∧ (s.slice.reachGlob = false →
    ∀ item ∈ P, Followed g k item (g.outEdges item.cur) s)

theorem FWProcessCurNode_spec {rest : List (DPIm V)} (h : Forward g k isSink src P s)
    (hitem : item ∈ s.worklist) (hsub : rest ⊆ s.worklist)
    (hrest : ∀ d ∈ s.worklist, d = item ∨ d ∈ rest) :
    Forward g k isSink src (insert item P)
      (FWProcessCurNode isSink item { s with worklist := rest }) := by
  have hfound : Found (NextItem g k) {⟨src, []⟩} {d | d ∈ rest} {d | d ∈ s.nodeToDPItemsMap}
      (insert item P) := h.found.pop hitem (fun d hd => hsub hd) hrest
  have hslice : ∀ v, v ∈ insert item.cur s.slice.forwardslice ↔ ∃ d ∈ insert item P, d.cur = v := by
    intro v
    rw [mem_insert, h.forwardslice]
    constructor
    · rintro (rfl | ⟨d, hd, rfl⟩)
      · exact ⟨item, Set.mem_insert _ _, rfl⟩
      · exact ⟨d, Set.mem_insert_of_mem _ hd, rfl⟩
    · rintro ⟨d, rfl | hd, rfl⟩
      · exact .inl rfl
      · exact .inr ⟨d, hd, rfl⟩
  rw [FWProcessCurNode]
  cases hsink : isSink item.cur with
  | true =>
    rw [if_pos rfl]
    refine ⟨h.root, h.backwardslice, h.visitedSet, hfound, hslice, fun v => ?_, ?_, h.reachGlob⟩
    · show v ∈ insert item.cur s.slice.sinks ↔ v ∈ insert item.cur s.slice.forwardslice ∧ isSink v
      rw [mem_insert, mem_insert, h.sinks]
      constructor
      · rintro (rfl | hv)
        · exact ⟨.inl rfl, hsink⟩
        · exact ⟨.inr hv.1, hv.2⟩
      · rintro ⟨rfl | hv, hvsink⟩
        · exact .inl rfl
        · exact .inr ⟨hv, hvsink⟩
    · exact iff_of_true rfl (Finset.insert_nonempty _ _)
  | false =>
    rw [if_neg Bool.false_ne_true]
    refine ⟨h.root, h.backwardslice, h.visitedSet, hfound, hslice, fun v => ?_,
      h.partialReachable, h.reachGlob⟩
    show v ∈ s.slice.sinks ↔ v ∈ insert item.cur s.slice.forwardslice ∧ isSink v
    rw [mem_insert, h.sinks]
    constructor
    · exact fun hv => ⟨.inr hv.1, hv.2⟩
    · rintro ⟨rfl | hv, hvsink⟩
      · rw [hsink] at hvsink
        cases hvsink
      · exact ⟨hv, hvsink⟩

@[simp] theorem FWProcessCurNode_worklist (item : DPIm V) (s : Traversal V) :
    (FWProcessCurNode isSink item s).worklist = s.worklist := by
  rw [FWProcessCurNode]
  split <;> rfl

@[simp] theorem FWProcessCurNode_items (item : DPIm V) (s : Traversal V) :
    (FWProcessCurNode isSink item s).nodeToDPItemsMap = s.nodeToDPItemsMap := by
  rw [FWProcessCurNode]
  split <;> rfl

@[simp] theorem FWProcessCurNode_reachGlob (item : DPIm V) (s : Traversal V) :
    (FWProcessCurNode isSink item s).slice.reachGlob = s.slice.reachGlob := by
  rw [FWProcessCurNode]
  split <;> rfl

/-- **One round** of the forward pass. -/
theorem forwardBody_spec [Finite V] (sched : Schedule V) (h : ForwardInv g k isSink src P s)
    (hcond : (!s.worklist.isEmpty)) :
    ∃ s' P', forwardBody g k isSink sched s = some s' ∧ ForwardInv g k isSink src P' s' ∧
      todo g k src s' < todo g k src s := by
  have hne : s.worklist ≠ [] := by
    intro hnil
    rw [hnil] at hcond
    cases hcond
  obtain ⟨item, rest, hpop, hitem, hsub, hrest, hlen⟩ := popFromWorklist_spec sched hne
  have hcur := FWProcessCurNode_spec h.1 hitem hsub hrest
  obtain ⟨hfwd, hmono, htodo, hflag⟩ := outEdges_spec (Set.mem_insert item P)
    (g.outEdges item.cur) hcur fun _ he => he
  refine ⟨_, insert item P, ?_, ⟨hfwd, fun hfalse => ?_⟩, htodo.trans_lt ?_⟩
  · rw [forwardBody, hpop]
    rfl
  · obtain ⟨hfalse', hfollowed⟩ := hflag hfalse
    rw [FWProcessCurNode_reachGlob] at hfalse'
    rw [FWProcessCurNode_items] at hmono
    rintro d (rfl | hd)
    · exact hfollowed
    · intro edge hedge
      obtain ⟨hnotGlobal, hmarked⟩ := h.2 hfalse' d hd edge hedge
      exact ⟨hnotGlobal, fun e he => hmono (hmarked e he)⟩
  · rw [todo, todo, FWProcessCurNode_items, FWProcessCurNode_worklist]
    dsimp only
    omega

/-- **The forward pass** stops; it meets a global node exactly if some item has an edge to one,
    and otherwise it has processed exactly the items. -/
theorem forwardTraverse_spec [Finite V] (g : SVFG V) (k : ℕ) (isSink : V → Bool)
    (sched : Schedule V) {s : Traversal V} (hslice : s.slice = ⟨src, ∅, ∅, ∅, false, false⟩)
    (hitems : s.nodeToDPItemsMap = ∅)
    (hvisited : s.visitedSet = ∅) (hworklist : s.worklist = []) :
    ∃ t, Stops (fun fuel => forwardTraverse g k isSink sched ⟨src, []⟩ fuel s) t ∧
      t.worklist = [] ∧ (t.slice.reachGlob ↔ ReachesGlobal g k src) ∧
      (¬ ReachesGlobal g k src → Forward g k isSink src (Items g k src) t) := by
  have hpush : pushIntoWorklist ⟨src, []⟩ s = { s with worklist := [⟨src, []⟩] } := by
    rw [pushIntoWorklist, hworklist, if_neg not_mem_nil]
    rfl
  have hinit : ForwardInv g k isSink src ∅ (pushIntoWorklist ⟨src, []⟩ s) := by
    rw [hpush]
    refine ⟨⟨?_, ?_, hvisited, ?_, ?_, ?_, ?_, ?_⟩, fun _ d hd => absurd hd (Set.notMem_empty d)⟩
    · show s.slice.root = src
      rw [hslice]
    · show s.slice.backwardslice = ∅
      rw [hslice]
    · have hsearch := (Searching.nothing (R := NextItem g k)).start ⟨src, []⟩
      convert hsearch.toFound using 1
      · exact (insert_empty_eq _).symm
      · ext d
        simp
      · ext d
        simp [hitems]
    · intro v
      show v ∈ s.slice.forwardslice ↔ _
      rw [hslice]
      exact iff_of_false (notMem_empty v) fun ⟨d, hd, _⟩ => Set.notMem_empty d hd
    · intro v
      show v ∈ s.slice.sinks ↔ v ∈ s.slice.forwardslice ∧ _
      rw [hslice]
      exact iff_of_false (notMem_empty v) fun hv => notMem_empty v hv.1
    · show s.slice.partialReachable ↔ s.slice.sinks.Nonempty
      rw [hslice]
      exact iff_of_false Bool.false_ne_true Finset.not_nonempty_empty
    · show s.slice.reachGlob → _
      rw [hslice]
      exact nofun
  have hbody : ∀ (P : Set (DPIm V)) (s : Traversal V), ForwardInv g k isSink src P s →
      (!s.worklist.isEmpty) → ∃ s' P', forwardBody g k isSink sched s = some s' ∧
        ForwardInv g k isSink src P' s' ∧ todo g k src s' < todo g k src s := by
    intro P s hI hcond
    exact forwardBody_spec sched hI hcond
  obtain ⟨t, P, hstops, ⟨hfwd, hfollowed⟩, hcond⟩ :=
    whileM_ghost (μ := fun _ s => todo g k src s) hbody hinit
  have hempty : t.worklist = [] := by
    rw [Bool.not_eq_false'] at hcond
    exact isEmpty_iff.mp hcond
  have hall : t.slice.reachGlob = false → P = Items g k src := by
    intro hflag
    have hsearching : Searching (NextItem g k) {⟨src, []⟩} ∅ {d | d ∈ t.nodeToDPItemsMap} P := by
      refine ⟨?_, fun d hd e => ?_⟩
      · convert hfwd.found using 1
        ext d
        simp [hempty]
      · rintro ⟨edge, hedge, hnew⟩
        exact (hfollowed hflag d hd edge hedge).2 e hnew
    exact hsearching.done
  have hflagIff : t.slice.reachGlob ↔ ReachesGlobal g k src := by
    constructor
    · exact hfwd.reachGlob
    · rintro ⟨d, hd, edge, hedge, hglobal⟩
      by_contra hflag
      rw [Bool.not_eq_true] at hflag
      rw [← hall hflag] at hd
      rw [(hfollowed hflag d hd edge hedge).1] at hglobal
      cases hglobal
  refine ⟨t, hstops, hempty, hflagIff, fun hnot => ?_⟩
  have hflag : t.slice.reachGlob = false := by
    by_contra htrue
    rw [Bool.not_eq_false] at htrue
    exact hnot (hflagIff.mp htrue)
  exact hall hflag ▸ hfwd

-- ── The backward pass

/-- A value-flow edge, backwards. -/
def FlowsBack (g : SVFG V) (w v : V) : Prop := ∃ kind, (kind, v) ∈ g.inEdges w

theorem flowsBack_iff {v w : V} : FlowsBack g w v ↔ Flows g v w :=
  exists_congr fun kind => (g.agree v kind w).symm

theorem mem_reach_flowsBack {S : Set V} {v : V} :
    v ∈ Reach (FlowsBack g) S ↔ ∃ sink ∈ S, Relation.ReflTransGen (Flows g) v sink := by
  have hswap : ∀ sink, Relation.ReflTransGen (FlowsBack g) sink v ↔
      Relation.ReflTransGen (Flows g) v sink := by
    intro sink
    rw [← Relation.reflTransGen_swap]
    have hrel : Function.swap (FlowsBack g) = Flows g := by
      ext v w
      exact flowsBack_iff
    rw [hrel]
  exact exists_congr fun sink => and_congr_right fun _ => hswap sink

/-- During the backward passes over a slice that the forward pass left as `slice`, with the
    sinks `S` begun and the nodes `P` processed. -/
structure Backward (g : SVFG V) (slice : ProgSlice V) (S P : Set V) (s : Traversal V) : Prop where
  frame : s.slice = { slice with backwardslice := s.slice.backwardslice }
  found : Found (FlowsBack g) S {v | ∃ item ∈ s.worklist, item.cur = v} {v | v ∈ s.visitedSet} P
  backwardslice : ∀ v, v ∈ s.slice.backwardslice ↔ v ∈ slice.forwardslice ∧ v ∈ P

/-- Nodes that are not marked yet, and items that wait. -/
noncomputable def todoBack (s : Traversal V) : ℕ := {v | v ∉ s.visitedSet}.ncard + s.worklist.length

variable {slice : ProgSlice V} {S Q : Set V}

theorem nodes_pushIntoWorklist {v : V} {context : ContextCond} {s : Traversal V} :
    {w | ∃ item ∈ (pushIntoWorklist ⟨v, context⟩ s).worklist, item.cur = w} =
      insert v {w | ∃ item ∈ s.worklist, item.cur = w} := by
  ext w
  constructor
  · rintro ⟨item, hitem, rfl⟩
    rcases mem_pushIntoWorklist.mp hitem with rfl | hitem
    · exact .inl rfl
    · exact .inr ⟨item, hitem, rfl⟩
  · rintro (rfl | ⟨item, hitem, rfl⟩)
    · exact ⟨_, mem_pushIntoWorklist.mpr (.inl rfl), rfl⟩
    · exact ⟨item, mem_pushIntoWorklist.mpr (.inr hitem), rfl⟩

/-- **One edge** into a processed node. -/
theorem BWProcessIncomingEdge_spec [Finite V] (h : Backward g slice S Q s) {w : V} (hw : w ∈ Q)
    {edge : SVFGEdgeK × V} (hedge : edge ∈ g.inEdges w) :
    Backward g slice S Q (BWProcessIncomingEdge s edge) ∧
      s.visitedSet ⊆ (BWProcessIncomingEdge s edge).visitedSet ∧
      edge.2 ∈ (BWProcessIncomingEdge s edge).visitedSet ∧
      todoBack (BWProcessIncomingEdge s edge) ≤ todoBack s := by
  rw [BWProcessIncomingEdge]
  by_cases hmarked : edge.2 ∈ s.visitedSet
  · rw [if_pos hmarked]
    exact ⟨h, subset_rfl, hmarked, le_rfl⟩
  · rw [if_neg hmarked]
    have hfound := h.found.visit hw ⟨edge.1, hedge⟩
    refine ⟨⟨?_, ?_, ?_⟩, ?_, ?_, ?_⟩
    · rw [pushIntoWorklist_slice]
      exact h.frame
    · rw [nodes_pushIntoWorklist]
      convert hfound using 1
      ext v
      rw [pushIntoWorklist_visitedSet]
      exact mem_insert
    · rw [pushIntoWorklist_slice]
      exact h.backwardslice
    · rw [pushIntoWorklist_visitedSet]
      exact Finset.subset_insert _ _
    · rw [pushIntoWorklist_visitedSet]
      exact mem_insert_self _ _
    · have hlen := length_pushIntoWorklist_le (⟨edge.2, []⟩ : DPIm V)
        { s with visitedSet := insert edge.2 s.visitedSet }
      have hcard : {v | v ∉ insert edge.2 s.visitedSet}.ncard < {v | v ∉ s.visitedSet}.ncard := by
        refine Set.ncard_lt_ncard ⟨fun v hv hmem => hv (Finset.mem_insert_of_mem hmem),
          fun hsub => ?_⟩
        exact hsub hmarked (mem_insert_self _ _)
      rw [todoBack, todoBack, pushIntoWorklist_visitedSet]
      dsimp only at hlen ⊢
      omega

theorem inEdges_spec [Finite V] {w : V} (hw : w ∈ Q) (edges : List (SVFGEdgeK × V)) :
    ∀ {s : Traversal V}, Backward g slice S Q s → (∀ edge ∈ edges, edge ∈ g.inEdges w) →
      Backward g slice S Q (edges.foldl BWProcessIncomingEdge s) ∧
        s.visitedSet ⊆ (edges.foldl BWProcessIncomingEdge s).visitedSet ∧
        (∀ edge ∈ edges, edge.2 ∈ (edges.foldl BWProcessIncomingEdge s).visitedSet) ∧
        todoBack (edges.foldl BWProcessIncomingEdge s) ≤ todoBack s := by
  induction edges with
  | nil => exact fun h _ => ⟨h, subset_rfl, nofun, le_rfl⟩
  | cons edge edges ih =>
    intro s h hedges
    obtain ⟨h1, hsub1, hmarked, htodo1⟩ :=
      BWProcessIncomingEdge_spec h hw (hedges edge mem_cons_self)
    obtain ⟨h2, hsub2, hall, htodo2⟩ := ih h1 (forall_mem_cons.mp hedges).2
    refine ⟨h2, hsub1.trans hsub2, fun e he => ?_, htodo2.trans htodo1⟩
    rcases mem_cons.mp he with rfl | he
    · exact hsub2 hmarked
    · exact hall e he

/-- The invariant of the backward loops. -/
def BackwardInv (g : SVFG V) (slice : ProgSlice V) (S P : Set V) (s : Traversal V) : Prop :=
  Backward g slice S P s ∧ ∀ w ∈ P, ∀ edge ∈ g.inEdges w, edge.2 ∈ s.visitedSet

section

variable (sched : Schedule V) (h : BackwardInv g slice S Q s)
include h

/-- **One round** of a backward pass. -/
theorem backwardBody_spec [Finite V] (hcond : (!s.worklist.isEmpty)) :
    ∃ s' Q', backwardBody g sched s = some s' ∧ BackwardInv g slice S Q' s' ∧
      todoBack s' < todoBack s := by
  have hne : s.worklist ≠ [] := by
    intro hnil
    rw [hnil] at hcond
    cases hcond
  obtain ⟨item, rest, hpop, hitem, hsub, hrest, hlen⟩ := popFromWorklist_spec sched hne
  have hfound : Found (FlowsBack g) S {v | ∃ d ∈ rest, d.cur = v} {v | v ∈ s.visitedSet}
      (insert item.cur Q) := by
    refine h.1.found.pop ⟨item, hitem, rfl⟩ ?_ ?_
    · rintro v ⟨d, hd, rfl⟩
      exact ⟨d, hsub hd, rfl⟩
    · rintro v ⟨d, hd, rfl⟩
      rcases hrest d hd with rfl | hd
      · exact .inl rfl
      · exact .inr ⟨d, hd, rfl⟩
  have hforward : s.slice.forwardslice = slice.forwardslice := by rw [h.1.frame]
  -- The popped node is added to the backward slice if the forward slice has it.
  have hcur : Backward g slice S (insert item.cur Q)
      (BWProcessCurNode item { s with worklist := rest }) := by
    rw [BWProcessCurNode]
    split
    case isTrue hin =>
      refine ⟨?_, hfound, fun v => ?_⟩
      · show ({ s.slice with backwardslice := _ } : ProgSlice V) = _
        rw [h.1.frame]
      · show v ∈ insert item.cur s.slice.backwardslice ↔ _
        rw [mem_insert, h.1.backwardslice]
        constructor
        · rintro (rfl | ⟨hv, hQ⟩)
          · exact ⟨hforward ▸ hin, .inl rfl⟩
          · exact ⟨hv, .inr hQ⟩
        · rintro ⟨hv, rfl | hQ⟩
          · exact .inl rfl
          · exact .inr ⟨hv, hQ⟩
    case isFalse hout =>
      refine ⟨h.1.frame, hfound, fun v => (h.1.backwardslice v).trans ?_⟩
      refine and_congr_right fun hv => ?_
      constructor
      · exact .inr
      · rintro (rfl | hQ)
        · exact absurd (hforward ▸ hv) hout
        · exact hQ
  have hworklist : (BWProcessCurNode item { s with worklist := rest }).worklist = rest := by
    rw [BWProcessCurNode]
    split <;> rfl
  have hvisited :
      (BWProcessCurNode item { s with worklist := rest }).visitedSet = s.visitedSet := by
    rw [BWProcessCurNode]
    split <;> rfl
  obtain ⟨hback, hmono, hall, htodo⟩ := inEdges_spec (Set.mem_insert item.cur Q)
    (g.inEdges item.cur) hcur fun _ he => he
  refine ⟨_, insert item.cur Q, ?_, ⟨hback, ?_⟩, htodo.trans_lt ?_⟩
  · rw [backwardBody, hpop]
    rfl
  · rintro w (rfl | hw)
    · exact hall
    · rw [hvisited] at hmono
      exact fun edge hedge => hmono (h.2 w hw edge hedge)
  · rw [todoBack, todoBack, hvisited, hworklist]
    omega

/-- **A backward pass** from one more sink. -/
theorem backwardTraverse_spec [Finite V] (sink : V) :
    ∃ t Q', Stops (fun fuel => backwardTraverse g sched ⟨sink, []⟩ fuel s) t ∧
      BackwardInv g slice (insert sink S) Q' t ∧ t.worklist = [] := by
  have hinit : BackwardInv g slice (insert sink S) Q (pushIntoWorklist ⟨sink, []⟩ s) := by
    have hsearching : Searching (FlowsBack g) S {v | ∃ item ∈ s.worklist, item.cur = v}
        {v | v ∈ s.visitedSet} Q := ⟨h.1.found, fun w hw v ⟨kind, hv⟩ => h.2 w hw _ hv⟩
    refine ⟨⟨?_, ?_, ?_⟩, ?_⟩
    · rw [pushIntoWorklist_slice]
      exact h.1.frame
    · rw [nodes_pushIntoWorklist, pushIntoWorklist_visitedSet]
      exact (hsearching.start sink).toFound
    · rw [pushIntoWorklist_slice]
      exact h.1.backwardslice
    · rw [pushIntoWorklist_visitedSet]
      exact h.2
  have hbody : ∀ (P : Set V) (s : Traversal V), BackwardInv g slice (insert sink S) P s →
      (!s.worklist.isEmpty) → ∃ s' P', backwardBody g sched s = some s' ∧
        BackwardInv g slice (insert sink S) P' s' ∧ todoBack s' < todoBack s := by
    intro P s hI hcond
    exact backwardBody_spec sched hI hcond
  obtain ⟨t, Q', hstops, hI, hcond⟩ := whileM_ghost (μ := fun _ s => todoBack s) hbody hinit
  rw [Bool.not_eq_false'] at hcond
  exact ⟨t, Q', hstops, hI, isEmpty_iff.mp hcond⟩

end

/-- **All backward passes**, one sink after the other. -/
theorem backwardSinks_spec [Finite V] (sched : Schedule V) (sinks : List V) :
    ∀ {s : Traversal V} {S Q : Set V}, BackwardInv g slice S Q s → s.worklist = [] →
      ∃ t Q', Stops (fun fuel => sinks.foldlM
          (fun t sink => backwardTraverse g sched ⟨sink, []⟩ fuel t) s) t ∧
        BackwardInv g slice ({v | v ∈ sinks} ∪ S) Q' t ∧ t.worklist = [] := by
  induction sinks with
  | nil =>
    intro s S Q h hempty
    refine ⟨s, Q, ⟨0, fun _ _ => rfl⟩, ?_, hempty⟩
    convert h using 1
    ext v
    simp
  | cons sink sinks ih =>
    intro s S Q h _
    obtain ⟨t1, Q1, hstops1, h1, hempty1⟩ := backwardTraverse_spec sched h sink
    obtain ⟨t, Q', hstops, h', hempty⟩ := ih h1 hempty1
    refine ⟨t, Q', hstops1.bind hstops, ?_, hempty⟩
    convert h' using 1
    ext v
    simp only [mem_cons, Set.mem_union, Set.mem_ofPred_eq, Set.mem_insert_iff]
    tauto

-- ── The slice of a source

/-- What the two passes make of a source that does not reach a global node. -/
structure IsSlice (g : SVFG V) (k : ℕ) (isSink : V → Bool) (src : V) (slice : ProgSlice V) :
    Prop where
  root : slice.root = src
  forwardslice : ∀ v, v ∈ slice.forwardslice ↔ ∃ item ∈ Items g k src, item.cur = v
  sinks : ∀ v, v ∈ slice.sinks ↔ v ∈ slice.forwardslice ∧ isSink v = true
  backwardslice : ∀ v, v ∈ slice.backwardslice ↔
    v ∈ slice.forwardslice ∧ ∃ sink ∈ slice.sinks, Relation.ReflTransGen (Flows g) v sink
  partialReachable : slice.partialReachable = true ↔ slice.sinks.Nonempty
  reachGlob : slice.reachGlob = false

theorem IsSlice.unique {slice slice' : ProgSlice V} (h : IsSlice g k isSink src slice)
    (h' : IsSlice g k isSink src slice') : slice = slice' := by
  have hforward : slice.forwardslice = slice'.forwardslice := by
    ext v
    rw [h.forwardslice, h'.forwardslice]
  have hsinks : slice.sinks = slice'.sinks := by
    ext v
    rw [h.sinks, h'.sinks, hforward]
  have hbackward : slice.backwardslice = slice'.backwardslice := by
    ext v
    rw [h.backwardslice, h'.backwardslice, hforward, hsinks]
  have hpartial : slice.partialReachable = slice'.partialReachable := by
    rw [Bool.eq_iff_iff, h.partialReachable, h'.partialReachable, hsinks]
  cases slice
  cases slice'
  rw [ProgSlice.mk.injEq]
  exact ⟨h.root.trans h'.root.symm, hforward, hbackward, hsinks, hpartial,
    h.reachGlob.trans h'.reachGlob.symm⟩

/-- Between two sources the worklist is empty, and the visited sets are empty or about to be
    cleared. -/
structure Clean (s : SrcSnkDDA V) : Prop where
  worklist : s.worklist = []
  items : s.curSlice = none → s.nodeToDPItemsMap = ∅
  visitedSet : s.curSlice = none → s.visitedSet = ∅

theorem worklist_of_forwardTraverse {it : DPIm V} {fuel : ℕ} {s t : Traversal V}
    (h : forwardTraverse g k isSink sched it fuel s = some t) : t.worklist = [] := by
  have hcond := cond_of_whileM h
  rw [Bool.not_eq_false'] at hcond
  exact isEmpty_iff.mp hcond

theorem worklist_of_backwardTraverse {it : DPIm V} {fuel : ℕ} {s t : Traversal V}
    (h : backwardTraverse g sched it fuel s = some t) : t.worklist = [] := by
  have hcond := cond_of_whileM h
  rw [Bool.not_eq_false'] at hcond
  exact isEmpty_iff.mp hcond

theorem Between.clean {s : SrcSnkDDA V} (h : Between g k isSink s) : Clean s := by
  induction h with
  | init => exact ⟨rfl, fun _ => rfl, fun _ => rfl⟩
  | @analyzed s s' sched src fuel _ hs _ =>
    obtain ⟨t', hrun, rfl⟩ := map_eq_some_iff.mp hs
    obtain ⟨t, ht, ht'⟩ := bind_eq_some_iff.mp hrun
    have hfirst : t.worklist = [] := worklist_of_forwardTraverse ht
    have hlast : t'.worklist = [] := by
      rw [backwardSinks] at ht'
      by_cases hflag : t.slice.reachGlob
      · rw [if_pos hflag] at ht'
        exact some.inj ht' ▸ hfirst
      · rw [if_neg hflag] at ht'
        exact foldlM_keeps (P := fun u : Traversal V => u.worklist = []) _ t t'
          (fun _ _ _ _ _ hu => worklist_of_backwardTraverse hu) hfirst ht'
    exact ⟨hlast, fun hnone => (nomatch hnone), fun hnone => (nomatch hnone)⟩

/-- **One source** on any state between two sources. -/
theorem analyzeSource_spec [Finite V] (sched : Schedule V) {s : SrcSnkDDA V} (hs : Clean s) :
    ∃ s' slice, Stops (fun fuel => analyzeSource g k isSink sched src fuel s) s' ∧
      s'.curSlice = some slice ∧ (slice.reachGlob ↔ ReachesGlobal g k src) ∧
      (¬ ReachesGlobal g k src → IsSlice g k isSink src slice) := by
  have hstart : (setCurSlice src s).slice = ⟨src, ∅, ∅, ∅, false, false⟩ ∧
      (setCurSlice src s).nodeToDPItemsMap = ∅ ∧ (setCurSlice src s).visitedSet = ∅ ∧
      (setCurSlice src s).worklist = [] := by
    rw [setCurSlice]
    cases hcur : s.curSlice with
    | none => exact ⟨rfl, hs.items hcur, hs.visitedSet hcur, hs.worklist⟩
    | some _ => exact ⟨rfl, rfl, rfl, hs.worklist⟩
  obtain ⟨hslice, hitems, hvisited, hworklist⟩ := hstart
  obtain ⟨t, hstops, hempty, hflag, hforward⟩ :=
    forwardTraverse_spec g k isSink sched hslice hitems hvisited hworklist
  have hrun : ∀ u, Stops (fun fuel => backwardSinks g sched fuel t) u →
      Stops (fun fuel => analyzeSource g k isSink sched src fuel s)
        ⟨some u.slice, u.nodeToDPItemsMap, u.visitedSet, u.worklist⟩ := by
    intro u hu
    have hbind : Stops (fun fuel => (forwardTraverse g k isSink sched ⟨src, []⟩ fuel
        (setCurSlice src s)).bind (backwardSinks g sched fuel)) u := hstops.bind hu
    exact hbind.map _
  by_cases hglobal : ReachesGlobal g k src
  · have hsinks : Stops (fun fuel => backwardSinks g sched fuel t) t :=
      ⟨0, fun fuel _ => if_pos (hflag.mpr hglobal)⟩
    exact ⟨_, t.slice, hrun t hsinks, rfl, hflag, fun hnot => absurd hglobal hnot⟩
  · have hfwd := hforward hglobal
    have hreachGlob : ¬ t.slice.reachGlob := fun htrue => hglobal (hflag.mp htrue)
    have hback : BackwardInv g t.slice ∅ ∅ t := by
      refine ⟨⟨rfl, ?_, fun v => ?_⟩, fun w hw => absurd hw (Set.notMem_empty w)⟩
      · convert (Searching.nothing (R := FlowsBack g)).toFound using 1
        · ext v
          simp [hempty]
        · ext v
          simp [hfwd.visitedSet]
      · rw [hfwd.backwardslice]
        exact iff_of_false (notMem_empty v) fun hv => Set.notMem_empty v hv.2
    obtain ⟨u, Q, hstopsBack, ⟨hfinal, hfollowed⟩, hemptyBack⟩ :=
      backwardSinks_spec sched (sched.iterate t.slice.sinks) hback hempty
    have hsearching : Searching (FlowsBack g) ({v | v ∈ sched.iterate t.slice.sinks} ∪ ∅) ∅
        {v | v ∈ u.visitedSet} Q := by
      refine ⟨?_, fun w hw v ⟨kind, hv⟩ => hfollowed w hw _ hv⟩
      convert hfinal.found using 1
      ext v
      simp [hemptyBack]
    have hframe := hfinal.frame
    have hsinks : Stops (fun fuel => backwardSinks g sched fuel t) u :=
      hstopsBack.congr (n := 0) fun fuel _ => if_neg hreachGlob
    refine ⟨_, u.slice, hrun u hsinks, rfl, ?_, fun _ => ?_⟩
    · rw [hframe]
      exact hflag
    · have hsinksEq : u.slice.sinks = t.slice.sinks := by rw [hframe]
      have hforwardEq : u.slice.forwardslice = t.slice.forwardslice := by rw [hframe]
      refine ⟨?_, ?_, ?_, fun v => ?_, ?_, ?_⟩
      · rw [hframe]
        exact hfwd.root
      · rw [hforwardEq]
        exact hfwd.forwardslice
      · rw [hforwardEq, hsinksEq]
        exact hfwd.sinks
      · rw [hfinal.backwardslice, hforwardEq, hsearching.done, mem_reach_flowsBack, hsinksEq]
        simp only [Set.union_empty, Set.mem_ofPred_eq, sched.mem_iterate]
      · rw [hsinksEq, hframe]
        exact hfwd.partialReachable
      · rw [hframe]
        exact Bool.not_eq_true _ ▸ hreachGlob

/-- The schedule of the source: the worklist is first-in-first-out. -/
noncomputable def fifo (V : Type) : Schedule V where
  position _ := 0
  iterate s := s.toList
  mem_iterate _ _ := Finset.mem_toList

/-- **Slices contain every realizable flow.** Both passes stop, from any state between two
    sources and in any order. If no global node is reached, one slice is the answer in all
    cases: its forward part has every node of a realizable flow, its sinks are the sinks
    there, and its backward part is what flows to them. -/
theorem analyzeSource_slices [Finite V] (g : SVFG V) (k : ℕ) (isSink : V → Bool) (src : V) :
    (∀ sched s, Between g k isSink s → ∃ s' slice,
      Stops (fun fuel => analyzeSource g k isSink sched src fuel s) s' ∧
        s'.curSlice = some slice ∧ (slice.reachGlob = true ↔ ReachesGlobal g k src)) ∧
    (¬ ReachesGlobal g k src → ∃ slice : ProgSlice V,
      (∀ sched s, Between g k isSink s → ∃ s',
        Stops (fun fuel => analyzeSource g k isSink sched src fuel s) s' ∧
          s'.curSlice = some slice) ∧
      (∀ stack v, Realizable g src stack v → v ∈ slice.forwardslice) ∧
      (∀ v, v ∈ slice.sinks ↔ v ∈ slice.forwardslice ∧ isSink v = true) ∧
      ∀ v, v ∈ slice.backwardslice ↔ v ∈ slice.forwardslice ∧
        ∃ sink ∈ slice.sinks, Relation.ReflTransGen (Flows g) v sink) := by
  constructor
  · intro sched s hs
    obtain ⟨s', slice, hstops, hcur, hflag, -⟩ := analyzeSource_spec sched hs.clean
    exact ⟨s', slice, hstops, hcur, hflag⟩
  · intro hnot
    have hclean : Clean (SrcSnkDDA.init : SrcSnkDDA V) := ⟨rfl, fun _ => rfl, fun _ => rfl⟩
    obtain ⟨_, slice, -, -, -, hslice⟩ := analyzeSource_spec (fifo V) hclean
    have his : IsSlice g k isSink src slice := hslice hnot
    refine ⟨slice, fun sched s hs => ?_, fun stack v hv => ?_, his.sinks, his.backwardslice⟩
    · obtain ⟨s', slice', hstops, hcur, -, hslice'⟩ := analyzeSource_spec sched hs.clean
      exact ⟨s', hstops, (hslice' hnot).unique his ▸ hcur⟩
    · obtain ⟨context, hitem, -⟩ := hv.item (k := k)
      exact (his.forwardslice v).mpr ⟨_, hitem, rfl⟩

/-- A function that calls itself: the flow goes in at call site 1 and back. -/
def recursion : SVFG Bool where
  outEdges v := if v then [(.Call 1, false)] else [(.Ret 1, true), (.Intra, false)]
  inEdges v := if v then [(.Ret 1, false)] else [(.Call 1, true), (.Intra, false)]
  agree src kind dst := by
    cases src <;> cases dst <;> simp
  isGlobalSVFGNode _ := false

theorem analyzeSource_slices_recursion : ∃ slice : ProgSlice Bool,
    (∀ sched s, Between recursion 1 id s → ∃ s',
      Stops (fun fuel => analyzeSource recursion 1 id sched true fuel s) s' ∧
        s'.curSlice = some slice) ∧
    (∀ stack v, Realizable recursion true stack v → v ∈ slice.forwardslice) ∧
    (∀ v, v ∈ slice.sinks ↔ v ∈ slice.forwardslice ∧ id v = true) ∧
    ∀ v, v ∈ slice.backwardslice ↔ v ∈ slice.forwardslice ∧
      ∃ sink ∈ slice.sinks, Relation.ReflTransGen (Flows recursion) v sink :=
  (analyzeSource_slices recursion 1 id true).2 fun ⟨_, _, _, _, hglobal⟩ => nomatch hglobal

end SvfSrcSnk
