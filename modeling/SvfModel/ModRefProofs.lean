import SvfModel.WorkListProofs
import SvfModel.SCCDetectionProofs

/-!
# Interprocedural mod-ref summaries

`collectModRefForCall` propagates what functions modify and read from callees to call sites
and callers. Its worklist starts with the representatives of the call graph's components,
callers first, and an item is expanded through `subNodes`, which is empty for a node that is
not a representative; what a change puts on the worklist is the caller itself.

So an update of a function that is not its component's representative is dropped when the
function is popped, and reaches its callers only if the function still has its turn in the
round at hand. **`Heard`** says of one call when nothing is lost there: the caller is a
representative, the callee comes before the caller in one round, or whatever the callee
passes on goes to the caller's call sites directly. The route: `handleCallsiteModRef_spec` (what one call site
does), then on one side `collect_closed` (if every call is heard the summaries are closed
under every assignment of effects), on the other `collect_not_closed` (a call that is not
heard loses the one effect placed behind it).
-/

namespace SvfModRef

open SvfLoop SvfWorkList SvfSCCDetection List
open FIFOWorkList (den_push pop_cons)
open Finset (notMem_empty not_subset)

structure PTACallGraphEdge (N C : Type) where
  srcID : N
  directCalls : List C
  indirectCalls : List C

/-- The call sites of an edge in the order of `modRefAnalysis`. -/
def PTACallGraphEdge.calls {N C : Type} (e : PTACallGraphEdge N C) : List C :=
  e.directCalls ++ e.indirectCalls

/-- The call graph: the functions in the order of their numbers, the edges into a function,
    the callees of a function in the order of its edges, the function a call site is in,
    whether a call site calls a heap allocator, and whether a function is external. An edge
    has a call site, a heap allocator is external, and an external function calls nothing. -/
structure PTACallGraph (N C : Type) where
  nodes : List N
  nodes_all : ∀ n : N, n ∈ nodes
  nodes_nodup : nodes.Nodup
  inEdges : N → List (PTACallGraphEdge N C)
  callees : N → List N
  getCaller : C → N
  isHeapAllocExtCall : C → Bool
  isExtFun : N → Bool
  callees_iff : ∀ f g, g ∈ callees f ↔ ∃ e ∈ inEdges g, e.srcID = f
  calls_ne : ∀ g, ∀ e ∈ inEdges g, e.calls ≠ []
  caller_eq : ∀ g, ∀ e ∈ inEdges g, ∀ cs ∈ e.calls, getCaller cs = e.srcID
  alloc_ext : ∀ g, ∀ e ∈ inEdges g, ∀ cs ∈ e.calls, isHeapAllocExtCall cs = true →
    isExtFun g = true
  ext_calls : ∀ g, isExtFun g = true → callees g = []

/-- An object: what `isNonLocalObject` asks about it. -/
structure MemObj (N : Type) where
  isGlobalObj : Bool
  isHeap : Bool
  isStack : Bool
  function : Option N

/-- References and modifications are collected alike. -/
inductive Kind | ref | mod
deriving DecidableEq

variable {N C : Type}

/-- The effects the analysis starts from: objects by number, what each function reads and
    writes itself (an external function nothing), what a heap allocation creates, the objects
    reachable from the arguments and from the return value of a call site, and those
    reachable from globals. -/
structure Effects (G : PTACallGraph N C) where
  getObject : ℕ → MemObj N
  direct : Kind → N → Finset ℕ
  heapObjs : C → Finset ℕ
  argsPts : C → Finset ℕ
  retPts : C → Finset ℕ
  allGlobals : Finset ℕ
  ext_pure : ∀ g, G.isExtFun g = true → ∀ k, direct k g = ∅

/-- The side effects of one kind: `funToRefsMap` and `csToRefsMap`, or `funToModsMap` and
    `csToModsMap`. -/
@[ext] structure SideEffects (N C : Type) where
  funMap : N → Finset ℕ
  csMap : C → Finset ℕ

@[ext] structure MRGenerator (N C : Type) [DecidableEq N] where
  effects : Kind → SideEffects N C
  worklist : FIFOWorkList N

variable [DecidableEq N] [DecidableEq C]

/-- The graph that the component search sees. -/
def PTACallGraph.scc (G : PTACallGraph N C) : SccGraph N where
  nodes := G.nodes
  nodes_all := G.nodes_all
  children := G.callees

section Analysis

variable {G : PTACallGraph N C} (E : Effects G) (scc : SCCDetection N)

def isInCycle (G : PTACallGraph N C) (scc : SCCDetection N) (n : N) : Bool :=
  let rep := scc.repNode n
  if 1 < (scc.subNodes rep).card then true else decide (rep ∈ G.callees rep)

def isNonLocalObject (id : ℕ) (curFun : N) : Bool :=
  let obj := E.getObject id
  if obj.isGlobalObj || obj.isHeap then true
  else if obj.isStack then
    match obj.function with
    | none => false
    | some svffun => if svffun ≠ curFun then true else isInCycle G scc svffun
  else false

def addSideEffectOfFunction (m : SideEffects N C) (fun_ : N) (objs : Finset ℕ) : SideEffects N C :=
  { m with
    funMap := Function.update m.funMap fun_
      (m.funMap fun_ ∪ objs.filter (fun id => isNonLocalObject E scc id fun_ = true)) }

/-- The objects through which an effect can reach a call site: the arguments, for a
    modification also the return value. -/
def callSitePts : Kind → C → Finset ℕ
  | .ref, cs => E.argsPts cs
  | .mod, cs => E.argsPts cs ∪ E.retPts cs

def addSideEffectOfCallSite (k : Kind) (m : SideEffects N C) (cs : C) (objs : Finset ℕ) :
    Bool × SideEffects N C :=
  if objs = ∅ then (false, m)
  else
    let objset := objs ∩ callSitePts E k cs
    -- `getEscapObjviaGlobals`
    let objset := objset ∪ objs.filter (fun id => id ∈ E.allGlobals)
    let m := addSideEffectOfFunction E scc m (G.getCaller cs) objset
    (!decide (objset ⊆ m.csMap cs),
      { m with csMap := Function.update m.csMap cs (m.csMap cs ∪ objset) })

def calleeEffects (s : MRGenerator N C) (cs : C) (callee : N) : Kind → Finset ℕ
  | .ref => if G.isHeapAllocExtCall cs then ∅ else (s.effects .ref).funMap callee
  | .mod => if G.isHeapAllocExtCall cs then E.heapObjs cs else (s.effects .mod).funMap callee

def handleCallsiteModRef (s : MRGenerator N C) (cs : C) (callee : N) : Bool × MRGenerator N C :=
  let ref := calleeEffects E s cs callee .ref
  let mod := calleeEffects E s cs callee .mod
  let (refchanged, refs) := addSideEffectOfCallSite E scc .ref (s.effects .ref) cs ref
  let (modchanged, mods) := addSideEffectOfCallSite E scc .mod (s.effects .mod) cs mod
  (refchanged || modchanged,
    { s with effects := fun k => match k with | .ref => refs | .mod => mods })

def handleCall (callee : N) (srcID : N) (s : MRGenerator N C) (cs : C) : MRGenerator N C :=
  let (modrefchanged, s) := handleCallsiteModRef E scc s cs callee
  if modrefchanged then { s with worklist := (s.worklist.push srcID).2 } else s

def modRefAnalysis (s : MRGenerator N C) (callee : N) : MRGenerator N C :=
  (G.inEdges callee).foldl
    (fun s e => e.indirectCalls.foldl (handleCall E scc callee e.srcID)
      (e.directCalls.foldl (handleCall E scc callee e.srcID) s)) s

def processItem (s : MRGenerator N C) : Option (MRGenerator N C) :=
  match s.worklist.pop with
  | none => none
  | some (d, worklist) =>
    some ((G.nodes.filter (fun n => n ∈ scc.subNodes d)).foldl (modRefAnalysis E scc)
      { s with worklist := worklist })

def collectModRefForLoadStore : MRGenerator N C where
  effects := fun k =>
    G.nodes.foldl (fun m f => addSideEffectOfFunction E scc m f (E.direct k f))
      { funMap := fun _ => ∅, csMap := fun _ => ∅ }
  worklist := FIFOWorkList.empty

def getCallGraphSCCRevTopoOrder (s : MRGenerator N C) : MRGenerator N C :=
  { s with worklist := scc.T.foldl (fun w n => (w.push n).2) s.worklist }

def collectModRefForCall (s : MRGenerator N C) (fuel : Nat) : Option (MRGenerator N C) :=
  whileM (fun s => !s.worklist.isEmpty) (processItem E scc) fuel
    (getCallGraphSCCRevTopoOrder scc s)

def generateMRs (fuel : Nat) : Option (MRGenerator N C) :=
  (SCCDetection.find G.scc fuel).bind fun scc =>
    collectModRefForCall E scc (collectModRefForLoadStore E scc) fuel

-- ── One call site

def Site (G : PTACallGraph N C) (g : N) (cs : C) : Prop := ∃ e ∈ G.inEdges g, cs ∈ e.calls

section

omit [DecidableEq N] [DecidableEq C]

section

variable {g : N} {cs : C} (h : Site G g cs)
include h

theorem Site.callee : g ∈ G.callees (G.getCaller cs) := by
  obtain ⟨e, he, hcs⟩ := h
  exact (G.callees_iff _ g).mpr ⟨e, he, (G.caller_eq g e he cs hcs).symm⟩

theorem Site.ext_of_alloc (ha : G.isHeapAllocExtCall cs) : G.isExtFun g := by
  obtain ⟨e, he, hcs⟩ := h
  exact G.alloc_ext g e he cs hcs ha

theorem Site.caller_not_ext :
    G.isExtFun (G.getCaller cs) ≠ true := by
  intro hext
  have hmem := h.callee
  rw [G.ext_calls _ hext] at hmem
  cases hmem

end

end

def Reaches (k : Kind) (cs : C) (o : ℕ) : Prop := o ∈ callSitePts E k cs ∨ o ∈ E.allGlobals

def passed (s : MRGenerator N C) (g : N) (cs : C) (k : Kind) : Finset ℕ :=
  (calleeEffects E s cs g k).filter (fun o => o ∈ callSitePts E k cs ∨ o ∈ E.allGlobals)

variable {E scc}

variable {s : MRGenerator N C}

omit [DecidableEq C] in
theorem mem_passed {g : N} {cs : C} {k : Kind} {o : ℕ} :
    o ∈ passed E s g cs k ↔ o ∈ calleeEffects E s cs g k ∧ Reaches E k cs o :=
  Finset.mem_filter

omit [DecidableEq C] in
theorem calleeEffects_call {g : N} {cs : C} (k : Kind) (h : G.isHeapAllocExtCall cs = false) :
    calleeEffects E s cs g k = (s.effects k).funMap g := by
  cases k <;> simp [calleeEffects, h]

omit [DecidableEq N] [DecidableEq C] in
/-- Both kinds of `add…SideEffectOfCallSite` intersect with what reaches the call site. -/
theorem objset_eq (k : Kind) (cs : C) (objs : Finset ℕ) :
    objs ∩ callSitePts E k cs ∪ objs.filter (fun id => id ∈ E.allGlobals) =
      objs.filter (fun o => o ∈ callSitePts E k cs ∨ o ∈ E.allGlobals) := by
  ext o
  simp only [Finset.mem_union, Finset.mem_inter, Finset.mem_filter]
  tauto

theorem addSideEffectOfCallSite_spec (k : Kind) (m : SideEffects N C) (cs : C) (objs : Finset ℕ) :
    let objset := objs.filter (fun o => o ∈ callSitePts E k cs ∨ o ∈ E.allGlobals)
    addSideEffectOfCallSite E scc k m cs objs = (!decide (objset ⊆ m.csMap cs),
        { funMap := Function.update m.funMap (G.getCaller cs) (m.funMap (G.getCaller cs) ∪
            objset.filter (fun id => isNonLocalObject E scc id (G.getCaller cs)))
          csMap := Function.update m.csMap cs (m.csMap cs ∪ objset) }) := by
  intro objset
  unfold addSideEffectOfCallSite
  by_cases hempty : objs = ∅
  · have hset : objset = ∅ := by simp [objset, hempty]
    rw [if_pos hempty, hset]
    simp
  · rw [if_neg hempty]
    simp only [objset_eq]
    rfl

/-- What a call site takes over changes something at the call site. -/
def Changes (E : Effects G) (s : MRGenerator N C) (g : N) (cs : C) : Prop :=
  ∃ k, ¬ passed E s g cs k ⊆ (s.effects k).csMap cs

variable (E scc) in
theorem handleCallsiteModRef_spec (s : MRGenerator N C) (g : N) (cs : C) :
    ((handleCallsiteModRef E scc s cs g).1 ↔ Changes E s g cs) ∧
    (∀ k, (handleCallsiteModRef E scc s cs g).2.effects k =
      (addSideEffectOfCallSite E scc k (s.effects k) cs (calleeEffects E s cs g k)).2) ∧
    (handleCallsiteModRef E scc s cs g).2.worklist = s.worklist := by
  unfold handleCallsiteModRef
  refine ⟨?_, fun k => ?_, rfl⟩
  · simp only [addSideEffectOfCallSite_spec, Bool.or_eq_true, Bool.not_eq_true',
      decide_eq_false_iff_not]
    unfold Changes passed
    constructor
    · rintro (h | h)
      · exact ⟨.ref, h⟩
      · exact ⟨.mod, h⟩
    · rintro ⟨k, h⟩
      cases k with
      | ref => exact .inl h
      | mod => exact .inr h
  · cases k <;> rfl

variable (E scc) in
/-- **One call site**: what it takes over is added to it and, unless local, to its caller;
    the caller is pushed if the call site has changed. -/
theorem handleCall_spec (s : MRGenerator N C) (g src : N) (cs : C) :
    (∀ k c o, o ∈ ((handleCall E scc g src s cs).effects k).csMap c ↔
      o ∈ (s.effects k).csMap c ∨ (c = cs ∧ o ∈ passed E s g cs k)) ∧
    (∀ k f o, o ∈ ((handleCall E scc g src s cs).effects k).funMap f ↔
      o ∈ (s.effects k).funMap f ∨ (f = G.getCaller cs ∧ o ∈ passed E s g cs k ∧
        isNonLocalObject E scc o f)) ∧
    (Changes E s g cs → (handleCall E scc g src s cs).worklist = (s.worklist.push src).2) ∧
    (¬ Changes E s g cs → (handleCall E scc g src s cs).worklist = s.worklist) := by
  obtain ⟨hchanged, heffects, hworklist⟩ := handleCallsiteModRef_spec E scc s g cs
  have heff : ∀ k, (handleCall E scc g src s cs).effects k =
      (addSideEffectOfCallSite E scc k (s.effects k) cs (calleeEffects E s cs g k)).2 := by
    intro k
    rw [← heffects k]
    unfold handleCall
    by_cases hc : (handleCallsiteModRef E scc s cs g).1
    · simp [hc]
    · simp [hc]
  refine ⟨fun k c o => ?_, fun k f o => ?_, fun hc => ?_, fun hc => ?_⟩
  · rw [heff, addSideEffectOfCallSite_spec]
    by_cases hcs : c = cs
    · subst hcs
      simp [passed]
    · simp [hcs]
  · rw [heff, addSideEffectOfCallSite_spec]
    by_cases hf : f = G.getCaller cs
    · subst hf
      simp only [Function.update_self, Finset.mem_union, true_and]
      rw [Finset.mem_filter]
      exact .rfl
    · simp [hf]
  · unfold handleCall
    simp [hchanged.mpr hc, hworklist]
  · unfold handleCall
    simp [mt hchanged.mp hc, hworklist]

-- ── The invariants of the maps, and how much is left to do

/-- What a call site has taken over is in its caller, unless local there; and nothing is
    known of an external function. -/
structure Sound (E : Effects G) (scc : SCCDetection N) (s : MRGenerator N C) : Prop where
  caller : ∀ k cs o, o ∈ (s.effects k).csMap cs →
    isNonLocalObject E scc o (G.getCaller cs) = true →
    o ∈ (s.effects k).funMap (G.getCaller cs)
  ext : ∀ g, G.isExtFun g = true → ∀ k, (s.effects k).funMap g = ∅

theorem Sound.handleCall (h : Sound E scc s) {g : N} (src : N) {cs : C} (hsite : Site G g cs)
    : Sound E scc (handleCall E scc g src s cs) := by
  obtain ⟨hcs, hfun, -, -⟩ := handleCall_spec E scc s g src cs
  constructor
  case caller =>
    intro k c o ho hloc
    rw [hfun]
    rcases (hcs k c o).mp ho with ho | ⟨rfl, ho⟩
    · exact .inl (h.caller k c o ho hloc)
    · exact .inr ⟨rfl, ho, hloc⟩
  case ext =>
    intro f hext k
    refine Finset.eq_empty_of_forall_notMem fun o ho => ?_
    rcases (hfun k f o).mp ho with ho | ⟨rfl, -, -⟩
    · rw [h.ext f hext k] at ho
      exact absurd ho (notMem_empty o)
    · exact hsite.caller_not_ext hext

theorem handleCall_unchanged (h : Sound E scc s) {g : N} (src : N) {cs : C}
    (hc : ¬ Changes E s g cs) : handleCall E scc g src s cs = s := by
  obtain ⟨hcs, hfun, -, hsame⟩ := handleCall_spec E scc s g src cs
  have hsub : ∀ k o, o ∈ passed E s g cs k → o ∈ (s.effects k).csMap cs := by
    intro k o ho
    by_contra hn
    exact hc ⟨k, fun hss => hn (hss ho)⟩
  have heff : (handleCall E scc g src s cs).effects = s.effects := by
    funext k
    have h1 : ((handleCall E scc g src s cs).effects k).csMap = (s.effects k).csMap := by
      funext c
      ext o
      rw [hcs]
      constructor
      · rintro (ho | ⟨rfl, ho⟩)
        · exact ho
        · exact hsub k o ho
      · exact .inl
    have h2 : ((handleCall E scc g src s cs).effects k).funMap = (s.effects k).funMap := by
      funext f
      ext o
      rw [hfun]
      constructor
      · rintro (ho | ⟨rfl, ho, hloc⟩)
        · exact ho
        · exact h.caller k cs o (hsub k o ho) hloc
      · exact .inl
    exact SideEffects.ext h2 h1
  exact MRGenerator.ext heff (hsame hc)

def allSites (G : PTACallGraph N C) : Finset C :=
  (G.nodes.flatMap fun g => (G.inEdges g).flatMap PTACallGraphEdge.calls).toFinset

omit [DecidableEq N] in
theorem Site.mem_allSites {g : N} {cs : C} (h : Site G g cs) : cs ∈ allSites G := by
  obtain ⟨e, he, hcs⟩ := h
  rw [allSites, mem_toFinset, mem_flatMap]
  exact ⟨g, G.nodes_all g, mem_flatMap.mpr ⟨e, he, hcs⟩⟩

/-- Every object that an effect is about. -/
def universe_ (E : Effects G) : Finset ℕ :=
  (G.nodes.toFinset.biUnion fun f => E.direct .ref f ∪ E.direct .mod f) ∪
    (allSites G).biUnion E.heapObjs

def Bounded (E : Effects G) (s : MRGenerator N C) : Prop :=
  ∀ k f, (s.effects k).funMap f ⊆ universe_ E

theorem passed_subset (h : Bounded E s) {g : N} {cs : C} (hsite : Site G g cs) (k : Kind)
    : passed E s g cs k ⊆ universe_ E := by
  intro o ho
  have ho' := (mem_passed.mp ho).1
  cases ha : G.isHeapAllocExtCall cs with
  | false =>
    rw [calleeEffects_call k ha] at ho'
    exact h k g ho'
  | true =>
    cases k with
    | ref => simp [calleeEffects, ha] at ho'
    | mod =>
      simp only [calleeEffects, ha, if_true] at ho'
      exact Finset.mem_union_right _ (Finset.mem_biUnion.mpr ⟨cs, hsite.mem_allSites, ho'⟩)

theorem Bounded.handleCall (h : Bounded E s) {g : N} (src : N) {cs : C} (hsite : Site G g cs)
    : Bounded E (handleCall E scc g src s cs) := by
  intro k f o ho
  rcases ((handleCall_spec E scc s g src cs).2.1 k f o).mp ho with ho | ⟨-, ho, -⟩
  · exact h k f ho
  · exact passed_subset h hsite k ho

/-- The facts about call sites that are not there yet. -/
def missing (E : Effects G) (s : MRGenerator N C) : Finset (Kind × C × ℕ) :=
  (({.ref, .mod} : Finset Kind) ×ˢ allSites G ×ˢ universe_ E).filter
    fun p => p.2.2 ∉ (s.effects p.1).csMap p.2.1

variable (scc) in
theorem missing_handleCall (h : Bounded E s) {g : N} (src : N) {cs : C} (hsite : Site G g cs)
    (hc : Changes E s g cs) :
    (missing E (handleCall E scc g src s cs)).card < (missing E s).card := by
  obtain ⟨hcs, -, -, -⟩ := handleCall_spec E scc s g src cs
  obtain ⟨k, hk⟩ := hc
  obtain ⟨o, ho, hno⟩ := not_subset.mp hk
  refine Finset.card_lt_card (Finset.ssubset_iff_of_subset ?_ |>.mpr ⟨(k, cs, o), ?_, ?_⟩)
  · intro p hp
    rw [missing, Finset.mem_filter] at hp ⊢
    exact ⟨hp.1, fun hold => hp.2 ((hcs p.1 p.2.1 p.2.2).mpr (.inl hold))⟩
  · rw [missing, Finset.mem_filter, Finset.mem_product, Finset.mem_product]
    refine ⟨⟨?_, hsite.mem_allSites, passed_subset h hsite k ho⟩, hno⟩
    cases k <;> simp
  · rw [missing, Finset.mem_filter]
    exact fun hp => hp.2 ((hcs k cs o).mpr (.inr ⟨rfl, ho⟩))

-- ── The call sites of one function

/-- The call sites of `g` with their callers, in the order of `modRefAnalysis`. -/
def sites (G : PTACallGraph N C) (g : N) : List (N × C) :=
  (G.inEdges g).flatMap fun e => e.calls.map fun cs => (e.srcID, cs)

omit [DecidableEq N] [DecidableEq C] in
theorem mem_sites {g src : N} {cs : C} :
    (src, cs) ∈ sites G g ↔ Site G g cs ∧ src = G.getCaller cs := by
  unfold sites Site
  rw [mem_flatMap]
  constructor
  · rintro ⟨e, he, hmem⟩
    obtain ⟨c, hc, heq⟩ := mem_map.mp hmem
    obtain ⟨rfl, rfl⟩ := Prod.mk.inj heq
    exact ⟨⟨e, he, hc⟩, (G.caller_eq g e he c hc).symm⟩
  · rintro ⟨⟨e, he, hc⟩, rfl⟩
    exact ⟨e, he, mem_map.mpr ⟨cs, hc, by rw [G.caller_eq g e he cs hc]⟩⟩

/-- `modRefAnalysis` is one loop over the call sites. -/
theorem modRefAnalysis_eq (s : MRGenerator N C) (g : N) : modRefAnalysis E scc s g =
      (sites G g).foldl (fun s p => handleCall E scc g p.1 s p.2) s := by
  unfold modRefAnalysis sites
  generalize G.inEdges g = es
  induction es generalizing s with
  | nil => rfl
  | cons e es ih =>
    rw [foldl_cons, ih, flatMap_cons, foldl_append, foldl_map]
    unfold PTACallGraphEdge.calls
    rw [foldl_append]

/-- In the middle of the round of `g`, begun in `s0`: nothing is lost, `g` itself keeps its
    effects, whatever is new in a function came through one of its call sites of `g`, and
    such a function is queued. -/
structure Round (E : Effects G) (scc : SCCDetection N) (g : N) (s₀ s : MRGenerator N C) :
    Prop where
  sound : Sound E scc s
  bounded : Bounded E s
  growFun : ∀ k f o, o ∈ (s₀.effects k).funMap f → o ∈ (s.effects k).funMap f
  growCs : ∀ k cs o, o ∈ (s₀.effects k).csMap cs → o ∈ (s.effects k).csMap cs
  source : ∀ k o, o ∈ (s.effects k).funMap g → o ∈ (s₀.effects k).funMap g
  fresh : ∀ k f o, o ∈ (s.effects k).funMap f → o ∈ (s₀.effects k).funMap f ∨
    (f ∈ s.worklist.den ∧ ∃ cs, Site G g cs ∧ G.getCaller cs = f ∧
      (G.isHeapAllocExtCall cs = false → o ∈ (s₀.effects k).funMap g))
  queue : s₀.worklist.den ⊆ s.worklist.den
  less : s = s₀ ∨ (missing E s).card < (missing E s₀).card

theorem Round.refl (g : N) (hs : Sound E scc s) (hb : Bounded E s) : Round E scc g s s where
  sound := hs
  bounded := hb
  growFun := fun _ _ _ h => h
  growCs := fun _ _ _ h => h
  source := fun _ _ h => h
  fresh := fun _ _ _ h => .inl h
  queue := subset_rfl
  less := .inl rfl

theorem Round.step {g : N} {s0 s : MRGenerator N C} (h : Round E scc g s0 s) {cs : C}
    (hsite : Site G g cs) : Round E scc g s0 (handleCall E scc g (G.getCaller cs) s cs) := by
  by_cases hc : Changes E s g cs
  · obtain ⟨hcs, hfun, hpush, -⟩ := handleCall_spec E scc s g (G.getCaller cs) cs
    have hden := hpush hc
    -- what an ordinary call site passes on was in `g` when the round began
    have hpassed : ∀ k o, o ∈ passed E s g cs k → G.isHeapAllocExtCall cs = false →
        o ∈ (s0.effects k).funMap g := by
      intro k o ho ha
      have ho' := (mem_passed.mp ho).1
      rw [calleeEffects_call k ha] at ho'
      exact h.source k o ho'
    constructor
    case sound => exact h.sound.handleCall _ hsite
    case bounded => exact h.bounded.handleCall _ hsite
    case growFun => exact fun k f o ho => (hfun k f o).mpr (.inl (h.growFun k f o ho))
    case growCs => exact fun k c o ho => (hcs k c o).mpr (.inl (h.growCs k c o ho))
    case source =>
      intro k o ho
      rcases (hfun k g o).mp ho with ho | ⟨hg, ho, -⟩
      · exact h.source k o ho
      · refine hpassed k o ho ?_
        by_contra ha
        have hext := hsite.ext_of_alloc (by simpa using ha)
        exact hsite.caller_not_ext (hg ▸ hext)
    case fresh =>
      intro k f o ho
      rw [hden, den_push]
      rcases (hfun k f o).mp ho with ho | ⟨rfl, ho, -⟩
      · rcases h.fresh k f o ho with ho | ⟨hq, hfrom⟩
        · exact .inl ho
        · exact .inr ⟨Set.mem_insert_of_mem _ hq, hfrom⟩
      · exact .inr ⟨Set.mem_insert _ _, cs, hsite, rfl, hpassed k o ho⟩
    case queue =>
      rw [hden, den_push]
      exact h.queue.trans (Set.subset_insert _ _)
    case less =>
      have hlt := missing_handleCall scc h.bounded (G.getCaller cs) hsite hc
      rcases h.less with rfl | hless
      · exact .inr hlt
      · exact .inr (hlt.trans hless)
  · rw [handleCall_unchanged h.sound _ hc]
    exact h

def SiteClosed (E : Effects G) (s : MRGenerator N C) (g : N) (cs : C) : Prop :=
  ∀ k o, o ∈ (s.effects k).funMap g → Reaches E k cs o → o ∈ (s.effects k).csMap cs

theorem siteClosed_handleCall {g : N} {s0 s : MRGenerator N C} (h : Round E scc g s0 s)
    {cs : C} (hsite : Site G g cs) :
    SiteClosed E (handleCall E scc g (G.getCaller cs) s cs) g cs := by
  intro k o ho hreach
  have hcs := (handleCall_spec E scc s g (G.getCaller cs) cs).1
  have ho' := h.growFun k g o ((h.step hsite).source k o ho)
  refine (hcs k cs o).mpr (.inr ⟨rfl, mem_passed.mpr ⟨?_, hreach⟩⟩)
  cases ha : G.isHeapAllocExtCall cs with
  | false =>
    rw [calleeEffects_call k ha]
    exact ho'
  | true =>
    rw [h.sound.ext g (hsite.ext_of_alloc ha) k] at ho'
    exact absurd ho' (notMem_empty o)

/-- **The round of one function**: it is a round, and closes all call sites of the function. -/
theorem modRefAnalysis_spec (hs : Sound E scc s) (hb : Bounded E s) (g : N)
    : Round E scc g s (modRefAnalysis E scc s g) ∧
      ∀ cs, Site G g cs → SiteClosed E (modRefAnalysis E scc s g) g cs := by
  rw [modRefAnalysis_eq]
  suffices hloop : ∀ (l : List (N × C)) (t : MRGenerator N C), (∀ p ∈ l, p ∈ sites G g) →
      Round E scc g s t →
      Round E scc g s (l.foldl (fun s p => handleCall E scc g p.1 s p.2) t) ∧
      (∀ cs, SiteClosed E t g cs →
        SiteClosed E (l.foldl (fun s p => handleCall E scc g p.1 s p.2) t) g cs) ∧
      ∀ p ∈ l, SiteClosed E (l.foldl (fun s p => handleCall E scc g p.1 s p.2) t) g p.2 by
    obtain ⟨hround, -, hclosed⟩ := hloop (sites G g) s (fun _ hp => hp) (Round.refl g hs hb)
    exact ⟨hround, fun cs hcs => hclosed (G.getCaller cs, cs) (mem_sites.mpr ⟨hcs, rfl⟩)⟩
  intro l
  induction l with
  | nil => exact fun t _ ht => ⟨ht, fun _ h => h, nofun⟩
  | cons p l ih =>
    intro t hl ht
    obtain ⟨src, cs⟩ := p
    obtain ⟨hsite, rfl⟩ := mem_sites.mp (hl (src, cs) mem_cons_self)
    have ht' := ht.step hsite
    obtain ⟨hround, hkeep, hclosed⟩ := ih _ (forall_mem_cons.mp hl).2 ht'
    refine ⟨hround, fun c hc => hkeep c ?_, fun p hp => ?_⟩
    · -- a closed call site stays closed: `g` keeps its effects, and nothing is lost
      intro k o ho hreach
      have hold := hc k o (ht.growFun k g o (ht'.source k o ho)) hreach
      exact ((handleCall_spec E scc t g (G.getCaller cs) cs).1 k c o).mpr (.inl hold)
    · rcases mem_cons.mp hp with rfl | hp
      · exact hkeep cs (siteClosed_handleCall ht hsite)
      · exact hclosed p hp

-- ── One item of the worklist, and the whole loop

/-- The functions that the item `d` is expanded to. -/
def members (G : PTACallGraph N C) (scc : SCCDetection N) (d : N) : List N :=
  G.nodes.filter (fun n => n ∈ scc.subNodes d)

/-- The item without its turn. -/
def popped (s : MRGenerator N C) (worklist : FIFOWorkList N) : MRGenerator N C :=
  { s with worklist := worklist }

/-- A run over several functions keeps the maps in order, and either changes nothing or
    finds a missing fact. -/
theorem processMembers_base (xs : List N) : ∀ s : MRGenerator N C, Sound E scc s → Bounded E s →
    Sound E scc (xs.foldl (modRefAnalysis E scc) s) ∧
    Bounded E (xs.foldl (modRefAnalysis E scc) s) ∧
    (xs.foldl (modRefAnalysis E scc) s = s ∨
      (missing E (xs.foldl (modRefAnalysis E scc) s)).card < (missing E s).card) := by
  induction xs with
  | nil => exact fun s hs hb => ⟨hs, hb, .inl rfl⟩
  | cons x xs ih =>
    intro s hs hb
    obtain ⟨hround, -⟩ := modRefAnalysis_spec hs hb x
    obtain ⟨hs', hb', hless⟩ := ih _ hround.sound hround.bounded
    rw [foldl_cons]
    refine ⟨hs', hb', ?_⟩
    rcases hround.less with heq | hlt
    · rw [heq] at hless ⊢
      exact hless
    · rcases hless with heq | hlt'
      · exact .inr (by rw [heq]; exact hlt)
      · exact .inr (hlt'.trans hlt)

/-- The missing facts weigh more than a full worklist. -/
def todo (E : Effects G) (s : MRGenerator N C) : Nat :=
  (missing E s).card * (G.nodes.length + 1) + s.worklist.dataList.length

omit [DecidableEq C] in
theorem length_worklist_le (w : FIFOWorkList N) : w.dataList.length ≤ G.nodes.length :=
  (w.nodup.subperm fun n _ => G.nodes_all n).length_le

theorem processItem_spec (hs : Sound E scc s) (hb : Bounded E s) {d : N} {rest : List N}
    (hw : s.worklist.dataList = d :: rest) :
    ∃ w, w.dataList = rest ∧ s.worklist.pop = some (d, w) ∧ processItem E scc s =
        some ((members G scc d).foldl (modRefAnalysis E scc) (popped s w)) ∧
      Sound E scc (popped s w) ∧ Bounded E (popped s w) ∧
      todo E ((members G scc d).foldl (modRefAnalysis E scc) (popped s w)) < todo E s := by
  obtain ⟨w, hpop, hrest⟩ := pop_cons hw
  have hs' : Sound E scc (popped s w) := ⟨hs.caller, hs.ext⟩
  obtain ⟨-, -, hless⟩ := processMembers_base (members G scc d) (popped s w) hs' hb
  refine ⟨w, hrest, hpop, ?_, hs', hb, ?_⟩
  · simp only [processItem, hpop, members, popped]
  · have hlen : s.worklist.dataList.length = rest.length + 1 := by rw [hw, length_cons]
    rcases hless with heq | hlt
    · rw [heq]
      show (missing E s).card * _ + w.dataList.length < _
      unfold todo
      rw [hrest, hlen]
      omega
    · have hle := length_worklist_le (G := G)
        ((members G scc d).foldl (modRefAnalysis E scc) (popped s w)).worklist
      have hlt' : (missing E ((members G scc d).foldl (modRefAnalysis E scc)
          (popped s w))).card + 1 ≤ (missing E s).card := hlt
      have hmul := Nat.mul_le_mul_right (G.nodes.length + 1) hlt'
      unfold todo
      rw [Nat.add_mul, Nat.one_mul] at hmul
      omega

/-- **The run rule.** The loop stops, and an invariant of the items holds at its end, where
    the worklist is empty. -/
theorem collect_total {I : MRGenerator N C → Prop} {s0 : MRGenerator N C}
    (hs : Sound E scc (getCallGraphSCCRevTopoOrder scc s0))
    (hb : Bounded E (getCallGraphSCCRevTopoOrder scc s0))
    (hI : I (getCallGraphSCCRevTopoOrder scc s0))
    (hitem : ∀ s d w rest, Sound E scc s → Bounded E s → I s →
      s.worklist.dataList = d :: rest → w.dataList = rest →
      I ((members G scc d).foldl (modRefAnalysis E scc) (popped s w))) :
    ∃ t, Stops (collectModRefForCall E scc s0) t ∧ Sound E scc t ∧ I t ∧
      t.worklist.dataList = [] := by
  have hbody : ∀ s, (Sound E scc s ∧ Bounded E s ∧ I s) → (!s.worklist.isEmpty) →
      ∃ s', processItem E scc s = some s' ∧ (Sound E scc s' ∧ Bounded E s' ∧ I s') ∧
        todo E s' < todo E s := by
    rintro s ⟨hs, hb, hI⟩ hne
    cases hw : s.worklist.dataList with
    | nil => exact absurd hne (by simp [FIFOWorkList.isEmpty, hw])
    | cons d rest =>
      obtain ⟨w, hrest, -, hrun, hs', hb', hless⟩ := processItem_spec hs hb hw
      obtain ⟨hs'', hb'', -⟩ := processMembers_base (members G scc d) (popped s w) hs' hb'
      exact ⟨_, hrun, ⟨hs'', hb'', hitem s d w rest hs hb hI hw hrest⟩, hless⟩
  obtain ⟨t, hstops, ⟨hst, -, hIt⟩, hempty⟩ := whileM_total hbody ⟨hs, hb, hI⟩
  refine ⟨t, hstops, hst, hIt, isEmpty_iff.mp ?_⟩
  exact (Bool.not_eq_false' _).mp hempty

-- ── Where the loop starts

variable (E scc) in
omit [DecidableEq C] in
theorem loadStore_spec (k : Kind) (l : List N) (m : SideEffects N C) :
    (∀ f o, o ∈ (l.foldl (fun m f => addSideEffectOfFunction E scc m f (E.direct k f)) m).funMap f
      ↔ o ∈ m.funMap f ∨ (f ∈ l ∧ o ∈ E.direct k f ∧ isNonLocalObject E scc o f)) ∧
    (l.foldl (fun m f => addSideEffectOfFunction E scc m f (E.direct k f)) m).csMap = m.csMap := by
  induction l generalizing m with
  | nil => simp
  | cons g l ih =>
    obtain ⟨hfun, hcs⟩ := ih (addSideEffectOfFunction E scc m g (E.direct k g))
    rw [foldl_cons]
    refine ⟨fun f o => ?_, hcs⟩
    rw [hfun, mem_cons]
    unfold addSideEffectOfFunction
    by_cases hf : f = g
    · subst hf
      simp only [Function.update_self, Finset.mem_union, Finset.mem_filter]
      tauto
    · simp only [Function.update_of_ne hf]
      tauto

omit [DecidableEq C] in
/-- The loop starts with the direct effects that are not local, nothing at the call sites,
    and the topological stack as its worklist. -/
theorem start_spec (E : Effects G) (scc : SCCDetection N) (hT : scc.T.Nodup) :
    (∀ k f o, o ∈ ((getCallGraphSCCRevTopoOrder scc
        (collectModRefForLoadStore E scc)).effects k).funMap f ↔
      o ∈ E.direct k f ∧ isNonLocalObject E scc o f) ∧
    (∀ k cs, ((getCallGraphSCCRevTopoOrder scc
      (collectModRefForLoadStore E scc)).effects k).csMap cs = ∅) ∧
    (getCallGraphSCCRevTopoOrder scc
      (collectModRefForLoadStore E scc)).worklist.dataList = scc.T := by
  have hload := fun k => loadStore_spec E scc k G.nodes
    { funMap := fun _ => ∅, csMap := fun _ => ∅ }
  refine ⟨fun k f o => ?_, fun k cs => ?_, ?_⟩
  · refine ((hload k).1 f o).trans ?_
    constructor
    · rintro (h | h)
      · exact absurd h (notMem_empty o)
      · exact h.2
    · exact fun h => .inr ⟨G.nodes_all f, h⟩
  · exact congrFun (hload k).2 cs
  · exact FIFOWorkList.dataList_pushAll scc.T FIFOWorkList.empty hT

theorem start_sound (E : Effects G) (scc : SCCDetection N) (hT : scc.T.Nodup) :
    Sound E scc (getCallGraphSCCRevTopoOrder scc (collectModRefForLoadStore E scc)) ∧
    Bounded E (getCallGraphSCCRevTopoOrder scc (collectModRefForLoadStore E scc)) := by
  obtain ⟨hfun, hcs, -⟩ := start_spec E scc hT
  refine ⟨⟨?_, ?_⟩, ?_⟩
  · intro k cs o ho
    rw [hcs] at ho
    exact absurd ho (notMem_empty o)
  · intro g hext k
    refine Finset.eq_empty_of_forall_notMem fun o ho => ?_
    have hdirect := ((hfun k g o).mp ho).1
    rw [E.ext_pure g hext k] at hdirect
    exact absurd hdirect (notMem_empty o)
  · intro k f o ho
    have hdirect := ((hfun k f o).mp ho).1
    refine Finset.mem_union_left _ (Finset.mem_biUnion.mpr ⟨f, ?_, ?_⟩)
    · exact mem_toFinset.mpr (G.nodes_all f)
    · cases k with
      | ref => exact Finset.mem_union_left _ hdirect
      | mod => exact Finset.mem_union_right _ hdirect

-- ── The law, and the calls that are heard

/-- The summaries are closed: what is in a callee and can reach a call site is in the call
    site and, unless local there, in the caller. -/
def SummariesClosed (E : Effects G) (scc : SCCDetection N) (s : MRGenerator N C) : Prop :=
  ∀ g cs, Site G g cs → ∀ k o, o ∈ (s.effects k).funMap g → Reaches E k cs o →
    o ∈ (s.effects k).csMap cs ∧
    (isNonLocalObject E scc o (G.getCaller cs) = true →
      o ∈ (s.effects k).funMap (G.getCaller cs))

/-- The call of `g` at `cs` is heard: a change of the caller is not lost, because the caller
    is its component's representative or calls itself, or comes after `g` in the round of
    their component, or because what `g` passes on is nothing or goes to every call site of
    the caller from `g` itself. -/
def Heard (G : PTACallGraph N C) (scc : SCCDetection N) (g : N) (cs : C) : Prop :=
  scc.repNode (G.getCaller cs) = G.getCaller cs ∨ g = G.getCaller cs ∨
    ([g, G.getCaller cs].Sublist G.nodes ∧ scc.repNode g = scc.repNode (G.getCaller cs)) ∨
    (G.isHeapAllocExtCall cs = false ∧
      (G.isExtFun g = true ∨ ∀ c, Site G (G.getCaller cs) c → Site G g c))

def AllHeard (G : PTACallGraph N C) (scc : SCCDetection N) : Prop :=
  ∀ g cs, Site G g cs → Heard G scc g cs

def FunClosed (E : Effects G) (s : MRGenerator N C) (g : N) : Prop :=
  ∀ cs, Site G g cs → SiteClosed E s g cs

/-- A round of another function keeps `f` closed unless it brings `f` something. -/
theorem Round.funClosed {x f : N} {s0 s : MRGenerator N C} (h : Round E scc x s0 s)
    (hsame : ∀ k o, o ∈ (s.effects k).funMap f → o ∈ (s0.effects k).funMap f)
    (hf : FunClosed E s0 f) : FunClosed E s f :=
  fun cs hcs k o ho hreach => h.growCs k cs o (hf cs hcs k o (hsame k o ho) hreach)

omit [DecidableEq N] in
/-- In a list without repetitions, what comes after `x` comes after `x`. -/
theorem mem_of_pair_sublist {x f : N} {pre xs : List N} (hnd : (pre ++ x :: xs).Nodup)
    (h : [x, f].Sublist (pre ++ x :: xs)) : f ∈ xs := by
  obtain ⟨-, hcons, hdisj⟩ := nodup_append.mp hnd
  have hxs : x ∉ xs := (nodup_cons.mp hcons).1
  have hpre : x ∉ pre := fun hm => hdisj x hm x mem_cons_self rfl
  obtain ⟨l1, l2, heq, h1, h2⟩ := sublist_append_iff.mp h
  cases l1 with
  | cons y l1 =>
    obtain ⟨rfl, -⟩ := List.cons.inj heq
    exact absurd (h1.subset mem_cons_self) hpre
  | nil =>
    rw [nil_append] at heq
    rw [← heq] at h2
    cases h2 with
    | cons _ h2 => exact absurd (h2.subset mem_cons_self) hxs
    | cons_cons _ h2 => exact h2.subset mem_cons_self

omit [DecidableEq C] in
theorem pair_sublist_members {d x f : N} (hx : x ∈ members G scc d) (hf : f ∈ members G scc d)
    (horder : [x, f].Sublist G.nodes) : [x, f].Sublist (members G scc d) := by
  have hfilter := horder.filter (fun n => n ∈ scc.subNodes d)
  have hx' := (mem_filter.mp hx).2
  have hf' := (mem_filter.mp hf).2
  have hpair : [x, f].filter (fun n => decide (n ∈ scc.subNodes d)) = [x, f] := by
    simp only [filter_cons, hx', hf', if_true, filter_nil]
  rwa [hpair] at hfilter

omit [DecidableEq C] in
theorem mem_members {d x : N} (hscc : SCCDetection.Components G.scc scc) :
    x ∈ members G scc d ↔ scc.repNode d = d ∧ scc.repNode x = d := by
  unfold members
  rw [mem_filter]
  by_cases hd : scc.repNode d = d
  · rw [decide_eq_true_iff, hscc.sub_rep d x hd, ← hscc.same_rep x d, hd]
    exact ⟨fun h => ⟨rfl, h.2⟩, fun h => ⟨G.nodes_all x, h.2⟩⟩
  · rw [decide_eq_true_iff, hscc.sub_other d hd]
    exact ⟨fun h => absurd h.2 (notMem_empty x), fun h => absurd h.1 hd⟩

section Heard

variable (hscc : SCCDetection.Components G.scc scc) (hheard : AllHeard G scc)
include hscc hheard

/-- After the round of `x`, a function whose turn is over is closed or its representative is
    queued. -/
theorem round_funClosed {d x : N} {pre xs : List N} (hmem : members G scc d = pre ++ x :: xs)
    {s : MRGenerator N C} (hs : Sound E scc s) (hb : Bounded E s) {f : N}
    (hf : FunClosed E s f ∨ scc.repNode f ∈ s.worklist.den ∨ f ∈ x :: xs) :
    FunClosed E (modRefAnalysis E scc s x) f ∨
      scc.repNode f ∈ (modRefAnalysis E scc s x).worklist.den ∨ f ∈ xs := by
  obtain ⟨hround, hclosed⟩ := modRefAnalysis_spec hs hb x
  by_cases hfx : f = x
  · exact .inl (hfx ▸ hclosed)
  · rcases hf with hf | hq | hf
    rotate_left
    · exact .inr (.inl (hround.queue hq))
    · exact .inr (.inr ((mem_cons.mp hf).resolve_left hfx))
    by_cases hrep : scc.repNode f = f
    · -- a representative that has got something new has been queued itself
      by_cases hnew : ∀ k o, o ∈ ((modRefAnalysis E scc s x).effects k).funMap f →
          o ∈ (s.effects k).funMap f
      · exact .inl (hround.funClosed hnew hf)
      · refine .inr (.inl ?_)
        rw [hrep]
        by_contra hq
        exact hnew fun k o ho => (hround.fresh k f o ho).resolve_right (fun h => hq h.1)
    by_cases hlater : [x, f].Sublist G.nodes ∧ scc.repNode x = scc.repNode f
    · -- its turn is still to come
      have hx : x ∈ members G scc d := by
        rw [hmem]
        exact mem_append_right _ mem_cons_self
      have hxd := (mem_members hscc).mp hx
      have hfd : f ∈ members G scc d := (mem_members hscc).mpr ⟨hxd.1, hlater.2.symm.trans hxd.2⟩
      have hsub := pair_sublist_members hx hfd hlater.1
      rw [hmem] at hsub
      refine .inr (.inr (mem_of_pair_sublist ?_ hsub))
      rw [← hmem]
      exact G.nodes_nodup.filter _
    · -- what is new came from `x`, which has passed it on to every call site of `f`
      refine .inl fun c hc k o ho hreach => ?_
      rcases hround.fresh k f o ho with hold | ⟨-, cs, hsite, rfl, hfrom⟩
      · exact hround.growCs k c o (hf c hc k o hold hreach)
      · rcases hheard x cs hsite with h | h | h | ⟨halloc, hext | hall⟩
        · exact absurd h hrep
        · exact absurd h.symm hfx
        · exact absurd h hlater
        · have hox := hfrom halloc
          rw [hs.ext x hext k] at hox
          exact absurd hox (notMem_empty o)
        · exact hclosed c (hall c hc) k o (hround.growFun k x o (hfrom halloc)) hreach

theorem members_funClosed {d : N} (xs : List N) : ∀ (pre : List N) (s : MRGenerator N C),
    members G scc d = pre ++ xs → Sound E scc s → Bounded E s →
    (∀ f, FunClosed E s f ∨ scc.repNode f ∈ s.worklist.den ∨ f ∈ xs) →
    ∀ f, FunClosed E (xs.foldl (modRefAnalysis E scc) s) f ∨
      scc.repNode f ∈ (xs.foldl (modRefAnalysis E scc) s).worklist.den := by
  induction xs with
  | nil =>
    intro pre s _ _ _ h f
    exact (h f).imp_right (fun h => h.resolve_right not_mem_nil)
  | cons x xs ih =>
    intro pre s hmem hs hb h
    obtain ⟨hround, -⟩ := modRefAnalysis_spec hs hb x
    refine ih (pre ++ [x]) _ ?_ hround.sound hround.bounded ?_
    · rw [hmem, append_assoc, singleton_append]
    · exact fun f => round_funClosed hscc hheard hmem hs hb (h f)

/-- **If every call is heard, the summaries are closed**, whatever the effects. -/
theorem collect_closed (E : Effects G) :
    ∃ t, Stops (collectModRefForCall E scc (collectModRefForLoadStore E scc)) t ∧
      SummariesClosed E scc t := by
  obtain ⟨hs, hb⟩ := start_sound E scc hscc.nodup_T
  obtain ⟨-, -, hT⟩ := start_spec E scc hscc.nodup_T
  have hstart : ∀ f, FunClosed E (getCallGraphSCCRevTopoOrder scc
      (collectModRefForLoadStore E scc)) f ∨ scc.repNode f ∈
        (getCallGraphSCCRevTopoOrder scc (collectModRefForLoadStore E scc)).worklist.den := by
    intro f
    refine .inr ?_
    show scc.repNode f ∈ (getCallGraphSCCRevTopoOrder scc _).worklist.dataList
    rw [hT, hscc.mem_T]
    exact hscc.rep_rep f
  have hitem : ∀ s d w rest, Sound E scc s → Bounded E s →
      (∀ f, FunClosed E s f ∨ scc.repNode f ∈ s.worklist.den) →
      s.worklist.dataList = d :: rest → w.dataList = rest →
      ∀ f, FunClosed E ((members G scc d).foldl (modRefAnalysis E scc) (popped s w)) f ∨
        scc.repNode f ∈
          ((members G scc d).foldl (modRefAnalysis E scc) (popped s w)).worklist.den := by
    intro s d w rest hs' hb' hI hw hrest
    refine members_funClosed hscc hheard (members G scc d) [] (popped s w)
      (nil_append _).symm ⟨hs'.caller, hs'.ext⟩ hb' fun f => ?_
    rcases hI f with hf | hq
    · exact .inl hf
    · have hq' : scc.repNode f ∈ s.worklist.dataList := hq
      rw [hw] at hq'
      rcases mem_cons.mp hq' with hd | hq'
      · refine .inr (.inr ((mem_members hscc).mpr ⟨?_, hd⟩))
        rw [← hd]
        exact hscc.rep_rep f
      · refine .inr (.inl ?_)
        show scc.repNode f ∈ w.dataList
        rw [hrest]
        exact hq'
  obtain ⟨t, hstops, hst, hI, hempty⟩ := collect_total hs hb hstart hitem
  refine ⟨t, hstops, fun g cs hsite k o ho hreach => ?_⟩
  have hclosed : FunClosed E t g := (hI g).resolve_right (by
    intro hq
    have hq' : scc.repNode g ∈ t.worklist.dataList := hq
    rw [hempty] at hq'
    exact absurd hq' not_mem_nil)
  have hcs := hclosed cs hsite k o ho hreach
  exact ⟨hcs, hst.caller k cs o hcs⟩

end Heard

-- ── A call that is not heard

/-- The call of `g` at `cs` is not heard, and `cs'` is a call site of its caller that will
    miss what comes in at `cs`. -/
structure Unheard (G : PTACallGraph N C) (scc : SCCDetection N) (g : N) (cs cs' : C) :
    Prop where
  site : Site G g cs
  missing : Site G (G.getCaller cs) cs'
  notRep : scc.repNode (G.getCaller cs) ≠ G.getCaller cs
  other : g ≠ G.getCaller cs
  early : ¬ ([g, G.getCaller cs].Sublist G.nodes ∧ scc.repNode g = scc.repNode (G.getCaller cs))
  apart : G.isHeapAllocExtCall cs = true ∨
    (G.isHeapAllocExtCall cs = false ∧ G.isExtFun g = false ∧ ¬ Site G g cs')

omit [DecidableEq N] [DecidableEq C] in
theorem exists_site (hscc : SCCDetection.Components G.scc scc) {f : N}
    (hf : scc.repNode f ≠ f) : ∃ cs, Site G f cs := by
  have hmutual := (hscc.same_rep f (scc.repNode f)).mp (hscc.rep_rep f).symm
  rcases Relation.ReflTransGen.cases_tail hmutual.2 with heq | ⟨k, -, hk⟩
  · exact absurd heq.symm hf
  · obtain ⟨e, he, -⟩ := (G.callees_iff k f).mp hk
    obtain ⟨cs, hcs⟩ := exists_mem_of_ne_nil _ (G.calls_ne f e he)
    exact ⟨cs, e, he, hcs⟩

omit [DecidableEq N] [DecidableEq C] in
theorem exists_unheard (hscc : SCCDetection.Components G.scc scc) (h : ¬ AllHeard G scc) :
    ∃ g cs cs', Unheard G scc g cs cs' := by
  unfold AllHeard Heard at h
  push Not at h
  obtain ⟨g, cs, hsite, hrep, hne, hearly, hpass⟩ := h
  obtain ⟨c, hc⟩ := exists_site hscc hrep
  cases ha : G.isHeapAllocExtCall cs with
  | true => exact ⟨g, cs, c, hsite, hc, hrep, hne, fun h => hearly h.1 h.2, .inl ha⟩
  | false =>
    obtain ⟨hext, c', hc', hn⟩ := hpass ha
    exact ⟨g, cs, c', hsite, hc', hrep, hne, fun h => hearly h.1 h.2,
      .inr ⟨ha, by simpa using hext, hn⟩⟩

/-- One heap object, created at `cs` if that allocates and modified by `g` otherwise, which
    the arguments of `cs` and `cs'` reach; and nothing else. -/
def oneEffect (G : PTACallGraph N C) (g : N) (cs cs' : C) : Effects G where
  getObject := fun _ => { isGlobalObj := false, isHeap := true, isStack := false, function := none }
  direct := fun k x =>
    if k = .mod ∧ x = g ∧ G.isHeapAllocExtCall cs = false ∧ G.isExtFun g = false then {0} else ∅
  heapObjs := fun c => if c = cs then {0} else ∅
  argsPts := fun c => if c = cs ∨ c = cs' then {0} else ∅
  retPts := fun _ => ∅
  allGlobals := ∅
  ext_pure := by
    intro x hext k
    rw [if_neg]
    rintro ⟨-, rfl, -, hno⟩
    rw [hno] at hext
    cases hext

section Unheard

variable {g : N} {cs cs' : C} (hun : Unheard G scc g cs cs')

/-- The functions whose round brings the object to `cs`. -/
def Brings (G : PTACallGraph N C) (g : N) (cs : C) (x : N) : Prop :=
  Site G x cs ∧ (G.isHeapAllocExtCall cs = true ∨ x = g)

variable {c : C} {x : N} {s : MRGenerator N C}

theorem nonLocal_oneEffect (o : ℕ) (x : N) : isNonLocalObject (oneEffect G g cs cs') scc o x := rfl

theorem reaches_oneEffect {k : Kind} {o : ℕ} :
    Reaches (oneEffect G g cs cs') k c o ↔ o = 0 ∧ (c = cs ∨ c = cs') := by
  unfold Reaches
  by_cases hc : c = cs ∨ c = cs'
  · cases k <;> simp [callSitePts, oneEffect, hc]
  · cases k <;> simp [callSitePts, oneEffect, hc]

include hun

section

omit [DecidableEq N] [DecidableEq C]

/-- Neither `cs'` allocates, nor is it `cs`. -/
theorem Unheard.not_alloc : G.isHeapAllocExtCall cs' = false ∧ cs' ≠ cs := by
  have hext := hun.site.caller_not_ext
  have halloc : G.isHeapAllocExtCall cs' = false := by
    by_contra ha
    exact hext (hun.missing.ext_of_alloc (by simpa using ha))
  refine ⟨halloc, ?_⟩
  rintro rfl
  rcases hun.apart with ha | ⟨-, -, hn⟩
  · rw [halloc] at ha
    cases ha
  · exact hn hun.site

theorem Unheard.brings_ne (hx : Brings G g cs x) : x ≠ G.getCaller cs := by
  rcases hx.2 with ha | rfl
  · rintro rfl
    exact hun.site.caller_not_ext (hx.1.ext_of_alloc ha)
  · exact hun.other

theorem Unheard.brings_early (hscc : SCCDetection.Components G.scc scc) (hx : Brings G g cs x) :
    ¬ ([x, G.getCaller cs].Sublist G.nodes ∧ scc.repNode x = scc.repNode (G.getCaller cs)) := by
  rcases hx.2 with ha | rfl
  · -- an allocator calls nothing, so it is not in a component with its caller
    rintro ⟨-, hsame⟩
    have hmutual := ((hscc.same_rep _ _).mp hsame).1
    rcases Relation.ReflTransGen.cases_head hmutual with heq | ⟨y, hy, -⟩
    · exact hun.brings_ne hx heq
    · have hnil := G.ext_calls x (hx.1.ext_of_alloc ha)
      have hy' : y ∈ G.callees x := hy
      rw [hnil] at hy'
      cases hy'
  · exact hun.early

end

/-- What can pass at a call site: at `cs` in a round that brings the object, or at the
    sites of the caller once it has the object. -/
theorem Unheard.passes (hfun : ∀ k x o, o ∈ (s.effects k).funMap x →
      k = .mod ∧ (x = G.getCaller cs ∨ (x = g ∧ G.isHeapAllocExtCall cs = false)))
    (hsite : Site G x c) (hx : x ≠ G.getCaller cs) {k : Kind} {o : ℕ}
    (ho : o ∈ passed (oneEffect G g cs cs') s x c k) :
    k = .mod ∧ o = 0 ∧ c = cs ∧ Brings G g cs x := by
  obtain ⟨hfrom, hreach⟩ := mem_passed.mp ho
  obtain ⟨rfl, hc⟩ := reaches_oneEffect.mp hreach
  cases ha : G.isHeapAllocExtCall c with
  | true =>
    cases k with
    | ref => simp [calleeEffects, ha] at hfrom
    | mod =>
      have hcs : c = cs := by
        by_contra hne
        simp [calleeEffects, ha, oneEffect, hne] at hfrom
      subst hcs
      exact ⟨rfl, rfl, rfl, hsite, .inl ha⟩
  | false =>
    rw [calleeEffects_call k ha] at hfrom
    obtain ⟨rfl, hxg⟩ := hfun k x 0 hfrom
    obtain ⟨rfl, halloc⟩ := hxg.resolve_left hx
    rcases hc with rfl | rfl
    · exact ⟨rfl, rfl, rfl, hsite, .inr rfl⟩
    · rcases hun.apart with h | ⟨-, -, hn⟩
      · rw [halloc] at h
        cases h
      · exact absurd hsite hn

/-- Before the object has been brought: the direct effects, and nothing at the call sites. -/
structure Quiet (G : PTACallGraph N C) (g : N) (cs cs' : C) (s : MRGenerator N C) : Prop where
  effects : ∀ k x o, o ∈ (s.effects k).funMap x ↔ o ∈ (oneEffect G g cs cs').direct k x
  csMap : ∀ k c, (s.effects k).csMap c = ∅

/-- Afterwards: the caller has the object, no call site but `cs` has, and no representative
    that would give the caller a turn is queued. -/
structure Lost (G : PTACallGraph N C) (scc : SCCDetection N) (g : N) (cs : C)
    (s : MRGenerator N C) : Prop where
  got : 0 ∈ (s.effects .mod).funMap (G.getCaller cs)
  there : 0 ∈ (s.effects .mod).csMap cs
  funMap : ∀ k x o, o ∈ (s.effects k).funMap x →
    k = .mod ∧ (x = G.getCaller cs ∨ (x = g ∧ G.isHeapAllocExtCall cs = false))
  csMap : ∀ k c o, o ∈ (s.effects k).csMap c → c = cs
  queue : scc.repNode (G.getCaller cs) ∉ s.worklist.den

omit hun in
theorem Quiet.funMap (h : Quiet G g cs cs' s) (k : Kind) (x : N) (o : ℕ)
    (ho : o ∈ (s.effects k).funMap x) :
    k = .mod ∧ x = g ∧ G.isHeapAllocExtCall cs = false := by
  rw [h.effects] at ho
  simp only [oneEffect] at ho
  split at ho
  · rename_i hc
    exact ⟨hc.1, hc.2.1, hc.2.2.1⟩
  · exact absurd ho (notMem_empty o)

theorem Quiet.unchanged (h : Quiet G g cs cs' s) (hsite : Site G x c)
    (hc : ¬ (c = cs ∧ Brings G g cs x)) :
    ¬ Changes (oneEffect G g cs cs') s x c := by
  rintro ⟨k, hk⟩
  obtain ⟨o, ho, -⟩ := not_subset.mp hk
  have hx : x ≠ G.getCaller cs := by
    rintro rfl
    cases ha : G.isHeapAllocExtCall c with
    | true => exact hun.site.caller_not_ext (hsite.ext_of_alloc ha)
    | false =>
      have hfrom := (mem_passed.mp ho).1
      rw [calleeEffects_call k ha] at hfrom
      exact hun.other (h.funMap k _ o hfrom).2.1.symm
  obtain ⟨-, -, hcs, hbr⟩ := hun.passes
    (fun k x o ho => ⟨(h.funMap k x o ho).1, .inr (h.funMap k x o ho).2⟩) hsite hx ho
  exact hc ⟨hcs, hbr⟩

theorem Lost.unchanged (h : Lost G scc g cs s) (hsite : Site G x c) (hx : x ≠ G.getCaller cs) :
    ¬ Changes (oneEffect G g cs cs') s x c := by
  rintro ⟨k, hk⟩
  obtain ⟨o, ho, hno⟩ := not_subset.mp hk
  obtain ⟨rfl, rfl, rfl, -⟩ := hun.passes h.funMap hsite hx ho
  exact hno h.there

theorem Quiet.bring (h : Quiet G g cs cs' s) (hx : Brings G g cs x)
    (hq : scc.repNode (G.getCaller cs) ∉ s.worklist.den) :
    Lost G scc g cs (handleCall (oneEffect G g cs cs') scc x (G.getCaller cs) s cs) := by
  obtain ⟨hcs, hfun, hpush, -⟩ := handleCall_spec (oneEffect G g cs cs') scc s x (G.getCaller cs) cs
  have hpassed : 0 ∈ passed (oneEffect G g cs cs') s x cs .mod := by
    refine mem_passed.mpr ⟨?_, reaches_oneEffect.mpr ⟨rfl, .inl rfl⟩⟩
    rcases hun.apart with ha | ⟨ha, hext, -⟩
    · simp [calleeEffects, ha, oneEffect]
    · rw [calleeEffects_call _ ha, h.effects]
      rcases hx.2 with ha' | rfl
      · rw [ha] at ha'
        cases ha'
      · simp [oneEffect, ha, hext]
  have hchanges : Changes (oneEffect G g cs cs') s x cs := by
    refine ⟨.mod, fun hss => ?_⟩
    have h0 := hss hpassed
    rw [h.csMap] at h0
    exact absurd h0 (notMem_empty 0)
  constructor
  case got => exact (hfun _ _ _).mpr (.inr ⟨rfl, hpassed, nonLocal_oneEffect 0 _⟩)
  case there => exact (hcs _ _ _).mpr (.inr ⟨rfl, hpassed⟩)
  case funMap =>
    intro k y o ho
    rcases (hfun k y o).mp ho with ho | ⟨rfl, ho, -⟩
    · exact ⟨(h.funMap k y o ho).1, .inr (h.funMap k y o ho).2⟩
    · exact ⟨(hun.passes (fun k x o ho => ⟨(h.funMap k x o ho).1, .inr (h.funMap k x o ho).2⟩)
        hx.1 (hun.brings_ne hx) ho).1, .inl rfl⟩
  case csMap =>
    intro k c o ho
    rcases (hcs k c o).mp ho with ho | ⟨rfl, -⟩
    · rw [h.csMap] at ho
      exact absurd ho (notMem_empty o)
    · rfl
  case queue =>
    rw [hpush hchanges, den_push]
    rintro (heq | hold)
    · exact hun.notRep heq
    · exact hq hold

-- ── Rounds, items and the run behind an unheard call

omit hun in
theorem foldl_fixed {A σ : Type} {step : σ → A → σ} {s : σ} (l : List A)
    (h : ∀ a ∈ l, step s a = s) : l.foldl step s = s := by
  induction l with
  | nil => rfl
  | cons a l ih =>
    rw [foldl_cons, h a mem_cons_self]
    exact ih (forall_mem_cons.mp h).2

theorem Lost.round (h : Lost G scc g cs s) (hs : Sound (oneEffect G g cs cs') scc s)
    (hx : x ≠ G.getCaller cs) :
    modRefAnalysis (oneEffect G g cs cs') scc s x = s := by
  rw [modRefAnalysis_eq]
  refine foldl_fixed _ fun p hp => ?_
  exact handleCall_unchanged hs p.1 (h.unchanged hun (mem_sites.mp hp).1 hx)

theorem Quiet.round (h : Quiet G g cs cs' s) (hs : Sound (oneEffect G g cs cs') scc s)
    (hbr : ¬ Brings G g cs x) :
    modRefAnalysis (oneEffect G g cs cs') scc s x = s := by
  rw [modRefAnalysis_eq]
  refine foldl_fixed _ fun p hp => ?_
  exact handleCall_unchanged hs p.1 (h.unchanged hun (mem_sites.mp hp).1 (fun hc => hbr hc.2))

theorem Quiet.round_brings (h : Quiet G g cs cs' s) (hs : Sound (oneEffect G g cs cs') scc s)
    (hx : Brings G g cs x) (hq : scc.repNode (G.getCaller cs) ∉ s.worklist.den) :
    Lost G scc g cs (modRefAnalysis (oneEffect G g cs cs') scc s x) := by
  rw [modRefAnalysis_eq]
  have hmem : (G.getCaller cs, cs) ∈ sites G x := mem_sites.mpr ⟨hx.1, rfl⟩
  have hsites : ∀ p ∈ sites G x, Site G x p.2 ∧ p.1 = G.getCaller p.2 := fun p hp => mem_sites.mp hp
  generalize sites G x = l at hmem hsites
  induction l with
  | nil => cases hmem
  | cons p l ih =>
    obtain ⟨src, c⟩ := p
    obtain ⟨hsite, hsrc⟩ := hsites (src, c) mem_cons_self
    simp only at hsite hsrc
    have hrest : ∀ p ∈ l, Site G x p.2 ∧ p.1 = G.getCaller p.2 := (forall_mem_cons.mp hsites).2
    rw [foldl_cons]
    by_cases hc : c = cs
    · -- the object comes in here; the remaining call sites change nothing
      subst hc
      subst hsrc
      have hlost := h.bring hun hx hq
      have hsound := hs.handleCall (G.getCaller c) hsite
      generalize handleCall (oneEffect G g c cs') scc x (G.getCaller c) s c = t at hlost hsound ⊢
      have hfixed : l.foldl (fun s p => handleCall (oneEffect G g c cs') scc x p.1 s p.2) t = t :=
        foldl_fixed l fun p hp => handleCall_unchanged hsound p.1
          (hlost.unchanged hun (hrest p hp).1 (hun.brings_ne hx))
      rw [hfixed]
      exact hlost
    · simp only
      rw [handleCall_unchanged hs src (h.unchanged hun hsite (fun hboth => hc hboth.1))]
      refine ih ((mem_cons.mp hmem).resolve_left ?_) hrest
      intro heq
      exact hc (Prod.mk.inj heq).2.symm

theorem Quiet.rounds (xs : List N) : ∀ s : MRGenerator N C, Quiet G g cs cs' s →
    Sound (oneEffect G g cs cs') scc s → Bounded (oneEffect G g cs cs') s →
    (∀ x ∈ xs, Brings G g cs x → scc.repNode (G.getCaller cs) ∉ s.worklist.den ∧
      ¬ [x, G.getCaller cs].Sublist xs) →
    ((∀ x ∈ xs, ¬ Brings G g cs x) ∧ xs.foldl (modRefAnalysis (oneEffect G g cs cs') scc) s = s) ∨
      Lost G scc g cs (xs.foldl (modRefAnalysis (oneEffect G g cs cs') scc) s) := by
  induction xs with
  | nil => exact fun s _ _ _ _ => .inl ⟨nofun, rfl⟩
  | cons x xs ih =>
    intro s h hs hb hxs
    rw [foldl_cons]
    by_cases hbr : Brings G g cs x
    · obtain ⟨hq, hsub⟩ := hxs x mem_cons_self hbr
      have hlost := h.round_brings hun hs hbr hq
      have hnot : G.getCaller cs ∉ xs := fun hm =>
        hsub (List.Sublist.cons_cons x (singleton_sublist.mpr hm))
      have hsound : Sound (oneEffect G g cs cs') scc
          (modRefAnalysis (oneEffect G g cs cs') scc s x) := (modRefAnalysis_spec hs hb x).1.sound
      generalize modRefAnalysis (oneEffect G g cs cs') scc s x = t at hlost hsound ⊢
      have hfixed : xs.foldl (modRefAnalysis (oneEffect G g cs cs') scc) t = t :=
        foldl_fixed xs fun y hy => hlost.round hun hsound (fun heq => hnot (heq ▸ hy))
      rw [hfixed]
      exact .inr hlost
    · rw [h.round hun hs hbr]
      have hrest : ∀ y ∈ xs, Brings G g cs y →
          scc.repNode (G.getCaller cs) ∉ s.worklist.den ∧ ¬ [y, G.getCaller cs].Sublist xs := by
        intro y hy hbr'
        obtain ⟨hq, hsub⟩ := hxs y (mem_cons_of_mem x hy) hbr'
        exact ⟨hq, fun hs' => hsub (hs'.cons x)⟩
      rcases ih s h hs hb hrest with ⟨hnone, hsame⟩ | hlost
      · refine .inl ⟨fun y hy => ?_, hsame⟩
        rcases mem_cons.mp hy with rfl | hy
        · exact hbr
        · exact hnone y hy
      · exact .inr hlost

/-- The run behind an unheard call: the worklist is still the rest of the topological stack
    and the object has not been brought, or it is lost. -/
def Behind (G : PTACallGraph N C) (scc : SCCDetection N) (g : N) (cs cs' : C)
    (s : MRGenerator N C) : Prop :=
  (Quiet G g cs cs' s ∧ ∃ done, done ++ s.worklist.dataList = scc.T ∧
    ∀ x, Brings G g cs x → scc.repNode x ∉ done) ∨ Lost G scc g cs s

section

variable (hscc : SCCDetection.Components G.scc scc)
include hscc

omit [DecidableEq C] in
theorem Unheard.item_late {done rest : List N} {d : N} (hT : done ++ d :: rest = scc.T)
    (hx : Brings G g cs x) (hmem : x ∈ members G scc d) :
    scc.repNode (G.getCaller cs) ∉ rest ∧ ¬ [x, G.getCaller cs].Sublist (members G scc d) := by
  obtain ⟨-, hxd⟩ := (mem_members hscc).mp hmem
  have hnd : (done ++ d :: rest).Nodup := hT ▸ hscc.nodup_T
  by_cases hsame : scc.repNode (G.getCaller cs) = d
  · rw [hsame]
    refine ⟨(nodup_cons.mp (nodup_append.mp hnd).2.1).1, fun hsub => ?_⟩
    exact hun.brings_early hscc hx ⟨hsub.trans filter_sublist, hxd.trans hsame.symm⟩
  · constructor
    · -- the stack has the caller's representative before the callee's
      intro hrest
      obtain ⟨p, q, hpq⟩ := append_of_mem hrest
      have hedge : SCCDetection.Edge G.scc (G.getCaller cs) x := hx.1.callee
      have hsub := hscc.topo _ _ hedge (fun heq => hsame (heq.trans hxd))
      rw [hxd, ← hT, hpq] at hsub
      have hnd' : ((done ++ d :: p) ++ scc.repNode (G.getCaller cs) :: q).Nodup := by
        rw [append_assoc, cons_append, ← hpq]
        exact hnd
      have hd : d ∈ q := mem_of_pair_sublist hnd' (by
        rw [append_assoc, cons_append]
        exact hsub)
      exact (nodup_append.mp hnd').2.2 d
        (mem_append_right _ mem_cons_self) d (mem_cons_of_mem _ hd) rfl
    · intro hsub
      have hf : G.getCaller cs ∈ members G scc d := hsub.subset (mem_cons_of_mem _ mem_cons_self)
      exact hsame ((mem_members hscc).mp hf).2

theorem Behind.item {d : N} {w : FIFOWorkList N} {rest : List N}
    (hs : Sound (oneEffect G g cs cs') scc s) (hb : Bounded (oneEffect G g cs cs') s)
    (h : Behind G scc g cs cs' s) (hw : s.worklist.dataList = d :: rest)
    (hrest : w.dataList = rest) :
    Behind G scc g cs cs'
      ((members G scc d).foldl (modRefAnalysis (oneEffect G g cs cs') scc) (popped s w)) := by
  have hs' : Sound (oneEffect G g cs cs') scc (popped s w) := ⟨hs.caller, hs.ext⟩
  rcases h with ⟨hquiet, done, hT, hdone⟩ | hlost
  · rw [hw] at hT
    have hquiet' : Quiet G g cs cs' (popped s w) := ⟨hquiet.effects, hquiet.csMap⟩
    have hlate : ∀ x ∈ members G scc d, Brings G g cs x →
        scc.repNode (G.getCaller cs) ∉ (popped s w).worklist.den ∧
          ¬ [x, G.getCaller cs].Sublist (members G scc d) := by
      intro x hx hbr
      obtain ⟨hq, hsub⟩ := hun.item_late hscc hT hbr hx
      refine ⟨fun hq' => hq ?_, hsub⟩
      have hq'' : scc.repNode (G.getCaller cs) ∈ w.dataList := hq'
      rwa [hrest] at hq''
    rcases Quiet.rounds hun (members G scc d) (popped s w) hquiet' hs' hb hlate with ⟨hnone, hsame⟩ | hlost
    · refine .inl ⟨hsame.symm ▸ hquiet', done ++ [d], ?_, fun x hx => ?_⟩
      · rw [hsame, append_assoc, singleton_append]
        show done ++ d :: w.dataList = scc.T
        rw [hrest, hT]
      · rw [mem_append, mem_singleton]
        rintro (hold | hd)
        · exact hdone x hx hold
        · refine hnone x ((mem_members hscc).mpr ⟨?_, hd⟩) hx
          rw [← hd]
          exact hscc.rep_rep x
    · exact .inr hlost
  · -- the caller's representative is not queued, so this is not the caller's round
    have hlost' : Lost G scc g cs (popped s w) := by
      refine ⟨hlost.got, hlost.there, hlost.funMap, hlost.csMap, fun hq => hlost.queue ?_⟩
      show scc.repNode (G.getCaller cs) ∈ s.worklist.dataList
      have hq' : scc.repNode (G.getCaller cs) ∈ w.dataList := hq
      rw [hw, ← hrest]
      exact mem_cons_of_mem d hq'
    refine .inr ?_
    have hfixed : (members G scc d).foldl (modRefAnalysis (oneEffect G g cs cs') scc)
        (popped s w) = popped s w := by
      refine foldl_fixed _ fun x hx => hlost'.round hun hs' ?_
      rintro rfl
      refine hlost.queue ?_
      show scc.repNode (G.getCaller cs) ∈ s.worklist.dataList
      rw [hw, ((mem_members hscc).mp hx).2]
      exact mem_cons_self
    rw [hfixed]
    exact hlost'

/-- **A call that is not heard loses an effect.** -/
theorem collect_not_closed :
    ∃ t, Stops (collectModRefForCall (oneEffect G g cs cs') scc
        (collectModRefForLoadStore (oneEffect G g cs cs') scc)) t ∧
      ¬ SummariesClosed (oneEffect G g cs cs') scc t := by
  obtain ⟨hs, hb⟩ := start_sound (oneEffect G g cs cs') scc hscc.nodup_T
  obtain ⟨hfun, hcs, hT⟩ := start_spec (oneEffect G g cs cs') scc hscc.nodup_T
  have hstart : Behind G scc g cs cs' (getCallGraphSCCRevTopoOrder scc
      (collectModRefForLoadStore (oneEffect G g cs cs') scc)) := by
    refine .inl ⟨⟨fun k x o => ?_, hcs⟩, [], ?_, fun x _ => not_mem_nil⟩
    · rw [hfun]
      exact and_iff_left (nonLocal_oneEffect o x)
    · rw [hT, nil_append]
  obtain ⟨t, hstops, -, hI, hempty⟩ := collect_total hs hb hstart
    (fun s d w rest hs' hb' hI hw hrest => hI.item hun hscc hs' hb' hw hrest)
  refine ⟨t, hstops, fun hclosed => ?_⟩
  rcases hI with ⟨-, done, hdone, hnone⟩ | hlost
  · -- the callee's representative has been on the stack
    rw [hempty, append_nil] at hdone
    have hbrings : Brings G g cs g := ⟨hun.site, .inr rfl⟩
    refine hnone g hbrings ?_
    rw [hdone, hscc.mem_T]
    exact hscc.rep_rep g
  · have hreach : Reaches (oneEffect G g cs cs') .mod cs' 0 := reaches_oneEffect.mpr ⟨rfl, .inr rfl⟩
    have hmem := (hclosed _ cs' hun.missing .mod 0 hlost.got hreach).1
    exact hun.not_alloc.2 (hlost.csMap .mod cs' 0 hmem)

end

end Unheard

/-- **The summaries are closed for every assignment of effects exactly if every call of the
    call graph is heard.** -/
theorem generateMRs_closed_iff (G : PTACallGraph N C) :
    ∃ scc, Stops (fun fuel => SCCDetection.find G.scc fuel) scc ∧
      ((∀ E : Effects G, ∃ t, Stops (generateMRs E) t ∧ SummariesClosed E scc t) ↔
        AllHeard G scc) := by
  obtain ⟨scc, hfind, hscc⟩ := SCCDetection.find_total G.scc
  have hrun : ∀ (E : Effects G) (t : MRGenerator N C),
      Stops (collectModRefForCall E scc (collectModRefForLoadStore E scc)) t →
      Stops (generateMRs E) t := fun E t ht => Stops.bind hfind ht
  refine ⟨scc, hfind, ?_⟩
  constructor
  · intro hall
    by_contra hheard
    obtain ⟨g, cs, cs', hun⟩ := exists_unheard hscc hheard
    obtain ⟨t, hstops, hclosed⟩ := hall (oneEffect G g cs cs')
    obtain ⟨t', hstops', hnot⟩ := collect_not_closed hun hscc
    rw [Stops.unique hstops (hrun _ t' hstops')] at hclosed
    exact hnot hclosed
  · intro hheard E
    obtain ⟨t, hstops, hclosed⟩ := collect_closed hscc hheard E
    exact ⟨t, hrun E t hstops, hclosed⟩

end Analysis

/-- Functions 0 and 1 call each other, 1 calls 2 and 3 calls 0; call site 0 is in function 0,
    call sites 1 and 2 are in function 1 and call site 3 is in function 3. -/
def mutualCalls : PTACallGraph (Fin 4) (Fin 4) where
  nodes := [0, 1, 2, 3]
  nodes_all := by decide
  nodes_nodup := by decide
  inEdges := fun g =>
    if g = 0 then [⟨1, [1], []⟩, ⟨3, [3], []⟩] else if g = 1 then [⟨0, [0], []⟩]
    else if g = 2 then [⟨1, [2], []⟩] else []
  callees := fun f => if f = 0 then [1] else if f = 1 then [0, 2] else if f = 3 then [0] else []
  getCaller := fun cs => if cs = 0 then 0 else if cs = 3 then 3 else 1
  isHeapAllocExtCall := fun _ => false
  isExtFun := fun _ => false
  callees_iff := by decide
  calls_ne := by decide
  caller_eq := by decide
  alloc_ext := by decide
  ext_calls := by decide

def writesThrough : Effects mutualCalls := oneEffect mutualCalls 2 2 0

/-- Function 1 gets the effect, but call site 0, which calls it, does not: 1 is not the
    representative of its component. -/
theorem generateMRs_not_closed :
    ∃ scc t, Stops (fun fuel => SCCDetection.find mutualCalls.scc fuel) scc ∧
      Stops (generateMRs writesThrough) t ∧ ¬ SummariesClosed writesThrough scc t := by
  obtain ⟨scc, hfind, hscc⟩ := SCCDetection.find_total mutualCalls.scc
  have hreps : (SCCDetection.find mutualCalls.scc 5).map (fun t => (t.repNode 1, t.repNode 2)) =
      some (0, 2) := by decide +kernel
  obtain ⟨t, ht, hrep⟩ := Option.map_eq_some_iff.mp hreps
  have heq : t = scc := Stops.unique (stops_of_succ SCCDetection.find_succ ht) hfind
  subst heq
  obtain ⟨h1, h2⟩ := Prod.mk.inj hrep
  have hcaller : mutualCalls.getCaller 2 = 1 := rfl
  have hun : Unheard mutualCalls t 2 2 0 := by
    constructor
    case site => exact ⟨⟨1, [2], []⟩, mem_cons_self, by decide⟩
    case missing => exact ⟨⟨0, [0], []⟩, mem_cons_self, by decide⟩
    case notRep =>
      rw [hcaller, h1]
      decide
    case other => decide
    case early =>
      rw [hcaller, h1, h2]
      exact fun h => absurd h.2 (by decide)
    case apart =>
      refine .inr ⟨rfl, rfl, ?_⟩
      rintro ⟨e, he, hcs⟩
      have hall : ∀ e ∈ mutualCalls.inEdges 2, (0 : Fin 4) ∉ e.calls := by decide
      exact hall e he hcs
  obtain ⟨u, hstops, hnot⟩ := collect_not_closed hun hscc
  exact ⟨t, u, hfind, Stops.bind hfind hstops, hnot⟩

end SvfModRef
