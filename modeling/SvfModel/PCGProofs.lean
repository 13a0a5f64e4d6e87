import SvfModel.SearchProofs
import SvfModel.ThreadCallGraphProofs

/-!
# Procedure-level parallelism

`PCG` answers whether two functions may run in parallel from three sets of functions: spawners
reach a fork, spawnees are reached from a forked routine, and followers may be called after a
spawner has been called. The sets come from worklists over the call graph and, for the first
followers, over the blocks after each spawn site.

The heart is `closure_total`: a worklist adds what its start reaches, except for functions
without a body. With it `analyze_total` says what the three sets are. They do not cover all that
a thread runs after a fork: a call site that spawns never gives followers, so a function that is
called early in a spawner, which runs again when the spawner is called again, is in none of
them (`mayHappenInParallel_misses_second_call`).
-/

set_option linter.unusedSectionVars false

namespace SvfPCG

open SvfLoop SvfWorkList SvfSearch SvfThreadCallGraph List
open FIFOWorkList (pushNew pushNew_foldl pushNew_foldl_card)
open Relation (ReflTransGen TransGen reflTransGen_swap)
open FIFOWorkList (dataList_pop den_of_isEmpty den_push pop_spec)

-- ── The module

/-- A thread call graph over functions `N` and instructions `I`, with the bodies of its
    functions in blocks `B`. Call sites lie in bodies, so only functions with a body call. -/
structure PCGModule (N B I : Type) extends ThreadCallGraph N I where
  getBasicBlockList : N → List B
  getInstructionList : B → List I
  getParent : I → B
  getSuccessors : B → List B
  isCallSite : I → Bool
  isTDFork : I → Bool
  getForkedFun : I → Option N
  isDeclaration : N → Bool
  entryInst : N → Option I
  succInsts : I → List I
  isRetInst : I → Bool
  progEntry : N
  bbs : List B
  bbs_all : ∀ b : B, b ∈ bbs
  list_in : ∀ f, ∀ b ∈ getBasicBlockList f, ∀ i ∈ getInstructionList b,
    getFunction i = f ∧ getParent i = b
  in_list : ∀ i, i ∈ getInstructionList (getParent i) ∧
    getParent i ∈ getBasicBlockList (getFunction i)
  caller_defined : ∀ e ∈ edges, isDeclaration e.srcID = false
  inst_defined : ∀ i, isDeclaration (getFunction i) = false
  entry_in : ∀ f, ∀ i ∈ entryInst f, getFunction i = f
  succ_in : ∀ i, ∀ j ∈ succInsts i, getFunction j = getFunction i

variable {N B I : Type} [DecidableEq N] [DecidableEq B] [DecidableEq I]

structure PCG (N I : Type) where
  spawners : List N
  spawnees : List N
  followers : List N
  spawnCallSites : List I

def PCG.mayHappenInParallelBetweenFunctions (s : PCG N I) (fun1 fun2 : N) : Bool :=
  if fun1 ∉ s.spawnees ∧ fun2 ∉ s.spawnees then false
  else if fun1 ∉ s.spawners ∧ fun1 ∉ s.spawnees ∧ fun1 ∉ s.followers then false
  else if fun2 ∉ s.spawners ∧ fun2 ∉ s.spawnees ∧ fun2 ∉ s.followers then false
  else true

namespace PCGModule

variable (M : PCGModule N B I)

def addFun (funs : List N) (f : N) : List N := if M.isDeclaration f then funs else funs.insert f

/-- `initFromThreadAPI` for one instruction. A routine that is not known is only warned about. -/
def initInst (func : N) (s : PCG N I) (inst : I) : PCG N I :=
  if M.isTDFork inst then
    match M.getForkedFun inst with
    | some svForkfun =>
      { s with
        spawnCallSites := s.spawnCallSites.insert inst
        spawners := s.spawners.insert func
        spawnees := s.spawnees.insert svForkfun }
    | none => s
  else s

def initFromThreadAPI : PCG N I :=
  M.nodes.foldl (fun s func => (M.getBasicBlockList func).foldl (fun s svfbb =>
    (M.getInstructionList svfbb).foldl (M.initInst func) s) s) ⟨[], [], [], []⟩

/-- The worklist of `collectSpawners`, `collectSpawnees` and `collectFollowers`, the set that
    it extends, and the spawn sites. -/
structure Closing (N I : Type) [DecidableEq N] where
  worklist : FIFOWorkList N
  funs : List N
  sites : List I

/-- The body of their inner loops: `far` is the other end of the edge, `sitesOf` the spawn
    sites that the edge adds. -/
def closeEdge (far : PTACallGraphEdge N I → N) (sitesOf : PTACallGraphEdge N I → List I)
    (s : Closing N I) (e : PTACallGraphEdge N I) : Closing N I :=
  let s := if far e ∈ s.funs then s
    else { s with worklist := (s.worklist.push (far e)).2, funs := M.addFun s.funs (far e) }
  { s with sites := (sitesOf e).foldl (fun sites cs => sites.insert cs) s.sites }

def closeBody (edgesOf : N → List (PTACallGraphEdge N I)) (far : PTACallGraphEdge N I → N)
    (sitesOf : PTACallGraphEdge N I → List I) (s : Closing N I) : Option (Closing N I) :=
  s.worklist.pop.map fun (svffun, worklist) =>
    (edgesOf svffun).foldl (M.closeEdge far sitesOf) { s with worklist := worklist }

def closure (edgesOf : N → List (PTACallGraphEdge N I)) (far : PTACallGraphEdge N I → N)
    (sitesOf : PTACallGraphEdge N I → List I) (funs : List N) (sites : List I) (fuel : ℕ) :
    Option (Closing N I) :=
  whileM (fun s : Closing N I => !s.worklist.isEmpty) (M.closeBody edgesOf far sitesOf) fuel
    ⟨funs.foldl (fun w f => (w.push f).2) FIFOWorkList.empty, funs, sites⟩

def collectSpawners (fuel : ℕ) (s : PCG N I) : Option (PCG N I) :=
  (M.closure M.inEdges (·.srcID) (·.calls) s.spawners s.spawnCallSites fuel).map fun c =>
    { s with spawners := c.funs, spawnCallSites := c.sites }

def collectSpawnees (fuel : ℕ) (s : PCG N I) : Option (PCG N I) :=
  (M.closure M.outEdges (·.dstID) (fun _ => []) s.spawnees s.spawnCallSites fuel).map fun c =>
    { s with spawnees := c.funs }

/-- `getCallEdgeBegin(cbn)` to `getCallEdgeEnd(cbn)`, with the fork edges of a fork. -/
def callEdges (inst : I) : List (PTACallGraphEdge N I) := M.edges.filter fun e => inst ∈ e.calls

section

variable (spawnCallSites : List I)

def followInst (followers : List N) (inst : I) : List N :=
  if M.isCallSite inst ∧ inst ∉ spawnCallSites then
    (M.callEdges inst).foldl (fun followers e => M.addFun followers e.dstID) followers
  else followers

/-- One block of the search of `identifyFollowers`, with `visitedBBs` beside the worklist. -/
def followBody (s : (FIFOWorkList B × Finset B) × List N) :
    Option ((FIFOWorkList B × Finset B) × List N) :=
  s.1.1.pop.map fun (bb, worklist) =>
    ((M.getSuccessors bb).foldl pushNew (worklist, s.1.2),
      (M.getInstructionList bb).foldl (M.followInst spawnCallSites) s.2)

/-- The blocks from the block of a spawn site on. -/
def followFrom (fuel : ℕ) (followers : List N) (inst : I) :
    Option (List N) :=
  (whileM (fun s : (FIFOWorkList B × Finset B) × List N => !s.1.1.isEmpty)
    (M.followBody spawnCallSites) fuel
    (((FIFOWorkList.empty.push (M.getParent inst)).2, ∅), followers)).map fun s => s.2

end

def identifyFollowers (fuel : ℕ) (s : PCG N I) : Option (PCG N I) :=
  (s.spawnCallSites.foldlM (M.followFrom s.spawnCallSites fuel) s.followers).map fun followers =>
    { s with followers := followers }

def collectFollowers (fuel : ℕ) (s : PCG N I) : Option (PCG N I) :=
  (M.identifyFollowers fuel s).bind fun s =>
    (M.closure M.outEdges (·.dstID) (fun _ => []) s.followers s.spawnCallSites fuel).map fun c =>
      { s with followers := c.funs }

def analyze (fuel : ℕ) : Option (PCG N I) :=
  (M.collectSpawners fuel M.initFromThreadAPI).bind fun s =>
    (M.collectSpawnees fuel s).bind (M.collectFollowers fuel)

-- ── What a thread runs

/-- A thread at an instruction, with the calls that have not returned. -/
structure ThreadState (I : Type) where
  cur : I
  stack : List I

/-- The callees of a call site; a fork is not one of them. -/
def Callee (i : I) (f : N) : Prop :=
  ∃ e ∈ M.edges, i ∈ e.calls ∧ e.edgeKind = .CallRetEdge ∧ e.dstID = f

inductive Step : ThreadState I → ThreadState I → Prop
  | next {i j : I} {stack : List I}
      (h : (∃ f, M.Callee i f ∧ M.entryInst f = none) ∨ ∀ f, ¬ M.Callee i f)
      (hj : j ∈ M.succInsts i) : Step ⟨i, stack⟩ ⟨j, stack⟩
  | call {i j : I} {f : N} {stack : List I} (h : M.Callee i f) (hj : M.entryInst f = some j) :
      Step ⟨i, stack⟩ ⟨j, i :: stack⟩
  | ret {i c j : I} {stack : List I} (h : M.isRetInst i = true) (hj : j ∈ M.succInsts c) :
      Step ⟨i, c :: stack⟩ ⟨j, stack⟩

/-- The routines that a fork can start. -/
def Forks (i : I) (s : N) : Prop :=
  M.isTDFork i = true ∧ ∃ e ∈ M.edges, i ∈ e.calls ∧ e.edgeKind = .TDForkEdge ∧ e.dstID = s

inductive Runs : ThreadState I → Prop
  | entry {i : I} (h : M.entryInst M.progEntry = some i) : Runs ⟨i, []⟩
  | forked {t : ThreadState I} {s : N} {i : I} (h : Runs t) (hs : M.Forks t.cur s)
      (hi : M.entryInst s = some i) : Runs ⟨i, []⟩
  | step {t t' : ThreadState I} (h : Runs t) (hs : M.Step t t') : Runs t'

/-- Some thread forks `s` and runs an instruction of `f` afterwards. -/
def ForksThenRuns (s f : N) : Prop :=
  ∃ t t', M.Runs t ∧ M.Forks t.cur s ∧ TransGen M.Step t t' ∧ M.getFunction t'.cur = f

-- ── What the sets are

/-- A fork whose routine is known. -/
def DirectFork (i : I) (s : N) : Prop := M.isTDFork i = true ∧ M.getForkedFun i = some s

def Spawner (f : N) : Prop :=
  ∃ i s, M.DirectFork i s ∧ ReflTransGen M.Edge f (M.getFunction i)

def SpawnSite (i : I) : Prop :=
  (∃ s, M.DirectFork i s) ∨ ∃ e ∈ M.edges, i ∈ e.calls ∧ M.Spawner e.dstID

/-- A forked routine, or a function with a body that one reaches. -/
def Spawnee (f : N) : Prop :=
  ∃ i s, M.DirectFork i s ∧
    (f = s ∨ M.isDeclaration f = false ∧ ReflTransGen M.Edge s f)

def Successor (b b' : B) : Prop := b' ∈ M.getSuccessors b

/-- A callee at a call site that is no spawn site, in a block that is reached from the block
    of a spawn site. -/
def CalledAfter (f : N) : Prop :=
  ∃ i b c e, M.SpawnSite i ∧ ReflTransGen M.Successor (M.getParent i) b ∧
    c ∈ M.getInstructionList b ∧ M.isCallSite c = true ∧ ¬ M.SpawnSite c ∧
    e ∈ M.edges ∧ c ∈ e.calls ∧ e.dstID = f

/-- A function with a body that such a callee reaches. -/
def Follower (f : N) : Prop :=
  M.isDeclaration f = false ∧ ∃ g, M.CalledAfter g ∧ ReflTransGen M.Edge g f

/-- A function that is in one of the sets. -/
def Known (f : N) : Prop := M.Spawner f ∨ M.Spawnee f ∨ M.Follower f

-- ── The worklist over the call graph

variable {M}

@[simp] theorem mem_addFun {funs : List N} {f d : N} :
    d ∈ M.addFun funs f ↔ d ∈ funs ∨ d = f ∧ M.isDeclaration f = false := by
  rw [addFun]
  cases h : M.isDeclaration f with
  | true => simp
  | false =>
    rw [if_neg Bool.false_ne_true, mem_insert_iff]
    simp [or_comm]

/-- The edges that a worklist follows. -/
def FarOf (edgesOf : N → List (PTACallGraphEdge N I)) (far : PTACallGraphEdge N I → N) (d e : N) :
    Prop :=
  ∃ edge ∈ edgesOf d, far edge = e

variable {edgesOf : N → List (PTACallGraphEdge N I)} {far : PTACallGraphEdge N I → N}
  {sitesOf : PTACallGraphEdge N I → List I} {funs : List N} {sites : List I}
  {s : Closing N I} {V P : Set N}

structure Closes (M : PCGModule N B I) (edgesOf : N → List (PTACallGraphEdge N I))
    (far : PTACallGraphEdge N I → N) (funs : List N) (V P : Set N) (s : Closing N I) :
    Prop where
  found : Found (FarOf edgesOf far) {f | f ∈ funs} s.worklist.den V P
  start : ∀ f ∈ funs, f ∈ V
  funs : ∀ f, f ∈ s.funs ↔ f ∈ funs ∨ f ∈ V ∧ M.isDeclaration f = false

/-- What waits, where a function with a body counts for itself and all edges. -/
def weight (M : PCGModule N B I) (f : N) : ℕ := if M.isDeclaration f then 1 else M.edges.length + 1

/-- Functions with a body that are not in the set, and functions that wait. -/
def todo (M : PCGModule N B I) (s : Closing N I) : ℕ :=
  (M.nodes.toFinset.filter fun f => M.isDeclaration f = false ∧ f ∉ s.funs).card *
    (M.edges.length + 1) + (s.worklist.dataList.map (weight M)).sum

theorem sum_weight_push_le (w : FIFOWorkList N) (f : N) :
    (((w.push f).2).dataList.map (weight M)).sum ≤ (w.dataList.map (weight M)).sum + weight M f := by
  by_cases hf : f ∈ w.dataList
  · have hfind : w.find f := decide_eq_true ((w.agree f).mpr hf)
    have hpush : (w.push f).2 = w := by rw [FIFOWorkList.push, dif_pos hfind]
    rw [hpush]
    exact Nat.le_add_right _ _
  · rw [FIFOWorkList.dataList_push hf, map_append, sum_append]
    simp

/-- **One edge.** It costs a round one unit at most, and nothing if its end has a body. -/
theorem closeEdge_spec (sitesOf : PTACallGraphEdge N I → List I)
    (h : Closes M edgesOf far funs V P s) {d : N} (hd : d ∈ P)
    {edge : PTACallGraphEdge N I} (hedge : edge ∈ edgesOf d) :
    Closes M edgesOf far funs (insert (far edge) V) P (M.closeEdge far sitesOf s edge) ∧
      todo M (M.closeEdge far sitesOf s edge) ≤
        todo M s + if M.isDeclaration (far edge) then 1 else 0 := by
  have hfar : FarOf edgesOf far d (far edge) := ⟨edge, hedge, rfl⟩
  rw [closeEdge]
  by_cases hin : far edge ∈ s.funs
  · rw [if_pos hin]
    have hV : far edge ∈ V := by
      rcases (h.funs _).mp hin with hstart | hV
      · exact h.start _ hstart
      · exact hV.1
    rw [Set.insert_eq_of_mem hV]
    exact ⟨⟨h.found, h.start, h.funs⟩, Nat.le_add_right _ _⟩
  · rw [if_neg hin]
    refine ⟨⟨?_, fun f hf => .inr (h.start f hf), fun f => ?_⟩, ?_⟩
    · show Found _ _ ((s.worklist.push (far edge)).2).den _ P
      rw [den_push]
      exact h.found.visit hd hfar
    · show f ∈ M.addFun s.funs (far edge) ↔ _
      rw [mem_addFun, h.funs, or_assoc]
      refine or_congr_right ?_
      constructor
      · rintro (⟨hV, hbody⟩ | ⟨rfl, hbody⟩)
        · exact ⟨.inr hV, hbody⟩
        · exact ⟨.inl rfl, hbody⟩
      · rintro ⟨rfl | hV, hbody⟩
        · exact .inr ⟨rfl, hbody⟩
        · exact .inl ⟨hV, hbody⟩
    · have hpush := sum_weight_push_le (M := M) s.worklist (far edge)
      rw [todo, todo]
      dsimp only
      cases hdecl : M.isDeclaration (far edge) with
      | true =>
        rw [weight, if_pos hdecl] at hpush
        rw [addFun, if_pos hdecl, if_pos rfl]
        omega
      | false =>
        rw [weight, if_neg (by rw [hdecl]; exact Bool.false_ne_true)] at hpush
        rw [if_neg Bool.false_ne_true]
        -- The function leaves those that are not in the set.
        have hlt : (M.nodes.toFinset.filter fun f =>
            M.isDeclaration f = false ∧ f ∉ M.addFun s.funs (far edge)).card <
            (M.nodes.toFinset.filter fun f => M.isDeclaration f = false ∧ f ∉ s.funs).card := by
          refine Finset.card_lt_card ⟨fun f hf => ?_, fun hsub => ?_⟩
          · simp only [Finset.mem_filter, mem_addFun, not_or] at hf ⊢
            exact ⟨hf.1, hf.2.1, hf.2.2.1⟩
          · have hmem : far edge ∈ M.nodes.toFinset.filter fun f =>
                M.isDeclaration f = false ∧ f ∉ s.funs :=
              Finset.mem_filter.mpr ⟨mem_toFinset.mpr (M.nodes_all _), hdecl, hin⟩
            have hout := (Finset.mem_filter.mp (hsub hmem)).2.2
            exact hout (mem_addFun.mpr (.inr ⟨rfl, hdecl⟩))
        have hmul := Nat.mul_le_mul_right (M.edges.length + 1) (Nat.succ_le_of_lt hlt)
        rw [Nat.succ_mul] at hmul
        omega

theorem closeEdges_spec (sitesOf : PTACallGraphEdge N I → List I) {d : N} (hd : d ∈ P)
    (es : List (PTACallGraphEdge N I)) :
    ∀ {s : Closing N I} {V : Set N}, Closes M edgesOf far funs V P s →
      (∀ edge ∈ es, edge ∈ edgesOf d) →
      Closes M edgesOf far funs (V ∪ {f | ∃ edge ∈ es, far edge = f}) P
          (es.foldl (M.closeEdge far sitesOf) s) ∧
        todo M (es.foldl (M.closeEdge far sitesOf) s) ≤
          todo M s + es.countP (fun edge => M.isDeclaration (far edge)) ∧
        ∀ i, i ∈ (es.foldl (M.closeEdge far sitesOf) s).sites ↔
          i ∈ s.sites ∨ ∃ edge ∈ es, i ∈ sitesOf edge := by
  induction es with
  | nil =>
    intro s V h _
    have hV : V ∪ {f | ∃ edge ∈ ([] : List (PTACallGraphEdge N I)), far edge = f} = V := by
      simp
    rw [hV]
    exact ⟨h, le_rfl, fun i => by simp⟩
  | cons edge es ih =>
    intro s V h hes
    obtain ⟨h1, htodo1⟩ := closeEdge_spec sitesOf h hd (hes edge mem_cons_self)
    obtain ⟨h2, htodo2, hsites2⟩ := ih h1 (forall_mem_cons.mp hes).2
    have hsites1 : ∀ i, i ∈ (M.closeEdge far sitesOf s edge).sites ↔
        i ∈ s.sites ∨ i ∈ sitesOf edge := by
      intro i
      rw [closeEdge]
      show i ∈ (sitesOf edge).foldl _ _ ↔ _
      rw [SvfLoop.mem_foldl_listInsert]
      split <;> rfl
    rw [foldl_cons]
    refine ⟨?_, ?_, fun i => ?_⟩
    · convert h2 using 1
      ext f
      simp only [mem_cons, Set.mem_union, Set.mem_insert_iff, Set.mem_ofPred_eq, exists_eq_or_imp]
      constructor
      · rintro (hV | rfl | hrest)
        · exact .inl (.inr hV)
        · exact .inl (.inl rfl)
        · exact .inr hrest
      · rintro ((rfl | hV) | hrest)
        · exact .inr (.inl rfl)
        · exact .inl hV
        · exact .inr (.inr hrest)
    · refine htodo2.trans ?_
      rw [countP_cons]
      omega
    · rw [hsites2, hsites1, exists_mem_cons_iff, or_assoc]

/-- What holds between two rounds. -/
structure ClosingInv (M : PCGModule N B I) (edgesOf : N → List (PTACallGraphEdge N I))
    (far : PTACallGraphEdge N I → N) (sitesOf : PTACallGraphEdge N I → List I) (funs : List N)
    (sites : List I) (x : Set N × Set N) (s : Closing N I) : Prop
    extends Closes M edgesOf far funs x.1 x.2 s where
  closed : ∀ d ∈ x.2, ∀ e, FarOf edgesOf far d e → e ∈ x.1
  sites : ∀ i, i ∈ s.sites ↔ i ∈ sites ∨ ∃ d ∈ x.2, ∃ edge ∈ edgesOf d, i ∈ sitesOf edge

theorem closeBody_spec (hlen : ∀ d, (edgesOf d).length ≤ M.edges.length)
    (hdecl : ∀ d, M.isDeclaration d → ∀ edge ∈ edgesOf d, M.isDeclaration (far edge) = false)
    {x : Set N × Set N} (h : ClosingInv M edgesOf far sitesOf funs sites x s)
    (hcond : (!s.worklist.isEmpty)) :
    ∃ s' x', M.closeBody edgesOf far sitesOf s = some s' ∧
      ClosingInv M edgesOf far sitesOf funs sites x' s' ∧ todo M s' < todo M s := by
  rw [Bool.not_eq_true'] at hcond
  obtain ⟨d, w, hpop, hmem, hden⟩ := pop_spec hcond
  have hpopped : Closes M edgesOf far funs x.1 (insert d x.2) { s with worklist := w } := by
    refine ⟨h.found.pop hmem (hden ▸ Set.sdiff_subset) ?_, h.start, h.funs⟩
    show s.worklist.den ⊆ insert d w.den
    rw [hden, Set.insert_sdiff_singleton]
    exact Set.subset_insert _ _
  obtain ⟨hclose, htodo, hsites⟩ := closeEdges_spec sitesOf (Set.mem_insert d x.2)
    (edgesOf d) hpopped fun _ he => he
  refine ⟨_, (x.1 ∪ {f | ∃ edge ∈ edgesOf d, far edge = f}, insert d x.2), ?_,
    ⟨hclose, ?_, fun i => ?_⟩, htodo.trans_lt ?_⟩
  · rw [closeBody, hpop]
    rfl
  · rintro e (rfl | he) f hf
    · exact .inr hf
    · exact .inl (h.closed e he f hf)
  · refine (hsites i).trans ?_
    show i ∈ s.sites ∨ _ ↔ _
    rw [h.sites, or_assoc]
    refine or_congr_right ?_
    constructor
    · rintro (⟨e, he, hrest⟩ | hrest)
      · exact ⟨e, Set.mem_insert_of_mem _ he, hrest⟩
      · exact ⟨d, Set.mem_insert _ _, hrest⟩
    · rintro ⟨e, rfl | he, hrest⟩
      · exact .inr hrest
      · exact .inl ⟨e, he, hrest⟩
  · have hsum : (s.worklist.dataList.map (weight M)).sum =
        weight M d + (w.dataList.map (weight M)).sum := by
      rw [dataList_pop hpop, map_cons, sum_cons]
    have hcount : (edgesOf d).countP (fun edge => M.isDeclaration (far edge)) < weight M d := by
      rw [weight]
      split
      case isTrue hd =>
        rw [Nat.lt_one_iff, countP_eq_zero]
        intro edge hedge
        rw [hdecl d hd edge hedge]
        exact Bool.false_ne_true
      case isFalse => exact Nat.lt_succ_of_le ((countP_le_length).trans (hlen d))
    rw [todo, todo]
    dsimp only
    omega

/-- **A worklist over the call graph** adds what its start reaches, except for functions
    without a body, and the spawn sites on the way. -/
theorem closure_total (M : PCGModule N B I) (sitesOf : PTACallGraphEdge N I → List I)
    (funs : List N) (sites : List I) (hlen : ∀ d, (edgesOf d).length ≤ M.edges.length)
    (hdecl : ∀ d, M.isDeclaration d → ∀ edge ∈ edgesOf d, M.isDeclaration (far edge) = false) :
    ∃ c, Stops (M.closure edgesOf far sitesOf funs sites) c ∧ (∀ f, f ∈ c.funs ↔ f ∈ funs ∨
        f ∈ Reach (FarOf edgesOf far) {f | f ∈ funs} ∧ M.isDeclaration f = false) ∧
      ∀ i, i ∈ c.sites ↔ i ∈ sites ∨
        ∃ d ∈ Reach (FarOf edgesOf far) {f | f ∈ funs}, ∃ edge ∈ edgesOf d, i ∈ sitesOf edge := by
  have hden : (funs.foldl (fun w f => (w.push f).2) FIFOWorkList.empty).den = {f | f ∈ funs} := by
    rw [FIFOWorkList.den_pushAll, FIFOWorkList.den_empty, Set.empty_union]
  have hinit : ClosingInv M edgesOf far sitesOf funs sites ({f | f ∈ funs}, ∅)
      ⟨funs.foldl (fun w f => (w.push f).2) FIFOWorkList.empty, funs, sites⟩ := by
    refine ⟨⟨⟨?_, ?_, ?_⟩, fun f hf => hf, fun f => ?_⟩, fun d hd => absurd hd (Set.notMem_empty d),
      fun i => ?_⟩
    · rw [hden, Set.empty_union]
    · rw [hden, Set.empty_union]
    · rw [hden, Set.empty_union, Set.union_self]
      exact subset_reach
    · constructor
      · exact .inl
      · rintro (hf | ⟨hf, -⟩)
        · exact hf
        · exact hf
    · constructor
      · exact .inl
      · rintro (hi | ⟨d, hd, -⟩)
        · exact hi
        · exact absurd hd (Set.notMem_empty d)
  have hbody : ∀ (x : Set N × Set N) (s : Closing N I),
      ClosingInv M edgesOf far sitesOf funs sites x s → (!s.worklist.isEmpty) →
        ∃ s' x', M.closeBody edgesOf far sitesOf s = some s' ∧
          ClosingInv M edgesOf far sitesOf funs sites x' s' ∧ todo M s' < todo M s :=
    fun _ _ hI hcond => closeBody_spec hlen hdecl hI hcond
  obtain ⟨c, x, hstops, hI, hcond⟩ := whileM_ghost (μ := fun _ s => todo M s) hbody hinit
  rw [Bool.not_eq_false'] at hcond
  have hsearching : Searching (FarOf edgesOf far) {f | f ∈ funs} ∅ x.1 x.2 :=
    ⟨den_of_isEmpty hcond ▸ hI.found, hI.closed⟩
  have hP : x.2 = Reach (FarOf edgesOf far) {f | f ∈ funs} := hsearching.done
  have hV : ∀ f, f ∈ x.1 ↔ f ∈ Reach (FarOf edgesOf far) {f | f ∈ funs} := by
    intro f
    constructor
    · exact fun hf => hsearching.sound (.inr (.inr hf))
    · rintro ⟨g, hg, hreach⟩
      cases hreach with
      | refl => exact hI.start f hg
      | @tail b _ hmid hlast =>
        have hmem : b ∈ x.2 := by
          rw [hP]
          exact ⟨g, hg, hmid⟩
        exact hI.closed b hmem f hlast
  refine ⟨c, hstops, fun f => ?_, fun i => ?_⟩
  · rw [hI.funs, hV]
  · rw [hI.sites, hP]

-- ── The sets before the worklists

/-- What the instructions that have been looked at put into the sets. -/
structure Inits (M : PCGModule N B I) (done : Set I) (s : PCG N I) : Prop where
  spawners : ∀ f, f ∈ s.spawners ↔ ∃ i ∈ done, ∃ g, M.DirectFork i g ∧ M.getFunction i = f
  spawnees : ∀ f, f ∈ s.spawnees ↔ ∃ i ∈ done, M.DirectFork i f
  followers : s.followers = []
  spawnCallSites : ∀ i, i ∈ s.spawnCallSites ↔ i ∈ done ∧ ∃ g, M.DirectFork i g

theorem initInst_inits {done : Set I} {s : PCG N I} (h : Inits M done s) {func : N} {inst : I}
    (hfunc : M.getFunction inst = func) : Inits M (insert inst done) (M.initInst func s inst) := by
  by_cases hfork : ∃ g, M.DirectFork inst g
  · obtain ⟨g, hfork⟩ := hfork
    have hrun : M.initInst func s inst =
        { s with spawnCallSites := s.spawnCallSites.insert inst
                 spawners := s.spawners.insert func
                 spawnees := s.spawnees.insert g } := by
      rw [initInst, if_pos hfork.1, hfork.2]
    rw [hrun]
    refine ⟨fun f => ?_, fun f => ?_, h.followers, fun i => ?_⟩
    · rw [mem_insert_iff, h.spawners, Set.exists_mem_insert]
      refine or_congr_left ?_
      constructor
      · rintro rfl
        exact ⟨g, hfork, hfunc⟩
      · rintro ⟨-, -, hf⟩
        exact hf.symm.trans hfunc
    · rw [mem_insert_iff, h.spawnees, Set.exists_mem_insert]
      refine or_congr_left ?_
      constructor
      · rintro rfl
        exact hfork
      · intro hf
        exact Option.mem_unique hf.2 hfork.2
    · rw [mem_insert_iff, h.spawnCallSites, Set.mem_insert_iff]
      constructor
      · rintro (rfl | ⟨hi, hg⟩)
        · exact ⟨.inl rfl, g, hfork⟩
        · exact ⟨.inr hi, hg⟩
      · rintro ⟨rfl | hi, hg⟩
        · exact .inl rfl
        · exact .inr ⟨hi, hg⟩
  · have hrun : M.initInst func s inst = s := by
      rw [initInst]
      split
      case isTrue hfk =>
        cases hget : M.getForkedFun inst with
        | none => rfl
        | some g => exact absurd ⟨g, hfk, hget⟩ hfork
      case isFalse => rfl
    rw [hrun]
    have hnone : ∀ {p : I → Prop}, (∀ i, p i → ∃ g, M.DirectFork i g) →
        ((∃ i ∈ insert inst done, p i) ↔ ∃ i ∈ done, p i) := by
      intro p hp
      rw [Set.exists_mem_insert]
      exact or_iff_right fun hi => hfork (hp inst hi)
    refine ⟨fun f => ?_, fun f => ?_, h.followers, fun i => ?_⟩
    · rw [h.spawners, hnone]
      rintro i ⟨g, hg, -⟩
      exact ⟨g, hg⟩
    · rw [h.spawnees, hnone]
      exact fun i hi => ⟨f, hi⟩
    · rw [h.spawnCallSites, Set.mem_insert_iff]
      constructor
      · rintro ⟨hi, hg⟩
        exact ⟨.inr hi, hg⟩
      · rintro ⟨rfl | hi, hg⟩
        · exact absurd hg hfork
        · exact ⟨hi, hg⟩

/-- A loop whose round for `a` looks at the instructions `C a`. -/
theorem foldl_inits {A : Type} {round : PCG N I → A → PCG N I} {C : A → Set I} (l : List A) :
    ∀ {s : PCG N I} {done : Set I},
      (∀ a ∈ l, ∀ (s : PCG N I) (done : Set I), Inits M done s → Inits M (C a ∪ done) (round s a)) →
      Inits M done s → Inits M ({i | ∃ a ∈ l, i ∈ C a} ∪ done) (l.foldl round s) := by
  induction l with
  | nil =>
    intro s done _ h
    have hnone : {i | ∃ a ∈ ([] : List A), i ∈ C a} ∪ done = done := by simp
    rw [hnone]
    exact h
  | cons a l ih =>
    intro s done hround h
    have hrest := ih (forall_mem_cons.mp hround).2 (hround a mem_cons_self s done h)
    rw [foldl_cons]
    convert hrest using 1
    ext i
    simp only [mem_cons, Set.mem_union, Set.mem_ofPred_eq, exists_eq_or_imp]
    rw [or_left_comm, or_assoc]

theorem initFromThreadAPI_inits : Inits M Set.univ M.initFromThreadAPI := by
  have hstart : Inits M ∅ (⟨[], [], [], []⟩ : PCG N I) := by
    refine ⟨fun f => ?_, fun f => ?_, rfl, fun i => ?_⟩ <;> simp
  have hblock : ∀ func, ∀ b ∈ M.getBasicBlockList func, ∀ (s : PCG N I) (done : Set I),
      Inits M done s → Inits M ({i | ∃ j ∈ M.getInstructionList b, i ∈ ({j} : Set I)} ∪ done)
        ((M.getInstructionList b).foldl (M.initInst func) s) := fun func b hb s done h =>
    foldl_inits (C := fun j => {j}) (M.getInstructionList b)
      (fun i hi _ _ h => initInst_inits h (M.list_in func b hb i hi).1) h
  have h := foldl_inits M.nodes
    (fun func _ _ _ h => foldl_inits (M.getBasicBlockList func) (hblock func) h) hstart
  -- Every instruction is in the block lists of its function.
  have hall : {i | ∃ func ∈ M.nodes, i ∈ {i | ∃ b ∈ M.getBasicBlockList func,
      i ∈ {i | ∃ j ∈ M.getInstructionList b, i ∈ ({j} : Set I)}}} = Set.univ :=
    Set.eq_univ_of_forall fun i => ⟨M.getFunction i, M.nodes_all _, M.getParent i,
      (M.in_list i).2, i, (M.in_list i).1, rfl⟩
  rw [Set.union_empty, hall] at h
  exact h

-- ── The blocks after a spawn site

def CalledIn (M : PCGModule N B I) (spawnCallSites : List I) (b : B) (f : N) : Prop :=
  ∃ c ∈ M.getInstructionList b, (M.isCallSite c = true ∧ c ∉ spawnCallSites) ∧
    ∃ e ∈ M.edges, c ∈ e.calls ∧ e.dstID = f

variable {spawnCallSites : List I} {followers : List N}

theorem mem_followInst {c : I} {f : N} :
    f ∈ M.followInst spawnCallSites followers c ↔ f ∈ followers ∨ M.isDeclaration f = false ∧
      (M.isCallSite c ∧ c ∉ spawnCallSites) ∧ ∃ e ∈ M.edges, c ∈ e.calls ∧ e.dstID = f := by
  have hedges : ∀ (es : List (PTACallGraphEdge N I)) (fs : List N),
      f ∈ es.foldl (fun followers e => M.addFun followers e.dstID) fs ↔
        f ∈ fs ∨ M.isDeclaration f = false ∧ ∃ e ∈ es, e.dstID = f := by
    intro es
    induction es with
    | nil => simp
    | cons e es ih =>
      intro fs
      rw [foldl_cons, ih, mem_addFun, exists_mem_cons_iff, and_or_left, or_assoc]
      refine or_congr_right (or_congr_left ?_)
      constructor
      · rintro ⟨rfl, hbody⟩
        exact ⟨hbody, rfl⟩
      · rintro ⟨hbody, rfl⟩
        exact ⟨rfl, hbody⟩
  rw [followInst]
  split
  case isTrue hcall =>
    rw [hedges]
    refine or_congr_right (and_congr_right fun _ => ?_)
    simp only [callEdges, mem_filter, decide_eq_true_eq, hcall, not_false_iff, and_self,
      true_and, and_assoc]
  case isFalse hcall => rw [iff_self_or]; exact fun h => absurd h.2.1 hcall

theorem mem_foldl_followInst {f : N} (cs : List I) : ∀ {followers : List N},
    f ∈ cs.foldl (M.followInst spawnCallSites) followers ↔ f ∈ followers ∨
      M.isDeclaration f = false ∧ ∃ c ∈ cs, (M.isCallSite c ∧ c ∉ spawnCallSites) ∧
        ∃ e ∈ M.edges, c ∈ e.calls ∧ e.dstID = f := by
  induction cs with
  | nil => simp
  | cons c cs ih =>
    intro followers
    rw [foldl_cons, ih, mem_followInst, exists_mem_cons_iff, and_or_left, or_assoc]

def blocksTodo (M : PCGModule N B I) (s : (FIFOWorkList B × Finset B) × List N) : ℕ :=
  (M.bbs.toFinset \ s.1.2).card + s.1.1.dataList.length

/-- What holds between two blocks; `P` are the blocks that have been looked at. -/
structure FollowInv (M : PCGModule N B I) (spawnCallSites : List I) (followers : List N) (b₀ : B)
    (P : Set B) (s : (FIFOWorkList B × Finset B) × List N) : Prop where
  search : Searching M.Successor {b₀} s.1.1.den {b | b ∈ s.1.2} P
  called : ∀ f, f ∈ s.2 ↔ f ∈ followers ∨
    M.isDeclaration f = false ∧ ∃ b ∈ P, M.CalledIn spawnCallSites b f

theorem followBody_spec {b0 : B} {P : Set B} {s : (FIFOWorkList B × Finset B) × List N}
    (h : FollowInv M spawnCallSites followers b0 P s) (hcond : (!s.1.1.isEmpty)) :
    ∃ s' P', M.followBody spawnCallSites s = some s' ∧
      FollowInv M spawnCallSites followers b0 P' s' ∧ blocksTodo M s' < blocksTodo M s := by
  rw [Bool.not_eq_true'] at hcond
  obtain ⟨b, w, hpop, hmem, hden⟩ := pop_spec hcond
  obtain ⟨hvis, hqueue⟩ := pushNew_foldl (M.getSuccessors b) (w, s.1.2)
  refine ⟨((M.getSuccessors b).foldl pushNew (w, s.1.2),
    (M.getInstructionList b).foldl (M.followInst spawnCallSites) s.2), insert b P, ?_,
    ⟨?_, fun f => ?_⟩, ?_⟩
  · rw [followBody, hpop]
    rfl
  · have hround := h.search.round hmem
    convert hround using 1
    · rw [hqueue, hden]
      rfl
    · ext d
      exact hvis d
  · rw [mem_foldl_followInst, h.called, Set.exists_mem_insert, or_assoc, ← and_or_left]
    exact or_congr_right (and_congr_right fun _ => or_comm)
  · have hcard := pushNew_foldl_card M.bbs.toFinset (M.getSuccessors b) (w, s.1.2)
      fun d _ => mem_toFinset.mpr (M.bbs_all d)
    refine hcard.trans_lt ?_
    rw [blocksTodo, dataList_pop hpop, length_cons]
    exact Nat.lt_succ_self _

/-- **One spawn site** adds the callees of the blocks that its block reaches. -/
theorem followFrom_total (M : PCGModule N B I) (spawnCallSites : List I) (followers : List N)
    (inst : I) :
    ∃ t, Stops (fun fuel => M.followFrom spawnCallSites fuel followers inst) t ∧
      ∀ f, f ∈ t ↔ f ∈ followers ∨ M.isDeclaration f = false ∧
        ∃ b, ReflTransGen M.Successor (M.getParent inst) b ∧ M.CalledIn spawnCallSites b f := by
  have hinit : FollowInv M spawnCallSites followers (M.getParent inst) ∅
      (((FIFOWorkList.empty.push (M.getParent inst)).2, ∅), followers) := by
    refine ⟨?_, fun f => ?_⟩
    · have hstart := (Searching.nothing (R := M.Successor)).start (M.getParent inst)
      rw [insert_empty_eq] at hstart
      convert hstart using 1
      · exact FIFOWorkList.den_singleton _
      · ext d
        exact iff_of_false (Finset.notMem_empty d) (Set.notMem_empty d)
    · constructor
      · exact .inl
      · rintro (hf | ⟨-, b, hb, -⟩)
        · exact hf
        · exact absurd hb (Set.notMem_empty b)
  have hbody : ∀ (P : Set B) (s : (FIFOWorkList B × Finset B) × List N),
      FollowInv M spawnCallSites followers (M.getParent inst) P s → (!s.1.1.isEmpty) →
        ∃ s' P', M.followBody spawnCallSites s = some s' ∧
          FollowInv M spawnCallSites followers (M.getParent inst) P' s' ∧
            blocksTodo M s' < blocksTodo M s := fun _ _ hI hcond => followBody_spec hI hcond
  obtain ⟨t, P, hstops, hI, hcond⟩ := whileM_ghost (μ := fun _ s => blocksTodo M s) hbody hinit
  rw [Bool.not_eq_false'] at hcond
  have hdone : P = Reach M.Successor {M.getParent inst} := by
    have hsearch := hI.search
    rw [den_of_isEmpty hcond] at hsearch
    exact hsearch.done
  refine ⟨t.2, hstops.map fun s : (FIFOWorkList B × Finset B) × List N => s.2, fun f => ?_⟩
  rw [hI.called, hdone]
  refine or_congr_right (and_congr_right fun _ => exists_congr fun b => and_congr_left fun _ => ?_)
  constructor
  · rintro ⟨_, rfl, hreach⟩
    exact hreach
  · exact fun hreach => ⟨_, rfl, hreach⟩

theorem followAll_total (M : PCGModule N B I) (spawnCallSites : List I) (sites : List I) :
    ∀ followers : List N,
      ∃ t, Stops (fun fuel => sites.foldlM (M.followFrom spawnCallSites fuel) followers) t ∧
        ∀ f, f ∈ t ↔ f ∈ followers ∨ M.isDeclaration f = false ∧
          ∃ i ∈ sites, ∃ b, ReflTransGen M.Successor (M.getParent i) b ∧
            M.CalledIn spawnCallSites b f := by
  induction sites with
  | nil => exact fun followers => ⟨followers, ⟨0, fun _ _ => rfl⟩, fun f => by simp⟩
  | cons i sites ih =>
    intro followers
    obtain ⟨t1, hstops1, ht1⟩ := followFrom_total M spawnCallSites followers i
    obtain ⟨t2, hstops2, ht2⟩ := ih t1
    refine ⟨t2, ?_, fun f => ?_⟩
    · simp only [foldlM_cons]
      exact hstops1.bind hstops2
    · rw [ht2, ht1, exists_mem_cons_iff, and_or_left, or_assoc]

-- ── The whole analysis

theorem defined_of_edge {f g : N} (h : M.Edge f g) : M.isDeclaration f = false := by
  obtain ⟨e, he, rfl, -⟩ := M.edge_iff.mp h
  exact M.caller_defined e he

theorem farOf_inEdges {d e : N} : FarOf M.inEdges (·.srcID) d e ↔ M.Edge e d := by
  rw [FarOf, M.edge_iff]
  simp only [ThreadCallGraph.inEdges, mem_filter, decide_eq_true_eq]
  constructor
  · rintro ⟨edge, ⟨he, hdst⟩, hsrc⟩
    exact ⟨edge, he, hsrc, hdst⟩
  · rintro ⟨edge, he, hsrc, hdst⟩
    exact ⟨edge, ⟨he, hdst⟩, hsrc⟩

theorem farOf_outEdges {d e : N} : FarOf M.outEdges (·.dstID) d e ↔ M.Edge d e := by
  rw [FarOf, M.edge_iff]
  simp only [ThreadCallGraph.outEdges, mem_filter, decide_eq_true_eq, and_assoc]

theorem reach_inEdges {S : Set N} {f : N} :
    f ∈ Reach (FarOf M.inEdges (·.srcID)) S ↔ ∃ g ∈ S, ReflTransGen M.Edge f g := by
  have hswap : FarOf M.inEdges (·.srcID) = Function.swap M.Edge := by
    ext d e
    exact farOf_inEdges
  rw [hswap]
  exact exists_congr fun g => and_congr_right fun _ => reflTransGen_swap

theorem reach_outEdges {S : Set N} {f : N} :
    f ∈ Reach (FarOf M.outEdges (·.dstID)) S ↔ ∃ g ∈ S, ReflTransGen M.Edge g f := by
  have hedge : FarOf M.outEdges (·.dstID) = M.Edge := by
    ext d e
    exact farOf_outEdges
  rw [hedge]
  exact .rfl

theorem length_inEdges_le (d : N) : (M.inEdges d).length ≤ M.edges.length := length_filter_le _ _

theorem length_outEdges_le (d : N) : (M.outEdges d).length ≤ M.edges.length := length_filter_le _ _

theorem far_defined_inEdges (d : N) (_ : M.isDeclaration d) :
    ∀ edge ∈ M.inEdges d, M.isDeclaration edge.srcID = false :=
  fun edge hedge => M.caller_defined edge (mem_of_mem_filter hedge)

theorem far_defined_outEdges (d : N) (hd : M.isDeclaration d) :
    ∀ edge ∈ M.outEdges d, M.isDeclaration edge.dstID = false := by
  intro edge hedge
  obtain ⟨he, hsrc⟩ := mem_filter.mp hedge
  have hdef := M.caller_defined edge he
  rw [of_decide_eq_true hsrc, hd] at hdef
  cases hdef.symm

theorem collectSpawners_total {s : PCG N I} (h : Inits M Set.univ s) :
    ∃ t, Stops (fun fuel => M.collectSpawners fuel s) t ∧ (∀ f, f ∈ t.spawners ↔ M.Spawner f) ∧
      (∀ i, i ∈ t.spawnCallSites ↔ M.SpawnSite i) ∧ t.spawnees = s.spawnees ∧
      t.followers = s.followers := by
  obtain ⟨c, hstops, hfuns, hsites⟩ := closure_total M (·.calls) s.spawners s.spawnCallSites
    length_inEdges_le far_defined_inEdges
  have hstart : ∀ f, f ∈ s.spawners ↔ ∃ i g, M.DirectFork i g ∧ M.getFunction i = f := by
    intro f
    rw [h.spawners]
    constructor
    · rintro ⟨i, -, g, hg⟩
      exact ⟨i, g, hg⟩
    · rintro ⟨i, g, hg⟩
      exact ⟨i, trivial, g, hg⟩
  have hreach : ∀ f, f ∈ Reach (FarOf M.inEdges (·.srcID)) {f | f ∈ s.spawners} ↔ M.Spawner f := by
    intro f
    rw [reach_inEdges]
    constructor
    · rintro ⟨g, hg, hto⟩
      obtain ⟨i, r, hfork, rfl⟩ := (hstart g).mp hg
      exact ⟨i, r, hfork, hto⟩
    · rintro ⟨i, r, hfork, hto⟩
      exact ⟨_, (hstart _).mpr ⟨i, r, hfork, rfl⟩, hto⟩
  refine ⟨_, hstops.map _, fun f => (hfuns f).trans ?_, fun i => (hsites i).trans ?_, rfl, rfl⟩
  · rw [hreach, hstart]
    constructor
    · rintro (⟨i, g, hfork, rfl⟩ | ⟨hf, -⟩)
      · exact ⟨i, g, hfork, .refl⟩
      · exact hf
    · rintro ⟨i, g, hfork, hto⟩
      rcases ReflTransGen.cases_head hto with rfl | ⟨_, hedge, -⟩
      · exact .inl ⟨i, g, hfork, rfl⟩
      · exact .inr ⟨⟨i, g, hfork, hto⟩, defined_of_edge hedge⟩
  · rw [h.spawnCallSites, SpawnSite]
    refine or_congr (and_iff_right trivial) ?_
    constructor
    · rintro ⟨d, hd, e, he, hi⟩
      obtain ⟨he, hdst⟩ := mem_filter.mp he
      rw [← of_decide_eq_true hdst] at hd
      exact ⟨e, he, hi, (hreach _).mp hd⟩
    · rintro ⟨e, he, hi, hf⟩
      exact ⟨_, (hreach _).mpr hf, e, mem_filter.mpr ⟨he, decide_eq_true rfl⟩, hi⟩

theorem collectSpawnees_total {s : PCG N I} (h : ∀ f, f ∈ s.spawnees ↔ ∃ i, M.DirectFork i f) :
    ∃ t, Stops (fun fuel => M.collectSpawnees fuel s) t ∧ (∀ f, f ∈ t.spawnees ↔ M.Spawnee f) ∧
      t.spawners = s.spawners ∧ t.spawnCallSites = s.spawnCallSites ∧
      t.followers = s.followers := by
  obtain ⟨c, hstops, hfuns, -⟩ := closure_total M (fun _ => []) s.spawnees s.spawnCallSites
    length_outEdges_le far_defined_outEdges
  refine ⟨_, hstops.map _, fun f => (hfuns f).trans ?_, rfl, rfl, rfl⟩
  rw [reach_outEdges, h]
  constructor
  · rintro (⟨i, hfork⟩ | ⟨⟨r, hr, hto⟩, hbody⟩)
    · exact ⟨i, f, hfork, .inl rfl⟩
    · obtain ⟨i, hfork⟩ := (h r).mp hr
      exact ⟨i, r, hfork, .inr ⟨hbody, hto⟩⟩
  · rintro ⟨i, r, hfork, rfl | ⟨hbody, hto⟩⟩
    · exact .inl ⟨i, hfork⟩
    · exact .inr ⟨⟨r, (h r).mpr ⟨i, hfork⟩, hto⟩, hbody⟩

theorem collectFollowers_total {s : PCG N I} (hsites : ∀ i, i ∈ s.spawnCallSites ↔ M.SpawnSite i)
    (hnone : s.followers = []) :
    ∃ t, Stops (fun fuel => M.collectFollowers fuel s) t ∧ (∀ f, f ∈ t.followers ↔ M.Follower f) ∧
      t.spawners = s.spawners ∧ t.spawnees = s.spawnees := by
  obtain ⟨firsts, hstops1, hfirsts⟩ := followAll_total M s.spawnCallSites s.spawnCallSites s.followers
  have hstart : ∀ f, f ∈ firsts ↔ M.isDeclaration f = false ∧ M.CalledAfter f := by
    intro f
    rw [hfirsts, hnone, or_iff_right not_mem_nil]
    refine and_congr_right fun _ => ?_
    constructor
    · rintro ⟨i, hi, b, hb, c, hc, ⟨hcall, hsite⟩, e, he, hce, hdst⟩
      exact ⟨i, b, c, e, (hsites i).mp hi, hb, hc, hcall, fun h => hsite ((hsites c).mpr h), he,
        hce, hdst⟩
    · rintro ⟨i, b, c, e, hi, hb, hc, hcall, hsite, he, hce, hdst⟩
      exact ⟨i, (hsites i).mpr hi, b, hb, c, hc, ⟨hcall, fun h => hsite ((hsites c).mp h)⟩, e, he,
        hce, hdst⟩
  obtain ⟨c, hstops2, hfuns, -⟩ := closure_total M (fun _ => []) firsts s.spawnCallSites
    length_outEdges_le far_defined_outEdges
  have hidentify : Stops (fun fuel => M.identifyFollowers fuel s) { s with followers := firsts } :=
    hstops1.map fun followers => (⟨s.spawners, s.spawnees, followers, s.spawnCallSites⟩ : PCG N I)
  refine ⟨{ s with followers := c.funs }, hidentify.bind (hstops2.map _), fun f => ?_, rfl, rfl⟩
  refine (hfuns f).trans ?_
  rw [reach_outEdges, hstart]
  constructor
  · rintro (⟨hbody, hf⟩ | ⟨⟨g, hg, hto⟩, hbody⟩)
    · exact ⟨hbody, f, hf, .refl⟩
    · exact ⟨hbody, g, ((hstart g).mp hg).2, hto⟩
  · rintro ⟨hbody, g, hg, hto⟩
    rcases ReflTransGen.cases_head hto with rfl | ⟨_, hedge, -⟩
    · exact .inl ⟨hbody, hg⟩
    · exact .inr ⟨⟨g, (hstart g).mpr ⟨defined_of_edge hedge, hg⟩, hto⟩, hbody⟩

/-- **What the analysis computes**: it stops, and its three sets are the spawners, the spawnees
    and the followers of the graph. -/
theorem analyze_total (M : PCGModule N B I) :
    ∃ pcg, Stops M.analyze pcg ∧ (∀ f, f ∈ pcg.spawners ↔ M.Spawner f) ∧
      (∀ f, f ∈ pcg.spawnees ↔ M.Spawnee f) ∧ ∀ f, f ∈ pcg.followers ↔ M.Follower f := by
  have hinit := initFromThreadAPI_inits (M := M)
  obtain ⟨s1, hstops1, hspawners, hsites, hees1, hfol1⟩ := collectSpawners_total hinit
  have hees : ∀ f, f ∈ s1.spawnees ↔ ∃ i, M.DirectFork i f := by
    intro f
    rw [hees1, hinit.spawnees]
    exact exists_congr fun i => and_iff_right trivial
  obtain ⟨s2, hstops2, hspawnees, hers2, hsites2, hfol2⟩ := collectSpawnees_total hees
  obtain ⟨s3, hstops3, hfollowers, hers3, hees3⟩ := collectFollowers_total (s := s2)
    (fun i => hsites2 ▸ hsites i) (hfol2.trans (hfol1.trans hinit.followers))
  refine ⟨s3, hstops1.bind (hstops2.bind hstops3), fun f => ?_, fun f => ?_, hfollowers⟩
  · rw [hers3, hers2]
    exact hspawners f
  · rw [hees3]
    exact hspawnees f

theorem closure_keeps (funs : List N) (sites : List I) :
    Keeps (M.closure edgesOf far sitesOf funs sites) :=
  fun n => whileM_succ n _

theorem followFrom_keeps (spawnCallSites followers : List _) (inst : I) :
    Keeps fun fuel => M.followFrom spawnCallSites fuel followers inst := by
  refine Keeps.map _ ?_
  exact fun n => whileM_succ n _

theorem analyze_keeps (M : PCGModule N B I) : Keeps M.analyze := by
  have hfollowers : ∀ s : PCG N I, Keeps fun fuel => M.collectFollowers fuel s := fun s =>
    ((Keeps.foldlM (fun _ _ => followFrom_keeps _ _ _) s.spawnCallSites s.followers).map _).bind
      fun _ => (closure_keeps _ _).map _
  exact ((closure_keeps _ _).map _).bind fun s => ((closure_keeps _ _).map _).bind hfollowers

theorem mayHappen_iff {pcg : PCG N I} (hers : ∀ f, f ∈ pcg.spawners ↔ M.Spawner f)
    (hees : ∀ f, f ∈ pcg.spawnees ↔ M.Spawnee f) (hfol : ∀ f, f ∈ pcg.followers ↔ M.Follower f)
    (f1 f2 : N) : pcg.mayHappenInParallelBetweenFunctions f1 f2 ↔
      (M.Spawnee f1 ∨ M.Spawnee f2) ∧ M.Known f1 ∧ M.Known f2 := by
  rw [← hees f1, ← hees f2, Known, Known, ← hers, ← hers, ← hees, ← hees, ← hfol, ← hfol,
    PCG.mayHappenInParallelBetweenFunctions]
  split
  case isTrue h => exact iff_of_false Bool.false_ne_true fun hf => hf.1.elim h.1 h.2
  case isFalse h1 =>
    split
    case isTrue h =>
      exact iff_of_false Bool.false_ne_true fun hf => hf.2.1.elim h.1 fun hf => hf.elim h.2.1 h.2.2
    case isFalse h2 =>
      split
      case isTrue h =>
        exact iff_of_false Bool.false_ne_true fun hf =>
          hf.2.2.elim h.1 fun hf => hf.elim h.2.1 h.2.2
      case isFalse h3 =>
        refine iff_of_true rfl ⟨?_, ?_, ?_⟩
        · tauto
        · tauto
        · tauto

-- ── What a thread runs after a fork

theorem edge_of_callee {i : I} {f : N} (h : M.Callee i f) : M.Edge (M.getFunction i) f := by
  obtain ⟨e, he, hi, -, rfl⟩ := h
  exact M.edge_iff.mpr ⟨e, he, (M.calls_in e he i hi).symm, rfl⟩

/-- Every function on the stack reaches those above it. -/
def Stacked (M : PCGModule N B I) (t : ThreadState I) : Prop :=
  (t.cur :: t.stack).Pairwise fun i c =>
    ReflTransGen M.Edge (M.getFunction c) (M.getFunction i)

theorem Stacked.move {i j : I} {stack : List I} (h : M.Stacked ⟨i, stack⟩)
    (hj : M.getFunction j = M.getFunction i) : M.Stacked ⟨j, stack⟩ := by
  obtain ⟨htop, hrest⟩ := pairwise_cons.mp h
  refine pairwise_cons.mpr ⟨fun c hc => ?_, hrest⟩
  rw [hj]
  exact htop c hc

theorem Stacked.step {t t' : ThreadState I} (h : M.Stacked t) (hstep : M.Step t t') :
    M.Stacked t' := by
  cases hstep with
  | next _ hj => exact h.move (M.succ_in _ _ hj)
  | @call i j f stack hcall hj =>
    have hedge := edge_of_callee hcall
    rw [← M.entry_in f j hj] at hedge
    refine pairwise_cons.mpr ⟨fun c hc => ?_, h⟩
    rcases mem_cons.mp hc with rfl | hc
    · exact .single hedge
    · exact ((pairwise_cons.mp h).1 c hc).tail hedge
  | @ret i c j stack _ hj =>
    have hcaller : M.Stacked ⟨c, stack⟩ := (pairwise_cons.mp h).2
    exact hcaller.move (M.succ_in c j hj)

theorem Runs.stacked {t : ThreadState I} (h : M.Runs t) : M.Stacked t := by
  induction h with
  | entry _ => exact pairwise_singleton _ _
  | forked _ _ _ _ => exact pairwise_singleton _ _
  | step _ hs ih => exact ih.step hs

section

variable (M : PCGModule N B I)

/-- Every fork that can start a routine names it. -/
def ForksKnown : Prop := ∀ i s, M.Forks i s → M.DirectFork i s

/-- **No early calls**: what a spawner calls is a spawner, or is called after a spawn site. -/
def NoEarlyCalls : Prop :=
  ∀ i f, M.Spawner (M.getFunction i) → M.Callee i f → M.Spawner f ∨ M.CalledAfter f

def AfterFork (t : ThreadState I) : Prop :=
  ∀ i ∈ t.cur :: t.stack, M.Spawner (M.getFunction i) ∨ M.Follower (M.getFunction i)

end

theorem AfterFork.step (hearly : M.NoEarlyCalls) {t t' : ThreadState I} (h : M.AfterFork t)
    (hstep : M.Step t t') : M.AfterFork t' := by
  cases hstep with
  | @next i j stack _ hj =>
    intro c hc
    rcases mem_cons.mp hc with rfl | hc
    · rw [M.succ_in i c hj]
      exact h i mem_cons_self
    · exact h c (mem_cons_of_mem i hc)
  | @call i j f stack hcall hj =>
    intro c hc
    rcases mem_cons.mp hc with rfl | hc
    · have hbody := M.inst_defined c
      rw [M.entry_in f c hj] at hbody ⊢
      rcases h i mem_cons_self with hspawner | ⟨-, g, hg, hto⟩
      · rcases hearly i f hspawner hcall with hf | hf
        · exact .inl hf
        · exact .inr ⟨hbody, f, hf, .refl⟩
      · exact .inr ⟨hbody, g, hg, hto.tail (edge_of_callee hcall)⟩
    · exact h c hc
  | @ret i c j stack _ hj =>
    intro d hd
    rcases mem_cons.mp hd with rfl | hd
    · rw [M.succ_in c d hj]
      exact h c (mem_cons_of_mem i mem_cons_self)
    · exact h d (mem_cons_of_mem i (mem_cons_of_mem c hd))

theorem ForksThenRuns.known (hforks : M.ForksKnown) (hearly : M.NoEarlyCalls) {s f : N}
    (h : M.ForksThenRuns s f) : M.Spawner f ∨ M.Follower f := by
  obtain ⟨t, t', hruns, hfork, hrest, rfl⟩ := h
  have hstart : M.AfterFork t := by
    have hspawner : ∀ g, ReflTransGen M.Edge g (M.getFunction t.cur) → M.Spawner g :=
      fun g hg => ⟨t.cur, s, hforks _ _ hfork, hg⟩
    intro c hc
    rcases mem_cons.mp hc with rfl | hc
    · exact .inl (hspawner _ .refl)
    · exact .inl (hspawner _ ((pairwise_cons.mp hruns.stacked).1 c hc))
  have hend : M.AfterFork t' := by
    induction hrest with
    | single hstep => exact hstart.step hearly hstep
    | tail _ hstep ih => exact ih.step hearly hstep
  exact hend t'.cur mem_cons_self

/-- **When a fork and what follows it may run in parallel for the analysis**: one of the two
    functions is a spawnee, and both are in some set. Without early calls, and when every fork
    names its routine, this is so of all that a thread runs after a fork and all bodies that
    the routine reaches. -/
theorem mayHappenInParallel_iff (M : PCGModule N B I) : ∃ pcg, Stops M.analyze pcg ∧
      (∀ s f₁ f₂, M.ForksThenRuns s f₁ → ReflTransGen M.Edge s f₂ →
        ((pcg.mayHappenInParallelBetweenFunctions f₁ f₂ = true ∧
          pcg.mayHappenInParallelBetweenFunctions f₂ f₁ = true) ↔
            (M.Spawnee f₁ ∨ M.Spawnee f₂) ∧ M.Known f₁ ∧ M.Known f₂)) ∧
      (M.ForksKnown → M.NoEarlyCalls → ∀ s f₁ f₂, M.ForksThenRuns s f₁ →
        ReflTransGen M.Edge s f₂ → (f₂ = s ∨ M.isDeclaration f₂ = false) →
          pcg.mayHappenInParallelBetweenFunctions f₁ f₂ = true ∧
          pcg.mayHappenInParallelBetweenFunctions f₂ f₁ = true) := by
  obtain ⟨pcg, hstops, hers, hees, hfol⟩ := analyze_total M
  have hiff : ∀ f₁ f₂, (pcg.mayHappenInParallelBetweenFunctions f₁ f₂ ∧
      pcg.mayHappenInParallelBetweenFunctions f₂ f₁) ↔
        (M.Spawnee f₁ ∨ M.Spawnee f₂) ∧ M.Known f₁ ∧ M.Known f₂ := by
    intro f₁ f₂
    rw [mayHappen_iff hers hees hfol, mayHappen_iff hers hees hfol, or_comm (b := M.Spawnee f₁),
      and_comm (b := M.Known f₁), and_self]
  refine ⟨pcg, hstops, fun _ f₁ f₂ _ _ => hiff f₁ f₂, ?_⟩
  intro hforks hearly s f₁ f₂ hruns hreach hbody
  have hspawnee : M.Spawnee f₂ := by
    obtain ⟨t, -, -, hfork, -, -⟩ := hruns
    exact ⟨t.cur, s, hforks _ _ hfork, hbody.imp id fun hbody => ⟨hbody, hreach⟩⟩
  refine (hiff f₁ f₂).mpr ⟨.inr hspawnee, ?_, .inr (.inl hspawnee)⟩
  exact (hruns.known hforks hearly).imp id .inr

/-- The functions of two small programs. -/
inductive Fun | main | worker | helper | routine
deriving DecidableEq

/-- Their blocks, with the function they belong to. -/
inductive Block | loop | exit | first | second | help | run
deriving DecidableEq

/-- Their instructions. -/
inductive Inst | callWorker | leave | callHelper | fork | done | helped | ran
deriving DecidableEq

section

variable (early : Bool)

/-- `main` calls `worker` in a loop; `worker` forks `routine` and calls `helper`, before the
    fork if `early`, else after it. -/
def forkInLoop : PCGModule Fun Block Inst where
  nodes := [.main, .worker, .helper, .routine]
  nodes_all f := by cases f <;> decide
  insts := [.callWorker, .leave, .callHelper, .fork, .done, .helped, .ran]
  insts_all i := by cases i <;> decide
  edges := [⟨.main, .worker, .CallRetEdge, [.callWorker], []⟩,
    ⟨.worker, .helper, .CallRetEdge, [.callHelper], []⟩,
    ⟨.worker, .routine, .TDForkEdge, [.fork], []⟩]
  getFunction
    | .callWorker | .leave => .main
    | .callHelper | .fork | .done => .worker
    | .helped => .helper
    | .ran => .routine
  hasLoopInfo i := i = .callWorker
  isExtCall _ := false
  forksites := [.fork]
  joinsites := []
  calls_in := by decide
  getBasicBlockList
    | .main => [.loop, .exit]
    | .worker => [.first, .second]
    | .helper => [.help]
    | .routine => [.run]
  getInstructionList
    | .loop => [.callWorker]
    | .exit => [.leave]
    | .first => if early then [.callHelper] else [.fork]
    | .second => if early then [.fork, .done] else [.callHelper, .done]
    | .help => [.helped]
    | .run => [.ran]
  getParent
    | .callWorker => .loop
    | .leave => .exit
    | .callHelper => if early then .first else .second
    | .fork => if early then .second else .first
    | .done => .second
    | .helped => .help
    | .ran => .run
  getSuccessors
    | .loop => [.loop, .exit]
    | .first => [.second]
    | _ => []
  isCallSite i := i = .callWorker ∨ i = .callHelper ∨ i = .fork
  isTDFork i := i = .fork
  getForkedFun i := if i = .fork then some .routine else none
  isDeclaration _ := false
  entryInst
    | .main => some .callWorker
    | .worker => if early then some .callHelper else some .fork
    | .helper => some .helped
    | .routine => some .ran
  succInsts
    | .callWorker => [.callWorker, .leave]
    | .callHelper => if early then [.fork] else [.done]
    | .fork => if early then [.done] else [.callHelper]
    | _ => []
  isRetInst i := i = .leave ∨ i = .done ∨ i = .helped ∨ i = .ran
  progEntry := .main
  bbs := [.loop, .exit, .first, .second, .help, .run]
  bbs_all b := by cases b <;> decide
  list_in f := by cases early <;> cases f <;> decide
  in_list i := by cases early <;> cases i <;> decide
  caller_defined := by decide
  inst_defined _ := rfl
  entry_in f := by cases early <;> cases f <;> decide
  succ_in i := by cases early <;> cases i <;> decide

theorem callee_worker : (forkInLoop early).Callee .callWorker .worker :=
  ⟨⟨.main, .worker, .CallRetEdge, [.callWorker], []⟩, mem_cons_self, by decide, rfl, rfl⟩

theorem callee_helper : (forkInLoop early).Callee .callHelper .helper :=
  ⟨⟨.worker, .helper, .CallRetEdge, [.callHelper], []⟩, by simp [forkInLoop], by decide, rfl, rfl⟩

theorem forks_routine : (forkInLoop early).Forks .fork .routine :=
  ⟨rfl, ⟨.worker, .routine, .TDForkEdge, [.fork], []⟩, by simp [forkInLoop], by decide, rfl, rfl⟩

theorem not_callee_fork (f : Fun) : ¬ (forkInLoop early).Callee .fork f := by
  rintro ⟨e, he, hcall, hkind, -⟩
  have hnone : ∀ e ∈ (forkInLoop early).edges, .fork ∈ e.calls → e.edgeKind ≠ .CallRetEdge := by
    show ∀ e ∈ [_, _, _], _
    simp [PTACallGraphEdge.calls]
  exact hnone e he hcall hkind

theorem runs_worker : (forkInLoop early).Runs ⟨.callWorker, []⟩ := .entry rfl

end

/-- `main` forks in the first round of its loop and calls `helper` in the second. The second
    call is missed: both calls are before the fork in the body of `worker`. -/
theorem mayHappenInParallel_misses_second_call : (forkInLoop true).ForksThenRuns .routine .helper ∧
      ReflTransGen (forkInLoop true).Edge .routine .routine ∧
      ∃ pcg, Stops (forkInLoop true).analyze pcg ∧
        pcg.mayHappenInParallelBetweenFunctions .helper .routine = false := by
  refine ⟨?_, .refl, ?_⟩
  · have hround : ReflTransGen (forkInLoop true).Step ⟨.callWorker, []⟩
        ⟨.helped, [.callHelper, .callWorker]⟩ :=
      .head (.call (callee_worker true) rfl) (.single (.call (callee_helper true) rfl))
    have hreturn : (forkInLoop true).Step ⟨.helped, [.callHelper, .callWorker]⟩
        ⟨.fork, [.callWorker]⟩ := .ret rfl mem_cons_self
    have hfork : (forkInLoop true).Runs ⟨.fork, [.callWorker]⟩ :=
      ((Runs.step (Runs.step (runs_worker true) (.call (callee_worker true) rfl))
        (.call (callee_helper true) rfl)).step hreturn)
    have hagain : TransGen (forkInLoop true).Step ⟨.fork, [.callWorker]⟩ ⟨.callWorker, []⟩ :=
      .tail (.single (.next (.inr (not_callee_fork true)) mem_cons_self)) (.ret rfl mem_cons_self)
    exact ⟨_, _, hfork, forks_routine true, hagain.trans_left hround, rfl⟩
  · have hrun : (forkInLoop true).analyze 9 =
        some ⟨[.main, .worker], [.routine], [], [.callWorker, .fork]⟩ := by rfl
    exact ⟨_, stops_of_succ (analyze_keeps _) hrun, by decide⟩

/-- With the fork first, `worker` calls nothing early. -/
theorem noEarlyCalls_fork_first : (forkInLoop false).NoEarlyCalls := by
  have hedges : ∀ e ∈ (forkInLoop false).edges,
      e.dstID = .worker ∧ .callHelper ∉ e.calls ∨ e.dstID = .helper ∧ .callHelper ∈ e.calls ∨
        e.dstID = .routine ∧ e.edgeKind = .TDForkEdge ∧ .callHelper ∉ e.calls := by
    show ∀ e ∈ [_, _, _], _
    simp [PTACallGraphEdge.calls]
  have hhelper : ¬ (forkInLoop false).Spawner .helper := by
    rintro ⟨i, s, ⟨hfork, -⟩, hto⟩
    have hi : i = .fork := of_decide_eq_true hfork
    rw [hi] at hto
    rcases ReflTransGen.cases_head hto with heq | ⟨f, hedge, -⟩
    · cases heq
    · obtain ⟨e, he, hsrc, -⟩ := (forkInLoop false).edge_iff.mp hedge
      have hnone : ∀ e ∈ (forkInLoop false).edges, e.srcID ≠ .helper := by decide
      exact hnone e he hsrc
  have hsite : ¬ (forkInLoop false).SpawnSite .callHelper := by
    rintro (⟨s, hfork, -⟩ | ⟨e, he, hcall, hspawner⟩)
    · cases hfork
    · rcases hedges e he with ⟨-, hnot⟩ | ⟨hdst, -⟩ | ⟨-, -, hnot⟩
      · exact hnot hcall
      · exact hhelper (hdst ▸ hspawner)
      · exact hnot hcall
  have hafter : ReflTransGen (forkInLoop false).Successor
      ((forkInLoop false).getParent .fork) .second :=
    .single mem_cons_self
  rintro i f - ⟨e, he, -, hkind, rfl⟩
  rcases hedges e he with ⟨hdst, -⟩ | ⟨hdst, hcall⟩ | ⟨-, hfork, -⟩
  · rw [hdst]
    exact .inl ⟨.fork, .routine, ⟨rfl, rfl⟩, .refl⟩
  · exact .inr ⟨.fork, .second, .callHelper, e, .inl ⟨.routine, rfl, rfl⟩, hafter,
      mem_cons_self, rfl, hsite, he, hcall, rfl⟩
  · cases hfork.symm.trans hkind

/-- With the fork first, both calls of `helper` are found. -/
theorem mayHappenInParallel_iff_fork_first : ∃ pcg, Stops (forkInLoop false).analyze pcg ∧
    pcg.mayHappenInParallelBetweenFunctions .helper .routine = true ∧
    pcg.mayHappenInParallelBetweenFunctions .routine .helper = true := by
  obtain ⟨pcg, hstops, -, hall⟩ := mayHappenInParallel_iff (forkInLoop false)
  refine ⟨pcg, hstops, hall ?_ noEarlyCalls_fork_first .routine .helper .routine ?_ .refl
    (.inl rfl)⟩
  · rintro i s ⟨hfork, e, he, hi, hkind, hdst⟩
    refine ⟨hfork, ?_⟩
    have hroutine : ∀ e ∈ (forkInLoop false).edges, e.edgeKind = .TDForkEdge →
        e.dstID = .routine := by
      show ∀ e ∈ [_, _, _], _
      simp
    have hi : i = .fork := of_decide_eq_true hfork
    rw [← hdst, hroutine e he hkind, hi]
    rfl
  · have hfork : (forkInLoop false).Runs ⟨.fork, [.callWorker]⟩ :=
      (runs_worker false).step (.call (callee_worker false) rfl)
    have hrest : TransGen (forkInLoop false).Step ⟨.fork, [.callWorker]⟩
        ⟨.helped, [.callHelper, .callWorker]⟩ :=
      .tail (.single (.next (.inr (not_callee_fork false)) mem_cons_self))
        (.call (callee_helper false) rfl)
    exact ⟨_, _, hfork, forks_routine false, hrest, rfl⟩

end PCGModule

end SvfPCG
