import SvfModel.LoopProofs
import SvfModel.DominanceProofs

/-!
# Dominance queries

`initDomTree` walks the blocks of a function and writes, for each block, the children of its
node in LLVM's dominator tree and in the post-dominator tree; `dominate` and `postDominate`
then answer by looking the second block up in what was written for the first.

The trees are LLVM's and are taken to be right: being an ancestor is dominating. The route:
**`getFunReachableBBs_spec`** (the walk down the dominator tree lists exactly the reachable
blocks), **`query_iff`** (a query on reachable blocks says "equal or child"), and with the
levels of the trees the main result: the queries are dominance exactly if no reachable block
lies more than one level below a reachable block above it.
-/

namespace SvfLoopAndDomInfo

open SvfScc SvfLoop SvfDominance List
open Relation (ReflTransGen reflTransGen_swap)

/-- The blocks of a function definition, and the exits that its post-dominator tree is
    rooted at. -/
structure FunctionCFG (B : Type) where
  blocks : List B
  entry : B
  succs : B → List B
  exits : List B
  entry_mem : entry ∈ blocks
  succs_mem : ∀ a b : B, a ∈ blocks → b ∈ succs a → b ∈ blocks

namespace FunctionCFG

variable {B : Type} (F : FunctionCFG B)

/-- The control-flow edges. -/
def Edge (a b : B) : Prop := b ∈ F.succs a

def Reachable (b : B) : Prop := Reach F.Edge F.entry b

/-- Every path from the entry to `b` passes through `a`. -/
def Dom (a b : B) : Prop := Dominates F.Edge F.entry a b

/-- Every path from `b` to the exits passes through `a`. -/
def PostDom (a b : B) : Prop := PostDominates F.Edge F.exits a b

variable {F}

theorem Reachable.mem_blocks {b : B} (h : F.Reachable b) : b ∈ F.blocks :=
  Reach.mem_of_closed (S := {b | b ∈ F.blocks}) F.succs_mem h F.entry_mem

end FunctionCFG

/-- LLVM's analyses of a function: the dominator tree, which has a node for the reachable
    blocks, the post-dominator tree, which has one for every block, the dominance frontiers
    and the innermost loops. -/
structure Analyses {B : Type} (F : FunctionCFG B) where
  dt : DomTree B
  pdt : DomTree B
  df : List (B × List B)
  loopFor : B → Option (List B)
  dt_node : ∀ b, (dt.getNode b).isSome ↔ F.Reachable b
  dt_anc : ∀ a b, F.Reachable a → F.Reachable b → (Reach dt.Child a b ↔ F.Dom a b)
  pdt_node : ∀ b ∈ F.blocks, (pdt.getNode b).isSome
  pdt_anc : ∀ a b, F.Reachable a → F.Reachable b → (Reach pdt.Child a b ↔ F.PostDom a b)

variable {B : Type} [DecidableEq B]

/-- What is recorded of a function. An absent entry of a map is `none`. -/
structure SVFLoopAndDomInfo (B : Type) where
  reachableBBs : List B
  dtBBsMap : B → Option (List B)
  pdtBBsMap : B → Option (List B)
  dfBBsMap : B → Option (List B)
  bb2LoopMap : B → Option (List B)
  bb2PdomLevel : B → Option Nat
  bb2PIdom : B → Option (Option B)

namespace SVFLoopAndDomInfo

/-- The record a constructor makes. -/
def empty : SVFLoopAndDomInfo B where
  reachableBBs := []
  dtBBsMap := fun _ => none
  pdtBBsMap := fun _ => none
  dfBBsMap := fun _ => none
  bb2LoopMap := fun _ => none
  bb2PdomLevel := fun _ => none
  bb2PIdom := fun _ => none

section

variable (ld : SVFLoopAndDomInfo B)

def isUnreachable (bb : B) : Bool := !decide (bb ∈ ld.reachableBBs)

/-- The common body of the two queries, on the map that the query reads. -/
def query (bbsMap : B → Option (List B)) (bbKey bbValue : B) : Bool :=
  if bbKey = bbValue then true
  -- an unreachable block is dominated by anything and dominates nothing
  else if ld.isUnreachable bbValue then true
  else if ld.isUnreachable bbKey then false
  else
    match bbsMap bbKey with
    | none => false
    | some bbs => decide (bbValue ∈ bbs)

def dominate (bbKey bbValue : B) : Bool :=
  ld.query ld.dtBBsMap bbKey bbValue

def postDominate (bbKey bbValue : B) : Bool :=
  ld.query ld.pdtBBsMap bbKey bbValue

end

end SVFLoopAndDomInfo

def insertAt (m : B → Option (List B)) (bb : B) (vs : List B) : B → Option (List B) :=
  Function.update m bb (some (vs.foldl (fun s v => s.insert v) ((m bb).getD [])))

def pushAt (m : B → Option (List B)) (bb : B) (vs : List B) : B → Option (List B) :=
  vs.foldl (fun m v => Function.update m bb (some ((m bb).getD [] ++ [v]))) m

namespace Analyses

variable {F : FunctionCFG B} (A : Analyses F)

/-- The state of the walk in `getFunReachableBBs`: the stack, its end first, the blocks
    pushed so far and the blocks listed so far. -/
structure ReachWalk (B : Type) where
  bbVec : List B
  visited : List B
  reachableBBs : List B

/-- One child of the block taken from the stack. -/
def visitChild (w : ReachWalk B) (succbb : B) : ReachWalk B :=
  if succbb ∈ w.visited then w
  else { w with visited := succbb :: w.visited, bbVec := succbb :: w.bbVec }

def walkBody (w : ReachWalk B) : Option (ReachWalk B) :=
  match w.bbVec with
  | [] => none
  | bb :: bbVec =>
    let w := { w with bbVec := bbVec, reachableBBs := w.reachableBBs ++ [bb] }
    match A.dt.getNode bb with
    | none => some w
    | some dtNode => some (dtNode.children.foldl visitChild w)

def getFunReachableBBs (fuel : Nat) : Option (List B) :=
  (whileM (fun w => !w.bbVec.isEmpty) A.walkBody fuel
    { bbVec := [F.entry], visited := [], reachableBBs := [] }).map ReachWalk.reachableBBs

section

variable (ld : SVFLoopAndDomInfo B)

/-- The dominator tree of one block. -/
def recordDom (bb : B) : SVFLoopAndDomInfo B :=
  match A.dt.getNode bb with
  | none => ld
  | some dtNode => { ld with dtBBsMap := insertAt ld.dtBBsMap bb dtNode.children }

/-- The post-dominator tree of one block. -/
def recordPostDom (bb : B) : SVFLoopAndDomInfo B :=
  match A.pdt.getNode bb with
  | none => ld
  | some pdtNode =>
    { ld with
      bb2PdomLevel := Function.update ld.bb2PdomLevel bb (some pdtNode.level)
      bb2PIdom := Function.update ld.bb2PIdom bb (some pdtNode.idom)
      pdtBBsMap := insertAt ld.pdtBBsMap bb pdtNode.children }

/-- The innermost loop of one block. -/
def recordLoop (bb : B) : SVFLoopAndDomInfo B :=
  match A.loopFor bb with
  | none => ld
  | some loop => { ld with bb2LoopMap := pushAt ld.bb2LoopMap bb loop }

def recordBlock (bb : B) : SVFLoopAndDomInfo B :=
  A.recordLoop (A.recordPostDom (A.recordDom ld bb) bb) bb

def recordFrontiers : SVFLoopAndDomInfo B :=
  { ld with dfBBsMap := A.df.foldl (fun m e => insertAt m e.1 e.2) ld.dfBBsMap }

end

def initDomTree (fuel : Nat) : Option (SVFLoopAndDomInfo B) :=
  (A.getFunReachableBBs fuel).map fun reachableBBs =>
    F.blocks.foldl A.recordBlock
      { A.recordFrontiers SVFLoopAndDomInfo.empty with reachableBBs := reachableBBs }

-- ── The walk that lists the reachable blocks

variable {A}

omit [DecidableEq B] in
theorem reach_entry {b : B} (h : F.Reachable b) : Reach A.dt.Child F.entry b :=
  (A.dt_anc F.entry b .refl h).mpr (fun _ hp => hp.first_mem)

omit [DecidableEq B] in
theorem reachable_of_reach {b : B} (h : Reach A.dt.Child F.entry b) : F.Reachable b := by
  rcases ReflTransGen.cases_tail h with rfl | ⟨c, _, hc⟩
  · exact .refl
  · exact (A.dt_node b).mp hc.isNode

theorem visitChildren_spec (cs : List B) (w : ReachWalk B) :
    (cs.foldl visitChild w).reachableBBs = w.reachableBBs ∧
    (∀ x, x ∈ (cs.foldl visitChild w).visited ↔ x ∈ w.visited ∨ x ∈ cs) ∧
    (∀ x, x ∈ (cs.foldl visitChild w).bbVec ↔ x ∈ w.bbVec ∨ (x ∈ cs ∧ x ∉ w.visited)) := by
  induction cs generalizing w with
  | nil => simp
  | cons c cs ih =>
    rw [foldl_cons]
    obtain ⟨hr, hv, hb⟩ := ih (visitChild w c)
    unfold visitChild at hr hv hb ⊢
    by_cases hc : c ∈ w.visited
    · rw [if_pos hc] at hr hv hb ⊢
      refine ⟨hr, fun x => ?_, fun x => ?_⟩
      · rw [hv x, mem_cons]
        constructor
        · exact fun h => h.imp_right .inr
        · rintro (h | rfl | h)
          · exact .inl h
          · exact .inl hc
          · exact .inr h
      · rw [hb x, mem_cons]
        constructor
        · exact fun h => h.imp_right (fun h' => ⟨.inr h'.1, h'.2⟩)
        · rintro (h | ⟨rfl | h, hn⟩)
          · exact .inl h
          · exact absurd hc hn
          · exact .inr ⟨h, hn⟩
    · rw [if_neg hc] at hr hv hb ⊢
      refine ⟨hr, fun x => ?_, fun x => ?_⟩
      · rw [hv x, mem_cons, mem_cons]
        tauto
      · rw [hb x, mem_cons, mem_cons, mem_cons]
        constructor
        · rintro ((rfl | h) | ⟨h, hn⟩)
          · exact .inr ⟨.inl rfl, hc⟩
          · exact .inl h
          · exact .inr ⟨.inr h, fun hv' => hn (.inr hv')⟩
        · rintro (h | ⟨rfl | h, hn⟩)
          · exact .inl (.inr h)
          · exact .inl (.inl rfl)
          · by_cases hxc : x = c
            · exact .inl (.inl hxc)
            · exact .inr ⟨h, fun hv' => hv'.elim hxc hn⟩

/-- The walk's invariant: it stays below the entry, everything pushed is still on the stack
    or listed, and the children of a listed block have been pushed. -/
structure Walking (A : Analyses F) (w : ReachWalk B) : Prop where
  below : ∀ x, x ∈ w.bbVec ∨ x ∈ w.visited ∨ x ∈ w.reachableBBs → Reach A.dt.Child F.entry x
  entry : F.entry ∈ w.bbVec ∨ F.entry ∈ w.reachableBBs
  pending : ∀ x, x ∈ w.visited → x ∈ w.bbVec ∨ x ∈ w.reachableBBs
  closed : ∀ x y, x ∈ w.reachableBBs → A.dt.Child x y → y ∈ w.visited

/-- What is left to do: the blocks not yet pushed and those on the stack. -/
def todo (F : FunctionCFG B) (w : ReachWalk B) : Nat :=
  (F.blocks.toFinset \ w.visited.toFinset).card + w.bbVec.length

theorem todo_visitChildren (cs : List B) (hcs : ∀ c ∈ cs, c ∈ F.blocks) (w : ReachWalk B) :
    todo F (cs.foldl visitChild w) ≤ todo F w := by
  induction cs generalizing w with
  | nil => exact le_rfl
  | cons c cs ih =>
    rw [foldl_cons]
    refine (ih (forall_mem_cons.mp hcs).2 (visitChild w c)).trans ?_
    unfold visitChild
    by_cases hc : c ∈ w.visited
    · rw [if_pos hc]
    · rw [if_neg hc]
      have hmem : c ∈ F.blocks.toFinset \ w.visited.toFinset := by
        rw [Finset.mem_sdiff, mem_toFinset, mem_toFinset]
        exact ⟨hcs c mem_cons_self, hc⟩
      have hpos := Finset.card_pos.mpr ⟨c, hmem⟩
      unfold todo
      rw [toFinset_cons, Finset.sdiff_insert, Finset.card_erase_of_mem hmem, length_cons]
      omega

theorem walkBody_spec {w : ReachWalk B} (h : Walking A w) (hne : (!w.bbVec.isEmpty)) :
    ∃ w', A.walkBody w = some w' ∧ Walking A w' ∧ todo F w' < todo F w := by
  obtain ⟨stack, visited, listed⟩ := w
  cases stack with
  | nil => cases hne
  | cons bb bbVec =>
    have hbb : Reach A.dt.Child F.entry bb := h.below bb (.inl mem_cons_self)
    have hnode : (A.dt.getNode bb).isSome := (A.dt_node bb).mpr (reachable_of_reach hbb)
    obtain ⟨dtNode, hdt⟩ := Option.isSome_iff_exists.mp hnode
    have hchild : ∀ c, c ∈ dtNode.children ↔ A.dt.Child bb c := by
      intro c
      constructor
      · exact fun hc => ⟨dtNode, hdt, hc⟩
      · rintro ⟨n, hn, hc⟩
        rw [hdt] at hn
        exact Option.some.inj hn ▸ hc
    have hbelow : ∀ c ∈ dtNode.children, Reach A.dt.Child F.entry c :=
      fun c hc => hbb.tail ((hchild c).mp hc)
    have hblocks : ∀ c ∈ dtNode.children, c ∈ F.blocks :=
      fun c hc => (reachable_of_reach (hbelow c hc)).mem_blocks
    obtain ⟨hr, hv, hb⟩ := visitChildren_spec dtNode.children
      { bbVec := bbVec, visited := visited, reachableBBs := listed ++ [bb] }
    refine ⟨dtNode.children.foldl visitChild
      { bbVec := bbVec, visited := visited, reachableBBs := listed ++ [bb] }, ?_, ?_, ?_⟩
    · simp only [walkBody, hdt]
    · constructor
      case below =>
        rintro x (hx | hx | hx)
        · rcases (hb x).mp hx with hx | hx
          · exact h.below x (.inl (mem_cons_of_mem bb hx))
          · exact hbelow x hx.1
        · rcases (hv x).mp hx with hx | hx
          · exact h.below x (.inr (.inl hx))
          · exact hbelow x hx
        · rw [hr, mem_append, mem_singleton] at hx
          rcases hx with hx | rfl
          · exact h.below x (.inr (.inr hx))
          · exact hbb
      case entry =>
        rw [hr, mem_append, mem_singleton]
        rcases h.entry with he | he
        · rcases mem_cons.mp he with he | he
          · exact .inr (.inr he)
          · exact .inl ((hb F.entry).mpr (.inl he))
        · exact .inr (.inl he)
      case pending =>
        intro x hx
        rw [hr, mem_append, mem_singleton]
        by_cases hold : x ∈ visited
        · rcases h.pending x hold with hp | hp
          · rcases mem_cons.mp hp with hp | hp
            · exact .inr (.inr hp)
            · exact .inl ((hb x).mpr (.inl hp))
          · exact .inr (.inl hp)
        · have hx' := ((hv x).mp hx).resolve_left hold
          exact .inl ((hb x).mpr (.inr ⟨hx', hold⟩))
      case closed =>
        intro x y hx hxy
        rw [hr, mem_append, mem_singleton] at hx
        refine (hv y).mpr ?_
        rcases hx with hx | rfl
        · exact .inl (h.closed x y hx hxy)
        · exact .inr ((hchild y).mpr hxy)
    · refine lt_of_le_of_lt (todo_visitChildren dtNode.children hblocks _) ?_
      show (F.blocks.toFinset \ visited.toFinset).card + bbVec.length <
        (F.blocks.toFinset \ visited.toFinset).card + (bbVec.length + 1)
      omega

/-- **The walk stops and lists exactly the reachable blocks.** -/
theorem getFunReachableBBs_spec (A : Analyses F) :
    ∃ bbs, Stops A.getFunReachableBBs bbs ∧ ∀ b, b ∈ bbs ↔ F.Reachable b := by
  have hstart : Walking A { bbVec := [F.entry], visited := [], reachableBBs := [] } := by
    constructor
    case below =>
      rintro x (hx | hx | hx)
      · rw [mem_singleton.mp hx]
      · cases hx
      · cases hx
    case entry => exact .inl mem_cons_self
    case pending => exact nofun
    case closed => exact nofun
  obtain ⟨w, ⟨n, hrun⟩, hw, hstop⟩ :=
    whileM_total (I := Walking A) (μ := todo F) (fun w h hne => walkBody_spec h hne) hstart
  have hempty : w.bbVec = [] := isEmpty_iff.mp (by simpa using hstop)
  have hlisted : ∀ x, x ∈ w.bbVec ∨ x ∈ w.reachableBBs → x ∈ w.reachableBBs := by
    rintro x (hx | hx)
    · rw [hempty] at hx
      cases hx
    · exact hx
  refine ⟨w.reachableBBs, ⟨n, fun fuel hf => ?_⟩, fun b => ⟨fun hb => ?_, fun hb => ?_⟩⟩
  · exact congrArg (Option.map ReachWalk.reachableBBs) (hrun fuel hf)
  · exact reachable_of_reach (hw.below b (.inr (.inr hb)))
  · refine Reach.mem_of_closed (S := {x | x ∈ w.reachableBBs}) ?_ (reach_entry (A := A) hb)
      (hlisted F.entry hw.entry)
    intro x y hx hxy
    exact hlisted y (hw.pending y (hw.closed x y hx hxy))

-- ── What is recorded for a block

/-- What a map lists for a block; nothing without an entry. -/
def Lists (m : B → Option (List B)) (a b : B) : Prop := ∃ s, m a = some s ∧ b ∈ s

theorem lists_insertAt (m : B → Option (List B)) (bb : B) (vs : List B) (a b : B) :
    Lists (insertAt m bb vs) a b ↔ Lists m a b ∨ (a = bb ∧ b ∈ vs) := by
  unfold Lists insertAt
  by_cases ha : a = bb
  · subst ha
    rw [Function.update_self]
    simp only [Option.some.injEq, exists_eq_left', SvfLoop.mem_foldl_listInsert]
    cases hm : m a with
    | none => simp
    | some s => simp
  · rw [Function.update_of_ne ha]
    simp [ha]

theorem lists_children {t : DomTree B} {n : DomTreeNode B} {bb : B} (hn : t.getNode bb = some n)
    (m : B → Option (List B)) (a b : B) :
    Lists (insertAt m bb n.children) a b ↔ Lists m a b ∨ (a = bb ∧ t.Child a b) := by
  rw [lists_insertAt]
  refine or_congr_right (and_congr_right ?_)
  rintro rfl
  rw [DomTree.Child, hn]
  simp

omit [DecidableEq B] in
theorem not_child_of_none {t : DomTree B} {bb : B} (hn : t.getNode bb = none) (a b : B) :
    ¬ (a = bb ∧ t.Child a b) := by
  rintro ⟨rfl, n, hn', -⟩
  cases hn.symm.trans hn'

section

variable (A : Analyses F)

theorem lists_recordDom (ld : SVFLoopAndDomInfo B) (bb a b : B) :
    Lists (A.recordDom ld bb).dtBBsMap a b ↔ Lists ld.dtBBsMap a b ∨ (a = bb ∧ A.dt.Child a b) := by
  rw [recordDom]
  cases hn : A.dt.getNode bb with
  | none => exact (or_iff_left (not_child_of_none hn a b)).symm
  | some n => exact lists_children hn _ a b

theorem lists_recordPostDom (ld : SVFLoopAndDomInfo B) (bb a b : B) :
    Lists (A.recordPostDom ld bb).pdtBBsMap a b ↔
      Lists ld.pdtBBsMap a b ∨ (a = bb ∧ A.pdt.Child a b) := by
  rw [recordPostDom]
  cases hn : A.pdt.getNode bb with
  | none => exact (or_iff_left (not_child_of_none hn a b)).symm
  | some n => exact lists_children hn _ a b

theorem recordBlock_maps (ld : SVFLoopAndDomInfo B) (bb : B) :
    (A.recordBlock ld bb).dtBBsMap = (A.recordDom ld bb).dtBBsMap ∧
    (A.recordBlock ld bb).pdtBBsMap = (A.recordPostDom ld bb).pdtBBsMap ∧
    (A.recordBlock ld bb).reachableBBs = ld.reachableBBs := by
  unfold recordBlock recordLoop recordPostDom recordDom
  cases A.dt.getNode bb <;> cases A.pdt.getNode bb <;> cases A.loopFor bb <;>
    exact ⟨rfl, rfl, rfl⟩

theorem lists_recordBlocks (bbs : List B) (ld : SVFLoopAndDomInfo B) :
    (∀ a b, Lists (bbs.foldl A.recordBlock ld).dtBBsMap a b ↔
      Lists ld.dtBBsMap a b ∨ (a ∈ bbs ∧ A.dt.Child a b)) ∧
    (∀ a b, Lists (bbs.foldl A.recordBlock ld).pdtBBsMap a b ↔
      Lists ld.pdtBBsMap a b ∨ (a ∈ bbs ∧ A.pdt.Child a b)) ∧
    (bbs.foldl A.recordBlock ld).reachableBBs = ld.reachableBBs := by
  induction bbs generalizing ld with
  | nil => simp
  | cons bb bbs ih =>
    obtain ⟨hd, hp, hr⟩ := ih (A.recordBlock ld bb)
    obtain ⟨hd', hp', hr'⟩ := A.recordBlock_maps ld bb
    rw [foldl_cons]
    refine ⟨fun a b => ?_, fun a b => ?_, hr.trans hr'⟩
    · rw [hd, hd', lists_recordDom, mem_cons]
      tauto
    · rw [hp, hp', lists_recordPostDom, mem_cons]
      tauto

end

/-- What `initDomTree` records: the reachable blocks, and for each block its children in
    the two trees. -/
structure Recorded (A : Analyses F) (ld : SVFLoopAndDomInfo B) : Prop where
  reachable : ∀ b, b ∈ ld.reachableBBs ↔ F.Reachable b
  dt : ∀ a b, F.Reachable a → (Lists ld.dtBBsMap a b ↔ A.dt.Child a b)
  pdt : ∀ a b, F.Reachable a → (Lists ld.pdtBBsMap a b ↔ A.pdt.Child a b)

/-- **`initDomTree` stops, having recorded the trees.** -/
theorem initDomTree_spec (A : Analyses F) : ∃ ld, Stops A.initDomTree ld ∧ Recorded A ld := by
  obtain ⟨bbs, ⟨n, hrun⟩, hbbs⟩ := A.getFunReachableBBs_spec
  obtain ⟨hd, hp, hr⟩ := A.lists_recordBlocks F.blocks
    { A.recordFrontiers SVFLoopAndDomInfo.empty with reachableBBs := bbs }
  have hnone : ∀ a b, ¬ Lists (fun _ : B => none) a b := fun a b ⟨s, hs, _⟩ => nomatch hs
  refine ⟨F.blocks.foldl A.recordBlock
    { A.recordFrontiers SVFLoopAndDomInfo.empty with reachableBBs := bbs },
    ⟨n, fun fuel hf => ?_⟩, ?_⟩
  · unfold initDomTree
    rw [hrun fuel hf]
    rfl
  · constructor
    case reachable =>
      intro b
      rw [hr]
      exact hbbs b
    case dt =>
      intro a b ha
      rw [hd]
      constructor
      · exact fun h => (h.resolve_left (hnone a b)).2
      · exact fun h => .inr ⟨ha.mem_blocks, h⟩
    case pdt =>
      intro a b ha
      rw [hp]
      constructor
      · exact fun h => (h.resolve_left (hnone a b)).2
      · exact fun h => .inr ⟨ha.mem_blocks, h⟩

-- ── The queries

theorem query_iff {ld : SVFLoopAndDomInfo B} (hr : ∀ b, b ∈ ld.reachableBBs ↔ F.Reachable b)
    {m : B → Option (List B)} {t : DomTree B} {a b : B} (hm : Lists m a b ↔ t.Child a b)
    (ha : F.Reachable a) (hb : F.Reachable b) :
    ld.query m a b ↔ a = b ∨ t.Child a b := by
  have hua : ¬ ld.isUnreachable a := by
    simp [SVFLoopAndDomInfo.isUnreachable, (hr a).mpr ha]
  have hub : ¬ ld.isUnreachable b := by
    simp [SVFLoopAndDomInfo.isUnreachable, (hr b).mpr hb]
  unfold SVFLoopAndDomInfo.query
  by_cases hab : a = b
  · rw [if_pos hab]
    exact iff_of_true rfl (.inl hab)
  · rw [if_neg hab, if_neg hub, if_neg hua, ← hm]
    unfold Lists
    cases hma : m a with
    | none => simp [hab]
    | some s => simp [hab]

omit [DecidableEq B] in
theorem child_iff_ancestor (t : DomTree B) (a b : B) : (a = b ∨ t.Child a b ↔ Reach t.Child a b) ↔
      (Reach t.Child a b → t.level b ≤ t.level a + 1) := by
  constructor
  · intro hiff hreach
    rcases hiff.mpr hreach with rfl | hc
    · exact Nat.le_succ _
    · exact hc.level_eq.le
  · intro hlevel
    constructor
    · rintro (rfl | hc)
      · exact .refl
      · exact .single hc
    · intro hreach
      rcases DomTree.child_or_deeper hreach with heq | hc | hdeep
      · exact .inl heq
      · exact .inr hc
      · exact absurd (hlevel hreach) (by omega)

/-- The answers `q` of a query are the relation `R` on the reachable blocks, and a partial
    order there. -/
structure QueryLaw (F : FunctionCFG B) (q : B → B → Bool) (R : B → B → Prop) : Prop where
  answers : ∀ a b, F.Reachable a → F.Reachable b → (q a b = true ↔ R a b)
  refl : ∀ a, F.Reachable a → q a a = true
  trans : ∀ a b c, F.Reachable a → F.Reachable b → F.Reachable c →
    q a b = true → q b c = true → q a c = true
  antisymm : ∀ a b, F.Reachable a → F.Reachable b → q a b = true → q b a = true → a = b

/-- No reachable block lies more than one level below a reachable block above it. -/
def Shallow (F : FunctionCFG B) (t : DomTree B) : Prop :=
  ∀ a b, F.Reachable a → F.Reachable b → Reach t.Child a b → t.level b ≤ t.level a + 1

omit [DecidableEq B] in
/-- A query that answers "equal or child" of a right tree obeys the law exactly if the tree
    is shallow. -/
theorem queryLaw_iff_shallow {q : B → B → Bool} {R : B → B → Prop} {t : DomTree B}
    (hq : ∀ a b, F.Reachable a → F.Reachable b → (q a b ↔ a = b ∨ t.Child a b))
    (hR : ∀ a b, F.Reachable a → F.Reachable b → (Reach t.Child a b ↔ R a b)) :
    QueryLaw F q R ↔ Shallow F t := by
  constructor
  · intro h a b ha hb
    refine (child_iff_ancestor t a b).mp ?_
    rw [← hq a b ha hb, hR a b ha hb]
    exact h.answers a b ha hb
  · intro h
    have hanc : ∀ a b, F.Reachable a → F.Reachable b → (q a b ↔ Reach t.Child a b) :=
      fun a b ha hb => (hq a b ha hb).trans ((child_iff_ancestor t a b).mpr (h a b ha hb))
    constructor
    case answers => exact fun a b ha hb => (hanc a b ha hb).trans (hR a b ha hb)
    case refl => exact fun a ha => (hanc a a ha ha).mpr .refl
    case trans =>
      intro a b c ha hb hc hab hbc
      exact (hanc a c ha hc).mpr (((hanc a b ha hb).mp hab).trans ((hanc b c hb hc).mp hbc))
    case antisymm =>
      intro a b ha hb hab hba
      exact DomTree.reach_antisymm ((hanc a b ha hb).mp hab) ((hanc b a hb ha).mp hba)

structure DominanceLaw (F : FunctionCFG B) (ld : SVFLoopAndDomInfo B) : Prop where
  dominate : QueryLaw F ld.dominate F.Dom
  postDominate : QueryLaw F ld.postDominate F.PostDom

/-- **The queries are dominance and post-dominance exactly on shallow trees.** -/
theorem initDomTree_dominanceLaw_iff (A : Analyses F) : ∃ ld, Stops A.initDomTree ld ∧
      (DominanceLaw F ld ↔ Shallow F A.dt ∧ Shallow F A.pdt) := by
  obtain ⟨ld, hstops, hld⟩ := A.initDomTree_spec
  have hdt := queryLaw_iff_shallow
    (fun a b ha hb => query_iff hld.reachable (hld.dt a b ha) ha hb) A.dt_anc
  have hpdt := queryLaw_iff_shallow
    (fun a b ha hb => query_iff hld.reachable (hld.pdt a b ha) ha hb) A.pdt_anc
  refine ⟨ld, hstops, ?_⟩
  constructor
  · exact fun h => ⟨hdt.mp h.dominate, hpdt.mp h.postDominate⟩
  · exact fun h => ⟨hdt.mpr h.1, hpdt.mpr h.2⟩

end Analyses

-- ── Three blocks in a row

/-- The control flow 0, 1, 2. -/
def lineCFG : FunctionCFG ℕ where
  blocks := [0, 1, 2]
  entry := 0
  succs := fun n => if n = 0 then [1] else if n = 1 then [2] else []
  exits := [2]
  entry_mem := by decide
  succs_mem := by
    intro a b ha hb
    split at hb
    · simp_all
    · split at hb
      · simp_all
      · cases hb

/-- The nodes of its dominator tree: each block is the parent of the next one. -/
def lineDtNode : ℕ → Option (DomTreeNode ℕ)
  | 0 => some { level := 0, idom := none, children := [1] }
  | 1 => some { level := 1, idom := some 0, children := [2] }
  | 2 => some { level := 2, idom := some 1, children := [] }
  | _ => none

/-- The nodes of its post-dominator tree: each block is the parent of the one before. -/
def linePdtNode : ℕ → Option (DomTreeNode ℕ)
  | 0 => some { level := 3, idom := some 1, children := [] }
  | 1 => some { level := 2, idom := some 2, children := [0] }
  | 2 => some { level := 1, idom := none, children := [1] }
  | _ => none

def LineStep (a b : ℕ) : Prop := b = a + 1 ∧ b ≤ 2

theorem lineCFG_edge : lineCFG.Edge = LineStep := by
  funext a b
  unfold FunctionCFG.Edge lineCFG LineStep
  by_cases h0 : a = 0
  · subst h0
    simp
    omega
  · by_cases h1 : a = 1
    · subst h1
      simp
      omega
    · simp [h0, h1]
      omega

def lineDt : DomTree ℕ where
  getNode := lineDtNode
  child := by
    intro a b n hn hb
    match a with
    | 0 | 1 =>
      cases hn
      rw [mem_singleton.mp hb]
      exact ⟨_, rfl, rfl, rfl⟩
    | 2 =>
      cases hn
      cases hb
    | a + 3 => cases hn

def linePdt : DomTree ℕ where
  getNode := linePdtNode
  child := by
    intro a b n hn hb
    match a with
    | 0 =>
      cases hn
      cases hb
    | 1 | 2 =>
      cases hn
      rw [mem_singleton.mp hb]
      exact ⟨_, rfl, rfl, rfl⟩
    | a + 3 => cases hn

theorem lineDt_child : lineDt.Child = LineStep := by
  funext a b
  unfold DomTree.Child LineStep
  match a with
  | 0 | 1 | 2 =>
    simp [lineDt, lineDtNode]
    try omega
  | a + 3 =>
    simp [lineDt, lineDtNode]
    omega

theorem linePdt_child : linePdt.Child = Function.swap LineStep := by
  funext a b
  unfold DomTree.Child Function.swap LineStep
  match a with
  | 0 | 1 | 2 =>
    simp [linePdt, linePdtNode]
    try omega
  | a + 3 =>
    simp [linePdt, linePdtNode]

theorem le_of_reach_lineStep {a b : ℕ} (h : Reach LineStep a b) : a ≤ b := by
  induction h with
  | refl => exact le_rfl
  | tail _ hs ih =>
    have hnext := hs.1
    omega

theorem reach_lineStep {a b : ℕ} (hb : b ≤ 2) : Reach LineStep a b ↔ a ≤ b := by
  constructor
  · exact le_of_reach_lineStep
  · intro hab
    induction b, hab using Nat.le_induction with
    | base => exact .refl
    | succ b _ ih => exact (ih (by omega)).tail ⟨rfl, hb⟩

theorem mem_line_walk {a b : ℕ} {p : List ℕ} (h : Walk LineStep a b p) (x : ℕ) :
    x ∈ p ↔ a ≤ x ∧ x ≤ b := by
  induction h with
  | single a =>
    rw [mem_singleton]
    omega
  | cons hE hW ih =>
    have hends := le_of_reach_lineStep (hW.reach_mem _ hW.last_mem)
    have hnext := hE.1
    rw [mem_cons, ih]
    omega

theorem lineCFG_reachable {b : ℕ} : lineCFG.Reachable b ↔ b ≤ 2 := by
  unfold FunctionCFG.Reachable
  rw [lineCFG_edge]
  constructor
  · intro h
    rcases ReflTransGen.cases_tail h with heq | ⟨c, _, hc⟩
    · exact heq ▸ Nat.zero_le 2
    · exact hc.2
  · exact fun hb => (reach_lineStep hb).mpr (Nat.zero_le b)

theorem lineCFG_dom {a b : ℕ} (hb : b ≤ 2) : lineCFG.Dom a b ↔ a ≤ b := by
  unfold FunctionCFG.Dom
  rw [lineCFG_edge]
  constructor
  · intro h
    obtain ⟨p, hp⟩ := Walk.of_reach ((reach_lineStep hb).mpr (Nat.zero_le b))
    exact ((mem_line_walk hp a).mp (h p hp)).2
  · exact fun hab p hp => (mem_line_walk hp a).mpr ⟨Nat.zero_le a, hab⟩

theorem lineCFG_postDom {a b : ℕ} (ha : a ≤ 2) (hb : b ≤ 2) : lineCFG.PostDom a b ↔ b ≤ a := by
  unfold FunctionCFG.PostDom
  rw [lineCFG_edge]
  constructor
  · intro h
    obtain ⟨p, hp⟩ := Walk.of_reach ((reach_lineStep le_rfl).mpr hb)
    exact ((mem_line_walk hp a).mp (h 2 mem_cons_self p hp)).1
  · intro hba e he p hp
    rw [mem_singleton.mp he] at hp
    exact (mem_line_walk hp a).mpr ⟨hba, ha⟩

/-- The analyses of three blocks in a row; there is no frontier and no loop. -/
def lineAnalyses : Analyses lineCFG where
  dt := lineDt
  pdt := linePdt
  df := []
  loopFor := fun _ => none
  dt_node := by
    intro b
    rw [lineCFG_reachable]
    match b with
    | 0 | 1 | 2 => decide
    | b + 3 => simp [lineDt, lineDtNode]
  dt_anc := by
    intro a b _ hb
    rw [lineDt_child, reach_lineStep (lineCFG_reachable.mp hb),
      lineCFG_dom (lineCFG_reachable.mp hb)]
  pdt_node := by decide
  pdt_anc := by
    intro a b ha hb
    rw [linePdt_child, lineCFG_postDom (lineCFG_reachable.mp ha) (lineCFG_reachable.mp hb),
      ← reach_lineStep (lineCFG_reachable.mp ha)]
    exact reflTransGen_swap

/-- On three blocks in a row `dominate(0, 2)` is false, although 0 is the entry. -/
theorem initDomTree_not_dominanceLaw :
    ∃ ld, Stops lineAnalyses.initDomTree ld ∧ ¬ Analyses.DominanceLaw lineCFG ld := by
  obtain ⟨ld, hstops, hld⟩ := lineAnalyses.initDomTree_spec
  refine ⟨ld, hstops, fun h => ?_⟩
  have h0 : lineCFG.Reachable 0 := lineCFG_reachable.mpr (by omega)
  have h2 : lineCFG.Reachable 2 := lineCFG_reachable.mpr (by omega)
  have hyes := (h.dominate.answers 0 2 h0 h2).mpr ((lineCFG_dom le_rfl).mpr (Nat.zero_le 2))
  have hno := (Analyses.query_iff hld.reachable (hld.dt 0 2 h0) h0 h2).mp hyes
  have hchild : lineDt.Child 0 2 := hno.resolve_left (by decide)
  rw [lineDt_child] at hchild
  cases hchild.1

end SvfLoopAndDomInfo
