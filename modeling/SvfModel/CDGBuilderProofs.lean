import SvfModel.LoopAndDomInfoProofs

/-!
# Control dependence

`buildControlDependence` takes the edges of the control flow one by one. For an edge from `P` to
`S` it climbs the post-dominator tree to the nearest common ancestor of the two and records the
blocks on the way from there down to `S`; `P` itself is recorded where it is that ancestor. An
edge is left out where `postDominate(S, P)` holds.

A block post-dominating `S` that does not strictly post-dominate `P` is on that way, or is `P`
(`mem_controlTargets`), with two exceptions: where the climb leaves the tree, only `S` is recorded
and not what lies above it, and an edge from a block to itself is left out, a block being taken to
post-dominate itself. **`edgeTargets_exact_iff`** says that nothing else goes wrong.
-/

namespace SvfCDG

open SvfScc SvfLoop SvfDominance SvfLoopAndDomInfo List
open Function (update update_of_ne update_self)
open Relation (ReflTransGen)

variable {B : Type} [DecidableEq B]

/-- The analyses of a function with a post-dominator tree that is right for every block: its nodes
    are the blocks, and a block without a parent is on level 1, below the virtual exit. -/
structure ExactAnalyses (F : FunctionCFG B) extends Analyses F where
  pdt_blocks : ∀ b, (pdt.getNode b).isSome → b ∈ F.blocks
  pdt_exact : ∀ a b, a ∈ F.blocks → b ∈ F.blocks → (Reach pdt.Child a b ↔ F.PostDom a b)
  pdt_rooted : pdt.Rooted

-- ── The climb and the way down

/-- `findNearestCommonPDominator(A, B)`: no answer where a look-up fails, and the answer none for
    the null pointer. -/
def findNearestCommonPDominator (ld : SVFLoopAndDomInfo B) : ℕ → Option B → B → Option (Option B)
  | 0, _, _ => none
  | fuel + 1, a, b =>
    match a with
    | none => some none
    | some a =>
      if a = b then some (some a)
      else
        match ld.bb2PdomLevel a, ld.bb2PdomLevel b with
        | some lvA, some lvB =>
          let deeper := if lvA < lvB then b else a
          let other := if lvA < lvB then a else b
          match ld.bb2PIdom deeper with
          | none => none
          | some idom => findNearestCommonPDominator ld fuel idom other
        | _, _ => none

def dfsNodesBetweenPdomNodes (ld : SVFLoopAndDomInfo B) :
    ℕ → B → B → List B → List B → Option (List B)
  | 0, _, _, _, _ => none
  | fuel + 1, cur, tgt, path, tgtNodes =>
    let path := path ++ [cur]
    if cur = tgt then some (tgtNodes ++ path.tail)
    else
      match ld.pdtBBsMap cur with
      | none => none
      | some children => children.foldlM
          (fun tgtNodes nxt => dfsNodesBetweenPdomNodes ld fuel nxt tgt path tgtNodes) tgtNodes

def extractNodesBetweenPdomNodes (ld : SVFLoopAndDomInfo B) (fuel : ℕ) (succ LCA : B)
    (tgtNodes : List B) : Option (List B) :=
  if succ = LCA then some tgtNodes
  else dfsNodesBetweenPdomNodes ld fuel LCA succ [] tgtNodes

-- ── The loop over the edges

/-- The blocks recorded for one edge to be processed. -/
def controlTargets (ld : SVFLoopAndDomInfo B) (fuel : ℕ) (pred succ : B) : Option (List B) :=
  match findNearestCommonPDominator ld fuel (some pred) succ with
  | none => none
  -- no common ancestor, may be exit()
  | some none => some [succ]
  | some (some LCA) =>
    extractNodesBetweenPdomNodes ld fuel succ LCA (if LCA = pred then [LCA] else [])

def extractBBS (F : FunctionCFG B) (ld : SVFLoopAndDomInfo B) : List (B × List B) :=
  F.blocks.map (fun bb => (bb, (F.succs bb).filter (fun succ => !ld.postDominate succ bb)))

structure CDGBuilder (B : Type) where
  svfcontrolMap : B → B → Finset ℤ
  svfdependentOnMap : B → B → Finset ℤ

namespace CDGBuilder

def new : CDGBuilder B := ⟨fun _ _ => ∅, fun _ _ => ∅⟩

/-- A branch id kept as `s32_t`. -/
def s32 (pos : ℤ) : ℤ := pos.bmod (2 ^ 32)

def updateMap (cdg : CDGBuilder B) (pred bb : B) (pos : ℤ) : CDGBuilder B where
  svfcontrolMap := update cdg.svfcontrolMap pred
    (update (cdg.svfcontrolMap pred) bb (insert (s32 pos) (cdg.svfcontrolMap pred bb)))
  svfdependentOnMap := update cdg.svfdependentOnMap bb
    (update (cdg.svfdependentOnMap bb) pred
      (insert (s32 pos) (cdg.svfdependentOnMap bb pred)))

def controlEdge (ld : SVFLoopAndDomInfo B) (getBBSuccessorBranchID : B → B → ℤ) (fuel : ℕ)
    (cdg : CDGBuilder B) (pred succ : B) : Option (CDGBuilder B) :=
  match controlTargets ld fuel pred succ with
  | none => none
  | some tgtNodes => some
      (tgtNodes.foldl (fun cdg bb => cdg.updateMap pred bb (getBBSuccessorBranchID pred succ)) cdg)

def buildControlDependence (F : FunctionCFG B) (ld : SVFLoopAndDomInfo B)
    (getBBSuccessorBranchID : B → B → ℤ) (fuel : ℕ) (cdg : CDGBuilder B) :
    Option (CDGBuilder B) :=
  (extractBBS F ld).foldlM (fun cdg item => item.2.foldlM
    (fun cdg succ => controlEdge ld getBBSuccessorBranchID fuel cdg item.1 succ) cdg) cdg

end CDGBuilder

/-- What is recorded for an edge: nothing if `extractBBS` leaves it out. -/
def edgeTargets (ld : SVFLoopAndDomInfo B) (pred succ : B) (fuel : ℕ) : Option (List B) :=
  if ld.postDominate succ pred then some [] else controlTargets ld fuel pred succ

-- ── What is known of the post-dominator tree

/-- The maps hold the post-dominator tree: of every block its level, its parent and its
    children. -/
structure PdtRecorded {F : FunctionCFG B} (A : Analyses F) (ld : SVFLoopAndDomInfo B) : Prop where
  reachable : ∀ b, b ∈ ld.reachableBBs ↔ F.Reachable b
  level : ∀ b ∈ F.blocks, ld.bb2PdomLevel b = some (A.pdt.level b)
  idom : ∀ b ∈ F.blocks, ∀ n, A.pdt.getNode b = some n → ld.bb2PIdom b = some n.idom
  children : ∀ b ∈ F.blocks, ∃ cs, ld.pdtBBsMap b = some cs ∧ ∀ x, x ∈ cs ↔ A.pdt.Child b x

variable {F : FunctionCFG B}

/-- After the loop of `initDomTree` over `bbs` the level, the parent and an entry for the children
    of a block among them are there. -/
theorem recordBlocks_pdt (A : Analyses F) {b : B} {n : DomTreeNode B}
    (hn : A.pdt.getNode b = some n) (bbs : List B) (ld : SVFLoopAndDomInfo B)
    (h : b ∈ bbs ∨ ld.bb2PdomLevel b = some n.level ∧ ld.bb2PIdom b = some n.idom ∧
      ld.pdtBBsMap b ≠ none) :
    (bbs.foldl A.recordBlock ld).bb2PdomLevel b = some n.level ∧
      (bbs.foldl A.recordBlock ld).bb2PIdom b = some n.idom ∧
      (bbs.foldl A.recordBlock ld).pdtBBsMap b ≠ none := by
  induction bbs generalizing ld with
  | nil => exact h.resolve_left not_mem_nil
  | cons bb bbs ih =>
    have hmaps : (A.recordBlock ld bb).bb2PdomLevel = (A.recordPostDom ld bb).bb2PdomLevel ∧
        (A.recordBlock ld bb).bb2PIdom = (A.recordPostDom ld bb).bb2PIdom ∧
        (A.recordBlock ld bb).pdtBBsMap = (A.recordPostDom ld bb).pdtBBsMap := by
      unfold Analyses.recordBlock Analyses.recordLoop Analyses.recordPostDom Analyses.recordDom
      cases A.dt.getNode bb <;> cases A.pdt.getNode bb <;> cases A.loopFor bb <;>
        exact ⟨rfl, rfl, rfl⟩
    rw [foldl_cons]
    refine ih _ ?_
    rw [hmaps.1, hmaps.2.1, hmaps.2.2]
    by_cases hbb : b = bb
    · subst hbb
      right
      simp [Analyses.recordPostDom, hn, insertAt]
    · rcases h with h | ⟨hlevel, hidom, hentry⟩
      · exact .inl ((mem_cons.mp h).resolve_left hbb)
      · right
        unfold Analyses.recordPostDom
        cases A.pdt.getNode bb with
        | none => exact ⟨hlevel, hidom, hentry⟩
        | some m =>
          refine ⟨?_, ?_, ?_⟩
          · exact (update_of_ne hbb ..).trans hlevel
          · exact (update_of_ne hbb ..).trans hidom
          · show insertAt ld.pdtBBsMap bb m.children b ≠ none
            rw [insertAt, update_of_ne hbb]
            exact hentry

theorem initDomTree_pdtRecorded (A : Analyses F) :
    ∃ ld, Stops A.initDomTree ld ∧ PdtRecorded A ld := by
  obtain ⟨bbs, ⟨k, hrun⟩, hbbs⟩ := A.getFunReachableBBs_spec
  have hmaps := A.lists_recordBlocks F.blocks
    { A.recordFrontiers SVFLoopAndDomInfo.empty with reachableBBs := bbs }
  have hnode : ∀ b ∈ F.blocks, ∃ n, A.pdt.getNode b = some n :=
    fun b hb => Option.isSome_iff_exists.mp (A.pdt_node b hb)
  refine ⟨F.blocks.foldl A.recordBlock
    { A.recordFrontiers SVFLoopAndDomInfo.empty with reachableBBs := bbs },
    ⟨k, fun fuel hf => ?_⟩, ?_, ?_, ?_, ?_⟩
  · unfold Analyses.initDomTree
    rw [hrun fuel hf]
    rfl
  · intro b
    rw [hmaps.2.2]
    exact hbbs b
  · intro b hb
    obtain ⟨n, hn⟩ := hnode b hb
    rw [(recordBlocks_pdt A hn F.blocks _ (.inl hb)).1, DomTree.level_of_node hn]
  · intro b hb n hn
    exact (recordBlocks_pdt A hn F.blocks _ (.inl hb)).2.1
  · intro b hb
    obtain ⟨n, hn⟩ := hnode b hb
    obtain ⟨cs, hcs⟩ := Option.ne_none_iff_exists'.mp (recordBlocks_pdt A hn F.blocks
        { A.recordFrontiers SVFLoopAndDomInfo.empty with reachableBBs := bbs } (.inl hb)).2.2
    refine ⟨cs, hcs, ?_⟩
    intro x
    have hlist := hmaps.2.1 b x
    have hnone : ¬Analyses.Lists (fun _ : B => none) b x := by
      rintro ⟨s, hs, _⟩
      cases hs
    constructor
    · intro hx
      exact ((hlist.mp ⟨cs, hcs, hx⟩).resolve_left hnone).2
    · intro hx
      obtain ⟨s, hs, hxs⟩ := hlist.mpr (.inr ⟨hb, hx⟩)
      rw [hcs, Option.some_inj] at hs
      rw [hs]
      exact hxs

-- ── The nearest common ancestor

variable {A : ExactAnalyses F} {ld : SVFLoopAndDomInfo B}

omit [DecidableEq B] in
theorem mem_blocks_of_child {a b : B} (h : A.pdt.Child a b) : a ∈ F.blocks ∧ b ∈ F.blocks := by
  constructor
  · obtain ⟨n, hn, _⟩ := h
    exact A.pdt_blocks a (by rw [hn]; rfl)
  · exact A.pdt_blocks b h.isNode

theorem findNearestCommonPDominator_spec (hld : PdtRecorded A.toAnalyses ld) :
    ∀ {fuel : ℕ} {a : Option B} {b : B}, (∀ a' ∈ a, a' ∈ F.blocks) → b ∈ F.blocks →
      (a.elim 0 A.pdt.level) + A.pdt.level b < fuel →
        ∃ r, findNearestCommonPDominator ld fuel a b = some r ∧
          ∀ x, (∃ a' ∈ a, Reach A.pdt.Child x a' ∧ Reach A.pdt.Child x b) ↔
            ∃ c ∈ r, Reach A.pdt.Child x c := by
  intro fuel
  induction fuel with
  | zero => exact fun _ _ h => absurd h (Nat.not_lt_zero _)
  | succ fuel ih =>
    intro a b ha hb hfuel
    cases a with
    | none => exact ⟨none, rfl, by simp⟩
    | some a =>
      have ha : a ∈ F.blocks := ha a rfl
      by_cases hab : a = b
      · subst hab
        refine ⟨some a, ?_, by simp⟩
        rw [findNearestCommonPDominator, if_pos rfl]
      · -- one step up from the deeper of the two
        have hstep : ∀ d o, d ∈ F.blocks → o ∈ F.blocks → d ≠ o →
            A.pdt.level o ≤ A.pdt.level d → A.pdt.level d + A.pdt.level o < fuel + 1 →
            ∃ idom r, ld.bb2PIdom d = some idom ∧
              findNearestCommonPDominator ld fuel idom o = some r ∧
              ∀ x, (Reach A.pdt.Child x d ∧ Reach A.pdt.Child x o) ↔
                ∃ c ∈ r, Reach A.pdt.Child x c := by
          intro d o hd ho hne hlevel hsum
          obtain ⟨n, hn⟩ := Option.isSome_iff_exists.mp (A.pdt_node d hd)
          have hparent : ∀ p ∈ n.idom, A.pdt.Child p d := fun p hp => A.pdt_rooted.idom hn hp
          have hless : (n.idom.elim 0 A.pdt.level) + A.pdt.level o < fuel := by
            have hpos := A.pdt_rooted.level_pos (b := d) (by rw [hn]; simp)
            cases hidom : n.idom with
            | none =>
              show 0 + A.pdt.level o < fuel
              omega
            | some p =>
              have hnext := (hparent p hidom).level_eq
              show A.pdt.level p + A.pdt.level o < fuel
              omega
          obtain ⟨r, hr, hcommon⟩ := ih
            (fun p hp => (mem_blocks_of_child (hparent p hp)).1) ho hless
          refine ⟨n.idom, r, hld.idom d hd n hn, hr, ?_⟩
          intro x
          rw [← hcommon]
          constructor
          · rintro ⟨hxd, hxo⟩
            have hxd' : x ≠ d := by
              rintro rfl
              exact hne (DomTree.eq_of_reach_of_level hxo hlevel)
            obtain ⟨p, hp, _, hxp⟩ := DomTree.strict_ancestor hn hxd hxd'
            exact ⟨p, hp, hxp, hxo⟩
          · rintro ⟨p, hp, hxp, hxo⟩
            exact ⟨hxp.tail (hparent p hp), hxo⟩
        rw [findNearestCommonPDominator, if_neg hab, hld.level a ha, hld.level b hb]
        simp only [Option.elim_some] at hfuel
        by_cases hlt : A.pdt.level a < A.pdt.level b
        · obtain ⟨idom, r, hidom, hr, hcommon⟩ := hstep b a hb ha (Ne.symm hab) hlt.le (by omega)
          simp only [if_pos hlt, hidom]
          refine ⟨r, hr, ?_⟩
          intro x
          rw [← hcommon, and_comm]
          simp
        · obtain ⟨idom, r, hidom, hr, hcommon⟩ := hstep a b ha hb hab (by omega) (by omega)
          simp only [if_neg hlt, hidom]
          refine ⟨r, hr, ?_⟩
          intro x
          rw [← hcommon]
          simp

-- ── The way down

omit [DecidableEq B] in
theorem foldlM_adds {C : Type} {step : List B → C → Option (List B)} {P : C → B → Prop}
    (l : List C) (h : ∀ c ∈ l, ∀ acc, ∃ res, step acc c = some res ∧
      ∀ x, x ∈ res ↔ x ∈ acc ∨ P c x) (acc : List B) :
    ∃ res, l.foldlM step acc = some res ∧ ∀ x, x ∈ res ↔ x ∈ acc ∨ ∃ c ∈ l, P c x := by
  induction l generalizing acc with
  | nil => exact ⟨acc, rfl, by simp⟩
  | cons c l ih =>
    obtain ⟨res, hres, hmem⟩ := h c mem_cons_self acc
    obtain ⟨res', hres', hmem'⟩ := ih (forall_mem_cons.mp h).2 res
    refine ⟨res', ?_, ?_⟩
    · rw [foldlM_cons, hres]
      exact hres'
    · intro x
      rw [hmem', hmem, or_assoc]
      simp only [mem_cons, or_and_right, exists_or, exists_eq_left]

/-- Down from a block to another: where the second lies below the first, the path so far without
    its first block, and the blocks strictly below the first on the way to the second. -/
theorem dfsNodesBetweenPdomNodes_spec (hld : PdtRecorded A.toAnalyses ld) {L : ℕ}
    (hL : ∀ b ∈ F.blocks, A.pdt.level b ≤ L) (tgt : B) :
    ∀ {fuel : ℕ} {cur : B}, cur ∈ F.blocks → L < fuel + A.pdt.level cur →
      ∀ path tgtNodes, ∃ res, dfsNodesBetweenPdomNodes ld fuel cur tgt path tgtNodes = some res ∧
        ∀ x, x ∈ res ↔ x ∈ tgtNodes ∨ Reach A.pdt.Child cur tgt ∧ (x ∈ (path ++ [cur]).tail ∨
            Reach A.pdt.Child cur x ∧ Reach A.pdt.Child x tgt ∧ x ≠ cur) := by
  intro fuel
  induction fuel with
  | zero =>
    intro cur hcur hfuel
    have hle := hL cur hcur
    omega
  | succ fuel ih =>
    intro cur hcur hfuel path tgtNodes
    by_cases htgt : cur = tgt
    · subst htgt
      refine ⟨tgtNodes ++ (path ++ [cur]).tail, ?_, ?_⟩
      · rw [dfsNodesBetweenPdomNodes, if_pos rfl]
      · intro x
        rw [mem_append]
        refine or_congr_right ?_
        constructor
        · exact fun hx => ⟨.refl, .inl hx⟩
        · rintro ⟨_, hx | ⟨hcx, hxc, hne⟩⟩
          · exact hx
          · exact absurd (DomTree.reach_antisymm hxc hcx) hne
    · obtain ⟨cs, hcs, hchild⟩ := hld.children cur hcur
      have htail : ∀ nxt : B, ((path ++ [cur]) ++ [nxt]).tail = (path ++ [cur]).tail ++ [nxt] :=
        fun nxt => tail_append_of_ne_nil (by simp)
      obtain ⟨res, hres, hmem⟩ := foldlM_adds cs (fun nxt hnxt acc => by
          have hc := (hchild nxt).mp hnxt
          have hnext := hc.level_eq
          exact ih (mem_blocks_of_child hc).2 (by omega) (path ++ [cur]) acc) tgtNodes
      refine ⟨res, ?_, ?_⟩
      · rw [dfsNodesBetweenPdomNodes]
        simp only [if_neg htgt, hcs]
        exact hres
      · intro x
        rw [hmem]
        refine or_congr_right ?_
        constructor
        · rintro ⟨nxt, hnxt, hreach, hx⟩
          have hc := (hchild nxt).mp hnxt
          have hne : ∀ {y}, Reach A.pdt.Child nxt y → y ≠ cur := by
            rintro y hy rfl
            have hle := DomTree.level_le_of_reach hy
            have hnext := hc.level_eq
            omega
          refine ⟨.head hc hreach, ?_⟩
          rw [htail, mem_append, mem_singleton] at hx
          rcases hx with (hx | rfl) | ⟨hnx, hxt, _⟩
          · exact .inl hx
          · exact .inr ⟨.single hc, hreach, hne .refl⟩
          · exact .inr ⟨.head hc hnx, hxt, hne hnx⟩
        · rintro ⟨hreach, hx⟩
          rcases hx with hx | ⟨hcx, hxt, hne⟩
          · rcases ReflTransGen.cases_head hreach with rfl | ⟨nxt, hc, hnt⟩
            · exact absurd rfl htgt
            · refine ⟨nxt, (hchild nxt).mpr hc, hnt, .inl ?_⟩
              rw [htail]
              exact mem_append_left _ hx
          · rcases ReflTransGen.cases_head hcx with rfl | ⟨nxt, hc, hnx⟩
            · exact absurd rfl hne
            · refine ⟨nxt, (hchild nxt).mpr hc, hnx.trans hxt, ?_⟩
              rw [htail, mem_append, mem_singleton]
              by_cases hxn : x = nxt
              · exact .inl (.inr hxn)
              · exact .inr ⟨hnx, hxt, hxn⟩

-- ── One edge

def ControlDependent (F : FunctionCFG B) (X P S : B) : Prop :=
  F.PostDom X S ∧ ¬(F.PostDom X P ∧ X ≠ P)

/-- What an edge has to meet: its end strictly post-dominates its start, or it leads from a
    reachable block to another one, and some block post-dominates both or none but the end itself
    post-dominates the end. -/
def Met (F : FunctionCFG B) (P S : B) : Prop :=
  F.PostDom S P ∧ S ≠ P ∨
    F.Reachable P ∧ S ≠ P ∧
      ((∃ C ∈ F.blocks, F.PostDom C P ∧ F.PostDom C S) ∨
        ∀ X ∈ F.blocks, F.PostDom X S → X = S)

section

omit [DecidableEq B]

theorem postDom_succ {X P S : B} (h : F.PostDom X P) (hne : X ≠ P) (hedge : F.Edge P S) :
    F.PostDom X S := by
  intro e he p hp
  have hmem := h e he (P :: p) (.cons hedge hp)
  exact (mem_cons.mp hmem).resolve_left hne

theorem postDom_refl (F : FunctionCFG B) (X : B) : F.PostDom X X := fun _ _ _ hp => hp.first_mem

theorem level_bound (F : FunctionCFG B) (t : DomTree B) : ∃ L, ∀ b ∈ F.blocks, t.level b ≤ L := by
  refine ⟨(F.blocks.map t.level).sum, ?_⟩
  intro b hb
  exact le_sum_of_mem (mem_map.mpr ⟨b, hb, rfl⟩)

end

-- ── More fuel changes no answer

theorem findNearestCommonPDominator_succ : ∀ (fuel : ℕ) (a : Option B) (b : B) (r : Option B),
    findNearestCommonPDominator ld fuel a b = some r →
      findNearestCommonPDominator ld (fuel + 1) a b = some r := by
  intro fuel
  induction fuel with
  | zero =>
    intro a b r h
    exact absurd h (by simp [findNearestCommonPDominator])
  | succ fuel ih =>
    intro a b r h
    cases a with
    | none => exact h
    | some a =>
      rw [findNearestCommonPDominator] at h ⊢
      by_cases hab : a = b
      · rw [if_pos hab] at h ⊢
        exact h
      · rw [if_neg hab] at h ⊢
        cases hlvA : ld.bb2PdomLevel a with
        | none => simp [hlvA] at h
        | some lvA =>
          cases hlvB : ld.bb2PdomLevel b with
          | none => simp [hlvA, hlvB] at h
          | some lvB =>
            simp only [hlvA, hlvB] at h ⊢
            cases hidom : ld.bb2PIdom (if lvA < lvB then b else a) with
            | none => simp [hidom] at h
            | some idom =>
              simp only [hidom] at h ⊢
              exact ih _ _ _ h

theorem dfsNodesBetweenPdomNodes_succ (tgt : B) : ∀ (fuel : ℕ) (cur : B) (path acc res : List B),
    dfsNodesBetweenPdomNodes ld fuel cur tgt path acc = some res →
      dfsNodesBetweenPdomNodes ld (fuel + 1) cur tgt path acc = some res := by
  intro fuel
  induction fuel with
  | zero =>
    intro cur path acc res h
    exact absurd h (by simp [dfsNodesBetweenPdomNodes])
  | succ fuel ih =>
    intro cur path acc res h
    rw [dfsNodesBetweenPdomNodes] at h ⊢
    by_cases htgt : cur = tgt
    · simp only [if_pos htgt] at h ⊢
      exact h
    · simp only [if_neg htgt] at h ⊢
      cases hcs : ld.pdtBBsMap cur with
      | none => simp [hcs] at h
      | some cs =>
        simp only [hcs] at h ⊢
        exact foldlM_mono (fun acc nxt res hres => ih nxt (path ++ [cur]) acc res hres) cs _ _ h

theorem controlTargets_succ (P S : B) (fuel : ℕ) (res : List B)
    (h : controlTargets ld fuel P S = some res) : controlTargets ld (fuel + 1) P S = some res := by
  unfold controlTargets at h ⊢
  cases hr : findNearestCommonPDominator ld fuel (some P) S with
  | none => simp [hr] at h
  | some r =>
    rw [findNearestCommonPDominator_succ fuel _ _ r hr]
    cases r with
    | none => simpa [hr] using h
    | some c =>
      simp only [hr] at h ⊢
      unfold extractNodesBetweenPdomNodes at h ⊢
      by_cases hSc : S = c
      · rw [if_pos hSc] at h ⊢
        exact h
      · rw [if_neg hSc] at h ⊢
        exact dfsNodesBetweenPdomNodes_succ S fuel c [] _ res h

-- ── What is recorded for an edge

/-- For an edge to be processed: the blocks strictly below the nearest common ancestor on the way
    to the end of the edge, and that ancestor if the edge starts there; the end only, if there is
    no common ancestor. -/
theorem controlTargets_spec (hld : PdtRecorded A.toAnalyses ld) {P S : B} (hP : P ∈ F.blocks)
    (hS : S ∈ F.blocks) :
    ∃ (r : Option B) (res : List B), Stops (fun fuel => controlTargets ld fuel P S) res ∧
      (∀ x, Reach A.pdt.Child x P ∧ Reach A.pdt.Child x S ↔ ∃ c ∈ r, Reach A.pdt.Child x c) ∧
      (r = none → ∀ x, x ∈ res ↔ x = S) ∧
      (∀ c ∈ r, ∀ x, x ∈ res ↔ c = P ∧ x = c ∨
        Reach A.pdt.Child c x ∧ Reach A.pdt.Child x S ∧ x ≠ c) := by
  obtain ⟨L, hL⟩ := level_bound F A.pdt
  have hfuel : (some P).elim 0 A.pdt.level + A.pdt.level S < 2 * L + 1 := by
    have hleP := hL P hP
    have hleS := hL S hS
    show A.pdt.level P + A.pdt.level S < 2 * L + 1
    omega
  obtain ⟨r, hr, hcommon⟩ := findNearestCommonPDominator_spec hld
    (by rintro _ ⟨⟩; exact hP) hS hfuel
  have hcommon' : ∀ x, Reach A.pdt.Child x P ∧ Reach A.pdt.Child x S ↔
      ∃ c ∈ r, Reach A.pdt.Child x c := by
    intro x
    rw [← hcommon]
    simp
  have hstops : ∀ {res}, controlTargets ld (2 * L + 1) P S = some res →
      Stops (fun fuel => controlTargets ld fuel P S) res :=
    fun h => stops_of_succ (fun n res h => controlTargets_succ P S n res h) h
  cases r with
  | none =>
    refine ⟨none, [S], hstops ?_, hcommon', fun _ x => mem_singleton, by simp⟩
    unfold controlTargets
    simp only [hr]
  | some c =>
    have hcS : Reach A.pdt.Child c S := ((hcommon' c).mpr ⟨c, rfl, .refl⟩).2
    have hlca : ∀ x, x ∈ (if c = P then [c] else []) ↔ c = P ∧ x = c := by
      intro x
      by_cases hcP : c = P
      · simp [hcP]
      · simp [hcP]
    by_cases hSc : S = c
    · refine ⟨some c, if c = P then [c] else [], hstops ?_, hcommon', by simp, ?_⟩
      · unfold controlTargets extractNodesBetweenPdomNodes
        simp only [hr, if_pos hSc]
      · rintro _ ⟨⟩ x
        rw [hlca, or_iff_left]
        rintro ⟨hcx, hxS, hne⟩
        rw [hSc] at hxS
        exact hne (DomTree.reach_antisymm hxS hcx)
    · have hc : c ∈ F.blocks := by
        rcases ReflTransGen.cases_head hcS with heq | ⟨d, hcd, _⟩
        · exact absurd heq.symm hSc
        · exact (mem_blocks_of_child hcd).1
      have hdepth : L < 2 * L + 1 + A.pdt.level c := by omega
      obtain ⟨res, hres, hmem⟩ := dfsNodesBetweenPdomNodes_spec hld hL S hc hdepth []
        (if c = P then [c] else [])
      refine ⟨some c, res, hstops ?_, hcommon', by simp, ?_⟩
      · unfold controlTargets extractNodesBetweenPdomNodes
        simp only [hr, if_neg hSc]
        exact hres
      · rintro _ ⟨⟩ x
        rw [hmem, hlca]
        refine or_congr_right ?_
        constructor
        · rintro ⟨_, hx | hx⟩
          · cases hx
          · exact hx
        · exact fun hx => ⟨hcS, .inr hx⟩

theorem mem_controlTargets {P S c x : B}
    (hcommon : ∀ x, Reach A.pdt.Child x P ∧ Reach A.pdt.Child x S ↔ Reach A.pdt.Child x c) :
    c = P ∧ x = c ∨ Reach A.pdt.Child c x ∧ Reach A.pdt.Child x S ∧ x ≠ c ↔
      Reach A.pdt.Child x S ∧ ¬(Reach A.pdt.Child x P ∧ x ≠ P) := by
  obtain ⟨hcP, hcS⟩ := (hcommon c).mpr .refl
  constructor
  · rintro (⟨rfl, rfl⟩ | ⟨hcx, hxS, hne⟩)
    · exact ⟨hcS, fun h => h.2 rfl⟩
    · refine ⟨hxS, ?_⟩
      rintro ⟨hxP, _⟩
      exact hne (DomTree.reach_antisymm ((hcommon x).mp ⟨hxP, hxS⟩) hcx)
  · rintro ⟨hxS, hnot⟩
    by_cases hxc : x = c
    · subst hxc
      left
      exact ⟨by_contra fun hne => hnot ⟨hcP, hne⟩, rfl⟩
    · right
      refine ⟨?_, hxS, hxc⟩
      rcases DomTree.ancestors_comparable hcS hxS with hcx | hxc'
      · exact hcx
      · -- above the nearest common ancestor there is only what post-dominates `P`
        have hxP := hxc'.trans hcP
        have hxeq : x = P := by_contra fun hne => hnot ⟨hxP, hne⟩
        subst hxeq
        exact hcP

section

variable (hld : PdtRecorded A.toAnalyses ld)
include hld

section

variable {P S : B} (hP : P ∈ F.blocks) (hPS : F.Edge P S)
include hP hPS

/-- `postDominate` on the blocks of an edge from a reachable block: the end is the start, or
    strictly post-dominates it. -/
theorem postDominate_edge :
    ld.postDominate S P ↔ ¬F.Reachable P ∨ S = P ∨ F.PostDom S P := by
  have hS : S ∈ F.blocks := F.succs_mem P S hP hPS
  by_cases hreach : F.Reachable P
  · have hreachS : F.Reachable S := .tail hreach hPS
    obtain ⟨cs, hcs, hchild⟩ := hld.children S hS
    have hlists : Analyses.Lists ld.pdtBBsMap S P ↔ A.pdt.Child S P := by
      rw [← hchild]
      constructor
      · rintro ⟨s, hs, hx⟩
        rw [hcs, Option.some_inj] at hs
        rw [hs]
        exact hx
      · exact fun hx => ⟨cs, hcs, hx⟩
    rw [SVFLoopAndDomInfo.postDominate,
      Analyses.query_iff hld.reachable hlists hreachS hreach, or_iff_right (not_not.mpr hreach)]
    refine or_congr_right' ?_
    intro hne
    rw [← A.pdt_exact S P hS hP]
    constructor
    · exact .single
    · intro hSP
      -- the parent of `P` post-dominates `S`, so it is `S`
      obtain ⟨n, hn⟩ := Option.isSome_iff_exists.mp (A.pdt_node P hP)
      obtain ⟨q, _, hqP, hSq⟩ := DomTree.strict_ancestor hn hSP hne
      have hq : q ∈ F.blocks := (mem_blocks_of_child hqP).1
      have hqne : q ≠ P := by
        rintro rfl
        have hnext := hqP.level_eq
        omega
      have hqS : F.PostDom q S := postDom_succ ((A.pdt_exact q P hq hP).mp (.single hqP)) hqne hPS
      have heq := DomTree.reach_antisymm ((A.pdt_exact q S hq hS).mpr hqS) hSq
      rw [← heq]
      exact hqP
  · have hun : ld.isUnreachable P := by
      simp [SVFLoopAndDomInfo.isUnreachable, hld.reachable, hreach]
    refine iff_of_true ?_ (.inl hreach)
    rw [SVFLoopAndDomInfo.postDominate, SVFLoopAndDomInfo.query]
    by_cases hSP : S = P
    · rw [if_pos hSP]
    · rw [if_neg hSP, if_pos hun]

theorem edgeTargets_leftOut (hleft : ld.postDominate S P) :
    ∃ res, Stops (edgeTargets ld P S) res ∧ (∀ X ∈ res, X ∈ F.blocks) ∧
      ((∀ X ∈ F.blocks, X ∈ res ↔ ControlDependent F X P S) ↔ Met F P S) := by
  have hS : S ∈ F.blocks := F.succs_mem P S hP hPS
  have hself : ¬(F.PostDom S P ∧ S ≠ P) → ControlDependent F S P S := fun h => ⟨postDom_refl F S, h⟩
  refine ⟨[], ⟨0, fun fuel _ => ?_⟩, by simp, ?_⟩
  · rw [edgeTargets, if_pos hleft]
  · by_cases hstrict : F.PostDom S P ∧ S ≠ P
    · refine iff_of_true ?_ (.inl hstrict)
      intro X hX
      refine iff_of_false not_mem_nil ?_
      rintro ⟨hXS, hnot⟩
      have hXS' := (A.pdt_exact X S hX hS).mpr hXS
      have hSP' := (A.pdt_exact S P hS hP).mpr hstrict.1
      refine hnot ⟨(A.pdt_exact X P hX hP).mp (hXS'.trans hSP'), ?_⟩
      rintro rfl
      exact hstrict.2 (DomTree.reach_antisymm hSP' hXS')
    · refine iff_of_false ?_ ?_
      · intro h
        cases (h S hS).mpr (hself hstrict)
      · rintro (h | ⟨hreach, hne, _⟩)
        · exact hstrict h
        · rcases (postDominate_edge hld hP hPS).mp hleft with h | h | h
          · exact h hreach
          · exact hne h
          · exact hstrict ⟨h, hne⟩

theorem edgeTargets_climbed (hleft : ¬ld.postDominate S P) :
    ∃ res, Stops (edgeTargets ld P S) res ∧ (∀ X ∈ res, X ∈ F.blocks) ∧
      ((∀ X ∈ F.blocks, X ∈ res ↔ ControlDependent F X P S) ↔ Met F P S) := by
  have hS : S ∈ F.blocks := F.succs_mem P S hP hPS
  have hright : ¬(¬F.Reachable P ∨ S = P ∨ F.PostDom S P) :=
    fun h => hleft ((postDominate_edge hld hP hPS).mpr h)
  rw [not_or, not_not, not_or] at hright
  obtain ⟨hreach, hne, hnot⟩ := hright
  obtain ⟨r, res, hstops, hcommon, hnone, hsome⟩ := controlTargets_spec hld hP hS
  have hedge : edgeTargets ld P S = fun fuel => controlTargets ld fuel P S := by
    funext fuel
    rw [edgeTargets, if_neg hleft]
  rw [hedge]
  have hmet : Met F P S ↔ (∃ C ∈ F.blocks, F.PostDom C P ∧ F.PostDom C S) ∨
      ∀ X ∈ F.blocks, F.PostDom X S → X = S := by
    constructor
    · rintro (h | ⟨_, _, h⟩)
      · exact absurd h.1 hnot
      · exact h
    · exact fun h => .inr ⟨hreach, hne, h⟩
  have hcd : ∀ X ∈ F.blocks, ControlDependent F X P S ↔
      Reach A.pdt.Child X S ∧ ¬(Reach A.pdt.Child X P ∧ X ≠ P) := by
    intro X hX
    rw [ControlDependent, A.pdt_exact X S hX hS, A.pdt_exact X P hX hP]
  have hblock : ∀ {X}, Reach A.pdt.Child X S → X ∈ F.blocks := by
    intro X hXS
    rcases ReflTransGen.cases_head hXS with rfl | ⟨Y, hXY, _⟩
    · exact hS
    · exact (mem_blocks_of_child hXY).1
  cases r with
  | none =>
    have hres := hnone rfl
    have hapart : ∀ X, Reach A.pdt.Child X S → ¬Reach A.pdt.Child X P := by
      intro X hXS hXP
      obtain ⟨c, hc, _⟩ := (hcommon X).mp ⟨hXP, hXS⟩
      cases hc
    refine ⟨res, hstops, ?_, ?_⟩
    · intro X hX
      rw [(hres X).mp hX]
      exact hS
    · have hnoC : ¬∃ C ∈ F.blocks, F.PostDom C P ∧ F.PostDom C S := by
        rintro ⟨C, hC, hCP, hCS⟩
        exact hapart C ((A.pdt_exact C S hC hS).mpr hCS) ((A.pdt_exact C P hC hP).mpr hCP)
      rw [hmet, or_iff_right hnoC]
      refine forall₂_congr ?_
      intro X hX
      rw [hres, hcd X hX, ← A.pdt_exact X S hX hS]
      constructor
      · exact fun h hXS => h.mpr ⟨hXS, fun hXP => hapart X hXS hXP.1⟩
      · intro h
        constructor
        · rintro rfl
          exact ⟨.refl, fun hXP => hapart X .refl hXP.1⟩
        · exact fun hX' => h hX'.1
  | some c =>
    have hres := hsome c rfl
    have hcommon' : ∀ x, Reach A.pdt.Child x P ∧ Reach A.pdt.Child x S ↔ Reach A.pdt.Child x c := by
      intro x
      rw [hcommon]
      simp
    obtain ⟨hcP, hcS⟩ := (hcommon' c).mpr .refl
    have hc : c ∈ F.blocks := hblock hcS
    refine ⟨res, hstops, ?_, ?_⟩
    · intro X hX
      exact hblock ((mem_controlTargets hcommon').mp ((hres X).mp hX)).1
    · rw [hmet]
      refine iff_of_true ?_ (.inl ⟨c, hc, (A.pdt_exact c P hc hP).mp hcP,
        (A.pdt_exact c S hc hS).mp hcS⟩)
      intro X hX
      rw [hres, hcd X hX]
      exact mem_controlTargets hcommon'

/-- What is recorded for an edge is what is control dependent on it exactly if the edge meets the
    condition. -/
theorem edgeTargets_exact_iff :
    ∃ res, Stops (edgeTargets ld P S) res ∧ (∀ X ∈ res, X ∈ F.blocks) ∧
      ((∀ X ∈ F.blocks, X ∈ res ↔ ControlDependent F X P S) ↔ Met F P S) := by
  by_cases hleft : ld.postDominate S P
  · exact edgeTargets_leftOut hld hP hPS hleft
  · exact edgeTargets_climbed hld hP hPS hleft

end

end

-- ── The whole function

namespace CDGBuilder

variable {cdg cdg' cdg'' : CDGBuilder B} {branchID : B → B → ℤ}

structure Grows (cdg : CDGBuilder B) (R : B → B → ℤ → Prop) (cdg' : CDGBuilder B) : Prop where
  control : ∀ P X pos, pos ∈ cdg'.svfcontrolMap P X ↔ pos ∈ cdg.svfcontrolMap P X ∨ R P X pos
  dependent : ∀ P X pos, pos ∈ cdg'.svfdependentOnMap X P ↔
    pos ∈ cdg.svfdependentOnMap X P ∨ R P X pos

section

omit [DecidableEq B]

theorem grows_none {R : B → B → ℤ → Prop} (hR : ∀ P X pos, ¬R P X pos) : Grows cdg R cdg where
  control P X pos := (or_iff_left (hR P X pos)).symm
  dependent P X pos := (or_iff_left (hR P X pos)).symm

theorem Grows.trans {R R' R'' : B → B → ℤ → Prop} (h : Grows cdg R cdg') (h' : Grows cdg' R' cdg'')
    (hR : ∀ P X pos, R'' P X pos ↔ R P X pos ∨ R' P X pos) : Grows cdg R'' cdg'' where
  control P X pos := by rw [h'.control, h.control, hR, or_assoc]
  dependent P X pos := by rw [h'.dependent, h.dependent, hR, or_assoc]

theorem foldlM_grows {C : Type} {step : CDGBuilder B → C → Option (CDGBuilder B)}
    {R : C → B → B → ℤ → Prop} (l : List C)
    (h : ∀ c ∈ l, ∀ cdg, ∃ cdg', step cdg c = some cdg' ∧ Grows cdg (R c) cdg')
    (cdg : CDGBuilder B) :
    ∃ cdg', l.foldlM step cdg = some cdg' ∧ Grows cdg (fun P X pos => ∃ c ∈ l, R c P X pos) cdg' := by
  induction l generalizing cdg with
  | nil => exact ⟨cdg, rfl, grows_none (by simp)⟩
  | cons c l ih =>
    obtain ⟨cdg1, hstep, h1⟩ := h c mem_cons_self cdg
    obtain ⟨cdg2, hloop, h2⟩ := ih (forall_mem_cons.mp h).2 cdg1
    refine ⟨cdg2, ?_, h1.trans h2 ?_⟩
    · rw [foldlM_cons, hstep]
      exact hloop
    · intro P X pos
      simp only [mem_cons, or_and_right, exists_or, exists_eq_left]

end

theorem mem_update₂ {m : B → B → Finset ℤ} {a b a' b' : B} {pos k : ℤ} :
    k ∈ update m a (update (m a) b (insert pos (m a b))) a' b' ↔
      k ∈ m a' b' ∨ a' = a ∧ b' = b ∧ k = pos := by
  by_cases ha : a' = a
  · subst ha
    rw [update_self]
    by_cases hb : b' = b
    · subst hb
      rw [update_self, Finset.mem_insert, or_comm]
      simp
    · rw [update_of_ne hb]
      simp [hb]
  · rw [update_of_ne ha]
    simp [ha]

theorem updateMap_grows (cdg : CDGBuilder B) (pred bb : B) (pos : ℤ) :
    Grows cdg (fun P X k => P = pred ∧ X = bb ∧ k = s32 pos) (cdg.updateMap pred bb pos) where
  control _ _ _ := mem_update₂
  dependent P X k := by
    refine mem_update₂.trans (or_congr_right ?_)
    exact and_left_comm

theorem foldl_updateMap_grows (pred : B) (pos : ℤ) (bbs : List B) (cdg : CDGBuilder B) :
    Grows cdg (fun P X k => P = pred ∧ X ∈ bbs ∧ k = s32 pos)
      (bbs.foldl (fun cdg bb => cdg.updateMap pred bb pos) cdg) := by
  induction bbs generalizing cdg with
  | nil => exact grows_none (by simp)
  | cons bb bbs ih =>
    refine (updateMap_grows cdg pred bb pos).trans (ih _) ?_
    intro P X k
    rw [mem_cons]
    tauto

theorem controlEdge_succ (fuel : ℕ) (cdg : CDGBuilder B) (P S : B) (cdg' : CDGBuilder B)
    (h : controlEdge ld branchID fuel cdg P S = some cdg') :
    controlEdge ld branchID (fuel + 1) cdg P S = some cdg' := by
  unfold controlEdge at h ⊢
  cases hres : controlTargets ld fuel P S with
  | none => simp [hres] at h
  | some res =>
    rw [controlTargets_succ P S fuel res hres]
    simp only [hres] at h
    exact h

theorem buildControlDependence_succ (fuel : ℕ) (cdg : CDGBuilder B) (cdg' : CDGBuilder B)
    (h : buildControlDependence F ld branchID fuel cdg = some cdg') :
    buildControlDependence F ld branchID (fuel + 1) cdg = some cdg' := by
  unfold buildControlDependence at h ⊢
  refine foldlM_mono ?_ _ _ _ h
  intro s item s' hs
  refine foldlM_mono ?_ _ _ _ hs
  intro s S s' hs
  exact controlEdge_succ fuel s item.1 S s' hs

theorem buildControlDependence_spec (branchID : B → B → ℤ) {targets : B → B → List B}
    (htargets : ∀ P ∈ F.blocks, ∀ S, F.Edge P S → Stops (edgeTargets ld P S) (targets P S))
    (cdg : CDGBuilder B) :
    ∃ cdg', Stops (fun fuel => buildControlDependence F ld branchID fuel cdg) cdg' ∧
      Grows cdg (fun P X pos => P ∈ F.blocks ∧
        ∃ S, F.Edge P S ∧ X ∈ targets P S ∧ pos = s32 (branchID P S)) cdg' := by
  -- one amount of fuel is enough for all edges
  have hedges : ∃ n, ∀ fuel, n < fuel → ∀ e ∈ F.blocks.flatMap (fun P => (F.succs P).map (P, ·)),
      edgeTargets ld e.1 e.2 fuel = some (targets e.1 e.2) := by
    refine stops_forall _ ?_
    intro e he
    obtain ⟨P, hP, he⟩ := mem_flatMap.mp he
    obtain ⟨S, hS, rfl⟩ := mem_map.mp he
    exact htargets P hP S hS
  obtain ⟨n, hn⟩ := hedges
  have hone : ∀ P ∈ F.blocks, ∀ S, F.Edge P S →
      edgeTargets ld P S (n + 1) = some (targets P S) := by
    intro P hP S hS
    exact hn (n + 1) (Nat.lt_succ_self n) (P, S) (mem_flatMap.mpr ⟨P, hP, mem_map.mpr ⟨S, hS, rfl⟩⟩)
  have hround : ∀ item ∈ extractBBS F ld, ∀ cdg : CDGBuilder B, ∃ cdg',
      item.2.foldlM (fun cdg succ => controlEdge ld branchID (n + 1) cdg item.1 succ) cdg =
          some cdg' ∧
        Grows cdg (fun P X pos => ∃ S ∈ item.2,
          P = item.1 ∧ X ∈ targets item.1 S ∧ pos = s32 (branchID item.1 S)) cdg' := by
    intro item hitem
    obtain ⟨P, hP, rfl⟩ := mem_map.mp hitem
    refine foldlM_grows _ ?_
    intro S hS cdg
    obtain ⟨hS, hnot⟩ := mem_filter.mp hS
    have htgt := hone P hP S hS
    rw [edgeTargets, if_neg (by simpa using hnot)] at htgt
    refine ⟨_, ?_, foldl_updateMap_grows P (branchID P S) (targets P S) cdg⟩
    simp only [controlEdge, htgt]
  obtain ⟨cdg', hrun, hgrows⟩ := foldlM_grows _ hround cdg
  refine ⟨cdg', stops_of_succ (fun m t h => buildControlDependence_succ m cdg t h) hrun, ?_⟩
  -- an edge that is left out has no targets
  have hsame : ∀ P X pos, (∃ item ∈ extractBBS F ld, ∃ S ∈ item.2, P = item.1 ∧
      X ∈ targets item.1 S ∧ pos = s32 (branchID item.1 S)) ↔ P ∈ F.blocks ∧
        ∃ S, F.Edge P S ∧ X ∈ targets P S ∧ pos = s32 (branchID P S) := by
    intro P X pos
    constructor
    · rintro ⟨item, hitem, S, hS, rfl, hX, hpos⟩
      obtain ⟨P, hP, rfl⟩ := mem_map.mp hitem
      exact ⟨hP, S, (mem_filter.mp hS).1, hX, hpos⟩
    · rintro ⟨hP, S, hS, hX, hpos⟩
      refine ⟨_, mem_map.mpr ⟨P, hP, rfl⟩, S, mem_filter.mpr ⟨hS, ?_⟩, rfl, hX, hpos⟩
      by_contra hleft
      have htgt := hone P hP S hS
      rw [edgeTargets, if_pos (by simpa using hleft), Option.some_inj] at htgt
      rw [← htgt] at hX
      cases hX
  constructor
  case control =>
    intro P X pos
    rw [hgrows.control, hsame]
  case dependent =>
    intro P X pos
    rw [hgrows.dependent, hsame]

/-- The analyses of a function are recorded; for every edge of its control flow the blocks
    recorded are those that are control dependent on it exactly if the edge meets the condition
    (`Met`); and the maps hold the branch of the edge for these blocks, and nothing else. -/
theorem buildControlDependence_exact_iff (A : ExactAnalyses F) (branchID : B → B → ℤ) :
    ∃ ld, Stops A.initDomTree ld ∧ ∃ targets : B → B → List B,
      (∀ P ∈ F.blocks, ∀ S, F.Edge P S → Stops (edgeTargets ld P S) (targets P S) ∧
        ((∀ X ∈ F.blocks, X ∈ targets P S ↔ ControlDependent F X P S) ↔ Met F P S)) ∧
      ∃ cdg, Stops (fun fuel => buildControlDependence F ld branchID fuel new) cdg ∧
        ∀ P X pos, (pos ∈ cdg.svfcontrolMap P X ↔ P ∈ F.blocks ∧
            ∃ S, F.Edge P S ∧ X ∈ targets P S ∧ pos = s32 (branchID P S)) ∧
          (pos ∈ cdg.svfdependentOnMap X P ↔ pos ∈ cdg.svfcontrolMap P X) := by
  obtain ⟨ld, hstops, hld⟩ := initDomTree_pdtRecorded A.toAnalyses
  have hedge : ∀ P S, ∃ res, P ∈ F.blocks → F.Edge P S → Stops (edgeTargets ld P S) res ∧
        ((∀ X ∈ F.blocks, X ∈ res ↔ ControlDependent F X P S) ↔ Met F P S) := by
    intro P S
    by_cases h : P ∈ F.blocks ∧ F.Edge P S
    · obtain ⟨res, hres, _, hiff⟩ := edgeTargets_exact_iff (A := A) hld h.1 h.2
      exact ⟨res, fun _ _ => ⟨hres, hiff⟩⟩
    · exact ⟨[], fun hP hPS => absurd ⟨hP, hPS⟩ h⟩
  choose targets htargets using hedge
  obtain ⟨cdg, hcdg, hgrows⟩ := buildControlDependence_spec branchID
    (fun P hP S hPS => (htargets P S hP hPS).1) new
  refine ⟨ld, hstops, targets, fun P hP S hPS => htargets P S hP hPS, cdg, hcdg, ?_⟩
  intro P X pos
  have hempty : pos ∉ (new : CDGBuilder B).svfcontrolMap P X := Finset.notMem_empty pos
  have hempty' : pos ∉ (new : CDGBuilder B).svfdependentOnMap X P := Finset.notMem_empty pos
  constructor
  · rw [hgrows.control, or_iff_right hempty]
  · rw [hgrows.control, hgrows.dependent, or_iff_right hempty, or_iff_right hempty']

end CDGBuilder

-- ── A block that branches to itself

inductive LoopBlock | header | done
deriving DecidableEq

open LoopBlock

def selfLoop : FunctionCFG LoopBlock where
  blocks := [header, done]
  entry := header
  succs := fun b => match b with
    | header => [header, done]
    | done => []
  exits := [done]
  entry_mem := by decide
  succs_mem := by
    intro a b _ _
    cases b <;> decide

def selfLoopDt : DomTree LoopBlock where
  getNode := fun b => match b with
    | header => some { level := 0, idom := none, children := [done] }
    | done => some { level := 1, idom := some header, children := [] }
  child := by
    intro a b n hn hb
    cases a with
    | header =>
      cases hn
      rw [mem_singleton.mp hb]
      exact ⟨_, rfl, rfl, rfl⟩
    | done =>
      cases hn
      cases hb

/-- In the post-dominator tree it is the other way round. -/
def selfLoopPdt : DomTree LoopBlock where
  getNode := fun b => match b with
    | header => some { level := 2, idom := some done, children := [] }
    | done => some { level := 1, idom := none, children := [header] }
  child := by
    intro a b n hn hb
    cases a with
    | header =>
      cases hn
      cases hb
    | done =>
      cases hn
      rw [mem_singleton.mp hb]
      exact ⟨_, rfl, rfl, rfl⟩

theorem selfLoopDt_child : selfLoopDt.Child header done := ⟨_, rfl, mem_singleton_self _⟩

theorem selfLoopPdt_child : selfLoopPdt.Child done header := ⟨_, rfl, mem_singleton_self _⟩

theorem selfLoop_reachable (b : LoopBlock) : selfLoop.Reachable b := by
  have hedge : selfLoop.Edge header done := by
    show done ∈ [header, done]
    decide
  cases b with
  | header => exact .refl
  | done => exact .single hedge

theorem selfLoop_dom (a b : LoopBlock) : Reach selfLoopDt.Child a b ↔ selfLoop.Dom a b := by
  by_cases hab : a = b
  · subst hab
    exact iff_of_true .refl (fun _ hp => hp.last_mem)
  · cases a with
    | header =>
      cases b with
      | header => exact absurd rfl hab
      | done =>
        exact iff_of_true (.single selfLoopDt_child) (fun _ hp => hp.first_mem)
    | done =>
      cases b with
      | done => exact absurd rfl hab
      | header =>
        refine iff_of_false ?_ ?_
        · intro h
          have hle := DomTree.level_le_of_reach h
          cases hle
        · intro h
          exact absurd (h [header] (.single header)) (by decide)

theorem selfLoop_postDom (a b : LoopBlock) :
    Reach selfLoopPdt.Child a b ↔ selfLoop.PostDom a b := by
  by_cases hab : a = b
  · subst hab
    exact iff_of_true .refl (postDom_refl selfLoop a)
  · cases a with
    | header =>
      cases b with
      | header => exact absurd rfl hab
      | done =>
        refine iff_of_false ?_ ?_
        · intro h
          have hle := DomTree.level_le_of_reach h
          exact absurd hle (by decide)
        · intro h
          exact absurd (h done (by decide) [done] (.single done)) (by decide)
    | done =>
      cases b with
      | done => exact absurd rfl hab
      | header =>
        refine iff_of_true (.single selfLoopPdt_child) ?_
        intro e he p hp
        rw [mem_singleton.mp he] at hp
        exact hp.last_mem

/-- The analyses of the loop. -/
def selfLoopAnalyses : ExactAnalyses selfLoop where
  dt := selfLoopDt
  pdt := selfLoopPdt
  df := []
  loopFor := fun _ => none
  dt_node := fun b => iff_of_true (by cases b <;> rfl) (selfLoop_reachable b)
  dt_anc := fun a b _ _ => selfLoop_dom a b
  pdt_node := fun b _ => by cases b <;> rfl
  pdt_anc := fun a b _ _ => selfLoop_postDom a b
  pdt_blocks := fun b _ => by cases b <;> decide
  pdt_exact := fun a b _ _ => selfLoop_postDom a b
  pdt_rooted :=
    { idom := by
        intro a b n hn hidom
        cases b with
        | header =>
          cases hn
          cases hidom
          exact selfLoopPdt_child
        | done =>
          cases hn
          cases hidom
      root := by
        intro b n hn hidom
        cases b with
        | header =>
          cases hn
          cases hidom
        | done =>
          cases hn
          rfl }

/-- Nothing is recorded for the branch of the header to itself, on which it depends. -/
theorem edgeTargets_selfLoop :
    ∃ ld res, Stops selfLoopAnalyses.initDomTree ld ∧ selfLoop.Edge header header ∧
      Stops (edgeTargets ld header header) res ∧
      ¬∀ X ∈ selfLoop.blocks, X ∈ res ↔ ControlDependent selfLoop X header header := by
  obtain ⟨ld, hstops, hld⟩ := initDomTree_pdtRecorded selfLoopAnalyses.toAnalyses
  have hedge : selfLoop.Edge header header := by
    show header ∈ [header, done]
    decide
  obtain ⟨res, hres, _, hiff⟩ := edgeTargets_exact_iff (A := selfLoopAnalyses) hld
    (show header ∈ selfLoop.blocks by decide) hedge
  refine ⟨ld, res, hstops, hedge, hres, ?_⟩
  rw [hiff]
  rintro (⟨_, h⟩ | ⟨_, h, _⟩)
  · exact h rfl
  · exact h rfl

end SvfCDG
