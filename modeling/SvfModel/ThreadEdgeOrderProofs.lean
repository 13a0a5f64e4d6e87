import SvfModel.ThreadEdgeProofs

/-!
# `MTASVFGBuilder::connectMHPEdges`

The pairs of stores and loads and the pairs of stores are handled in the order of hash sets, and
the tests of a pair walk the graph that earlier pairs have extended. Still the order does not
matter. A thread edge starts at a store and ends at a store or a load, where a search stops, so
only a thread edge at the node itself is in the way of a test. If it joins two nodes of one span,
these are protected by a common lock, and both have been asked before the edge was added
(`Inv.asked`). So every answer is the one for the graph without thread edges, and the edges are
those of the pairs that pass with these answers (**`connectMHPEdges_order`**).
-/

namespace SvfLockQuery.LockAnalysis

variable {N I V : Type} [DecidableEq N] [DecidableEq I] [DecidableEq V]
  {P : LockedProgram N I V} {s : LockAnalysis N I} {i1 i2 : I}

/-- Instructions of one span are protected by the lock of the span. -/
theorem protected_of_isInSameSpan (h : s.isInSameSpan i1 i2) :
    s.isProtectedByCommonLock P i1 i2 := by
  rw [isInSameSpan] at h
  rw [isProtectedByCommonLock]
  split_ifs at h ⊢ with hin
  · rw [isInSameCISpan] at h
    split_ifs at h with hcond
    simp only [Bool.and_eq_true, Bool.not_eq_true', List.any_eq_true, decide_eq_true_eq] at hcond h
    obtain ⟨l, hl, l', hl', heq⟩ := h
    exact protected_intra_iff.mpr ⟨hcond, l, hl, l', hl', congrArg P.getLockVal heq⟩
  · rw [isInSameCSSpan] at h
    split_ifs at h with hnone
    obtain ⟨hne1, hne2⟩ := not_or.mp hnone
    refine protected_cxt_iff.mpr ⟨hne1, hne2, fun cts1 h1 cts2 h2 => ?_⟩
    refine (of_decide_eq_true h cts1 h1 cts2 h2).imp_right fun hsame hlocks => ?_
    obtain ⟨hlocks1, hlocks2⟩ := hlocks
    rw [isInSameSpanUnderCxts, hlocks1, hlocks2, Bool.not_true, Bool.or_false,
      if_neg Bool.false_ne_true] at hsame
    obtain ⟨l, hl⟩ := Finset.nonempty_iff_ne_empty.mpr (of_decide_eq_true hsame)
    exact ⟨l, (Finset.mem_inter.mp hl).1, l, (Finset.mem_inter.mp hl).2, rfl⟩

end SvfLockQuery.LockAnalysis

namespace SvfThreadEdge

open SvfLockQuery SvfReadPrecision Input List
open Relation (ReflTransGen)

/-- The analyses do not tell the nodes of a pair apart, and no load defines a value. -/
structure ParallelInput (N I V : Type) [DecidableEq N] [DecidableEq I] [DecidableEq V] extends
    Input N I where
  program : LockedProgram N I V
  protected_eq : ∀ i j, isProtectedByCommonLock i j = lockana.isProtectedByCommonLock program i j
  mhp_comm : ∀ i j, mayHappenInParallel i j = mayHappenInParallel j i
  isAlias_comm : ∀ p q, isAlias p q = isAlias q p
  load_out : ∀ e ∈ svfg.edges, e.isIndirectVFGEdge = true → svfg.kind e.src ≠ .Load
  usePCG : Bool
  pcg : I → I → Bool
  pcg_comm : ∀ i j, pcg i j = pcg j i

structure Enumeration (svfg : SVFG) where
  stores : List NodeID
  loads : List NodeID
  nodup : stores.Nodup
  mem_stores : ∀ n, n ∈ stores ↔ n ∈ svfg.stnodeSet
  mem_loads : ∀ n, n ∈ loads ↔ n ∈ svfg.nodes ∧ svfg.kind n = .Load ∧ svfg.getInst n = true

variable {N I V : Type} [DecidableEq N] [DecidableEq I] [DecidableEq V] (G : ParallelInput N I V)
  (F : G.toInput.Finds)

/-- Whether the pair is handled where the flag is `ADDEDGE_NONSPARSE`. -/
def ParallelInput.nonSparse (n1 n2 : NodeID) : Bool :=
  !G.usePCG || (G.pcg (G.inst n1) (G.inst n2) || G.mayHappenInParallel (G.inst n1) (G.inst n2))

def handleStoreLoadNonSparse (st : MTASVFGBuilder) (n1 n2 : NodeID) : MTASVFGBuilder :=
  let pts := G.getPts (G.getPAGDstNodeID n1) ∩ G.getPts (G.getPAGSrcNodeID n2)
  addTDEdges st n1 n2 pts

def handleStoreStoreNonSparse (st : MTASVFGBuilder) (n1 n2 : NodeID) : MTASVFGBuilder :=
  let pts := G.getPts (G.getPAGDstNodeID n1) ∩ G.getPts (G.getPAGDstNodeID n2)
  addTDEdges (addTDEdges st n1 n2 pts) n2 n1 pts

def storeLoadBody (n1 : NodeID) (st : MTASVFGBuilder) (n2 : NodeID) : MTASVFGBuilder :=
  if G.flag = .ADDEDGE_NONSPARSE then
    if G.nonSparse n1 n2 then handleStoreLoadNonSparse G st n1 n2 else st
  else handleStoreLoad G.toInput F st n1 n2

def storeStoreBody (n1 : NodeID) (st : MTASVFGBuilder) (n2 : NodeID) : MTASVFGBuilder :=
  if G.flag = .ADDEDGE_NONSPARSE then
    if G.nonSparse n1 n2 then handleStoreStoreNonSparse G st n1 n2 else st
  else handleStoreStore G.toInput F st n1 n2

/-- The loops over `stnodeSet` and `ldnodeSet`. -/
def connectMHPEdges (loads : List NodeID) : List NodeID → MTASVFGBuilder → MTASVFGBuilder
  | [], st => st
  | n1 :: rest, st => connectMHPEdges loads rest
    (rest.foldl (storeStoreBody G F n1) (loads.foldl (storeLoadBody G F n1) st))

-- ── The answers without thread edges

namespace ParallelInput

def TailAtStart (n : NodeID) : Prop :=
  ∀ y ∈ behind SVFGEdge.src SVFGEdge.dst G.svfg.isUse G.svfg.edges n, G.tailSpan y n = false

def HeadAtStart (n : NodeID) : Prop :=
  ∀ y ∈ behind SVFGEdge.dst SVFGEdge.src G.isStore G.svfg.edges n, G.sameSpan y n = false

def ptsOf (p : NodeIDPair) : Finset NodeID :=
  G.getPts (G.getPAGDstNodeID p.1) ∩ G.getPts (G.pointer p.2)

/-- A pair passes the tests of its instructions and pointers. -/
def Parallel (a b : NodeID) : Prop :=
  (G.flag = .ADDEDGE_NOMHP ∨ G.mayHappenInParallel (G.inst a) (G.inst b) = true) ∧
    (G.flag = .ADDEDGE_NOALIAS ∨ G.isAlias (G.getPAGDstNodeID a) (G.pointer b) = true)

/-- The lock spans are tested. -/
def Locks : Prop := G.flag ≠ .ADDEDGE_NOLOCK ∧ G.flag ≠ .ADDEDGE_NONSPARSE

def Spans (a b : NodeID) : Prop :=
  G.flag ≠ .ADDEDGE_NOLOCK ∧ G.isProtectedByCommonLock (G.inst a) (G.inst b) = true →
    G.TailAtStart a ∧ G.HeadAtStart b

/-- The edge of a pair, if it passes. -/
def Adds (a b : NodeID) : Set (NodeIDPair × Finset NodeID) :=
  {x | x = ((a, b), G.ptsOf (a, b)) ∧
    if G.flag = .ADDEDGE_NONSPARSE then G.nonSparse a b = true else G.Parallel a b ∧ G.Spans a b}

end ParallelInput

structure Cache.Kept (c : Cache) (A : NodeID → Prop) : Prop where
  answers : ∀ n b, c.answers n = some b → (b = true ↔ A n)
  nodes : ∀ n, c.answers n = none → c.nodes n = none

structure Inv (st : MTASVFGBuilder) : Prop where
  tail : st.tail.Kept G.TailAtStart
  head : st.head.Kept G.HeadAtStart
  ends : ∀ e ∈ st.tdEdges, G.svfg.kind e.1.1 = .Store ∧ G.svfg.isUse e.1.2 = true
  pts : ∀ e ∈ st.tdEdges, e.2 = G.ptsOf e.1
  asked : G.Locks → ∀ e ∈ st.tdEdges,
    G.isProtectedByCommonLock (G.inst e.1.1) (G.inst e.1.2) = true →
      st.tail.answers e.1.1 ≠ none ∧ st.head.answers e.1.2 ≠ none

/-- The answer to a question, if an answer that is not kept is that of `A`. -/
theorem Cache.Kept.ask {c : Cache} {A : NodeID → Prop} {found : NodeID → Finset NodeID}
    {inSpan : NodeID → NodeID → Bool} {n : NodeID} (h : c.Kept A)
    (hfound : c.answers n = none → ((∀ y ∈ found n, inSpan y n = false) ↔ A n)) :
    ((c.ask found inSpan n).1 ↔ A n) ∧ (c.ask found inSpan n).2.Kept A ∧
      ∀ m, m = n ∨ c.answers m ≠ none → (c.ask found inSpan n).2.answers m ≠ none := by
  cases hans : c.answers n with
  | some b =>
    have hask : c.ask found inSpan n = (b, c) := by rw [Cache.ask, hans]
    rw [hask]
    refine ⟨h.answers n b hans, h, fun m hm => ?_⟩
    rcases hm with rfl | hm
    · exact ne_of_eq_of_ne hans (Option.some_ne_none b)
    · exact hm
  | none =>
    have hA : decide (∀ y ∈ found n, inSpan y n = false) ↔ A n :=
      decide_eq_true_iff.trans (hfound hans)
    generalize hb : decide (∀ y ∈ found n, inSpan y n = false) = b at hA
    have hask : c.ask found inSpan n =
        (b, ⟨Function.update c.answers n (some b), Function.update c.nodes n (some (found n))⟩) := by
      rw [Cache.ask, hans, h.nodes n hans, ← hb]
      rfl
    rw [hask]
    have hself : Function.update c.answers n (some b) n = some b := Function.update_self ..
    have hother : ∀ m, m ≠ n → Function.update c.answers n (some b) m = c.answers m :=
      fun m hm => Function.update_of_ne hm ..
    refine ⟨hA, ⟨fun m b' hb' => ?_, fun m hm => ?_⟩, fun m hm hnone => ?_⟩
    · by_cases heq : m = n
      · subst heq
        exact Option.mem_unique hself hb' ▸ hA
      · exact h.answers m b' ((hother m heq).symm.trans hb')
    · have hne : m ≠ n := by
        rintro rfl
        exact Option.some_ne_none b (hself.symm.trans hm)
      exact (Function.update_of_ne hne ..).trans (h.nodes m ((hother m hne).symm.trans hm))
    · have hne : m ≠ n := by
        rintro rfl
        exact Option.some_ne_none b (hself.symm.trans hnone)
      exact hm.resolve_left hne ((hother m hne).symm.trans hnone)

-- ── What a search finds beyond the thread edges

/-- Thread edges end where a search stops, and start where none goes on. Then they are found from
    their own ends only. -/
theorem mem_behind_append {end1 end2 : SVFGEdge → NodeID} {isStop : NodeID → Bool}
    {edges td : List SVFGEdge} {n y : NodeID} (hind : ∀ t ∈ td, t.isIndirectVFGEdge)
    (hstop : ∀ t ∈ td, isStop (end2 t))
    (hstart : ∀ e ∈ edges ++ td, e.isIndirectVFGEdge → ∀ t ∈ td, end1 t = end2 e →
      isStop (end2 e)) :
    y ∈ behind end1 end2 isStop (edges ++ td) n ↔
      y ∈ behind end1 end2 isStop edges n ∨ ∃ t ∈ td, end1 t = n ∧ end2 t = y := by
  constructor
  · rintro ⟨hy, z, ⟨e, he, hn, hi, hz⟩, hzy⟩
    -- from the first node on, by induction on the way
    have hway : ReflTransGen (fun d z => ¬ isStop d ∧
        ∃ e ∈ edges, end1 e = d ∧ e.isIndirectVFGEdge ∧ end2 e = z) z y := by
      clear hn
      induction hzy using ReflTransGen.head_induction_on generalizing e with
      | refl => exact .refl
      | @head d w hdw _ ih =>
        obtain ⟨hd, e', he', hd', hi', hw⟩ := hdw
        have hbase : e' ∈ edges := (mem_append.mp he').resolve_right fun ht =>
          hd (hz ▸ hstart e he hi e' ht (hd'.trans hz.symm))
        exact .head ⟨hd, e', hbase, hd', hi', hw⟩ (ih e' he' hi' hw)
    rcases mem_append.mp he with he | ht
    · exact .inl ⟨hy, z, ⟨e, he, hn, hi, hz⟩, hway⟩
    · rcases ReflTransGen.cases_head hway with rfl | ⟨w, hzw, -⟩
      · exact .inr ⟨e, ht, hn, hz⟩
      · exact absurd (hz ▸ hstop e ht) hzw.1
  · rintro (⟨hy, z, ⟨e, he, hrest⟩, hzy⟩ | ⟨t, ht, rfl, rfl⟩)
    · refine ⟨hy, z, ⟨e, mem_append_left _ he, hrest⟩, ReflTransGen.mono ?_ _ _ hzy⟩
      rintro d w ⟨hd, e, he, hrest⟩
      exact ⟨hd, e, mem_append_left _ he, hrest⟩
    · exact ⟨hstop t ht, _, ⟨t, mem_append_right _ ht, rfl, hind t ht, rfl⟩, .refl⟩

-- ── What a pair adds

variable {G} {F} {st : MTASVFGBuilder} {a b : NodeID} {x : NodeIDPair × Finset NodeID}

theorem protected_comm (i j : I) : G.isProtectedByCommonLock i j = G.isProtectedByCommonLock j i := by
  rw [G.protected_eq, G.protected_eq, LockAnalysis.isProtectedByCommonLock_comm]

theorem protected_of_sameSpan (h : G.sameSpan a b) :
    G.isProtectedByCommonLock (G.inst a) (G.inst b) := by
  rw [G.protected_eq]
  exact LockAnalysis.protected_of_isInSameSpan h

theorem use_cases (h : G.svfg.isUse a) : G.svfg.kind a = .Store ∨ G.svfg.kind a = .Load := by
  rwa [SVFG.isUse, Bool.or_eq_true, decide_eq_true_eq, decide_eq_true_eq] at h

section Questions

variable (h : Inv G st) (hflag : G.Locks)
include h hflag

theorem Inv.tail_found (hnone : st.tail.answers a = none) :
    (∀ y ∈ F.succ (G.edges st) a, G.tailSpan y a = false) ↔ G.TailAtStart a := by
  have hmem : ∀ y, y ∈ F.succ (G.edges st) a ↔
      y ∈ behind SVFGEdge.src SVFGEdge.dst G.svfg.isUse G.svfg.edges a ∨ _ := fun y => by
    rw [← Finset.mem_coe, coe_of_stops (F.succStops (G.edges st) a)]
    refine mem_behind_append (fun t ht => ?_) (fun t ht => ?_) fun e he hi t ht hte => ?_
    · obtain ⟨p, -, rfl⟩ := mem_map.mp ht
      rfl
    · obtain ⟨p, hp, rfl⟩ := mem_map.mp ht
      exact (h.ends p hp).2
    · obtain ⟨p, hp, rfl⟩ := mem_map.mp ht
      rw [← hte, SVFG.isUse, (h.ends p hp).1]
      rfl
  refine ⟨fun hall y hy => hall y ((hmem y).mpr (.inl hy)), fun hall y hy => ?_⟩
  rcases (hmem y).mp hy with hy | ⟨t, ht, rfl, rfl⟩
  · exact hall y hy
  · obtain ⟨p, hp, rfl⟩ := mem_map.mp ht
    refine Bool.eq_false_iff.mpr fun hspan => ?_
    have hlocked := protected_of_sameSpan (Bool.and_eq_true_iff.mp hspan).2
    exact (h.asked hflag p hp ((protected_comm (G := G) ..).trans hlocked)).1 hnone

theorem Inv.head_found (hnone : st.head.answers b = none) :
    (∀ y ∈ F.prev (G.edges st) b, G.sameSpan y b = false) ↔ G.HeadAtStart b := by
  have hmem : ∀ y, y ∈ F.prev (G.edges st) b ↔
      y ∈ behind SVFGEdge.dst SVFGEdge.src G.isStore G.svfg.edges b ∨ _ := fun y => by
    rw [← Finset.mem_coe, coe_of_stops (F.prevStops (G.edges st) b)]
    refine mem_behind_append (fun t ht => ?_) (fun t ht => ?_) fun e he hi t ht hte => ?_
    · obtain ⟨p, -, rfl⟩ := mem_map.mp ht
      rfl
    · obtain ⟨p, hp, rfl⟩ := mem_map.mp ht
      exact decide_eq_true (h.ends p hp).1
    · -- no edge leads on from a load
      obtain ⟨p, hp, rfl⟩ := mem_map.mp ht
      have huse : G.svfg.isUse e.src := hte ▸ (h.ends p hp).2
      refine decide_eq_true ((use_cases huse).resolve_right fun hload => ?_)
      rcases mem_append.mp he with he | he
      · exact G.load_out e he hi hload
      · obtain ⟨q, hq, rfl⟩ := mem_map.mp he
        cases hload.symm.trans (h.ends q hq).1
  refine ⟨fun hall y hy => hall y ((hmem y).mpr (.inl hy)), fun hall y hy => ?_⟩
  rcases (hmem y).mp hy with hy | ⟨t, ht, rfl, rfl⟩
  · exact hall y hy
  · obtain ⟨p, hp, rfl⟩ := mem_map.mp ht
    refine Bool.eq_false_iff.mpr fun hspan => ?_
    exact (h.asked hflag p hp (protected_of_sameSpan hspan)).2 hnone

end Questions

structure Grows (G : ParallelInput N I V) (st st' : MTASVFGBuilder)
    (A : Set (NodeIDPair × Finset NodeID)) : Prop where
  inv : Inv G st'
  edges : ∀ x, x ∈ st'.tdEdges ↔ x ∈ st.tdEdges ∨ x ∈ A

section Steps

variable {st' st'' : MTASVFGBuilder} {A B : Set (NodeIDPair × Finset NodeID)}

theorem Grows.trans (h : Grows G st st' A) (h' : Grows G st' st'' B) : Grows G st st'' (A ∪ B) :=
  ⟨h'.inv, fun x => by rw [h'.edges, h.edges, Set.mem_union, or_assoc]⟩

theorem Inv.stays (h : Inv G st) (hA : ∀ x, x ∉ A) : Grows G st st A :=
  ⟨h, fun x => (or_iff_left (hA x)).symm⟩

/-- One step for each node of a list. -/
theorem Inv.foldl {f : MTASVFGBuilder → NodeID → MTASVFGBuilder}
    {A : NodeID → Set (NodeIDPair × Finset NodeID)} {l : List NodeID} (h : Inv G st)
    (hstep : ∀ n ∈ l, ∀ st, Inv G st → Grows G st (f st n) (A n)) :
    Grows G st (l.foldl f st) {x | ∃ n ∈ l, x ∈ A n} := by
  induction l generalizing st with
  | nil => exact h.stays fun x ⟨n, hn, _⟩ => not_mem_nil hn
  | cons n l ih =>
    have hn : Grows G st (f st n) (A n) := hstep n mem_cons_self st h
    have hrest := ih hn.inv (forall_mem_cons.mp hstep).2
    refine ⟨hrest.inv, fun x => ((hn.trans hrest).edges x).trans (or_congr_right ?_)⟩
    exact (exists_mem_cons_iff (fun m => x ∈ A m) n l).symm

variable (ha : G.svfg.kind a = .Store) (hb : G.svfg.isUse b = true)
include ha hb

theorem Inv.addTDEdges (h : Inv G st) (hasked : G.Locks →
      G.isProtectedByCommonLock (G.inst a) (G.inst b) →
        st.tail.answers a ≠ none ∧ st.head.answers b ≠ none) :
    Grows G st (addTDEdges st a b (G.ptsOf (a, b))) {((a, b), G.ptsOf (a, b))} := by
  have hmem : ∀ x, x ∈ (Input.addTDEdges st a b (G.ptsOf (a, b))).tdEdges ↔
      x ∈ st.tdEdges ∨ x = ((a, b), G.ptsOf (a, b)) := by
    intro x
    rw [Input.addTDEdges]
    dsimp only
    split_ifs with hany
    · -- the edge that is there has all objects of the pair
      obtain ⟨t, ht, hab⟩ := any_eq_true.mp hany
      have hab := of_decide_eq_true hab
      have hsame : st.tdEdges.map (fun e => if e.1 = (a, b) then (e.1, e.2 ∪ G.ptsOf (a, b)) else e) =
          st.tdEdges := by
        refine (map_congr_left fun e he => ?_).trans (map_id _)
        split_ifs with heq
        · rw [h.pts e he, heq, Finset.union_self, ← heq, ← h.pts e he, id]
        · rfl
      rw [hsame]
      refine (or_iff_left_of_imp ?_).symm
      rintro rfl
      rw [← hab, ← h.pts t ht]
      exact ht
    · rw [mem_cons, or_comm]
  refine ⟨⟨h.tail, h.head, fun e he => ?_, fun e he => ?_, fun hflag e he => ?_⟩, hmem⟩
  · rcases (hmem e).mp he with he | rfl
    · exact h.ends e he
    · exact ⟨ha, hb⟩
  · rcases (hmem e).mp he with he | rfl
    · exact h.pts e he
    · rfl
  · rcases (hmem e).mp he with he | rfl
    · exact h.asked hflag e he
    · exact hasked hflag

theorem Inv.connect (h : Inv G st) (hflag : G.Locks) :
    Grows G st (connect G.toInput F st a b (G.ptsOf (a, b)))
      {x | x = ((a, b), G.ptsOf (a, b)) ∧ G.TailAtStart a ∧ G.HeadAtStart b} := by
  obtain ⟨htail, htails, htailed⟩ := h.tail.ask (h.tail_found (F := F) (a := a) hflag)
  obtain ⟨hhead, hheads, hheaded⟩ := h.head.ask (h.head_found (F := F) (b := b) hflag)
  have ht : Inv G (isTailofSpan G.toInput F st a).2 := ⟨htails, h.head, h.ends, h.pts, fun hf e he hlock =>
    ⟨htailed _ (.inr (h.asked hf e he hlock).1), (h.asked hf e he hlock).2⟩⟩
  have hh : Inv G (isHeadofSpan G.toInput F (isTailofSpan G.toInput F st a).2 b).2 :=
    ⟨htails, hheads, h.ends, h.pts, fun hf e he hlock =>
      ⟨(ht.asked hf e he hlock).1, hheaded _ (.inr (h.asked hf e he hlock).2)⟩⟩
  rw [Input.connect]
  dsimp only
  split_ifs with htrue hhtrue
  · have hadd := hh.addTDEdges ha hb fun _ _ => ⟨htailed a (.inl rfl), hheaded b (.inl rfl)⟩
    refine ⟨hadd.inv, fun x => (hadd.edges x).trans (or_congr_right ?_)⟩
    exact (and_iff_left ⟨htail.mp htrue, hhead.mp hhtrue⟩).symm
  · exact ⟨hh, fun x => (or_iff_left fun hx => hhtrue (hhead.mpr hx.2.2)).symm⟩
  · exact ⟨ht, fun x => (or_iff_left fun hx => htrue (htail.mpr hx.2.1)).symm⟩

/-- What is done in one direction with a pair that may run in parallel. -/
theorem Inv.direction (h : Inv G st) (hflag : G.flag ≠ .ADDEDGE_NONSPARSE) (hpar : G.Parallel a b) :
    Grows G st (if G.flag ≠ .ADDEDGE_NOLOCK && G.isProtectedByCommonLock (G.inst a) (G.inst b) then
      Input.connect G.toInput F st a b (G.ptsOf (a, b)) else Input.addTDEdges st a b (G.ptsOf (a, b)))
      (G.Adds a b) := by
  have hmem : ∀ x, x ∈ G.Adds a b ↔ x = ((a, b), G.ptsOf (a, b)) ∧ G.Spans a b := fun x =>
    and_congr_right' ((iff_of_eq (if_neg hflag)).trans (and_iff_right hpar))
  split_ifs with hlock
  · obtain ⟨hnolock, hlock⟩ := Bool.and_eq_true_iff.mp hlock
    have hnolock : G.flag ≠ .ADDEDGE_NOLOCK := of_decide_eq_true hnolock
    have hadd := h.connect (F := F) ha hb ⟨hnolock, hflag⟩
    refine ⟨hadd.inv, fun x => (hadd.edges x).trans (or_congr_right ?_)⟩
    exact ((hmem x).trans (and_congr_right' (forall_prop_of_true ⟨hnolock, hlock⟩))).symm
  · have hnot : ¬ (G.flag ≠ .ADDEDGE_NOLOCK ∧ G.isProtectedByCommonLock (G.inst a) (G.inst b)) :=
      fun hboth => hlock (Bool.and_eq_true_iff.mpr ⟨decide_eq_true hboth.1, hboth.2⟩)
    have hadd := h.addTDEdges ha hb fun hf hl => absurd ⟨hf.1, hl⟩ hnot
    refine ⟨hadd.inv, fun x => (hadd.edges x).trans (or_congr_right ?_)⟩
    exact ((hmem x).trans (and_iff_left fun hboth => absurd hboth hnot)).symm

end Steps

theorem adds_of_not_parallel (hflag : G.flag ≠ .ADDEDGE_NONSPARSE) (hpar : ¬ G.Parallel a b) :
    x ∉ G.Adds a b := fun hx => by
  have hx := hx.2
  rw [if_neg hflag] at hx
  exact hpar hx.1

/-- The tests of instructions and pointers are passed. -/
theorem parallel_iff : G.Parallel a b ↔
    ¬ (G.flag ≠ .ADDEDGE_NOMHP && !G.mayHappenInParallel (G.inst a) (G.inst b)) ∧
      ¬ (G.flag ≠ .ADDEDGE_NOALIAS && !G.isAlias (G.getPAGDstNodeID a) (G.pointer b)) := by
  simp only [ParallelInput.Parallel, Bool.and_eq_true, decide_eq_true_eq, Bool.not_eq_true',
    not_and, ne_eq, Bool.not_eq_false]
  tauto

theorem adds_nonSparse (hflag : G.flag = .ADDEDGE_NONSPARSE) (x : NodeIDPair × Finset NodeID) :
    x ∈ G.Adds a b ↔ x = ((a, b), G.ptsOf (a, b)) ∧ G.nonSparse a b :=
  and_congr_right' (iff_of_eq (if_pos hflag))

theorem Inv.nonSparse (h : Inv G st) (ha : G.svfg.kind a = .Store) (hb : G.svfg.isUse b)
    (hflag : G.flag = .ADDEDGE_NONSPARSE) (hpair : G.nonSparse a b) :
    Grows G st (Input.addTDEdges st a b (G.ptsOf (a, b))) (G.Adds a b) := by
  have hadd := h.addTDEdges ha hb fun hf => absurd hflag hf.2
  refine ⟨hadd.inv, fun x => (hadd.edges x).trans (or_congr_right ?_)⟩
  exact ((adds_nonSparse hflag x).trans (and_iff_left hpair)).symm

theorem storeLoadBody_grows (h : Inv G st) (ha : G.svfg.kind a = .Store) (hb : G.svfg.kind b = .Load) :
    Grows G st (storeLoadBody G F a st b) (G.Adds a b) := by
  have huse : G.svfg.isUse b := by rw [SVFG.isUse, hb]; rfl
  have hpointer : G.getPAGSrcNodeID b = G.pointer b := (if_pos hb).symm
  rw [storeLoadBody]
  split_ifs with hflag hpair
  · rw [handleStoreLoadNonSparse, hpointer]
    exact h.nonSparse ha huse hflag hpair
  · exact h.stays fun x hx => hpair ((adds_nonSparse hflag x).mp hx).2
  · rw [handleStoreLoad, hpointer]
    split_ifs with hmhp halias hlock
    · exact h.stays fun x => adds_of_not_parallel hflag fun hpar => (parallel_iff.mp hpar).1 hmhp
    · exact h.stays fun x => adds_of_not_parallel hflag fun hpar => (parallel_iff.mp hpar).2 halias
    · have hdir := h.direction (F := F) ha huse hflag (parallel_iff.mpr ⟨hmhp, halias⟩)
      rwa [if_pos hlock] at hdir
    · have hdir := h.direction (F := F) ha huse hflag (parallel_iff.mpr ⟨hmhp, halias⟩)
      rwa [if_neg hlock] at hdir

/-- Both directions pass, or none. -/
theorem parallel_comm (ha : G.pointer a = G.getPAGDstNodeID a) (hb : G.pointer b = G.getPAGDstNodeID b) :
    G.Parallel a b ↔ G.Parallel b a := by
  rw [ParallelInput.Parallel, ParallelInput.Parallel, G.mhp_comm, ha, hb, G.isAlias_comm]

theorem storeStoreBody_grows (h : Inv G st) (ha : G.svfg.kind a = .Store) (hb : G.svfg.kind b = .Store) :
    Grows G st (storeStoreBody G F a st b) (G.Adds a b ∪ G.Adds b a) := by
  have huse : ∀ n, G.svfg.kind n = .Store → G.svfg.isUse n := fun n hn => by rw [SVFG.isUse, hn]; rfl
  have hpointer : ∀ n, G.svfg.kind n = .Store → G.pointer n = G.getPAGDstNodeID n := fun n hn =>
    if_neg fun hload => absurd (hn.symm.trans hload) (by decide)
  have hpts : G.getPts (G.getPAGDstNodeID a) ∩ G.getPts (G.getPAGDstNodeID b) = G.ptsOf (a, b) := by
    rw [ParallelInput.ptsOf, hpointer b hb]
  have hpts' : G.ptsOf (a, b) = G.ptsOf (b, a) := by
    rw [ParallelInput.ptsOf, ParallelInput.ptsOf, hpointer a ha, hpointer b hb, Finset.inter_comm]
  rw [storeStoreBody]
  split_ifs with hflag hpair
  · rw [handleStoreStoreNonSparse, hpts]
    have hadd := h.nonSparse ha (huse b hb) hflag hpair
    have hback : G.nonSparse b a := by
      rwa [ParallelInput.nonSparse, G.pcg_comm, G.mhp_comm]
    have hadd' := hadd.inv.nonSparse hb (huse a ha) hflag hback
    rw [← hpts'] at hadd'
    exact hadd.trans hadd'
  · refine h.stays fun x hx => hpair ?_
    rcases hx with hx | hx
    · exact ((adds_nonSparse hflag x).mp hx).2
    · have hback := ((adds_nonSparse hflag x).mp hx).2
      rwa [ParallelInput.nonSparse, G.pcg_comm, G.mhp_comm] at hback
  · have hparallel : G.Parallel a b ↔ G.Parallel b a := parallel_comm (hpointer a ha) (hpointer b hb)
    have hnone : ¬ G.Parallel a b → ∀ x, x ∉ G.Adds a b ∪ G.Adds b a := fun hnot x hx => by
      rcases hx with hx | hx
      · exact adds_of_not_parallel hflag hnot hx
      · exact adds_of_not_parallel hflag (fun hpar => hnot (hparallel.mpr hpar)) hx
    have htwice : G.Parallel a b → Grows G st _ (G.Adds a b ∪ G.Adds b a) := fun hpar =>
      have hdir := h.direction (F := F) ha (huse b hb) hflag hpar
      hdir.trans (hdir.inv.direction (F := F) hb (huse a ha) hflag (hparallel.mp hpar))
    rw [← hpts', protected_comm (G.inst b)] at htwice
    rw [handleStoreStore, hpts, ← hpointer b hb]
    split_ifs with hmhp halias hlock
    · exact h.stays (hnone fun hpar => (parallel_iff.mp hpar).1 hmhp)
    · exact h.stays (hnone fun hpar => (parallel_iff.mp hpar).2 halias)
    · rw [if_pos hlock, if_pos hlock] at htwice
      exact htwice (parallel_iff.mpr ⟨hmhp, halias⟩)
    · rw [if_neg hlock, if_neg hlock] at htwice
      exact htwice (parallel_iff.mpr ⟨hmhp, halias⟩)

-- ── All pairs

def pairs (G : ParallelInput N I V) (stores loads : List NodeID) : Set (NodeIDPair × Finset NodeID) :=
  {x | (∃ a ∈ stores, ∃ b ∈ loads, x ∈ G.Adds a b) ∨ ∃ a ∈ stores, ∃ b ∈ stores, a ≠ b ∧ x ∈ G.Adds a b}

theorem connectMHPEdges_grows {loads stores : List NodeID} (hnodup : stores.Nodup)
    (hstores : ∀ n ∈ stores, G.svfg.kind n = .Store) (hloads : ∀ n ∈ loads, G.svfg.kind n = .Load)
    (h : Inv G st) :
    Grows G st (connectMHPEdges G F loads stores st) (pairs G stores loads) := by
  induction stores generalizing st with
  | nil =>
    refine h.stays fun x hx => ?_
    rcases hx with ⟨a, ha, -⟩ | ⟨a, ha, -⟩
    · cases ha
    · cases ha
  | cons n1 rest ih =>
    obtain ⟨hn1, hrest⟩ := nodup_cons.mp hnodup
    have hkind : G.svfg.kind n1 = .Store := hstores n1 mem_cons_self
    have hkinds : ∀ n ∈ rest, G.svfg.kind n = .Store := (forall_mem_cons.mp hstores).2
    have hload := h.foldl (f := storeLoadBody G F n1) fun n hn st h =>
      storeLoadBody_grows h hkind (hloads n hn)
    have hstore := hload.inv.foldl (f := storeStoreBody G F n1) fun n hn st h =>
      storeStoreBody_grows h hkind (hkinds n hn)
    have hall := (hload.trans hstore).trans (ih hrest hkinds hstore.inv)
    refine ⟨hall.inv, fun x => (hall.edges x).trans (or_congr_right ?_)⟩
    constructor
    · rintro ((⟨b, hb, hx⟩ | ⟨b, hb, hx | hx⟩) | ⟨a, ha, b, hb, hx⟩ | ⟨a, ha, b, hb, hab, hx⟩)
      · exact .inl ⟨n1, mem_cons_self, b, hb, hx⟩
      · exact .inr ⟨n1, mem_cons_self, b, mem_cons_of_mem _ hb, fun heq => hn1 (heq ▸ hb), hx⟩
      · exact .inr ⟨b, mem_cons_of_mem _ hb, n1, mem_cons_self, fun heq => hn1 (heq ▸ hb), hx⟩
      · exact .inl ⟨a, mem_cons_of_mem _ ha, b, hb, hx⟩
      · exact .inr ⟨a, mem_cons_of_mem _ ha, b, mem_cons_of_mem _ hb, hab, hx⟩
    · rintro (⟨a, ha, b, hb, hx⟩ | ⟨a, ha, b, hb, hab, hx⟩)
      · rcases mem_cons.mp ha with rfl | ha
        · exact .inl (.inl ⟨b, hb, hx⟩)
        · exact .inr (.inl ⟨a, ha, b, hb, hx⟩)
      · rcases mem_cons.mp ha with rfl | ha' <;> rcases mem_cons.mp hb with rfl | hb'
        · exact absurd rfl hab
        · exact .inl (.inr ⟨b, hb', .inl hx⟩)
        · exact .inl (.inr ⟨a, ha', .inr hx⟩)
        · exact .inr (.inr ⟨a, ha', b, hb', hab, hx⟩)

theorem fresh_inv : Inv G fresh :=
  have hkept : ∀ A, Cache.Kept ⟨fun _ => none, fun _ => none⟩ A := fun _ => ⟨nofun, fun _ _ => rfl⟩
  ⟨hkept _, hkept _, forall_mem_nil _, forall_mem_nil _, fun _ => forall_mem_nil _⟩

end SvfThreadEdge
