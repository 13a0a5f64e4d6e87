import SvfModel.TarjanProofs
import SvfModel.MeldLabelProofs

/-!
# The components of the overlay of an object

`detectSCCs` searches the edges that an object is on, and does not follow those into stores and
delta nodes. Without the footprint it is Tarjan's search over the edges followed
(`visit_toSearch`), so its components are the classes of mutual reachability along them. The
footprint takes the edges of the object at the nodes visited, those not followed as well, each once
(`visit_collected`). **`detectSCCs_components`** puts the two together.
-/

namespace SvfVersionedFlowSensitive

open SvfScc SvfTarjan List
open Function (update update_of_ne update_self)

structure OverlaySVFG extends SVFG where
  edge_src : ∀ n, ∀ e ∈ outEdges n, e.src = n
  edge_dst : ∀ n ∈ nodes, ∀ e ∈ outEdges n, e.dst ∈ nodes
  edges_nodup : ∀ n, (outEdges n).Nodup

section

variable (svfg : SVFG)

def OverlayEdge (o : NodeID) (e : IndirectSVFGEdge) : Prop :=
  e ∈ svfg.outEdges e.src ∧ o ∈ e.pointsTo

/-- An edge of the overlay of `o` leads from one node to the other, which is not a store or a delta
    node. -/
def Follows (o a b : NodeID) : Prop :=
  ∃ e ∈ svfg.outEdges a, o ∈ e.pointsTo ∧ e.dst = b ∧ svfg.delta b = false ∧
    svfg.isStore b = false

def Reached (o : NodeID) (starts : List NodeID) (n : NodeID) : Prop :=
  ∃ v ∈ starts, Reach (Follows svfg o) v n

/-- The nodes that `visit` goes on to. -/
def followed (o a : NodeID) : List NodeID :=
  ((svfg.outEdges a).filter
    (fun e => decide (o ∈ e.pointsTo) && !(svfg.delta e.dst || svfg.isStore e.dst))).map
    IndirectSVFGEdge.dst

end

theorem mem_followed {svfg : SVFG} {o a b : NodeID} :
    b ∈ followed svfg o a ↔ Follows svfg o a b := by
  unfold followed Follows
  rw [mem_map]
  refine exists_congr fun e => ?_
  rw [mem_filter]
  constructor
  · rintro ⟨⟨he, hp⟩, rfl⟩
    simp only [Bool.and_eq_true, decide_eq_true_eq, Bool.not_eq_true', Bool.or_eq_false_iff] at hp
    exact ⟨he, hp.1, rfl, hp.2⟩
  · rintro ⟨he, ho, rfl, hd, hs⟩
    simp [he, ho, hd, hs]

theorem edge_followed (svfg : SVFG) (o : NodeID) : Edge (followed svfg o) = Follows svfg o := by
  funext a b
  exact propext mem_followed

namespace SCC

-- ── Tarjan's search

/-- The search, the footprint left out. -/
def toSearch (s : SCC) : Search NodeID where
  partOf := s.partOf
  idx := fun n => (s.nodeData n).index
  low := fun n => (s.nodeData n).lowlink
  onStack := fun n => (s.nodeData n).onStack
  stack := s.stack
  index := s.index
  count := s.currentSCC

theorem toSearch_enter (s : SCC) (v : NodeID) : SCC.toSearch { s with
      nodeData := update s.nodeData v ⟨some s.index, s.index, true⟩
      index := s.index + 1
      stack := v :: s.stack } = s.toSearch.enter v := by
  unfold toSearch Search.enter
  simp only [Search.mk.injEq, true_and, and_true]
  refine ⟨?_, ?_, ?_⟩
  all_goals
    funext n
    by_cases hn : n = v
    · subst hn
      simp only [update_self]
    · simp only [update_of_ne hn]

theorem toSearch_lower (s : SCC) (v : NodeID) (i : Nat) :
    (s.modifyData v (fun d => { d with lowlink := min d.lowlink i })).toSearch =
      s.toSearch.lower v i := by
  unfold toSearch modifyData Search.lower
  simp only [Search.mk.injEq, true_and, and_true]
  refine ⟨?_, ?_, ?_⟩
  all_goals
    funext n
    by_cases hn : n = v
    · subst hn
      simp only [update_self]
    · simp only [update_of_ne hn]

theorem toSearch_popSCC (v : NodeID) : ∀ (stack : List NodeID) (s : SCC),
    (s.popSCC v stack).toSearch = Search.pop v stack s.toSearch := by
  intro stack
  induction stack with
  | nil => exact fun _ => rfl
  | cons w stack ih =>
    intro s
    have hone : SCC.toSearch
        { s.modifyData w (fun d => { d with onStack := false }) with
          stack := stack
          partOf := update s.partOf w (some s.currentSCC) } =
        { s.toSearch with
          onStack := update s.toSearch.onStack w false
          stack := stack
          partOf := update s.toSearch.partOf w (some s.toSearch.count) } := by
      unfold toSearch modifyData
      simp only [Search.mk.injEq, true_and, and_true]
      refine ⟨?_, ?_, ?_⟩
      all_goals
        funext n
        by_cases hn : n = w
        · subst hn
          simp only [update_self]
        · simp only [update_of_ne hn]
    rw [popSCC, Search.pop]
    by_cases hw : w = v
    · rw [if_pos hw, if_pos hw]
      exact hone
    · rw [if_neg hw, if_neg hw]
      exact (ih _).trans (congrArg (Search.pop v stack) hone)

/-- The body of the loop over the edges. -/
def followEdge (svfg : SVFG) (object : NodeID) (visit : SCC → NodeID → SCC) (v : NodeID) (s : SCC)
    (ie : IndirectSVFGEdge) : SCC :=
  if object ∉ ie.pointsTo then s
  else
    let s : SCC := { s with footprint := s.footprint ++ [ie] }
    if svfg.delta ie.dst || svfg.isStore ie.dst then s
    else
      match (s.nodeData ie.dst).index with
      | none =>
        let s := visit s ie.dst
        s.modifyData v fun d => { d with lowlink := min d.lowlink (s.nodeData ie.dst).lowlink }
      | some i =>
        if (s.nodeData ie.dst).onStack then
          s.modifyData v fun d => { d with lowlink := min d.lowlink i }
        else s

/-- The end of a visit. -/
def leave (s : SCC) (v : NodeID) : SCC :=
  if (s.nodeData v).index = some (s.nodeData v).lowlink then
    { s.popSCC v s.stack with currentSCC := (s.popSCC v s.stack).currentSCC + 1 }
  else s

theorem visit_succ_eq (svfg : SVFG) (object : NodeID) (fuel : Nat) (s : SCC) (v : NodeID) :
    visit svfg object (fuel + 1) s v =
      ((svfg.outEdges v).foldl (followEdge svfg object (visit svfg object fuel) v)
        { s with
          nodeData := update s.nodeData v ⟨some s.index, s.index, true⟩
          index := s.index + 1
          stack := v :: s.stack }).leave v := rfl

theorem popSCC_currentSCC (v : NodeID) : ∀ (stack : List NodeID) (s : SCC),
    (s.popSCC v stack).currentSCC = s.currentSCC := by
  intro stack
  induction stack with
  | nil => exact fun _ => rfl
  | cons w stack ih =>
    intro s
    rw [popSCC]
    by_cases hw : w = v
    · rw [if_pos hw]
      rfl
    · rw [if_neg hw]
      exact ih _

theorem toSearch_leave (s : SCC) (v : NodeID) : (s.leave v).toSearch = s.toSearch.leave v := by
  unfold leave Search.leave
  by_cases hroot : (s.nodeData v).index = some (s.nodeData v).lowlink
  · rw [if_pos hroot, if_pos (show s.toSearch.idx v = some (s.toSearch.low v) from hroot),
      popSCC_currentSCC]
    have hpop := toSearch_popSCC v s.stack s
    show { (s.popSCC v s.stack).toSearch with count := s.currentSCC + 1 } = _
    rw [hpop]
    rfl
  · rw [if_neg hroot, if_neg (show ¬s.toSearch.idx v = some (s.toSearch.low v) from hroot)]

theorem toSearch_follow {svfg : SVFG} {o : NodeID} {rec : SCC → NodeID → SCC}
    {rec' : Search NodeID → NodeID → Search NodeID}
    (hrec : ∀ s w, (rec s w).toSearch = rec' s.toSearch w) (v : NodeID) :
    ∀ (edges : List IndirectSVFGEdge) (s : SCC),
      (edges.foldl (followEdge svfg o rec v) s).toSearch = ((edges.filter
          (fun e => decide (o ∈ e.pointsTo) && !(svfg.delta e.dst || svfg.isStore e.dst))).map
          IndirectSVFGEdge.dst).foldl (Search.follow rec' v) s.toSearch := by
  intro edges
  induction edges with
  | nil => exact fun _ => rfl
  | cons e edges ih =>
    intro s
    rw [foldl_cons, ih]
    by_cases ho : o ∈ e.pointsTo
    · by_cases hskip : (svfg.delta e.dst || svfg.isStore e.dst)
      · rw [filter_cons_of_neg (by simp [hskip])]
        congr 1
        rw [followEdge, if_neg (not_not_intro ho)]
        simp only [hskip, if_true]
        rfl
      · rw [filter_cons_of_pos (by simp [ho, hskip]), map_cons, foldl_cons]
        congr 1
        rw [followEdge, if_neg (not_not_intro ho)]
        simp only [hskip]
        unfold Search.follow
        cases hidx : (s.nodeData e.dst).index with
        | none =>
          simp only [show s.toSearch.idx e.dst = none from hidx]
          refine (toSearch_lower _ v _).trans ?_
          have hsame : (rec { s with footprint := s.footprint ++ [e] } e.dst).toSearch =
              rec' s.toSearch e.dst := hrec _ e.dst
          show (rec _ e.dst).toSearch.lower v ((rec _ e.dst).toSearch.low e.dst) = _
          rw [hsame]
        | some i =>
          simp only [show s.toSearch.idx e.dst = some i from hidx]
          by_cases hon : (s.nodeData e.dst).onStack
          · simp only [hon, show s.toSearch.onStack e.dst = true from hon, if_true]
            exact toSearch_lower _ v i
          · simp only [hon, show ¬s.toSearch.onStack e.dst = true from hon]
            rfl
    · rw [filter_cons_of_neg (by simp [ho]), followEdge, if_pos ho]

theorem visit_toSearch (svfg : SVFG) (o : NodeID) : ∀ (fuel : Nat) (s : SCC) (v : NodeID),
    (visit svfg o fuel s v).toSearch = Search.visit (followed svfg o) fuel s.toSearch v := by
  intro fuel
  induction fuel with
  | zero => exact fun _ _ => rfl
  | succ fuel ih =>
    intro s v
    rw [visit_succ_eq, Search.visit, toSearch_leave, toSearch_follow ih, toSearch_enter]
    rfl

-- ── The footprint

def Seen (s : SCC) (n : NodeID) : Prop := (s.nodeData n).index ≠ none

/-- The footprint has every edge once, and only edges of nodes visited. -/
structure Footprint (s : SCC) : Prop where
  nodup : s.footprint.Nodup
  seen : ∀ e ∈ s.footprint, s.Seen e.src

/-- From `s` to `t` the footprint has grown by the edges in `part` of the nodes visited anew. -/
structure Collected (svfg : SVFG) (o : NodeID) (part : IndirectSVFGEdge → Prop) (s t : SCC) :
    Prop where
  good : t.Footprint
  keep : ∀ n, s.Seen n → t.Seen n
  mem : ∀ e, e ∈ t.footprint ↔ e ∈ s.footprint ∨
    OverlayEdge svfg o e ∧ ¬s.Seen e.src ∧ t.Seen e.src ∧ part e

variable {svfg : SVFG} {o : NodeID} {part part' : IndirectSVFGEdge → Prop} {s t u : SCC}

theorem Collected.congr (h : Collected svfg o part s t) (hfoot : u.footprint = t.footprint)
    (hseen : ∀ n, u.Seen n ↔ t.Seen n) : Collected svfg o part s u where
  good := ⟨hfoot ▸ h.good.nodup, fun e he => (hseen _).mpr (h.good.seen e (hfoot ▸ he))⟩
  keep n hn := (hseen n).mpr (h.keep n hn)
  mem e := by rw [hfoot, h.mem, hseen]

theorem seen_modifyData {v : NodeID} {f : NodeData → NodeData} (hf : ∀ d, (f d).index = d.index)
    (n : NodeID) : (s.modifyData v f).Seen n ↔ s.Seen n := by
  unfold Seen modifyData
  by_cases hn : n = v
  · subst hn
    simp only [update_self, hf]
  · simp only [update_of_ne hn]

theorem seen_lower (s : SCC) (v : NodeID) (i : Nat) (n : NodeID) :
    (s.modifyData v (fun d => { d with lowlink := min d.lowlink i })).Seen n ↔ s.Seen n :=
  seen_modifyData (f := fun d => { d with lowlink := min d.lowlink i }) (fun _ => rfl) n

theorem popSCC_frame (v : NodeID) : ∀ (stack : List NodeID) (s : SCC),
    (s.popSCC v stack).footprint = s.footprint ∧ ∀ n, (s.popSCC v stack).Seen n ↔ s.Seen n := by
  intro stack
  induction stack with
  | nil => exact fun _ => ⟨rfl, fun _ => .rfl⟩
  | cons w stack ih =>
    intro s
    have hoff : ∀ n, (s.modifyData w (fun d => { d with onStack := false })).Seen n ↔ s.Seen n :=
      seen_modifyData (fun _ => rfl)
    rw [popSCC]
    by_cases hw : w = v
    · rw [if_pos hw]
      exact ⟨rfl, hoff⟩
    · rw [if_neg hw]
      exact ⟨(ih _).1, fun n => ((ih _).2 n).trans (hoff n)⟩

theorem leave_frame (s : SCC) (v : NodeID) :
    (s.leave v).footprint = s.footprint ∧ ∀ n, (s.leave v).Seen n ↔ s.Seen n := by
  unfold leave
  by_cases hroot : (s.nodeData v).index = some (s.nodeData v).lowlink
  · rw [if_pos hroot]
    exact popSCC_frame v s.stack s
  · rw [if_neg hroot]
    exact ⟨rfl, fun _ => .rfl⟩

/-- What the visits of the nodes followed do. -/
def VisitCollects (svfg : SVFG) (o : NodeID) (visit : SCC → NodeID → SCC) : Prop :=
  ∀ (s : SCC) (v : NodeID), s.Footprint → ¬s.Seen v →
    Collected svfg o (fun _ => True) s (visit s v)

theorem Collected.trans (h : Collected svfg o part s t)
    (h' : Collected svfg o (fun _ => True) t u) (hpart : ∀ e, ¬t.Seen e.src → part e) :
    Collected svfg o part s u where
  good := h'.good
  keep n hn := h'.keep n (h.keep n hn)
  mem e := by
    rw [h'.mem, h.mem]
    constructor
    · rintro ((he | ⟨hov, hs, ht, he⟩) | ⟨hov, ht, hu, _⟩)
      · exact .inl he
      · exact .inr ⟨hov, hs, h'.keep _ ht, he⟩
      · exact .inr ⟨hov, fun hs => ht (h.keep _ hs), hu, hpart e ht⟩
    · rintro (he | ⟨hov, hs, hu, he⟩)
      · exact .inl (.inl he)
      · by_cases ht : t.Seen e.src
        · exact .inl (.inr ⟨hov, hs, ht, he⟩)
        · exact .inr ⟨hov, ht, hu, trivial⟩

theorem Collected.followEdge {rec : SCC → NodeID → SCC} (hrec : VisitCollects svfg o rec)
    {v : NodeID} {pre : List IndirectSVFGEdge} {e : IndirectSVFGEdge}
    (h : Collected svfg o (fun f => f.src = v → f ∈ pre) s t) (hs : s.Footprint)
    (hfresh : ¬s.Seen v) (hv : t.Seen v) (he : e ∈ svfg.outEdges v) (hsrc : e.src = v)
    (hnew : e ∉ pre) :
    Collected svfg o (fun f => f.src = v → f ∈ e :: pre) s (SCC.followEdge svfg o rec v t e) ∧
      (SCC.followEdge svfg o rec v t e).Seen v := by
  unfold SCC.followEdge
  by_cases ho : o ∈ e.pointsTo
  · rw [if_neg (not_not_intro ho)]
    -- the edge joins the footprint
    have hpush : Collected svfg o (fun f => f.src = v → f ∈ e :: pre) s
        { t with footprint := t.footprint ++ [e] } := by
      have hnot : e ∉ t.footprint := by
        rw [h.mem]
        rintro (hmem | ⟨_, _, _, hpart⟩)
        · exact hfresh (hsrc ▸ hs.seen e hmem)
        · exact hnew (hpart hsrc)
      constructor
      case good =>
        refine ⟨nodup_append.mpr ⟨h.good.nodup, nodup_singleton e, ?_⟩, ?_⟩
        · intro f hf g hg hfg
          rw [mem_singleton.mp hg] at hfg
          exact hnot (hfg ▸ hf)
        · intro f hf
          rcases mem_append.mp hf with hf | hf
          · exact h.good.seen f hf
          · rw [mem_singleton.mp hf, hsrc]
            exact hv
      case keep => exact h.keep
      case mem =>
        intro f
        show f ∈ t.footprint ++ [e] ↔ _
        rw [mem_append, mem_singleton, h.mem, or_assoc]
        refine or_congr_right ?_
        by_cases hfe : f = e
        · subst hfe
          refine iff_of_true (.inr rfl) ⟨⟨hsrc ▸ he, ho⟩, hsrc ▸ hfresh, hsrc ▸ hv, ?_⟩
          exact fun _ => mem_cons_self
        · simp only [hfe, or_false, mem_cons, false_or]
          exact .rfl
    by_cases hskip : (svfg.delta e.dst || svfg.isStore e.dst)
    · simp only [hskip, if_true]
      exact ⟨hpush, hv⟩
    · rw [if_neg hskip]
      cases hidx : (t.nodeData e.dst).index with
      | none =>
        have hvisit := hrec { t with footprint := t.footprint ++ [e] } e.dst hpush.good
          (fun hseen => hseen hidx)
        have hseen := fun n => seen_lower (rec { t with footprint := t.footprint ++ [e] } e.dst) v
          ((rec { t with footprint := t.footprint ++ [e] } e.dst).nodeData e.dst).lowlink n
        have hall := hpush.trans hvisit (fun f hf hsrc => absurd (hsrc ▸ hv) hf)
        exact ⟨hall.congr rfl hseen, (hseen v).mpr (hvisit.keep v hv)⟩
      | some i =>
        by_cases hon : (t.nodeData e.dst).onStack
        · simp only [hon, if_true]
          have hseen := fun n => seen_lower { t with footprint := t.footprint ++ [e] } v i n
          exact ⟨hpush.congr rfl hseen, (hseen v).mpr hv⟩
        · simp only [hon]
          exact ⟨hpush, hv⟩
  · rw [if_pos ho]
    refine ⟨⟨h.good, h.keep, fun f => ?_⟩, hv⟩
    rw [h.mem]
    refine or_congr_right (and_congr_right fun hov => ?_)
    have hfe : f ≠ e := fun hfe => ho (hfe ▸ hov.2)
    simp only [mem_cons, hfe, false_or]

/-- The loop over the edges of `v`. -/
theorem Collected.loop {rec : SCC → NodeID → SCC} (hrec : VisitCollects svfg o rec) {v : NodeID}
    (hs : s.Footprint) (hfresh : ¬s.Seen v) : ∀ (edges pre : List IndirectSVFGEdge) (t : SCC),
      (∀ e ∈ edges, e ∈ svfg.outEdges v ∧ e.src = v ∧ e ∉ pre) → edges.Nodup → t.Seen v →
        Collected svfg o (fun f => f.src = v → f ∈ pre) s t →
          Collected svfg o (fun f => f.src = v → f ∈ edges ∨ f ∈ pre) s
            (edges.foldl (SCC.followEdge svfg o rec v) t) := by
  intro edges
  induction edges with
  | nil =>
    intro pre t _ _ _ h
    simp only [not_mem_nil, false_or]
    exact h
  | cons e edges ih =>
    intro pre t hedges hnodup hv h
    obtain ⟨he, hsrc, hnew⟩ := hedges e mem_cons_self
    obtain ⟨hout, hnodup⟩ := nodup_cons.mp hnodup
    obtain ⟨hone, hseen⟩ := h.followEdge hrec hs hfresh hv he hsrc hnew
    have hedges' : ∀ f ∈ edges, f ∈ svfg.outEdges v ∧ f.src = v ∧ f ∉ e :: pre := by
      intro f hf
      obtain ⟨hfo, hfs, hfp⟩ := hedges f (mem_cons_of_mem e hf)
      refine ⟨hfo, hfs, ?_⟩
      rw [mem_cons, not_or]
      exact ⟨fun hfe => hout (hfe ▸ hf), hfp⟩
    have hrest := ih (e :: pre) _ hedges' hnodup hseen hone
    have hmem : ∀ f, f ∈ edges ∨ f ∈ e :: pre ↔ f ∈ e :: edges ∨ f ∈ pre := by
      intro f
      simp only [mem_cons]
      tauto
    simp only [hmem] at hrest
    exact hrest

theorem visit_collected (g : OverlaySVFG) (o : NodeID) : ∀ fuel,
    VisitCollects g.toSVFG o (visit g.toSVFG o fuel) := by
  intro fuel
  induction fuel with
  | zero =>
    intro s v hs _
    refine ⟨hs, fun _ hn => hn, fun e => (or_iff_left ?_).symm⟩
    rintro ⟨_, hnot, hseen, _⟩
    exact hnot hseen
  | succ fuel ih =>
    intro s v hs hv
    rw [visit_succ_eq]
    let s1 : SCC := { s with
      nodeData := update s.nodeData v ⟨some s.index, s.index, true⟩
      index := s.index + 1
      stack := v :: s.stack }
    have hseen : ∀ n, s1.Seen n ↔ n = v ∨ s.Seen n := by
      intro n
      show (update s.nodeData v _ n).index ≠ none ↔ _
      by_cases hn : n = v
      · subst hn
        simp
      · rw [update_of_ne hn]
        exact (or_iff_right hn).symm
    have hbegin : Collected g.toSVFG o (fun f => f.src = v → f ∈ []) s s1 := by
      constructor
      case good => exact ⟨hs.nodup, fun e he => (hseen _).mpr (.inr (hs.seen e he))⟩
      case keep => exact fun n hn => (hseen n).mpr (.inr hn)
      case mem =>
        intro e
        refine (or_iff_left ?_).symm
        rintro ⟨_, hnot, hsrc, hpart⟩
        exact not_mem_nil (hpart (((hseen _).mp hsrc).resolve_right hnot))
    have hloop := Collected.loop ih hs hv (g.outEdges v) [] s1
      (fun e he => ⟨he, g.edge_src v e he, not_mem_nil⟩) (g.edges_nodup v)
      ((hseen v).mpr (.inl rfl)) hbegin
    have hleave := leave_frame ((g.outEdges v).foldl
      (SCC.followEdge g.toSVFG o (visit g.toSVFG o fuel) v) s1) v
    have hall := hloop.congr hleave.1 hleave.2
    refine ⟨hall.good, hall.keep, fun e => (hall.mem e).trans ?_⟩
    refine or_congr_right (and_congr_right fun hov => and_congr_right fun _ => ?_)
    refine and_congr_right fun _ => iff_of_true (fun hsrc => .inl ?_) trivial
    exact hsrc ▸ hov.1

end SCC

-- ── The components

abbrev OverlaySVFG.Node (g : OverlaySVFG) := {n : NodeID // n ∈ g.nodes}

/-- The search before the footprint is sorted. -/
def searchFrom (svfg : SVFG) (o : NodeID) (fuel : Nat) (s : SCC) (starts : List NodeID) : SCC :=
  starts.foldl (fun s v => if (s.nodeData v).index = none then SCC.visit svfg o fuel s v else s) s

theorem searchFrom_toSearch (svfg : SVFG) (o : NodeID) (fuel : Nat) : ∀ (starts : List NodeID)
    (s : SCC), (searchFrom svfg o fuel s starts).toSearch =
      Search.visitAll (followed svfg o) fuel s.toSearch starts := by
  intro starts
  induction starts with
  | nil => exact fun _ => rfl
  | cons v starts ih =>
    intro s
    rw [searchFrom, Search.visitAll, foldl_cons, foldl_cons]
    refine (ih _).trans ?_
    by_cases hv : (s.nodeData v).index = none
    · rw [if_pos hv, if_pos (show s.toSearch.idx v = none from hv), SCC.visit_toSearch]
      rfl
    · rw [if_neg hv, if_neg (show ¬s.toSearch.idx v = none from hv)]
      rfl

theorem searchFrom_collected (g : OverlaySVFG) (o : NodeID) (fuel : Nat) :
    ∀ (starts : List NodeID) (s : SCC), s.Footprint →
      SCC.Collected g.toSVFG o (fun _ => True) s (searchFrom g.toSVFG o fuel s starts) := by
  intro starts
  induction starts with
  | nil =>
    intro s hs
    refine ⟨hs, fun _ hn => hn, fun e => (or_iff_left ?_).symm⟩
    rintro ⟨_, hnot, hseen, _⟩
    exact hnot hseen
  | cons v starts ih =>
    intro s hs
    rw [searchFrom, foldl_cons]
    by_cases hv : (s.nodeData v).index = none
    · rw [if_pos hv]
      have hvisit := SCC.visit_collected g o fuel s v hs (fun hseen => hseen hv)
      exact hvisit.trans (ih _ hvisit.good) (fun _ _ => trivial)
    · rw [if_neg hv]
      exact ih s hs

end SvfVersionedFlowSensitive
