import SvfModel.LoopProofs
import SvfModel.SccProofs

/-!
# `SCCDetection`: strongly connected components by one depth-first search

Nuutila's variant of Tarjan's algorithm. A visited node has a representative, at first
itself, which its loop over the children replaces by the representative with the smallest
number among those of the children that are not in a finished component yet. A node that is
still its own representative after the loop is the root of a component; the stack holds the
other nodes only, and those numbered later than the root are popped into its component.

`visit` is recursive inside a loop, so the invariant speaks of the list `path` of nodes whose
`visit` has begun and not returned (`Inv`). What one call does is `VisitSpec`; the induction
over calls is `visit_spec`.
-/

namespace SvfSCCDetection

open SvfScc List Option Nat
open Relation (ReflTransGen TransGen reflTransGen_iff_eq_or_transGen)
open Finset (mem_erase mem_insert)

structure GNodeSCCInfo (N : Type) where
  visited : Bool
  inSCC : Bool
  rep : Option N
  subNodes : Finset N

/-- The graph as the search sees it: its nodes, and the direct children of a node. `N` is the
    type of the graph's nodes. -/
structure SccGraph (N : Type) where
  nodes : List N
  nodes_all : ∀ n : N, n ∈ nodes
  children : N → List N

/-- The state of the search. -/
structure SCCDetection (N : Type) where
  nodeSCCAuxInfo : N → GNodeSCCInfo N
  I : Nat
  D : N → Nat
  SS : List N
  T : List N
  repNodes : Finset N

variable {N : Type} [DecidableEq N]

namespace SCCDetection

def clear : SCCDetection N where
  nodeSCCAuxInfo := fun _ => ⟨false, false, none, ∅⟩
  I := 0
  D := fun _ => 0
  SS := []
  T := []
  repNodes := ∅

section

variable (s : SCCDetection N)

def visited (n : N) : Bool := (s.nodeSCCAuxInfo n).visited

def inSCC (n : N) : Bool := (s.nodeSCCAuxInfo n).inSCC

def rep (n : N) : Option N := (s.nodeSCCAuxInfo n).rep

def subNodes (n : N) : Finset N := (s.nodeSCCAuxInfo n).subNodes

def repNode (n : N) : N := (s.rep n).getD n

def modifyInfo (n : N) (f : GNodeSCCInfo N → GNodeSCCInfo N) : SCCDetection N :=
  { s with nodeSCCAuxInfo := Function.update s.nodeSCCAuxInfo n (f (s.nodeSCCAuxInfo n)) }

def setVisited (n : N) (v : Bool) : SCCDetection N :=
  s.modifyInfo n fun i => { i with visited := v }

def setInSCC (n : N) (v : Bool) : SCCDetection N :=
  s.modifyInfo n fun i => { i with inSCC := v }

/-- `rep(n, r)`: the representative of `n` becomes `r`, `n` a sub node of `r`, and `n` loses
    its own sub nodes. -/
def setRep (n r : N) : SCCDetection N :=
  let s := s.modifyInfo n fun i => { i with rep := some r }
  let s := s.modifyInfo r fun i => { i with subNodes := insert n i.subNodes }
  if n ≠ r then
    let s := s.modifyInfo n fun i => { i with subNodes := ∅ }
    { s with repNodes := insert r (s.repNodes.erase n) }
  else s

/-- The first lines of `visit`. -/
def enter (v : N) : SCCDetection N :=
  let s := { s with I := s.I + 1 }
  let s := { s with D := Function.update s.D v s.I }
  (s.setRep v v).setVisited v true

/-- The second half of an iteration of the loop over the children: take over the better
    representative of a child that is not in a finished component. -/
def lower (v w : N) : SCCDetection N :=
  if s.inSCC w then s
  else
    match s.rep v, s.rep w with
    | some rv, some rw => s.setRep v (if s.D rv < s.D rw then rv else rw)
    | _, _ => s -- both have been visited and have one

end

/-- The loop that pops the nodes numbered after the root `v`. -/
def popSCC (s : SCCDetection N) (v : N) : List N → SCCDetection N
  | [] => { s with SS := [] }
  | w :: SS =>
    if s.D w ≤ s.D v then { s with SS := w :: SS }
    else popSCC (({ s with SS := SS }.setInSCC w true).setRep w v) v SS

/-- The end of `visit`: a root closes its component, any other node goes to the stack. -/
def leave (s : SCCDetection N) (v : N) : SCCDetection N :=
  if s.rep v = some v then
    let s := s.setInSCC v true
    let s := s.popSCC v s.SS
    { s with T := v :: s.T }
  else { s with SS := v :: s.SS }

def visit (graph : SccGraph N) : Nat → SCCDetection N → N → Option (SCCDetection N)
  | 0, _, _ => none
  | fuel + 1, s, v =>
    ((graph.children v).foldlM
      (fun (s : SCCDetection N) w =>
        (if s.visited w then some s else visit graph fuel s w).map fun s => s.lower v w)
      (s.enter v)).map fun s => s.leave v

def find (graph : SccGraph N) (fuel : Nat) : Option (SCCDetection N) :=
  graph.nodes.foldlM
    (fun (s : SCCDetection N) node =>
      if s.visited node then some s
      else if s.rep node = none ∨ s.rep node = some node then visit graph fuel s node
      else some s)
    clear

-- ── what the updates do

section

variable (s : SCCDetection N)

theorem modifyInfo_info (n u : N) (f : GNodeSCCInfo N → GNodeSCCInfo N) :
    (s.modifyInfo n f).nodeSCCAuxInfo u =
      if u = n then f (s.nodeSCCAuxInfo n) else s.nodeSCCAuxInfo u := by
  rw [modifyInfo]
  by_cases h : u = n
  · rw [if_pos h, h]
    exact Function.update_self ..
  · rw [if_neg h]
    exact Function.update_of_ne h ..

/-- What `rep(n, r)` does to the entries. -/
theorem setRep_spec (n r u : N) : (s.setRep n r).rep u = (if u = n then some r else s.rep u) ∧
    (s.setRep n r).subNodes u =
      (if u = n ∧ n ≠ r then ∅ else if u = r then insert n (s.subNodes r) else s.subNodes u) ∧
    (s.setRep n r).visited u = s.visited u ∧ (s.setRep n r).inSCC u = s.inSCC u := by
  rw [setRep]
  by_cases hnr : n = r
  · subst hnr
    rw [if_neg (fun h => h rfl)]
    simp only [rep, subNodes, visited, inSCC, modifyInfo_info, ne_eq, not_true_eq_false,
      and_false, if_false]
    by_cases hu : u = n
    · subst hu
      simp
    · simp [hu]
  · rw [if_pos hnr]
    simp only [rep, subNodes, visited, inSCC, modifyInfo_info]
    by_cases hu : u = n
    · subst hu
      simp [hnr]
    · by_cases hur : u = r
      · subst hur
        simp [hu]
      · simp [hu, hur]

theorem setRep_rest (n r : N) :
    (s.setRep n r).I = s.I ∧ (s.setRep n r).D = s.D ∧ (s.setRep n r).SS = s.SS ∧
    (s.setRep n r).T = s.T ∧
    (s.setRep n r).repNodes = if n = r then s.repNodes else insert r (s.repNodes.erase n) := by
  rw [setRep]
  by_cases hnr : n = r
  · rw [if_neg (fun h => h hnr), if_pos hnr]
    exact ⟨rfl, rfl, rfl, rfl, rfl⟩
  · rw [if_pos hnr, if_neg hnr]
    exact ⟨rfl, rfl, rfl, rfl, rfl⟩

theorem enter_spec (v u : N) : (s.enter v).rep u = (if u = v then some v else s.rep u) ∧
    (s.enter v).subNodes u = (if u = v then insert v (s.subNodes v) else s.subNodes u) ∧
    (s.enter v).visited u = (if u = v then true else s.visited u) ∧
    (s.enter v).inSCC u = s.inSCC u ∧
    (s.enter v).D u = if u = v then s.I + 1 else s.D u := by
  let s0 : SCCDetection N := { s with I := s.I + 1, D := Function.update s.D v (s.I + 1) }
  obtain ⟨h1, h2, h3, h4⟩ := s0.setRep_spec v v u
  have hD : (s.enter v).D u = if u = v then s.I + 1 else s.D u := by
    show (s0.setRep v v).D u = _
    rw [(s0.setRep_rest v v).2.1]
    exact Function.update_apply ..
  simp only [ne_eq, not_true_eq_false, and_false, if_false] at h2
  refine ⟨?_, ?_, ?_, ?_, hD⟩
  all_goals
    simp only [rep, subNodes, visited, inSCC] at h1 h2 h3 h4 ⊢
    show _ = _
    by_cases hu : u = v
    · subst hu
      simp_all [SCCDetection.enter, setVisited, modifyInfo_info, s0]
    · simp_all [SCCDetection.enter, setVisited, modifyInfo_info, s0]

theorem enter_rest (v : N) : (s.enter v).I = s.I + 1 ∧ (s.enter v).SS = s.SS ∧ (s.enter v).T = s.T ∧
    (s.enter v).repNodes = s.repNodes := by
  let s0 : SCCDetection N := { s with I := s.I + 1, D := Function.update s.D v (s.I + 1) }
  obtain ⟨h1, -, h3, h4, h5⟩ := s0.setRep_rest v v
  rw [if_pos rfl] at h5
  exact ⟨h1, h3, h4, h5⟩

end

-- ── the invariant

variable {graph : SccGraph N}

def Edge (graph : SccGraph N) (a b : N) : Prop := b ∈ graph.children a

/-- Visited, and not in a finished component. -/
def Open (s : SCCDetection N) (u : N) : Prop := s.visited u = true ∧ s.inSCC u = false

/-- The invariant of the search, with the list `path` of the nodes whose `visit` has begun
    and not returned, the innermost first. -/
structure Inv (graph : SccGraph N) (path : List N) (s : SCCDetection N) : Prop where
  done_visited : ∀ u : N, s.inSCC u = true → s.visited u = true
  -- numbers
  num_le : ∀ u : N, s.visited u = true → s.D u ≤ s.I
  num_inj : ∀ u w : N, s.visited u = true → s.visited w = true → s.D u = s.D w → u = w
  -- the path and the stack
  path_open : ∀ g : N, g ∈ path → s.Open g
  path_sorted : path.Pairwise fun a b => s.D b < s.D a
  path_reach : ∀ g u : N, g ∈ path → s.Open u → s.D g ≤ s.D u → Reach (Edge graph) g u
  mem_SS : ∀ u : N, u ∈ s.SS ↔ s.Open u ∧ u ∉ path
  -- edges
  children_visited : ∀ u w : N, s.visited u = true → u ∉ path → Edge graph u w →
    s.visited w = true
  done_closed : ∀ u w : N, s.inSCC u = true → Edge graph u w → s.inSCC w = true
  -- representatives of open nodes
  open_rep : ∀ u : N, s.Open u →
    ∃ r, s.rep u = some r ∧ s.Open r ∧ s.D r ≤ s.D u ∧ Mutual (Edge graph) u r
  left_rep : ∀ u : N, s.Open u → u ∉ path → s.rep u ≠ some u
  white : ∀ u : N, s.visited u = false → s.rep u = none ∧ s.subNodes u = ∅ ∧ u ∉ s.repNodes
  sub_mutual : ∀ x u : N, x ∈ s.subNodes u → Mutual (Edge graph) x u
  self_sub : ∀ u : N, s.rep u = some u → u ∈ s.subNodes u
  repNodes_two : ∀ r : N, r ∈ s.repNodes → ∃ x, x ≠ r ∧ Mutual (Edge graph) x r
  -- finished components
  done_rep : ∀ u : N, s.inSCC u = true →
    ∃ r, s.rep u = some r ∧ s.inSCC r = true ∧ s.rep r = some r ∧ Mutual (Edge graph) u r
  done_same : ∀ u w : N, s.inSCC u = true → Mutual (Edge graph) u w → s.rep u = s.rep w
  done_sub : ∀ r x : N, s.inSCC r = true → s.rep r = some r →
    (x ∈ s.subNodes r ↔ Mutual (Edge graph) x r)
  done_other : ∀ u : N, s.inSCC u = true → s.rep u ≠ some u → s.subNodes u = ∅
  done_repNodes : ∀ r : N, s.inSCC r = true →
    (r ∈ s.repNodes ↔ s.rep r = some r ∧ ∃ x, x ≠ r ∧ Mutual (Edge graph) x r)
  -- the topological stack
  mem_T : ∀ r : N, r ∈ s.T ↔ s.inSCC r = true ∧ s.rep r = some r
  nodup_T : s.T.Nodup
  topo : ∀ u w a b : N, s.inSCC u = true → Edge graph u w → s.rep u = some a →
    s.rep w = some b → a ≠ b → [a, b].Sublist s.T

theorem inv_clear : Inv graph [] (clear : SCCDetection N) := by
  constructor
  all_goals simp [clear, visited, inSCC, rep, subNodes, Open]

variable {path : List N} {s : SCCDetection N}

/-- An open node reaches one on the path that was numbered no later: its representative is
    earlier, unless it is on the path itself. -/
theorem Inv.open_reaches_path (h : Inv graph path s) : ∀ (n : Nat) (u : N), s.D u ≤ n → s.Open u →
      ∃ g ∈ path, s.D g ≤ s.D u ∧ Reach (Edge graph) u g := by
  intro n
  induction n with
  | zero =>
    intro u hn hu
    by_cases hp : u ∈ path
    · exact ⟨u, hp, le_rfl, .refl⟩
    · obtain ⟨r, hr, hro, hle, -⟩ := h.open_rep u hu
      have heq : u = r := h.num_inj u r hu.1 hro.1 (by omega)
      exact absurd (heq ▸ hr) (h.left_rep u hu hp)
  | succ n ih =>
    intro u hn hu
    by_cases hp : u ∈ path
    · exact ⟨u, hp, le_rfl, .refl⟩
    · obtain ⟨r, hr, hro, hle, hm⟩ := h.open_rep u hu
      have hne : s.D r ≠ s.D u := by
        intro heq
        have hru : r = u := h.num_inj r u hro.1 hu.1 heq
        exact h.left_rep u hu hp (hru ▸ hr)
      obtain ⟨g, hg, hgle, hreach⟩ := ih r (by omega) hro
      exact ⟨g, hg, by omega, hm.1.trans hreach⟩

variable {v : N} {t : SCCDetection N} {u : N}

/-- Beginning a visit. -/
theorem Inv.enter (h : Inv graph path s) (hv : s.visited v = false)
    (hpath : ∀ g ∈ path, Reach (Edge graph) g v) : Inv graph (v :: path) (s.enter v) := by
  obtain ⟨hI, hSS, hT, hR⟩ := s.enter_rest v
  have hrep := fun u => (s.enter_spec v u).1
  have hsub := fun u => (s.enter_spec v u).2.1
  have hvis := fun u => (s.enter_spec v u).2.2.1
  have hdone := fun u => (s.enter_spec v u).2.2.2.1
  have hD := fun u => (s.enter_spec v u).2.2.2.2
  obtain ⟨hv1, hv2, hv3⟩ := h.white v hv
  have hvdone : s.inSCC v = false := by
    by_contra hc
    have := h.done_visited v (by simpa using hc)
    rw [hv] at this
    cases this
  -- what was visited is not `v`, and keeps what it had
  have hold : ∀ u, s.visited u → u ≠ v := by
    rintro u hu rfl
    rw [hv] at hu
    cases hu
  have hopen : ∀ u, (s.enter v).Open u ↔ u = v ∨ s.Open u := by
    intro u
    rw [Open, Open, hvis, hdone]
    by_cases hu : u = v
    · subst hu
      simp [hvdone]
    · simp [hu]
  have hnotpath : v ∉ path := fun hm => hold v (h.path_open v hm).1 rfl
  have hvself : ∀ u, s.inSCC u → u ≠ v := fun u hu => hold u (h.done_visited u hu)
  constructor
  case done_visited =>
    intro u hu
    rw [hdone] at hu
    rw [hvis, if_neg (hvself u hu)]
    exact h.done_visited u hu
  case num_le =>
    intro u hu
    rw [hvis] at hu
    rw [hD, hI]
    by_cases huv : u = v
    · rw [if_pos huv]
    · rw [if_neg huv] at hu ⊢
      exact le_succ_of_le (h.num_le u hu)
  case num_inj =>
    intro u w hu hw heq
    rw [hvis] at hu hw
    rw [hD, hD] at heq
    by_cases huv : u = v <;> by_cases hwv : w = v
    · rw [huv, hwv]
    · rw [if_pos huv, if_neg hwv] at heq
      rw [if_neg hwv] at hw
      have := h.num_le w hw
      omega
    · rw [if_neg huv, if_pos hwv] at heq
      rw [if_neg huv] at hu
      have := h.num_le u hu
      omega
    · rw [if_neg huv, if_neg hwv] at heq
      rw [if_neg huv] at hu
      rw [if_neg hwv] at hw
      exact h.num_inj u w hu hw heq
  case path_open =>
    intro g hg
    rw [hopen]
    exact (mem_cons.mp hg).imp id (h.path_open g)
  case path_sorted =>
    refine pairwise_cons.mpr ⟨fun g hg => ?_, h.path_sorted.imp_of_mem ?_⟩
    · have hgo := (h.path_open g hg).1
      have := h.num_le g hgo
      rw [hD, hD, if_neg (hold g hgo), if_pos rfl]
      omega
    · intro a b ha hb hab
      rw [hD, hD, if_neg (hold b (h.path_open b hb).1), if_neg (hold a (h.path_open a ha).1)]
      exact hab
  case path_reach =>
    intro g u hg hu hle
    rw [hopen] at hu
    rcases mem_cons.mp hg with rfl | hgp
    · rcases hu with rfl | hu
      · exact .refl
      · have hu' := h.num_le u hu.1
        rw [hD, hD, if_pos rfl, if_neg (hold u hu.1)] at hle
        omega
    · rcases hu with rfl | hu
      · exact hpath g hgp
      · rw [hD, hD, if_neg (hold u hu.1), if_neg (hold g (h.path_open g hgp).1)] at hle
        exact h.path_reach g u hgp hu hle
  case mem_SS =>
    intro u
    rw [hSS, h.mem_SS, hopen, mem_cons, not_or]
    constructor
    · rintro ⟨ho, hn⟩
      exact ⟨.inr ho, hold u ho.1, hn⟩
    · rintro ⟨ho, hne, hn⟩
      exact ⟨ho.resolve_left hne, hn⟩
  case children_visited =>
    intro u w hu hp he
    rw [mem_cons, not_or] at hp
    rw [hvis, if_neg hp.1] at hu
    have hw := h.children_visited u w hu hp.2 he
    rw [hvis, if_neg (hold w hw)]
    exact hw
  case done_closed =>
    intro u w hu he
    rw [hdone] at hu ⊢
    exact h.done_closed u w hu he
  case open_rep =>
    intro u hu
    rw [hrep]
    rcases (hopen u).mp hu with rfl | ho
    · exact ⟨u, if_pos rfl, hu, le_rfl, Mutual.refl u⟩
    · obtain ⟨r, hr, hro, hle, hm⟩ := h.open_rep u ho
      refine ⟨r, ?_, (hopen r).mpr (.inr hro), ?_, hm⟩
      · rw [if_neg (hold u ho.1)]
        exact hr
      · rw [hD, hD, if_neg (hold r hro.1), if_neg (hold u ho.1)]
        exact hle
  case left_rep =>
    intro u hu hp
    rw [mem_cons, not_or] at hp
    rw [hrep, if_neg hp.1]
    exact h.left_rep u (((hopen u).mp hu).resolve_left hp.1) hp.2
  case white =>
    intro u hu
    rw [hvis] at hu
    by_cases huv : u = v
    · rw [if_pos huv] at hu
      cases hu
    · rw [if_neg huv] at hu
      rw [hrep, hsub, hR, if_neg huv, if_neg huv]
      exact h.white u hu
  case sub_mutual =>
    intro x u hx
    rw [hsub] at hx
    by_cases huv : u = v
    · rw [if_pos huv, hv2, mem_insert] at hx
      rcases hx with rfl | hx
      · exact huv ▸ Mutual.refl _
      · exact absurd hx (Finset.notMem_empty x)
    · rw [if_neg huv] at hx
      exact h.sub_mutual x u hx
  case self_sub =>
    intro u hu
    rw [hrep] at hu
    rw [hsub]
    by_cases huv : u = v
    · rw [if_pos huv, huv]
      exact Finset.mem_insert_self v _
    · rw [if_neg huv] at hu ⊢
      exact h.self_sub u hu
  case repNodes_two =>
    rw [hR]
    exact h.repNodes_two
  case done_rep =>
    intro u hu
    rw [hdone] at hu
    obtain ⟨r, hr, hrd, hrr, hm⟩ := h.done_rep u hu
    refine ⟨r, ?_, ?_, ?_, hm⟩
    · rw [hrep, if_neg (hvself u hu)]
      exact hr
    · rw [hdone]
      exact hrd
    · rw [hrep, if_neg (hvself r hrd)]
      exact hrr
  case done_same =>
    intro u w hu hm
    rw [hdone] at hu
    have hw := Reach.mem_of_closed (S := {x | s.inSCC x = true}) h.done_closed hm.1 hu
    rw [hrep, hrep, if_neg (hvself u hu), if_neg (hvself w hw)]
    exact h.done_same u w hu hm
  case done_sub =>
    intro r x hr hrr
    rw [hdone] at hr
    rw [hrep, if_neg (hvself r hr)] at hrr
    rw [hsub, if_neg (hvself r hr)]
    exact h.done_sub r x hr hrr
  case done_other =>
    intro u hu hne
    rw [hdone] at hu
    rw [hrep, if_neg (hvself u hu)] at hne
    rw [hsub, if_neg (hvself u hu)]
    exact h.done_other u hu hne
  case done_repNodes =>
    intro r hr
    rw [hdone] at hr
    rw [hR, hrep, if_neg (hvself r hr)]
    exact h.done_repNodes r hr
  case mem_T =>
    intro r
    rw [hT, h.mem_T, hdone]
    refine and_congr_right fun hr => ?_
    rw [hrep, if_neg (hvself r hr)]
  case nodup_T =>
    rw [hT]
    exact h.nodup_T
  case topo =>
    intro u w a b hu he ha hb hab
    rw [hdone] at hu
    have hw := h.done_closed u w hu he
    rw [hrep, if_neg (hvself u hu)] at ha
    rw [hrep, if_neg (hvself w hw)] at hb
    rw [hT]
    exact h.topo u w a b hu he ha hb hab

/-- Lowering the representative of a node on the path to another open node of its
    component. -/
theorem Inv.setRep (h : Inv graph path s) {v r : N} (hv : v ∈ path) (hr : s.Open r)
    (hle : s.D r ≤ s.D v) (hm : Mutual (Edge graph) v r) : Inv graph path (s.setRep v r) := by
  obtain ⟨hI, hD, hSS, hT, hR⟩ := s.setRep_rest v r
  have hrep := fun u => (s.setRep_spec v r u).1
  have hsub := fun u => (s.setRep_spec v r u).2.1
  have hvis := fun u => (s.setRep_spec v r u).2.2.1
  have hdone := fun u => (s.setRep_spec v r u).2.2.2
  have hvo := h.path_open v hv
  have hopen : ∀ u, (s.setRep v r).Open u ↔ s.Open u := by
    intro u
    rw [Open, Open, hvis, hdone]
  -- nodes of finished components are neither `v` nor `r`
  have hold : ∀ u, s.inSCC u → u ≠ v ∧ u ≠ r := by
    intro u hu
    constructor
    · rintro rfl
      exact absurd hvo.2 (by rw [hu]; decide)
    · rintro rfl
      exact absurd hr.2 (by rw [hu]; decide)
  have hsub_done : ∀ u, s.inSCC u → (s.setRep v r).subNodes u = s.subNodes u := by
    intro u hu
    rw [hsub, if_neg (fun hc => (hold u hu).1 hc.1), if_neg (hold u hu).2]
  have hrep_done : ∀ u, s.inSCC u → (s.setRep v r).rep u = s.rep u := by
    intro u hu
    rw [hrep, if_neg (hold u hu).1]
  have hR_mem : ∀ u, u ≠ v → u ≠ r → (u ∈ (s.setRep v r).repNodes ↔ u ∈ s.repNodes) := by
    intro u huv hur
    rw [hR]
    by_cases hvr : v = r
    · rw [if_pos hvr]
    · rw [if_neg hvr, mem_insert, mem_erase]
      exact ⟨fun hc => (hc.resolve_left hur).2, fun hc => .inr ⟨huv, hc⟩⟩
  constructor
  case done_visited =>
    intro u hu
    rw [hdone] at hu
    rw [hvis]
    exact h.done_visited u hu
  case num_le =>
    intro u hu
    rw [hvis] at hu
    rw [hD, hI]
    exact h.num_le u hu
  case num_inj =>
    intro u w hu hw heq
    rw [hvis] at hu hw
    rw [hD] at heq
    exact h.num_inj u w hu hw heq
  case path_open => exact fun g hg => (hopen g).mpr (h.path_open g hg)
  case path_sorted =>
    rw [hD]
    exact h.path_sorted
  case path_reach =>
    intro g u hg hu hgu
    rw [hD] at hgu
    exact h.path_reach g u hg ((hopen u).mp hu) hgu
  case mem_SS =>
    intro u
    rw [hSS, hopen]
    exact h.mem_SS u
  case children_visited =>
    intro u w hu hp he
    rw [hvis] at hu ⊢
    exact h.children_visited u w hu hp he
  case done_closed =>
    intro u w hu he
    rw [hdone] at hu ⊢
    exact h.done_closed u w hu he
  case open_rep =>
    intro u hu
    rw [hrep, hD]
    by_cases huv : u = v
    · subst huv
      exact ⟨r, if_pos rfl, (hopen r).mpr hr, hle, hm⟩
    · rw [if_neg huv]
      obtain ⟨r', hr', hro, hle', hm'⟩ := h.open_rep u ((hopen u).mp hu)
      exact ⟨r', hr', (hopen r').mpr hro, hle', hm'⟩
  case left_rep =>
    intro u hu hp
    have huv : u ≠ v := fun he => hp (he ▸ hv)
    rw [hrep, if_neg huv]
    exact h.left_rep u ((hopen u).mp hu) hp
  case white =>
    intro u hu
    rw [hvis] at hu
    have huv : u ≠ v := by
      rintro rfl
      exact absurd hvo.1 (by rw [hu]; decide)
    have hur : u ≠ r := by
      rintro rfl
      exact absurd hr.1 (by rw [hu]; decide)
    rw [hrep, hsub, hR_mem u huv hur, if_neg huv, if_neg (fun hc => huv hc.1), if_neg hur]
    exact h.white u hu
  case sub_mutual =>
    intro x u hx
    rw [hsub] at hx
    by_cases hc : u = v ∧ v ≠ r
    · rw [if_pos hc] at hx
      exact absurd hx (Finset.notMem_empty x)
    · rw [if_neg hc] at hx
      by_cases hur : u = r
      · rw [if_pos hur, mem_insert] at hx
        rcases hx with rfl | hx
        · exact hur ▸ hm
        · exact hur ▸ h.sub_mutual x r hx
      · rw [if_neg hur] at hx
        exact h.sub_mutual x u hx
  case self_sub =>
    intro u hu
    rw [hrep] at hu
    rw [hsub]
    by_cases huv : u = v
    · subst huv
      rw [if_pos rfl] at hu
      cases hu
      rw [if_neg (fun hc => hc.2 rfl), if_pos rfl]
      exact Finset.mem_insert_self _ _
    · rw [if_neg huv] at hu
      rw [if_neg (fun hc => huv hc.1)]
      by_cases hur : u = r
      · subst hur
        rw [if_pos rfl]
        exact Finset.mem_insert_of_mem (h.self_sub u hu)
      · rw [if_neg hur]
        exact h.self_sub u hu
  case repNodes_two =>
    intro u hu
    rw [hR] at hu
    by_cases hvr : v = r
    · rw [if_pos hvr] at hu
      exact h.repNodes_two u hu
    · rw [if_neg hvr, mem_insert] at hu
      rcases hu with rfl | hu
      · exact ⟨v, hvr, hm⟩
      · exact h.repNodes_two u (Finset.mem_of_mem_erase hu)
  case done_rep =>
    intro u hu
    rw [hdone] at hu
    obtain ⟨r', hr', hrd, hrr, hm'⟩ := h.done_rep u hu
    rw [hrep_done u hu]
    refine ⟨r', hr', ?_, ?_, hm'⟩
    · rw [hdone]
      exact hrd
    · rw [hrep_done r' hrd]
      exact hrr
  case done_same =>
    intro u w hu hm'
    rw [hdone] at hu
    have hw := Reach.mem_of_closed (S := {x | s.inSCC x = true}) h.done_closed hm'.1 hu
    rw [hrep_done u hu, hrep_done w hw]
    exact h.done_same u w hu hm'
  case done_sub =>
    intro r' x hr' hrr
    rw [hdone] at hr'
    rw [hrep_done r' hr'] at hrr
    rw [hsub_done r' hr']
    exact h.done_sub r' x hr' hrr
  case done_other =>
    intro u hu hne
    rw [hdone] at hu
    rw [hrep_done u hu] at hne
    rw [hsub_done u hu]
    exact h.done_other u hu hne
  case done_repNodes =>
    intro r' hr'
    rw [hdone] at hr'
    rw [hR_mem r' (hold r' hr').1 (hold r' hr').2, hrep_done r' hr']
    exact h.done_repNodes r' hr'
  case mem_T =>
    intro r'
    rw [hT, h.mem_T, hdone]
    refine and_congr_right fun hr' => ?_
    rw [hrep_done r' hr']
  case nodup_T =>
    rw [hT]
    exact h.nodup_T
  case topo =>
    intro u w a b hu he ha hb hab
    rw [hdone] at hu
    have hw := h.done_closed u w hu he
    rw [hrep_done u hu] at ha
    rw [hrep_done w hw] at hb
    rw [hT]
    exact h.topo u w a b hu he ha hb hab

omit [DecidableEq N] in
theorem Inv.notMem_path (h : Inv graph (v :: path) s) : v ∉ path := by
  intro hv
  exact absurd ((pairwise_cons.mp h.path_sorted).1 v hv) (lt_irrefl _)

theorem Inv.leave_push (h : Inv graph (v :: path) s) (hrep : s.rep v ≠ some v)
    (hch : ∀ w, Edge graph v w → s.visited w) :
    Inv graph path { s with SS := v :: s.SS } := by
  have hvpath := h.notMem_path
  constructor
  case path_open => exact (forall_mem_cons.mp h.path_open).2
  case path_sorted => exact (pairwise_cons.mp h.path_sorted).2
  case path_reach => exact fun g u hg => h.path_reach g u (mem_cons_of_mem v hg)
  case mem_SS =>
    intro u
    show u ∈ v :: s.SS ↔ s.Open u ∧ u ∉ path
    rw [mem_cons, h.mem_SS, mem_cons, not_or]
    constructor
    · rintro (rfl | ⟨ho, -, hn⟩)
      · exact ⟨h.path_open u mem_cons_self, hvpath⟩
      · exact ⟨ho, hn⟩
    · rintro ⟨ho, hn⟩
      by_cases huv : u = v
      · exact .inl huv
      · exact .inr ⟨ho, huv, hn⟩
  case children_visited =>
    intro u w hu hp he
    by_cases huv : u = v
    · exact hch w (huv ▸ he)
    · exact h.children_visited u w hu (by simp [huv, hp]) he
  case left_rep =>
    intro u hu hp
    by_cases huv : u = v
    · subst huv
      exact hrep
    · exact h.left_rep u hu (by simp [huv, hp])
  case done_visited => exact h.done_visited
  case num_le => exact h.num_le
  case num_inj => exact h.num_inj
  case done_closed => exact h.done_closed
  case open_rep => exact h.open_rep
  case white => exact h.white
  case sub_mutual => exact h.sub_mutual
  case self_sub => exact h.self_sub
  case repNodes_two => exact h.repNodes_two
  case done_rep => exact h.done_rep
  case done_same => exact h.done_same
  case done_sub => exact h.done_sub
  case done_other => exact h.done_other
  case done_repNodes => exact h.done_repNodes
  case mem_T => exact h.mem_T
  case nodup_T => exact h.nodup_T
  case topo => exact h.topo

-- ── closing a component

theorem setInSCC_spec (s : SCCDetection N) (n u : N) :
    (s.setInSCC n true).rep u = s.rep u ∧ (s.setInSCC n true).subNodes u = s.subNodes u ∧
    (s.setInSCC n true).visited u = s.visited u ∧
    (s.setInSCC n true).inSCC u = if u = n then true else s.inSCC u := by
  simp only [rep, subNodes, visited, inSCC, setInSCC, modifyInfo_info]
  by_cases hu : u = n
  · subst hu
    simp
  · simp [hu]

structure Popped (s t : SCCDetection N) (v : N) (xs ys : List N) : Prop where
  I : t.I = s.I
  D : t.D = s.D
  T : t.T = s.T
  SS : t.SS = ys
  visited : ∀ u : N, t.visited u = s.visited u
  inSCC : ∀ u : N, t.inSCC u = true ↔ u ∈ xs ∨ s.inSCC u = true
  rep : ∀ u : N, t.rep u = if u ∈ xs then some v else s.rep u
  subNodes : ∀ u x : N, x ∈ t.subNodes u ↔
    u ∉ xs ∧ (x ∈ s.subNodes u ∨ (u = v ∧ x ∈ xs))
  repNodes : ∀ u : N, u ∈ t.repNodes ↔ (u = v ∧ xs ≠ []) ∨ (u ∉ xs ∧ u ∈ s.repNodes)

theorem popSCC_spec (v : N) (ys : List N) :
    ∀ (xs : List N) (s : SCCDetection N), v ∉ xs → (∀ x ∈ xs, s.D v < s.D x) →
      (∀ y ∈ ys, s.D y ≤ s.D v) → Popped s (s.popSCC v (xs ++ ys)) v xs ys := by
  intro xs
  induction xs with
  | nil =>
    intro s _ _ hys
    have hstop : s.popSCC v ys = { s with SS := ys } := by
      cases ys with
      | nil => rfl
      | cons y ys => exact if_pos (hys y mem_cons_self)
    rw [nil_append, hstop]
    constructor
    case subNodes => exact fun u x => by simp; rfl
    all_goals
      intros
      first | rfl | simp [SCCDetection.inSCC]
  | cons w xs ih =>
    intro s hv hxs hys
    rw [mem_cons, not_or] at hv
    let s0 : SCCDetection N := { s with SS := xs ++ ys }
    let s1 := (s0.setInSCC w true).setRep w v
    have hpop : s.popSCC v (w :: xs ++ ys) = s1.popSCC v (xs ++ ys) :=
      if_neg (by have := hxs w mem_cons_self; omega)
    obtain ⟨hI, hD, -, hT, hR⟩ := (s0.setInSCC w true).setRep_rest w v
    rw [if_neg (Ne.symm hv.1)] at hR
    have hD1 : s1.D = s.D := hD
    have hspec := fun u => (s0.setInSCC w true).setRep_spec w v u
    have hset := fun u => s0.setInSCC_spec w u
    have htail := ih s1 hv.2
      (fun x hx => by rw [hD1]; exact hxs x (mem_cons_of_mem w hx))
      (fun y hy => by rw [hD1]; exact hys y hy)
    rw [hpop]
    constructor
    case I => exact htail.I.trans hI
    case D => exact htail.D.trans hD
    case T => exact htail.T.trans hT
    case SS => exact htail.SS
    case visited =>
      intro u
      exact (htail.visited u).trans ((hspec u).2.2.1.trans (hset u).2.2.1)
    case inSCC =>
      intro u
      rw [htail.inSCC, (hspec u).2.2.2, (hset u).2.2.2, mem_cons]
      by_cases hu : u = w
      · simp [hu]
      · simp only [hu, if_false, false_or]
        exact .rfl
    case rep =>
      intro u
      rw [htail.rep, (hspec u).1, (hset u).1]
      by_cases hu : u = w
      · simp [hu]
      · simp only [hu, if_false, mem_cons, false_or]
        rfl
    case subNodes =>
      intro u x
      rw [htail.subNodes, (hspec u).2.1, (hset u).2.1, (hset v).2.1, mem_cons, not_or,
        mem_cons]
      by_cases hu : u = w
      · subst hu
        simp [Ne.symm hv.1]
      · rw [if_neg (fun hc => hu hc.1)]
        by_cases huv : u = v
        · subst huv
          rw [if_pos rfl, mem_insert]
          show (_ ∧ ((x = w ∨ x ∈ s.subNodes u) ∨ _)) ↔ _
          tauto
        · rw [if_neg huv]
          show (_ ∧ (x ∈ s.subNodes u ∨ _)) ↔ _
          tauto
    case repNodes =>
      intro u
      rw [htail.repNodes, hR, mem_insert, mem_erase, mem_cons, not_or]
      show ((u = v ∧ xs ≠ []) ∨ (u ∉ xs ∧ (u = v ∨ (u ≠ w ∧ u ∈ s.repNodes)))) ↔ _
      by_cases huv : u = v
      · subst huv
        simp [hv.2]
      · simp [huv]
        tauto

structure Closed (s t : SCCDetection N) (v : N) (xs ys : List N) : Prop where
  I : t.I = s.I
  D : t.D = s.D
  T : t.T = v :: s.T
  SS : t.SS = ys
  visited : ∀ u : N, t.visited u = s.visited u
  inSCC : ∀ u : N, t.inSCC u = true ↔ (u = v ∨ u ∈ xs) ∨ s.inSCC u = true
  rep : ∀ u : N, t.rep u = if u ∈ xs then some v else s.rep u
  subNodes : ∀ u x : N, x ∈ t.subNodes u ↔
    u ∉ xs ∧ (x ∈ s.subNodes u ∨ (u = v ∧ x ∈ xs))
  repNodes : ∀ u : N, u ∈ t.repNodes ↔ (u = v ∧ xs ≠ []) ∨ (u ∉ xs ∧ u ∈ s.repNodes)

theorem leave_closed {xs ys : List N} (hrep : s.rep v = some v) (hSS : s.SS = xs ++ ys)
    (hv : v ∉ xs) (hxs : ∀ x ∈ xs, s.D v < s.D x) (hys : ∀ y ∈ ys, s.D y ≤ s.D v) :
    Closed s (s.leave v) v xs ys := by
  have hset := fun u => s.setInSCC_spec v u
  have hpop := popSCC_spec v ys xs (s.setInSCC v true) hv hxs hys
  have hleave : s.leave v =
      { (s.setInSCC v true).popSCC v (xs ++ ys) with
        T := v :: ((s.setInSCC v true).popSCC v (xs ++ ys)).T } := by
    rw [leave, if_pos hrep, ← hSS]
    rfl
  rw [hleave]
  constructor
  case I => exact hpop.I
  case D => exact hpop.D
  case T => exact congrArg (v :: ·) hpop.T
  case SS => exact hpop.SS
  case visited => exact fun u => (hpop.visited u).trans (hset u).2.2.1
  case inSCC =>
    intro u
    refine (hpop.inSCC u).trans ?_
    rw [(hset u).2.2.2]
    by_cases hu : u = v
    · simp [hu]
    · simp [hu]
  case rep =>
    intro u
    refine (hpop.rep u).trans ?_
    rw [(hset u).1]
  case subNodes =>
    intro u x
    refine (hpop.subNodes u x).trans ?_
    rw [(hset u).2.1]
  case repNodes => exact hpop.repNodes

/-- Closing the component of a root. The nodes numbered from `v` on are exactly its component:
    `hlow` says that no edge leaves them for an earlier open node. -/
theorem Inv.leave_root {xs ys : List N} (h : Inv graph (v :: path) s) (hrep : s.rep v = some v)
    (hch : ∀ w, Edge graph v w → s.visited w)
    (hlow : ∀ u w, s.Open u → s.D v ≤ s.D u → Edge graph u w → s.Open w → s.D v ≤ s.D w)
    (hSS : s.SS = xs ++ ys) (hxs : ∀ x ∈ xs, s.D v < s.D x) (hys : ∀ y ∈ ys, s.D y < s.D v)
    (ht : Closed s t v xs ys) : Inv graph path t := by
  have hvo : s.Open v := h.path_open v mem_cons_self
  have hvpath := h.notMem_path
  have hpath_lt : ∀ g ∈ path, s.D g < s.D v := (pairwise_cons.mp h.path_sorted).1
  have hvxs : v ∉ xs := fun hm => absurd (hxs v hm) (lt_irrefl _)
  have hxs_open : ∀ x ∈ xs, s.Open x ∧ x ≠ v ∧ x ∉ path := by
    intro x hx
    have hmem : x ∈ s.SS := by
      rw [hSS]
      exact mem_append_left ys hx
    obtain ⟨ho, hn⟩ := (h.mem_SS x).mp hmem
    rw [mem_cons, not_or] at hn
    exact ⟨ho, hn⟩
  -- the open nodes from `v` on are `v` and what is popped
  let C : Set N := {u | u = v ∨ u ∈ xs}
  have hC : ∀ u, u ∈ C ↔ s.Open u ∧ s.D v ≤ s.D u := by
    intro u
    constructor
    · rintro (rfl | hu)
      · exact ⟨hvo, le_rfl⟩
      · exact ⟨(hxs_open u hu).1, (hxs u hu).le⟩
    · rintro ⟨ho, hle⟩
      by_cases huv : u = v
      · exact .inl huv
      · have hup : u ∉ v :: path := by
          rw [mem_cons, not_or]
          exact ⟨huv, fun hp => absurd (hpath_lt u hp) (by omega)⟩
        have hmem := (h.mem_SS u).mpr ⟨ho, hup⟩
        rw [hSS, mem_append] at hmem
        rcases hmem with hm | hm
        · exact .inr hm
        · exact absurd (hys u hm) (by omega)
  have hvisited : ∀ u w, u ∈ C → Edge graph u w → s.visited w := by
    rintro u w (rfl | hu) he
    · exact hch w he
    · obtain ⟨ho, hne, hp⟩ := hxs_open u hu
      exact h.children_visited u w ho.1 (by simp [hne, hp]) he
  have hCedge : ∀ u w, u ∈ C → Edge graph u w → w ∈ C ∨ s.inSCC w := by
    intro u w hu he
    by_cases hw : s.inSCC w
    · exact .inr hw
    · have hwo : s.Open w := ⟨hvisited u w hu he, by simpa using hw⟩
      obtain ⟨ho, hle⟩ := (hC u).mp hu
      exact .inl ((hC w).mpr ⟨hwo, hlow u w ho hle he hwo⟩)
  have hvdone : ¬ s.inSCC v := by
    rw [hvo.2]
    decide
  have hfrom : ∀ u ∈ C, Reach (Edge graph) v u := fun u hu =>
    h.path_reach v u mem_cons_self ((hC u).mp hu).1 ((hC u).mp hu).2
  have hclosed : ∀ x y, x ∈ C ∪ {u | s.inSCC u = true} → Edge graph x y →
      y ∈ C ∪ {u | s.inSCC u = true} := by
    rintro x y (hx | hx) he
    · exact hCedge x y hx he
    · exact .inr (h.done_closed x y hx he)
  have hto : ∀ u ∈ C, Reach (Edge graph) u v := by
    intro u hu
    obtain ⟨g, hg, -, hreach⟩ := h.open_reaches_path (s.D u) u le_rfl ((hC u).mp hu).1
    -- the node on the path cannot be earlier than `v`: no edge leads there
    rcases Reach.mem_of_closed hclosed hreach (.inl hu) with hgC | hgd
    · rcases mem_cons.mp hg with rfl | hgp
      · exact hreach
      · exact absurd ((hC g).mp hgC).2 (by have := hpath_lt g hgp; omega)
    · have hgd' : s.inSCC g := hgd
      rw [(h.path_open g hg).2] at hgd'
      cases hgd'
  have hCm : ∀ x, x ∈ C ↔ Mutual (Edge graph) x v :=
    mem_iff_mutual (D := {u | s.inSCC u = true}) h.done_closed hCedge (.inl rfl) hvdone hfrom hto
  -- what is in a finished component already is not among them
  have hold : ∀ u, s.inSCC u → u ∉ xs ∧ u ≠ v := by
    intro u hu
    constructor
    · intro hx
      have := (hxs_open u hx).1.2
      rw [hu] at this
      cases this
    · rintro rfl
      exact hvdone hu
  have hdone : ∀ u, t.inSCC u ↔ u ∈ C ∨ s.inSCC u := ht.inSCC
  have hrepC : ∀ u ∈ C, t.rep u = some v := by
    rintro u (rfl | hu)
    · rw [ht.rep, if_neg hvxs]
      exact hrep
    · rw [ht.rep, if_pos hu]
  have hrep_done : ∀ u, s.inSCC u → t.rep u = s.rep u := by
    intro u hu
    rw [ht.rep, if_neg (hold u hu).1]
  have hopen : ∀ u, t.Open u ↔ s.Open u ∧ u ∉ C := by
    intro u
    rw [Open, Open, ht.visited, ← Bool.not_eq_true, ← Bool.not_eq_true, hdone, not_or]
    tauto
  have hxsC : ∀ u, u ∉ C → u ∉ xs ∧ u ≠ v := fun u hu =>
    ⟨fun hx => hu (.inr hx), fun he => hu (.inl he)⟩
  constructor
  case done_visited =>
    intro u hu
    rw [ht.visited]
    rcases (hdone u).mp hu with hu | hu
    · exact ((hC u).mp hu).1.1
    · exact h.done_visited u hu
  case num_le =>
    intro u hu
    rw [ht.visited] at hu
    rw [ht.D, ht.I]
    exact h.num_le u hu
  case num_inj =>
    intro u w hu hw heq
    rw [ht.visited] at hu hw
    rw [ht.D] at heq
    exact h.num_inj u w hu hw heq
  case path_open =>
    intro g hg
    refine (hopen g).mpr ⟨h.path_open g (mem_cons_of_mem v hg), fun hc => ?_⟩
    have := ((hC g).mp hc).2
    have := hpath_lt g hg
    omega
  case path_sorted =>
    rw [ht.D]
    exact (pairwise_cons.mp h.path_sorted).2
  case path_reach =>
    intro g u hg hu hle
    rw [ht.D] at hle
    exact h.path_reach g u (mem_cons_of_mem v hg) ((hopen u).mp hu).1 hle
  case mem_SS =>
    intro u
    rw [ht.SS, hopen]
    constructor
    · intro hu
      have hmem : u ∈ s.SS := by
        rw [hSS]
        exact mem_append_right xs hu
      obtain ⟨ho, hn⟩ := (h.mem_SS u).mp hmem
      rw [mem_cons, not_or] at hn
      refine ⟨⟨ho, fun hc => ?_⟩, hn.2⟩
      have := ((hC u).mp hc).2
      have := hys u hu
      omega
    · rintro ⟨⟨ho, hnC⟩, hn⟩
      have hmem := (h.mem_SS u).mpr ⟨ho, by simp [(hxsC u hnC).2, hn]⟩
      rw [hSS, mem_append] at hmem
      exact hmem.resolve_left (hxsC u hnC).1
  case children_visited =>
    intro u w hu hp he
    rw [ht.visited] at hu ⊢
    by_cases huv : u = v
    · exact hch w (huv ▸ he)
    · exact h.children_visited u w hu (by simp [huv, hp]) he
  case done_closed =>
    intro u w hu he
    rw [hdone] at hu ⊢
    rcases hu with hu | hu
    · exact hCedge u w hu he
    · exact .inr (h.done_closed u w hu he)
  case open_rep =>
    intro u hu
    obtain ⟨ho, hnC⟩ := (hopen u).mp hu
    obtain ⟨r, hr, hro, hle, hm⟩ := h.open_rep u ho
    refine ⟨r, ?_, (hopen r).mpr ⟨hro, fun hrC => ?_⟩, ?_, hm⟩
    · rw [ht.rep, if_neg (hxsC u hnC).1]
      exact hr
    · exact hnC ((hCm u).mpr (hm.trans ((hCm r).mp hrC)))
    · rw [ht.D]
      exact hle
  case left_rep =>
    intro u hu hp
    obtain ⟨ho, hnC⟩ := (hopen u).mp hu
    rw [ht.rep, if_neg (hxsC u hnC).1]
    exact h.left_rep u ho (by simp [(hxsC u hnC).2, hp])
  case white =>
    intro u hu
    rw [ht.visited] at hu
    have hnC : u ∉ C := by
      intro hc
      have := ((hC u).mp hc).1.1
      rw [hu] at this
      cases this
    obtain ⟨hux, huv⟩ := hxsC u hnC
    obtain ⟨h1, h2, h3⟩ := h.white u hu
    refine ⟨?_, ?_, ?_⟩
    · rw [ht.rep, if_neg hux]
      exact h1
    · ext x
      rw [ht.subNodes, h2]
      simp [huv]
    · rw [ht.repNodes]
      simp [huv, h3]
  case sub_mutual =>
    intro x u hx
    obtain ⟨-, hx | ⟨rfl, hx⟩⟩ := (ht.subNodes u x).mp hx
    · exact h.sub_mutual x u hx
    · exact (hCm x).mp (.inr hx)
  case self_sub =>
    intro u hu
    have hux : u ∉ xs := by
      intro hx
      rw [ht.rep, if_pos hx] at hu
      exact hvxs (some.inj hu ▸ hx)
    rw [ht.rep, if_neg hux] at hu
    exact (ht.subNodes u u).mpr ⟨hux, .inl (h.self_sub u hu)⟩
  case repNodes_two =>
    intro r hr
    rcases (ht.repNodes r).mp hr with ⟨rfl, hne⟩ | ⟨-, hr⟩
    · obtain ⟨x, hx⟩ := exists_mem_of_ne_nil _ hne
      exact ⟨x, (hxs_open x hx).2.1, (hCm x).mp (.inr hx)⟩
    · exact h.repNodes_two r hr
  case done_rep =>
    intro u hu
    rcases (hdone u).mp hu with huC | hu
    · exact ⟨v, hrepC u huC, (hdone v).mpr (.inl (.inl rfl)), hrepC v (.inl rfl), (hCm u).mp huC⟩
    · obtain ⟨r, hr, hrd, hrr, hm⟩ := h.done_rep u hu
      refine ⟨r, ?_, (hdone r).mpr (.inr hrd), ?_, hm⟩
      · rw [hrep_done u hu]
        exact hr
      · rw [hrep_done r hrd]
        exact hrr
  case done_same =>
    intro u w hu hm
    rcases (hdone u).mp hu with huC | hu
    · have hwC : w ∈ C := (hCm w).mpr (hm.symm.trans ((hCm u).mp huC))
      rw [hrepC u huC, hrepC w hwC]
    · have hw := Reach.mem_of_closed (S := {x | s.inSCC x = true}) h.done_closed hm.1 hu
      rw [hrep_done u hu, hrep_done w hw]
      exact h.done_same u w hu hm
  case done_sub =>
    intro r x hr hrr
    rcases (hdone r).mp hr with hrC | hrd
    · rw [hrepC r hrC] at hrr
      cases hrr
      rw [ht.subNodes, ← hCm]
      constructor
      · rintro ⟨-, hx | ⟨-, hx⟩⟩
        · exact (hCm x).mpr (h.sub_mutual x v hx)
        · exact .inr hx
      · rintro (rfl | hx)
        · exact ⟨hvxs, .inl (h.self_sub x hrep)⟩
        · exact ⟨hvxs, .inr ⟨rfl, hx⟩⟩
    · rw [hrep_done r hrd] at hrr
      rw [← h.done_sub r x hrd hrr, ht.subNodes]
      obtain ⟨h1, h2⟩ := hold r hrd
      simp [h1, h2]
  case done_other =>
    intro u hu hne
    ext x
    rw [ht.subNodes]
    rcases (hdone u).mp hu with huC | hud
    · have huv : u ≠ v := by
        rintro rfl
        exact hne (hrepC u huC)
      have hux : u ∈ xs := huC.resolve_left huv
      simp [hux]
    · rw [hrep_done u hud] at hne
      rw [h.done_other u hud hne]
      simp [(hold u hud).2]
  case done_repNodes =>
    intro r hr
    rw [ht.repNodes]
    rcases (hdone r).mp hr with hrC | hrd
    · rw [hrepC r hrC]
      constructor
      · rintro (⟨rfl, hne⟩ | ⟨hrx, hmem⟩)
        · obtain ⟨x, hx⟩ := exists_mem_of_ne_nil _ hne
          exact ⟨rfl, x, (hxs_open x hx).2.1, (hCm x).mp (.inr hx)⟩
        · obtain rfl : r = v := hrC.resolve_right hrx
          exact ⟨rfl, h.repNodes_two r hmem⟩
      · rintro ⟨hrv, x, hne, hm⟩
        cases hrv
        have hx : x ∈ xs := ((hCm x).mpr hm).resolve_left hne
        exact .inl ⟨rfl, ne_nil_of_mem hx⟩
    · rw [hrep_done r hrd, ← h.done_repNodes r hrd]
      obtain ⟨h1, h2⟩ := hold r hrd
      simp [h1, h2]
  case mem_T =>
    intro r
    rw [ht.T, mem_cons, h.mem_T]
    constructor
    · rintro (rfl | ⟨hrd, hrr⟩)
      · exact ⟨(hdone r).mpr (.inl (.inl rfl)), hrepC r (.inl rfl)⟩
      · refine ⟨(hdone r).mpr (.inr hrd), ?_⟩
        rw [hrep_done r hrd]
        exact hrr
    · rintro ⟨hrd, hrr⟩
      rcases (hdone r).mp hrd with hrC | hrd
      · rw [hrepC r hrC] at hrr
        exact .inl (some.inj hrr).symm
      · rw [hrep_done r hrd] at hrr
        exact .inr ⟨hrd, hrr⟩
  case nodup_T =>
    rw [ht.T]
    refine nodup_cons.mpr ⟨fun hm => ?_, h.nodup_T⟩
    exact hvdone ((h.mem_T v).mp hm).1
  case topo =>
    intro u w a b hu he ha hb hab
    rw [ht.T]
    rcases (hdone u).mp hu with huC | hud
    · rw [hrepC u huC] at ha
      cases ha
      rcases hCedge u w huC he with hwC | hwd
      · rw [hrepC w hwC] at hb
        exact absurd (some.inj hb) hab
      · rw [hrep_done w hwd] at hb
        obtain ⟨r, hr, hrd, hrr, -⟩ := h.done_rep w hwd
        obtain rfl : b = r := mem_unique hb hr
        exact (singleton_sublist.mpr ((h.mem_T b).mpr ⟨hrd, hrr⟩)).cons_cons v
    · have hwd := h.done_closed u w hud he
      rw [hrep_done u hud] at ha
      rw [hrep_done w hwd] at hb
      exact (h.topo u w a b hud he ha hb hab).cons v

-- ── what one call changes

/-- From `s` to a later state `t`: what was visited keeps its number and its status, what is
    new is numbered later, and the nodes of `path` keep their representatives. -/
structure Frame (path : List N) (s t : SCCDetection N) : Prop where
  visited : ∀ u : N, s.visited u = true → t.visited u = true
  D_old : ∀ u : N, s.visited u = true → t.D u = s.D u
  I_le : s.I ≤ t.I
  D_new : ∀ u : N, s.visited u = false → t.visited u = true → s.I < t.D u
  inSCC : ∀ u : N, s.inSCC u = true → t.inSCC u = true
  stays_open : ∀ u : N, s.Open u → t.Open u
  SS : ∃ xs, t.SS = xs ++ s.SS ∧ ∀ x ∈ xs, s.visited x = false ∧ t.visited x = true
  rep : ∀ u : N, u ∈ path → t.rep u = s.rep u

section

omit [DecidableEq N]

theorem Frame.refl (path : List N) (s : SCCDetection N) : Frame path s s where
  visited := fun _ h => h
  D_old := fun _ _ => rfl
  I_le := le_rfl
  D_new := fun u h h' => absurd (h.symm.trans h') (by decide)
  inSCC := fun _ h => h
  stays_open := fun _ h => h
  SS := ⟨[], rfl, nofun⟩
  rep := fun _ _ => rfl

theorem Frame.trans {s t r : SCCDetection N} (h : Frame path s t) (h' : Frame path t r) :
    Frame path s r where
  visited := fun u hu => h'.visited u (h.visited u hu)
  D_old := fun u hu => (h'.D_old u (h.visited u hu)).trans (h.D_old u hu)
  I_le := h.I_le.trans h'.I_le
  D_new := fun u hu hr => by
    cases ht : t.visited u with
    | true =>
      rw [h'.D_old u ht]
      exact h.D_new u hu ht
    | false => exact h.I_le.trans_lt (h'.D_new u ht hr)
  inSCC := fun u hu => h'.inSCC u (h.inSCC u hu)
  stays_open := fun u hu => h'.stays_open u (h.stays_open u hu)
  SS := by
    obtain ⟨xs, hxs, hnew⟩ := h.SS
    obtain ⟨xs', hxs', hnew'⟩ := h'.SS
    refine ⟨xs' ++ xs, ?_, fun x hx => ?_⟩
    · rw [hxs', hxs, append_assoc]
    · rcases mem_append.mp hx with hx | hx
      · obtain ⟨h1, h2⟩ := hnew' x hx
        refine ⟨?_, h2⟩
        cases hs : s.visited x with
        | false => rfl
        | true => cases (h.visited x hs).symm.trans h1
      · exact ⟨(hnew x hx).1, h'.visited x (hnew x hx).2⟩
  rep := fun u hu => (h'.rep u hu).trans (h.rep u hu)

theorem Frame.weaken {s t : SCCDetection N} (h : Frame (v :: path) s t) : Frame path s t where
  visited := h.visited
  D_old := h.D_old
  I_le := h.I_le
  D_new := h.D_new
  inSCC := h.inSCC
  stays_open := h.stays_open
  SS := h.SS
  rep := (forall_mem_cons.mp h.rep).2

theorem Frame.was_open {s t : SCCDetection N} (h : Frame path s t) (hu : t.Open u)
    (hs : s.visited u) : s.Open u := by
  refine ⟨hs, ?_⟩
  cases hd : s.inSCC u with
  | false => rfl
  | true => cases (h.inSCC u hd).symm.trans hu.2

end

theorem frame_enter (hv : s.visited v = false) (hvpath : v ∉ path) : Frame path s (s.enter v) := by
  obtain ⟨hI, hSS, -, -⟩ := s.enter_rest v
  have hspec := fun u => s.enter_spec v u
  have hne : ∀ u, s.visited u → u ≠ v := by
    rintro u hu rfl
    cases hv.symm.trans hu
  constructor
  case visited =>
    intro u hu
    rw [(hspec u).2.2.1, if_neg (hne u hu)]
    exact hu
  case D_old =>
    intro u hu
    rw [(hspec u).2.2.2.2, if_neg (hne u hu)]
  case I_le =>
    rw [hI]
    exact le_succ _
  case D_new =>
    intro u hu hu'
    rw [(hspec u).2.2.1] at hu'
    rw [(hspec u).2.2.2.2]
    by_cases huv : u = v
    · rw [if_pos huv]
      exact lt_succ_self _
    · rw [if_neg huv] at hu'
      cases hu.symm.trans hu'
  case inSCC =>
    intro u hu
    rw [(hspec u).2.2.2.1]
    exact hu
  case stays_open =>
    intro u hu
    rw [Open, (hspec u).2.2.1, (hspec u).2.2.2.1, if_neg (hne u hu.1)]
    exact hu
  case SS => exact ⟨[], hSS, nofun⟩
  case rep =>
    intro u hu
    have huv : u ≠ v := by
      rintro rfl
      exact hvpath hu
    rw [(hspec u).1, if_neg huv]

theorem frame_setRep {v r : N} (hvpath : v ∉ path) : Frame path s (s.setRep v r) := by
  obtain ⟨hI, hD, hSS, -, -⟩ := s.setRep_rest v r
  have hspec := fun u => s.setRep_spec v r u
  constructor
  case visited =>
    intro u hu
    rw [(hspec u).2.2.1]
    exact hu
  case D_old => exact fun u _ => congrFun hD u
  case I_le => exact hI.ge
  case D_new =>
    intro u hu hu'
    rw [(hspec u).2.2.1] at hu'
    cases hu.symm.trans hu'
  case inSCC =>
    intro u hu
    rw [(hspec u).2.2.2]
    exact hu
  case stays_open =>
    intro u hu
    rw [Open, (hspec u).2.2.1, (hspec u).2.2.2]
    exact hu
  case SS => exact ⟨[], hSS, nofun⟩
  case rep =>
    intro u hu
    have huv : u ≠ v := by
      rintro rfl
      exact hvpath hu
    rw [(hspec u).1, if_neg huv]

/-- What a call of `visit` on the unvisited node `v` does. `low` is the property the
    recursion turns on: if `v` stays open, its representative is no later than any open node
    that an edge from the newly visited open nodes leads to. -/
structure VisitSpec (graph : SccGraph N) (path : List N) (v : N) (s t : SCCDetection N) :
    Prop where
  inv : Inv graph path t
  frame : Frame path s t
  visited : t.visited v = true
  stays : ∀ u : N, t.Open u → s.I < t.D u → t.Open v
  low : ∀ u w r : N, t.Open u → s.I < t.D u → Edge graph u w → t.Open w → t.rep v = some r →
    t.D r ≤ t.D w

structure LoopInv (graph : SccGraph N) (path : List N) (v : N) (s : SCCDetection N)
    (pre : List N) (t : SCCDetection N) : Prop where
  inv : Inv graph (v :: path) t
  frame : Frame path (s.enter v) t
  visited : ∀ w ∈ pre, t.visited w = true
  low : ∀ u w r : N, t.Open u → s.I < t.D u → (u = v → w ∈ pre) → Edge graph u w → t.Open w →
    t.rep v = some r → t.D r ≤ t.D w

/-- The number of nodes that are not visited yet. -/
noncomputable def unvisited (s : SCCDetection N) : Nat := {u | s.visited u = false}.ncard

omit [DecidableEq N] in
theorem Frame.unvisited_le [Finite N] {s t : SCCDetection N} (h : Frame path s t) :
    t.unvisited ≤ s.unvisited := by
  refine Set.ncard_le_ncard (fun u hu => ?_) (Set.toFinite _)
  show s.visited u = false
  cases hs : s.visited u with
  | false => rfl
  | true => cases (h.visited u hs).symm.trans hu

theorem unvisited_enter [Finite N] (hv : s.visited v = false) :
    (s.enter v).unvisited < s.unvisited := by
  refine Set.ncard_lt_ncard ⟨fun u hu => ?_, fun hsub => ?_⟩ (Set.toFinite _)
  · have hu' : (s.enter v).visited u = false := hu
    rw [(s.enter_spec v u).2.2.1] at hu'
    by_cases huv : u = v
    · rw [if_pos huv] at hu'
      cases hu'
    · rw [if_neg huv] at hu'
      exact hu'
  · have hc : (s.enter v).visited v = false := hsub hv
    rw [(s.enter_spec v v).2.2.1, if_pos rfl] at hc
    cases hc

theorem LoopInv.D_self {pre : List N} (h : LoopInv graph path v s pre t) : t.D v = s.I + 1 := by
  have hvis : (s.enter v).visited v := by
    rw [(s.enter_spec v v).2.2.1, if_pos rfl]
  rw [h.frame.D_old v hvis, (s.enter_spec v v).2.2.2.2, if_pos rfl]

/-- One iteration, after the child `w` has been visited: `t1` is the state then. -/
theorem LoopInv.lower {v w : N} {pre : List N} {t t1 : SCCDetection N}
    (h : LoopInv graph path v s pre t) (hw : Edge graph v w)
    (hvisit : t1 = t ∧ t.visited w ∨ VisitSpec graph (v :: path) w t t1) :
    LoopInv graph path v s (pre ++ [w]) (t1.lower v w) := by
  have hvpath := h.inv.notMem_path
  have hinv : Inv graph (v :: path) t1 := by
    rcases hvisit with ⟨rfl, -⟩ | hv
    · exact h.inv
    · exact hv.inv
  have hframe : Frame (v :: path) t t1 := by
    rcases hvisit with ⟨rfl, -⟩ | hv
    · exact Frame.refl _ _
    · exact hv.frame
  have hwvis : t1.visited w := by
    rcases hvisit with ⟨rfl, hv⟩ | hv
    · exact hv
    · exact hv.visited
  have hvo : t1.Open v := hinv.path_open v mem_cons_self
  have hrepv : t1.rep v = t.rep v := hframe.rep v mem_cons_self
  have hDv : t1.D v = s.I + 1 := by
    rw [hframe.D_old v (h.inv.path_open v mem_cons_self).1]
    exact h.D_self
  -- edges from nodes that had been visited before, in the state `t1`
  have hlow_old : ∀ u x r, t.visited u → t1.Open u → s.I < t1.D u →
      (u = v → x ∈ pre) → Edge graph u x → t1.Open x → t1.rep v = some r → t1.D r ≤ t1.D x := by
    intro u x r hut hu hlt hpre he hx hr
    have hux : t.visited x := by
      by_cases huv : u = v
      · exact h.visited x (hpre huv)
      · refine h.inv.children_visited u x hut (fun hp => ?_) he
        rcases mem_cons.mp hp with hp | hp
        · exact huv hp
        · have hlt' := (pairwise_cons.mp hinv.path_sorted).1 u hp
          omega
    have hrr : t.rep v = some r := hrepv ▸ hr
    obtain ⟨r', hr', hro, -, -⟩ := h.inv.open_rep v (h.inv.path_open v mem_cons_self)
    obtain rfl : r = r' := mem_unique hrr hr'
    rw [hframe.D_old u hut] at hlt
    rw [hframe.D_old r hro.1, hframe.D_old x hux]
    exact h.low u x r (hframe.was_open hu hut) hlt hpre he (hframe.was_open hx hux) hrr
  -- edges from nodes that the visit of `w` has found
  have hlow_new : ∀ u x r, t.visited u = false → t1.Open u → Edge graph u x → t1.Open x →
      t1.Open w ∧ (t1.rep w = some r → t1.D r ≤ t1.D x) := by
    intro u x r hut hu he hx
    rcases hvisit with ⟨rfl, -⟩ | hv
    · cases hut.symm.trans hu.1
    · have hlt := hv.frame.D_new u hut hu.1
      exact ⟨hv.stays u hu hlt, hv.low u x r hu hlt he hx⟩
  have hvisited : ∀ x ∈ pre ++ [w], t1.visited x := by
    intro x hx
    rcases mem_append.mp hx with hx | hx
    · exact hframe.visited x (h.visited x hx)
    · rw [mem_singleton.mp hx]
      exact hwvis
  have hpre : ∀ {u x : N}, (u = v → x ∈ pre ++ [w]) → (u = v → x ∈ pre) ∨ u = v ∧ x = w := by
    intro u x hc
    by_cases huv : u = v
    · rcases mem_append.mp (hc huv) with hx | hx
      · exact .inl fun _ => hx
      · exact .inr ⟨huv, mem_singleton.mp hx⟩
    · exact .inl fun he => absurd he huv
  rw [SCCDetection.lower]
  cases hwd : t1.inSCC w with
  | true =>
    rw [if_pos rfl]
    refine ⟨hinv, h.frame.trans hframe.weaken, hvisited, ?_⟩
    intro u x r hu hlt hux he hx hr
    rcases hpre hux with hux | ⟨-, rfl⟩
    · cases hut : t.visited u with
      | true => exact hlow_old u x r hut hu hlt hux he hx hr
      | false =>
        have hwo := (hlow_new u x r hut hu he hx).1
        cases hwd.symm.trans hwo.2
    · cases hwd.symm.trans hx.2
  | false =>
    rw [if_neg (by decide)]
    have hwo : t1.Open w := ⟨hwvis, hwd⟩
    obtain ⟨rv, hrv, hrvo, hrvle, hrvm⟩ := hinv.open_rep v hvo
    obtain ⟨rw', hrw, hrwo, hrwle, hrwm⟩ := hinv.open_rep w hwo
    rw [hrv, hrw]
    -- `w` reaches the path and so `v`
    have hmutual : Mutual (Edge graph) v w := by
      refine ⟨.single hw, ?_⟩
      obtain ⟨g, hg, -, hreach⟩ := hinv.open_reaches_path (t1.D w) w le_rfl hwo
      refine hreach.trans (hinv.path_reach g v hg hvo ?_)
      rcases mem_cons.mp hg with rfl | hg
      · exact le_rfl
      · exact ((pairwise_cons.mp hinv.path_sorted).1 g hg).le
    show LoopInv graph path v s (pre ++ [w]) (t1.setRep v (if t1.D rv < t1.D rw' then rv else rw'))
    generalize hr : (if t1.D rv < t1.D rw' then rv else rw') = r
    have hrspec : t1.Open r ∧ Mutual (Edge graph) v r ∧ t1.D r ≤ t1.D rv ∧ t1.D r ≤ t1.D rw' := by
      by_cases hc : t1.D rv < t1.D rw'
      · rw [if_pos hc] at hr
        subst hr
        exact ⟨hrvo, hrvm, le_rfl, hc.le⟩
      · rw [if_neg hc] at hr
        subst hr
        exact ⟨hrwo, hmutual.trans hrwm, not_lt.mp hc, le_rfl⟩
    obtain ⟨hro, hrm, hler, hlew⟩ := hrspec
    have hset := fun u => t1.setRep_spec v r u
    have hD : (t1.setRep v r).D = t1.D := (t1.setRep_rest v r).2.1
    have hopen : ∀ u, (t1.setRep v r).Open u → t1.Open u := by
      intro u hu
      rw [Open, (hset u).2.2.1, (hset u).2.2.2] at hu
      exact hu
    refine ⟨hinv.setRep mem_cons_self hro (hler.trans hrvle) hrm,
      (h.frame.trans hframe.weaken).trans (frame_setRep hvpath), ?_, ?_⟩
    · intro x hx
      rw [(hset x).2.2.1]
      exact hvisited x hx
    · intro u x r' hu hlt hux he hx hr'
      rw [(hset v).1, if_pos rfl] at hr'
      cases hr'
      rw [hD] at hlt ⊢
      have hu1 := hopen u hu
      have hx1 := hopen x hx
      rcases hpre hux with hux | ⟨-, rfl⟩
      · cases hut : t.visited u with
        | true => exact hler.trans (hlow_old u x rv hut hu1 hlt hux he hx1 hrv)
        | false => exact hlew.trans ((hlow_new u x rw' hut hu1 he hx1).2 hrw)
      · exact hlew.trans hrwle

/-- What `visit` does at the recursive calls, for the nodes that are left unvisited. -/
def VisitsTo (graph : SccGraph N) (fuel : Nat) : Prop :=
  ∀ (path : List N) (s : SCCDetection N) (v : N), Inv graph path s → s.visited v = false →
    (∀ g ∈ path, Reach (Edge graph) g v) → s.unvisited ≤ fuel →
    ∃ t, visit graph fuel s v = some t ∧ VisitSpec graph path v s t

/-- The loop over the children of `v`. -/
theorem visit_loop [Finite N] {fuel : Nat} (ih : VisitsTo graph fuel)
    (hfuel : (s.enter v).unvisited ≤ fuel) :
    ∀ (rest pre : List N) (t : SCCDetection N), graph.children v = pre ++ rest →
      LoopInv graph path v s pre t →
      ∃ t', rest.foldlM (fun (s : SCCDetection N) w =>
          (if s.visited w then some s else visit graph fuel s w).map fun s => s.lower v w) t
            = some t' ∧
        LoopInv graph path v s (graph.children v) t' := by
  intro rest
  induction rest with
  | nil =>
    intro pre t hpre h
    rw [append_nil] at hpre
    exact ⟨t, rfl, hpre ▸ h⟩
  | cons w rest ihrest =>
    intro pre t hpre h
    have hw : Edge graph v w := by
      show w ∈ graph.children v
      rw [hpre]
      exact mem_append_right pre mem_cons_self
    have hsplit : graph.children v = (pre ++ [w]) ++ rest := by
      rw [hpre, append_assoc]
      rfl
    cases hvis : t.visited w with
    | true =>
      obtain ⟨t', hfold, ht'⟩ := ihrest (pre ++ [w]) (t.lower v w) hsplit
        (h.lower hw (.inl ⟨rfl, hvis⟩))
      refine ⟨t', ?_, ht'⟩
      rw [foldlM_cons, if_pos hvis]
      exact hfold
    | false =>
      have hvo := h.inv.path_open v mem_cons_self
      have hreach : ∀ g ∈ v :: path, Reach (Edge graph) g w := by
        intro g hg
        refine .tail (h.inv.path_reach g v hg hvo ?_) hw
        rcases mem_cons.mp hg with rfl | hg
        · exact le_rfl
        · exact ((pairwise_cons.mp h.inv.path_sorted).1 g hg).le
      obtain ⟨t1, hcall, hspec⟩ := ih (v :: path) t w h.inv hvis hreach
        (h.frame.unvisited_le.trans hfuel)
      obtain ⟨t', hfold, ht'⟩ := ihrest (pre ++ [w]) (t1.lower v w) hsplit (h.lower hw (.inr hspec))
      refine ⟨t', ?_, ht'⟩
      rw [foldlM_cons, if_neg (by rw [hvis]; decide), hcall]
      exact hfold

theorem loopInv_enter (h : Inv graph path s) (hv : s.visited v = false)
    (hpath : ∀ g ∈ path, Reach (Edge graph) g v) : LoopInv graph path v s [] (s.enter v) := by
  refine ⟨h.enter hv hpath, Frame.refl path _, nofun, ?_⟩
  intro u w r hu hlt hpre he hw hr
  by_cases huv : u = v
  · cases hpre huv
  · obtain ⟨-, -, hvis, -, hD⟩ := s.enter_spec v u
    rw [if_neg huv] at hvis hD
    have := h.num_le u (hvis ▸ hu.1)
    omega

/-- The end of `visit v`: a node that is not a root. -/
theorem LoopInv.push (hv : s.visited v = false) (hvpath : v ∉ path)
    (h : LoopInv graph path v s (graph.children v) t) (hrep : t.rep v ≠ some v)
    : VisitSpec graph path v s (t.leave v) := by
  have hleave : t.leave v = { t with SS := v :: t.SS } := if_neg hrep
  have hvo : t.Open v := h.inv.path_open v mem_cons_self
  have hframe : Frame path s t := (frame_enter hv hvpath).trans h.frame
  rw [hleave]
  refine ⟨h.inv.leave_push hrep h.visited, ?_, hvo.1, fun u _ _ => hvo, ?_⟩
  · obtain ⟨xs, hxs, hnew⟩ := hframe.SS
    refine { hframe with SS := ⟨v :: xs, congrArg (v :: ·) hxs, fun x hx => ?_⟩ }
    rcases mem_cons.mp hx with rfl | hx
    · exact ⟨hv, hvo.1⟩
    · exact hnew x hx
  · intro u w r hu hlt he hw hr
    exact h.low u w r hu hlt (fun huv => huv ▸ he) he hw hr

/-- The end of `visit v`: the root of a component. -/
theorem LoopInv.close (hs : Inv graph path s) (hv : s.visited v = false) (hvpath : v ∉ path)
    (h : LoopInv graph path v s (graph.children v) t) (hrep : t.rep v = some v) :
    VisitSpec graph path v s (t.leave v) := by
  have hvo : t.Open v := h.inv.path_open v mem_cons_self
  have hframe : Frame path s t := (frame_enter hv hvpath).trans h.frame
  have hDv : t.D v = s.I + 1 := h.D_self
  -- the nodes that the visit has put on the stack are numbered after `v`
  obtain ⟨xs, hSS, hnew⟩ := h.frame.SS
  rw [(s.enter_rest v).2.1] at hSS
  have hxs : ∀ x ∈ xs, t.D v < t.D x := by
    intro x hx
    have := h.frame.D_new x (hnew x hx).1 (hnew x hx).2
    rw [(s.enter_rest v).1] at this
    omega
  have hold : ∀ u, s.visited u → t.D u < t.D v := by
    intro u hu
    rw [hframe.D_old u hu, hDv]
    exact lt_succ_of_le (hs.num_le u hu)
  have hys : ∀ y ∈ s.SS, t.D y < t.D v := fun y hy => hold y ((hs.mem_SS y).mp hy).1.1
  have hvxs : v ∉ xs := fun hm => absurd (hxs v hm) (lt_irrefl _)
  have hclosed : Closed t (t.leave v) v xs s.SS :=
    leave_closed hrep hSS hvxs hxs (fun y hy => (hys y hy).le)
  have hlow : ∀ u w, t.Open u → t.D v ≤ t.D u → Edge graph u w → t.Open w →
      t.D v ≤ t.D w := fun u w hu hle he hw =>
    h.low u w v hu (by omega) (fun huv => huv ▸ he) he hw hrep
  have hinv := h.inv.leave_root hrep h.visited hlow hSS hxs hys hclosed
  -- none of the nodes found is open any more
  have hnone : ∀ u, (t.leave v).Open u → ¬ s.I < (t.leave v).D u := by
    intro u hu hlt
    rw [hclosed.D] at hlt
    have hnot : ¬ (t.leave v).inSCC u := by
      rw [hu.2]
      decide
    rw [hclosed.inSCC, not_or, not_or] at hnot
    obtain ⟨⟨huv, hux⟩, hud⟩ := hnot
    have huo : t.Open u := ⟨(hclosed.visited u).symm.trans hu.1, by simpa using hud⟩
    have hup : u ∉ v :: path := by
      rw [mem_cons, not_or]
      refine ⟨huv, fun hp => ?_⟩
      have := (pairwise_cons.mp h.inv.path_sorted).1 u hp
      omega
    have hmem := (h.inv.mem_SS u).mpr ⟨huo, hup⟩
    rw [hSS, mem_append] at hmem
    have := hys u (hmem.resolve_left hux)
    omega
  refine ⟨hinv, ?_, ?_, fun u hu hlt => absurd hlt (hnone u hu),
    fun u w r hu hlt => absurd hlt (hnone u hu)⟩
  · constructor
    case visited =>
      intro u hu
      rw [hclosed.visited]
      exact hframe.visited u hu
    case D_old =>
      rw [hclosed.D]
      exact hframe.D_old
    case I_le =>
      rw [hclosed.I]
      exact hframe.I_le
    case D_new =>
      intro u hu hu'
      rw [hclosed.visited] at hu'
      rw [hclosed.D]
      exact hframe.D_new u hu hu'
    case inSCC => exact fun u hu => (hclosed.inSCC u).mpr (.inr (hframe.inSCC u hu))
    case stays_open =>
      intro u hu
      have huo := hframe.stays_open u hu
      have hlt := hold u hu.1
      refine ⟨(hclosed.visited u).trans huo.1, Bool.not_eq_true _ ▸ fun hd => ?_⟩
      rcases (hclosed.inSCC u).mp hd with (rfl | hux) | hud
      · exact lt_irrefl _ hlt
      · exact absurd (hxs u hux) (by omega)
      · cases hud.symm.trans huo.2
    case SS => exact ⟨[], hclosed.SS, nofun⟩
    case rep =>
      intro u hu
      have hux : u ∉ xs := by
        intro hx
        have hlt := (pairwise_cons.mp h.inv.path_sorted).1 u hu
        exact absurd (hxs u hx) (by omega)
      rw [hclosed.rep, if_neg hux]
      exact hframe.rep u hu
  · rw [hclosed.visited]
    exact hvo.1

/-- Every call of `visit` returns when there is fuel for the unvisited nodes. -/
theorem visit_spec [Finite N] : ∀ fuel : Nat, VisitsTo graph fuel := by
  intro fuel
  induction fuel with
  | zero =>
    intro path s v _ hv _ hfuel
    have := unvisited_enter hv
    omega
  | succ fuel ih =>
    intro path s v hs hv hpath hfuel
    have hvpath : v ∉ path := by
      intro hm
      cases hv.symm.trans (hs.path_open v hm).1
    have hless := unvisited_enter hv
    obtain ⟨t, hfold, ht⟩ := visit_loop ih (by omega) (graph.children v) [] (s.enter v) rfl
      (loopInv_enter hs hv hpath)
    refine ⟨t.leave v, ?_, ?_⟩
    · rw [visit, hfold]
      rfl
    · by_cases hrep : t.rep v = some v
      · exact ht.close hs hv hvpath hrep
      · exact ht.push hv hvpath hrep

-- ── the whole search

/-- The loop of `find()` over the nodes. -/
theorem find_spec [Finite N] (graph : SccGraph N) {fuel : Nat} (hfuel : Nat.card N ≤ fuel) :
    ∃ t, find graph fuel = some t ∧ Inv graph [] t ∧ ∀ n, t.visited n := by
  let E : SCCDetection N → Set N := fun s => {n | s.visited n = true}
  suffices hloop : ∃ t, find graph fuel = some t ∧ Inv graph [] t ∧ E clear ⊆ E t ∧
      ∀ n ∈ graph.nodes, {n} ⊆ E t by
    obtain ⟨t, ht, hinv, -, hall⟩ := hloop
    exact ⟨t, ht, hinv, fun n => hall n (graph.nodes_all n) rfl⟩
  refine SvfLoop.foldlM_grows (P := Inv graph []) (E := E) graph.nodes clear ?_ inv_clear
  intro s node _ hs
  cases hvis : s.visited node with
  | true => exact ⟨s, if_pos rfl, hs, subset_rfl, Set.singleton_subset_iff.mpr hvis⟩
  | false =>
    have hle : s.unvisited ≤ fuel := by
      refine le_trans ?_ hfuel
      rw [← Set.ncard_univ]
      exact Set.ncard_le_ncard (Set.subset_univ _) (Set.toFinite _)
    obtain ⟨t, hcall, hspec⟩ := visit_spec fuel [] s node hs hvis nofun hle
    refine ⟨t, ?_, hspec.inv, hspec.frame.visited, Set.singleton_subset_iff.mpr hspec.visited⟩
    rw [if_neg (by decide), if_pos (.inl (hs.white node hvis).1)]
    exact hcall

theorem visit_succ : ∀ (fuel : Nat) (s : SCCDetection N) (v : N) (t : SCCDetection N),
    visit graph fuel s v = some t → visit graph (fuel + 1) s v = some t := by
  intro fuel
  induction fuel with
  | zero => exact fun s v t h => nomatch h
  | succ fuel ih =>
    intro s v t h
    rw [visit] at h ⊢
    obtain ⟨s', hs', rfl⟩ := map_eq_some_iff.mp h
    refine map_eq_some_iff.mpr ⟨s', SvfLoop.foldlM_mono ?_ _ _ _ hs', rfl⟩
    intro s w t ht
    obtain ⟨s1, hs1, rfl⟩ := map_eq_some_iff.mp ht
    refine map_eq_some_iff.mpr ⟨s1, ?_, rfl⟩
    by_cases hw : s.visited w
    · rw [if_pos hw] at hs1 ⊢
      exact hs1
    · rw [if_neg hw] at hs1 ⊢
      exact ih s w s1 hs1

theorem find_succ (fuel : Nat) (t : SCCDetection N) (h : find graph fuel = some t) :
    find graph (fuel + 1) = some t := by
  refine SvfLoop.foldlM_mono ?_ _ _ _ h
  intro s node t ht
  by_cases hv : s.visited node
  · rw [if_pos hv] at ht ⊢
    exact ht
  · rw [if_neg hv] at ht ⊢
    by_cases hr : s.rep node = none ∨ s.rep node = some node
    · rw [if_pos hr] at ht ⊢
      exact visit_succ fuel s node t ht
    · rw [if_neg hr] at ht ⊢
      exact ht

theorem Inv.all_done (h : Inv graph [] s) (hu : s.visited u) : s.inSCC u := by
  by_contra hd
  have ho : s.Open u := ⟨hu, by simpa using hd⟩
  obtain ⟨g, hg, -⟩ := h.open_reaches_path (s.D u) u le_rfl ho
  cases hg

omit [DecidableEq N] in
/-- The representative that `repNode` reads, in a finished component. -/
theorem Inv.repNode_spec (h : Inv graph path s) (hu : s.inSCC u) :
    s.rep u = some (s.repNode u) ∧ s.inSCC (s.repNode u) ∧
    s.rep (s.repNode u) = some (s.repNode u) ∧ Mutual (Edge graph) u (s.repNode u) := by
  obtain ⟨r, hr, hrd, hrr, hm⟩ := h.done_rep u hu
  have heq : s.repNode u = r := by
    rw [repNode, hr]
    rfl
  rw [heq]
  exact ⟨hr, hrd, hrr, hm⟩

/-- What the callers of `find()` read off a finished search. -/
structure Components (graph : SccGraph N) (t : SCCDetection N) : Prop where
  rep_rep : ∀ n, t.repNode (t.repNode n) = t.repNode n
  same_rep : ∀ a b, t.repNode a = t.repNode b ↔ Mutual (Edge graph) a b
  sub_rep : ∀ r x, t.repNode r = r → (x ∈ t.subNodes r ↔ Mutual (Edge graph) x r)
  sub_other : ∀ n, t.repNode n ≠ n → t.subNodes n = ∅
  repNodes : ∀ r, r ∈ t.repNodes ↔ t.repNode r = r ∧ ∃ x, x ≠ r ∧ Mutual (Edge graph) x r
  mem_T : ∀ r, r ∈ t.T ↔ t.repNode r = r
  nodup_T : t.T.Nodup
  topo : ∀ u w, Edge graph u w → t.repNode u ≠ t.repNode w →
    [t.repNode u, t.repNode w].Sublist t.T

/-- `find()` stops with the components. -/
theorem find_total (graph : SccGraph N) :
    ∃ t, SvfLoop.Stops (fun fuel => find graph fuel) t ∧ Components graph t := by
  have hfin : Finite N := Set.finite_univ_iff.mp
    ((finite_toSet graph.nodes).subset fun n _ => graph.nodes_all n)
  obtain ⟨t, hfind, hinv, hvisited⟩ := find_spec graph (le_refl (Nat.card N))
  have hdone : ∀ u, t.inSCC u := fun u => hinv.all_done (hvisited u)
  have hrep := fun u => hinv.repNode_spec (hdone u)
  have hself : ∀ r, t.repNode r = r ↔ t.rep r = some r := by
    intro r
    rw [(hrep r).1]
    exact ⟨congrArg some, some.inj⟩
  refine ⟨t, SvfLoop.stops_of_succ find_succ hfind, ?_⟩
  constructor
  case rep_rep => exact fun n => (hself _).mpr (hrep n).2.2.1
  case same_rep =>
    intro a b
    constructor
    · intro heq
      have hb := (hrep b).2.2.2
      rw [← heq] at hb
      exact (hrep a).2.2.2.trans hb.symm
    · intro hm
      have heq := hinv.done_same a b (hdone a) hm
      rw [(hrep a).1, (hrep b).1] at heq
      exact some.inj heq
  case sub_rep => exact fun r x hr => hinv.done_sub r x (hdone r) ((hself r).mp hr)
  case sub_other => exact fun n hn => hinv.done_other n (hdone n) (fun h => hn ((hself n).mpr h))
  case repNodes =>
    intro r
    rw [hself]
    exact hinv.done_repNodes r (hdone r)
  case mem_T =>
    intro r
    rw [hself, hinv.mem_T]
    exact and_iff_right (hdone r)
  case nodup_T => exact hinv.nodup_T
  case topo =>
    exact fun u w he hne => hinv.topo u w _ _ (hdone u) he (hrep u).1 (hrep w).1 hne

/-- `isInCycle(n)`: a component of several nodes, or a representative with an edge to
    itself. -/
def isInCycle (graph : SccGraph N) (s : SCCDetection N) (n : N) : Bool :=
  let rep := s.repNode n
  if 1 < (s.subNodes rep).card then true else decide (rep ∈ graph.children rep)

/-- `isInCycle` finds the nodes that can be left and come back to. -/
theorem Components.isInCycle_iff (h : Components graph t) (n : N) :
    isInCycle graph t n ↔ TransGen (Edge graph) n n := by
  have hsub : ∀ x, x ∈ t.subNodes (t.repNode n) ↔ Mutual (Edge graph) x n := by
    intro x
    rw [h.sub_rep _ x (h.rep_rep n)]
    have hn : Mutual (Edge graph) (t.repNode n) n := (h.same_rep _ _).mp (h.rep_rep n)
    exact ⟨fun hx => hx.trans hn, fun hx => hx.trans hn.symm⟩
  rw [isInCycle]
  by_cases hcard : 1 < (t.subNodes (t.repNode n)).card
  · rw [if_pos hcard]
    refine iff_of_true rfl ?_
    obtain ⟨x, hx, hne⟩ := Finset.exists_mem_ne hcard n
    have hm := (hsub x).mp hx
    -- a walk to another node has an edge
    rcases reflTransGen_iff_eq_or_transGen.mp hm.2 with heq | hwalk
    · exact absurd heq hne
    · exact hwalk.trans_left hm.1
  · rw [if_neg hcard, decide_eq_true_eq]
    have hone : ∀ x, Mutual (Edge graph) x n → x = n := fun x hx =>
      Finset.card_le_one.mp (not_lt.mp hcard) x ((hsub x).mpr hx) n ((hsub n).mpr (.refl n))
    have hrep : t.repNode n = n := hone _ ((h.same_rep _ _).mp (h.rep_rep n))
    rw [hrep]
    constructor
    · exact fun he => .single he
    · intro hwalk
      obtain ⟨x, hx, hback⟩ := TransGen.head'_iff.mp hwalk
      have hxn : x = n := hone x ⟨hback, .single hx⟩
      exact hxn ▸ hx

/-- `find()` stops, and then two nodes have one representative exactly when each reaches the
    other; the sub nodes of a representative are its component, and no other node has any;
    `repNodes` are the representatives of components of two nodes at least; and the
    topological stack holds each representative once, the source's before the target's for
    every edge between two components. -/
theorem find_components (graph : SccGraph N) : ∃ t, SvfLoop.Stops (fun fuel => find graph fuel) t ∧
      (∀ a b, t.repNode a = t.repNode b ↔ Mutual (Edge graph) a b) ∧
      (∀ r x, t.repNode r = r → (x ∈ t.subNodes r ↔ Mutual (Edge graph) x r)) ∧
      (∀ n, t.repNode n ≠ n → t.subNodes n = ∅) ∧
      (∀ r, r ∈ t.repNodes ↔ t.repNode r = r ∧ ∃ x, x ≠ r ∧ Mutual (Edge graph) x r) ∧
      (∀ r, r ∈ t.T ↔ t.repNode r = r) ∧ t.T.Nodup ∧
      (∀ u w, Edge graph u w → t.repNode u ≠ t.repNode w →
        [t.repNode u, t.repNode w].Sublist t.T) := by
  obtain ⟨t, hstops, h⟩ := find_total graph
  exact ⟨t, hstops, h.same_rep, h.sub_rep, h.sub_other, h.repNodes, h.mem_T, h.nodup_T, h.topo⟩

end SCCDetection

end SvfSCCDetection
