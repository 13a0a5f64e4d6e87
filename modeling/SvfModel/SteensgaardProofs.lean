import SvfModel.WorkListProofs
import SvfModel.UnionFindProofs

/-!
# Steensgaard's equivalence classes

The unification step of Steensgaard's analysis: `ecUnion(node, ec)` merges the points-to
sets and then `setEC` moves the sub-nodes of `node` into the class of `ec`. Membership is
kept twice, in `nodeToECMap` (node to representative) and in `nodeToSubsMap`
(representative to members).

What moves are the sub-nodes of the argument `node` itself, never those of its
representative. The route: **`Classes`** is the invariant that ties the two maps to each
other, **`Conforming`** says of one call that moving the sub-nodes of the argument is moving
its whole class, and the main result is that the maps are a union-find in every state of a
run exactly if every call of it conforms. The heart is the pair `ecUnion_classes` (a
conforming call merges two classes) and `conforming_of_unionFind` (any other call tears one
apart).
-/

namespace SvfSteensgaard

open SvfWorkList SvfUnionFind List

variable {N : Type} [DecidableEq N]

/-- The parts of the analysis that a union reads or writes: the two class maps, the
    points-to sets, the worklist and the solver's `sccRepNode`. -/
structure Steensgaard (N : Type) [DecidableEq N] where
  sccRepNode : N → N
  nodeToECMap : N → Option N
  nodeToSubsMap : N → List N
  ptsMap : N → Finset N
  worklist : FIFOWorkList N

namespace Steensgaard

/-- The state before any union: both class maps are empty. -/
def singletons (sccRepNode : N → N) (ptsMap : N → Finset N) (worklist : FIFOWorkList N) :
    Steensgaard N where
  sccRepNode := sccRepNode
  nodeToECMap := fun _ => none
  nodeToSubsMap := fun _ => []
  ptsMap := ptsMap
  worklist := worklist

section

variable (S : Steensgaard N)

def getEC (id : N) : N :=
  match S.nodeToECMap id with
  | none => id
  | some r => r

def addSubNode (node sub : N) : Steensgaard N :=
  { S with
    nodeToSubsMap := Function.update S.nodeToSubsMap node ((S.nodeToSubsMap node).insert sub) }

def getSubNodes (id : N) : List N × Steensgaard N :=
  ((S.nodeToSubsMap id).insert id, S.addSubNode id id)

def putEC (sub rep : N) : Steensgaard N :=
  { S with nodeToECMap := Function.update S.nodeToECMap sub (some rep) }

def clearSubNodes (node : N) : Steensgaard N :=
  { S with nodeToSubsMap := Function.update S.nodeToSubsMap node [] }

end

/-- The body of the loop of `setEC`. -/
def moveSub (rep : N) (S : Steensgaard N) (sub : N) : Steensgaard N :=
  (S.putEC sub rep).addSubNode rep sub

section

variable (S : Steensgaard N)

/-- `setEC(node, rep)`. The loop runs over the set of `node` while `addSubNode` may insert
    into it (`rep` being `node`); what it inserts then is in the set already. -/
def setEC (node rep : N) : Steensgaard N :=
  let rep := S.getEC rep
  let (subNodes, S) := S.getSubNodes node
  (subNodes.foldl (moveSub rep) S).clearSubNodes node

def unionPts (id ptd : N) : Bool × Steensgaard N :=
  let id := S.getEC id
  let ptd := S.getEC ptd
  let changed := !decide (S.ptsMap ptd ⊆ S.ptsMap id)
  (changed, { S with ptsMap := Function.update S.ptsMap id (S.ptsMap id ∪ S.ptsMap ptd) })

def pushIntoWorklist (id : N) : Steensgaard N :=
  { S with worklist := (S.worklist.push (S.sccRepNode id)).2 }

def ecUnion (node ec : N) : Steensgaard N :=
  let (changed, S) := S.unionPts ec node
  let S := if changed then S.pushIntoWorklist ec else S
  S.setEC node ec

def ecUnions (calls : List (N × N)) : Steensgaard N :=
  calls.foldl (fun S c => S.ecUnion c.1 c.2) S

-- ── What one union does to the two maps

def members (id : N) : List N := (S.getSubNodes id).1

theorem mem_members (id x : N) : x ∈ S.members id ↔ x = id ∨ x ∈ S.nodeToSubsMap id := by
  unfold members getSubNodes
  exact mem_insert_iff

theorem self_mem_members (id : N) : id ∈ S.members id := (S.mem_members id id).mpr (.inl rfl)

@[simp] theorem getEC_addSubNode (node sub x : N) :
    (S.addSubNode node sub).getEC x = S.getEC x := rfl

@[simp] theorem getEC_clearSubNodes (node x : N) : (S.clearSubNodes node).getEC x = S.getEC x := rfl

@[simp] theorem subs_putEC (sub rep x : N) :
    (S.putEC sub rep).nodeToSubsMap x = S.nodeToSubsMap x := rfl

theorem getEC_putEC (sub rep x : N) :
    (S.putEC sub rep).getEC x = if x = sub then rep else S.getEC x := by
  by_cases hx : x = sub
  · subst hx
    simp [getEC, putEC]
  · simp [getEC, putEC, hx]

theorem mem_subs_addSubNode (node sub x y : N) : y ∈ (S.addSubNode node sub).nodeToSubsMap x ↔
      y ∈ S.nodeToSubsMap x ∨ (x = node ∧ y = sub) := by
  by_cases hx : x = node
  · subst hx
    simp [addSubNode, or_comm]
  · simp [addSubNode, hx]

theorem mem_subs_clearSubNodes (node x y : N) :
    y ∈ (S.clearSubNodes node).nodeToSubsMap x ↔ x ≠ node ∧ y ∈ S.nodeToSubsMap x := by
  by_cases hx : x = node
  · subst hx
    simp [clearSubNodes]
  · simp [clearSubNodes, hx]

end

/-- The loop of `setEC` gives every sub-node the new representative. -/
theorem getEC_moveSubs (rep : N) (subs : List N) (S : Steensgaard N) (x : N) :
    (subs.foldl (moveSub rep) S).getEC x = if x ∈ subs then rep else S.getEC x := by
  induction subs generalizing S with
  | nil => simp
  | cons sub subs ih =>
    rw [foldl_cons, ih]
    unfold moveSub
    rw [getEC_addSubNode, getEC_putEC]
    by_cases hx : x ∈ subs
    · rw [if_pos hx, if_pos (mem_cons_of_mem sub hx)]
    · rw [if_neg hx]
      by_cases hs : x = sub
      · rw [if_pos hs, if_pos (hs ▸ mem_cons_self)]
      · rw [if_neg hs, if_neg (fun h => (List.mem_cons.mp h).elim hs hx)]

/-- The loop of `setEC` enters every sub-node at the new representative. -/
theorem mem_subs_moveSubs (rep : N) (subs : List N) (S : Steensgaard N) (x y : N) :
    y ∈ (subs.foldl (moveSub rep) S).nodeToSubsMap x ↔
      y ∈ S.nodeToSubsMap x ∨ (x = rep ∧ y ∈ subs) := by
  induction subs generalizing S with
  | nil => simp
  | cons sub subs ih =>
    rw [foldl_cons, ih]
    unfold moveSub
    rw [mem_subs_addSubNode, subs_putEC, mem_cons]
    tauto

section

variable (S : Steensgaard N)

theorem getEC_setEC (node rep x : N) :
    (S.setEC node rep).getEC x = if x ∈ S.members node then S.getEC rep else S.getEC x := by
  unfold setEC
  rw [getEC_clearSubNodes]
  exact getEC_moveSubs (S.getEC rep) (S.members node) (S.addSubNode node node) x

theorem mem_subs_setEC (node rep x y : N) : y ∈ (S.setEC node rep).nodeToSubsMap x ↔
      x ≠ node ∧ (y ∈ S.nodeToSubsMap x ∨ (x = S.getEC rep ∧ y ∈ S.members node)) := by
  unfold setEC
  rw [mem_subs_clearSubNodes]
  have hmove := mem_subs_moveSubs (S.getEC rep) (S.members node) (S.addSubNode node node) x y
  rw [mem_subs_addSubNode] at hmove
  constructor
  · rintro ⟨hx, hy⟩
    rcases hmove.mp hy with (h | h) | h
    · exact ⟨hx, .inl h⟩
    · exact absurd h.1 hx
    · exact ⟨hx, .inr h⟩
  · rintro ⟨hx, hy⟩
    exact ⟨hx, hmove.mpr (hy.imp_left .inl)⟩

theorem ecUnion_eq_setEC (node ec : N) : ∃ T : Steensgaard N, S.ecUnion node ec = T.setEC node ec ∧
      T.nodeToECMap = S.nodeToECMap ∧ T.nodeToSubsMap = S.nodeToSubsMap := by
  unfold ecUnion
  by_cases hc : (S.unionPts ec node).1
  · exact ⟨(S.unionPts ec node).2.pushIntoWorklist ec, by simp [hc], rfl, rfl⟩
  · exact ⟨(S.unionPts ec node).2, by simp [hc], rfl, rfl⟩

theorem getEC_ecUnion (node ec x : N) :
    (S.ecUnion node ec).getEC x = if x ∈ S.members node then S.getEC ec else S.getEC x := by
  obtain ⟨T, heq, hec, hsubs⟩ := S.ecUnion_eq_setEC node ec
  have hget : ∀ y, T.getEC y = S.getEC y := fun y => by unfold getEC; rw [hec]
  have hmem : T.members node = S.members node := by unfold members getSubNodes; rw [hsubs]
  rw [heq, getEC_setEC, hmem, hget, hget]

theorem mem_subs_ecUnion (node ec x y : N) : y ∈ (S.ecUnion node ec).nodeToSubsMap x ↔
      x ≠ node ∧ (y ∈ S.nodeToSubsMap x ∨ (x = S.getEC ec ∧ y ∈ S.members node)) := by
  obtain ⟨T, heq, hec, hsubs⟩ := S.ecUnion_eq_setEC node ec
  have hget : T.getEC ec = S.getEC ec := by unfold getEC; rw [hec]
  have hmem : T.members node = S.members node := by unfold members getSubNodes; rw [hsubs]
  rw [heq, mem_subs_setEC, hmem, hget, hsubs]

end

-- ── The law, its invariant, and the calls that keep it

/-- The unions performed so far, as a relation. -/
def Performed (calls : List (N × N)) : N → N → Prop := fun a b => (a, b) ∈ calls

/-- The two maps are a union-find of the performed unions: one representative exactly for
    connected nodes, and at each representative exactly its members. -/
structure UnionFind (S : Steensgaard N) (calls : List (N × N)) : Prop where
  represents : Represents S.getEC (Performed calls)
  classes : ∀ a x : N, x ∈ S.members (S.getEC a) ↔ S.getEC x = S.getEC a

/-- The invariant on the maps alone: beside the members, a node that represents nothing has
    no sub-nodes left. -/
structure Classes (S : Steensgaard N) : Prop where
  classes : ∀ a x : N, x ∈ S.members (S.getEC a) ↔ S.getEC x = S.getEC a
  moved : ∀ n x : N, S.getEC n ≠ n → x ∉ S.nodeToSubsMap n

/-- The calls whose sub-nodes are the right ones to move: between two classes, `node` is the
    representative of its own; within one class, `node` has no sub-node but itself. -/
def Conforming (S : Steensgaard N) (node ec : N) : Prop :=
  if S.getEC node = S.getEC ec then ∀ x ∈ S.members node, x = node else S.getEC node = node

namespace Classes

variable {S : Steensgaard N}

theorem singletons (sccRepNode : N → N) (ptsMap : N → Finset N) (worklist : FIFOWorkList N) :
    Classes (Steensgaard.singletons sccRepNode ptsMap worklist) where
  classes := fun a x => by simp [mem_members, Steensgaard.singletons, getEC]
  moved := fun n x _ => by simp [Steensgaard.singletons]

theorem getEC_getEC (h : Classes S) (a : N) : S.getEC (S.getEC a) = S.getEC a :=
  (h.classes a (S.getEC a)).mp (S.self_mem_members _)

theorem mem_of_rep (h : Classes S) {r : N} (hr : S.getEC r = r) (x : N) :
    x ∈ S.members r ↔ S.getEC x = r := by
  have hx := h.classes r x
  rwa [hr] at hx

theorem eq_of_mem_moved (h : Classes S) {n x : N} (hn : S.getEC n ≠ n)
    (hx : x ∈ S.members n) : x = n :=
  ((S.mem_members n x).mp hx).resolve_right (h.moved n x hn)

end Classes

-- ── One conforming call

section Step

variable {S : Steensgaard N} {node ec : N}

/-- A call inside one class whose `node` has no other sub-node moves nobody. -/
theorem getEC_ecUnion_same (hsame : S.getEC node = S.getEC ec)
    (honly : ∀ x ∈ S.members node, x = node) (x : N) :
    (S.ecUnion node ec).getEC x = S.getEC x := by
  rw [getEC_ecUnion]
  by_cases hx : x ∈ S.members node
  · rw [if_pos hx, honly x hx, hsame]
  · rw [if_neg hx]

section

variable (h : Classes S)
include h

/-- A call whose `node` is a representative moves the class of `node` as a whole. -/
theorem getEC_ecUnion_rep (hrep : S.getEC node = node) (x : N) :
    (S.ecUnion node ec).getEC x = mergeRep S.getEC node ec x := by
  rw [getEC_ecUnion]
  unfold mergeRep
  by_cases hx : x ∈ S.members node
  · rw [if_pos hx, if_pos (((h.mem_of_rep hrep x).mp hx).trans hrep.symm)]
  · rw [if_neg hx, if_neg]
    intro heq
    exact hx ((h.mem_of_rep hrep x).mpr (heq.trans hrep))

theorem ecUnion_classes_same (hsame : S.getEC node = S.getEC ec)
    (honly : ∀ x ∈ S.members node, x = node) : Classes (S.ecUnion node ec) where
  classes := by
    intro a x
    rw [getEC_ecUnion_same hsame honly, getEC_ecUnion_same hsame honly, mem_members,
      mem_subs_ecUnion, ← h.classes a x]
    constructor
    · rintro (hx | ⟨_, hx | ⟨hec, hx⟩⟩)
      · exact (S.mem_members _ x).mpr (.inl hx)
      · exact (S.mem_members _ x).mpr (.inr hx)
      · rw [honly x hx, hec, ← hsame, h.classes node node]
    · intro hx
      by_cases hnode : S.getEC a = node
      · exact .inl ((honly x (hnode ▸ hx)).trans hnode.symm)
      · exact ((S.mem_members _ x).mp hx).imp_right (fun hx => ⟨hnode, .inl hx⟩)
  moved := by
    intro n x hn
    rw [getEC_ecUnion_same hsame honly] at hn
    rw [mem_subs_ecUnion]
    rintro ⟨_, hx | ⟨hec, _⟩⟩
    · exact h.moved n x hn hx
    · rw [hec] at hn
      exact hn (h.getEC_getEC ec)

theorem ecUnion_classes_rep (hdiff : S.getEC node ≠ S.getEC ec) (hrep : S.getEC node = node) :
    Classes (S.ecUnion node ec) := by
  have hec : S.getEC (S.getEC ec) = S.getEC ec := h.getEC_getEC ec
  -- after the call a representative is an old one other than `node`
  have hnew : ∀ a, (S.ecUnion node ec).getEC a ≠ node ∧
      S.getEC ((S.ecUnion node ec).getEC a) = (S.ecUnion node ec).getEC a := by
    intro a
    rw [getEC_ecUnion_rep h hrep]
    unfold mergeRep
    by_cases ha : S.getEC a = S.getEC node
    · rw [if_pos ha]
      exact ⟨fun heq => hdiff (hrep.trans heq.symm), hec⟩
    · rw [if_neg ha]
      exact ⟨fun heq => ha (heq.trans hrep.symm), h.getEC_getEC a⟩
  constructor
  case classes =>
    intro a x
    obtain ⟨hne, hr⟩ := hnew a
    generalize (S.ecUnion node ec).getEC a = r at hne hr ⊢
    rw [mem_members, mem_subs_ecUnion, getEC_ecUnion_rep h hrep, h.mem_of_rep hrep]
    have hold := (S.mem_members r x).symm.trans (h.mem_of_rep hr x)
    unfold mergeRep
    by_cases hx : S.getEC x = S.getEC node
    · rw [if_pos hx]
      have hxr : S.getEC x ≠ r := fun heq => hne (heq.symm.trans (hx.trans hrep))
      constructor
      · rintro (hxr' | ⟨_, hx' | ⟨hec', _⟩⟩)
        · exact absurd (hold.mp (.inl hxr')) hxr
        · exact absurd (hold.mp (.inr hx')) hxr
        · exact hec'.symm
      · intro hec'
        exact .inr ⟨hne, .inr ⟨hec'.symm, hx.trans hrep⟩⟩
    · rw [if_neg hx, ← hold]
      constructor
      · rintro (hxr' | ⟨_, hx' | ⟨_, hx'⟩⟩)
        · exact .inl hxr'
        · exact .inr hx'
        · exact absurd (hx'.trans hrep.symm) hx
      · exact fun hor => hor.imp_right (fun hx' => ⟨hne, .inl hx'⟩)
  case moved =>
    intro n x hn
    rw [mem_subs_ecUnion]
    rintro ⟨hne, hx | ⟨heq, _⟩⟩
    · rw [getEC_ecUnion_rep h hrep] at hn
      unfold mergeRep at hn
      by_cases hnn : S.getEC n = S.getEC node
      · exact h.moved n x (fun hself => hne (hself.symm.trans (hnn.trans hrep))) hx
      · rw [if_neg hnn] at hn
        exact h.moved n x hn hx
    · rw [heq, getEC_ecUnion_rep h hrep] at hn
      unfold mergeRep at hn
      rw [if_neg (fun hnode => hdiff (hnode.symm.trans hec)), hec] at hn
      exact hn rfl

/-- **A conforming call keeps the invariant.** -/
theorem ecUnion_classes (hconf : Conforming S node ec) :
    Classes (S.ecUnion node ec) := by
  unfold Conforming at hconf
  by_cases hsame : S.getEC node = S.getEC ec
  · rw [if_pos hsame] at hconf
    exact ecUnion_classes_same h hsame hconf
  · rw [if_neg hsame] at hconf
    exact ecUnion_classes_rep h hsame hconf

/-- **A conforming call joins its two arguments.** -/
theorem ecUnion_represents {R : N → N → Prop} (hR : Represents S.getEC R)
    (hconf : Conforming S node ec) :
    Represents (S.ecUnion node ec).getEC (WithPair R node ec) := by
  unfold Conforming at hconf
  by_cases hsame : S.getEC node = S.getEC ec
  · rw [if_pos hsame] at hconf
    have heq : (S.ecUnion node ec).getEC = S.getEC := funext (getEC_ecUnion_same hsame hconf)
    rw [heq]
    exact hR.join_same hsame
  · rw [if_neg hsame] at hconf
    have heq : (S.ecUnion node ec).getEC = mergeRep S.getEC node ec :=
      funext (getEC_ecUnion_rep h hconf)
    rw [heq]
    exact hR.merge node ec

/-- **Any other call breaks the law**: the class of `node` loses its members or is torn. -/
theorem conforming_of_law {R : N → N → Prop} (hR : Represents S.getEC R)
    (hR' : Represents (S.ecUnion node ec).getEC (WithPair R node ec))
    (hclasses : ∀ a x : N, x ∈ (S.ecUnion node ec).members ((S.ecUnion node ec).getEC a) ↔ (S.ecUnion node ec).getEC x = (S.ecUnion node ec).getEC a) :
    Conforming S node ec := by
  have hself : (S.ecUnion node ec).getEC node = S.getEC ec := by
    rw [getEC_ecUnion, if_pos (S.self_mem_members node)]
  unfold Conforming
  by_cases hsame : S.getEC node = S.getEC ec
  · rw [if_pos hsame]
    intro x hx
    by_cases hrep : S.getEC node = node
    · -- the set of the representative has been cleared, so only `node` is left in it
      have hxec : (S.ecUnion node ec).getEC x = (S.ecUnion node ec).getEC node := by
        rw [getEC_ecUnion, if_pos hx, hself]
      have hmem := (hclasses node x).mpr hxec
      rw [hself, ← hsame, hrep, mem_members, mem_subs_ecUnion] at hmem
      exact hmem.resolve_right (fun hcleared => hcleared.1 rfl)
    · exact h.eq_of_mem_moved hrep hx
  · rw [if_neg hsame]
    by_contra hrep
    -- the old representative stays behind although it is still connected to `node`
    have hold : Relation.EqvGen R node (S.getEC node) :=
      (hR node (S.getEC node)).mp (h.getEC_getEC node).symm
    have hnew := (hR' node (S.getEC node)).mpr (connected_mono hold)
    have hstay : S.getEC node ∉ S.members node := fun hm => hrep (h.eq_of_mem_moved hrep hm)
    rw [hself, getEC_ecUnion, if_neg hstay, h.getEC_getEC] at hnew
    exact hsame hnew.symm

end

end Step

-- ── Whole runs

section Run

variable (sccRepNode : N → N) (ptsMap : N → Finset N) (worklist : FIFOWorkList N)

def run (calls : List (N × N)) : Steensgaard N :=
  (singletons sccRepNode ptsMap worklist).ecUnions calls

theorem run_concat (calls : List (N × N)) (node ec : N) :
    run sccRepNode ptsMap worklist (calls ++ [(node, ec)]) =
      (run sccRepNode ptsMap worklist calls).ecUnion node ec := by
  unfold run ecUnions
  rw [foldl_append]
  rfl

omit [DecidableEq N] in
theorem performed_concat (calls : List (N × N)) (node ec : N) :
    Performed (calls ++ [(node, ec)]) = WithPair (Performed calls) node ec := by
  funext x y
  unfold Performed WithPair
  rw [mem_append, mem_singleton, Prod.mk.injEq]

theorem represents_nil : Represents (run sccRepNode ptsMap worklist []).getEC (Performed []) := by
  have hnone : Performed ([] : List (N × N)) = fun _ _ => False := by
    funext x y
    exact eq_false not_mem_nil
  rw [hnone]
  exact represents_id

theorem run_of_conforming (calls : List (N × N))
    (hconf : ∀ done node ec, done ++ [(node, ec)] <+: calls →
      Conforming (run sccRepNode ptsMap worklist done) node ec) :
    Classes (run sccRepNode ptsMap worklist calls) ∧
      Represents (run sccRepNode ptsMap worklist calls).getEC (Performed calls) := by
  induction calls using List.reverseRecOn with
  | nil => exact ⟨Classes.singletons sccRepNode ptsMap worklist, represents_nil _ _ _⟩
  | append_singleton calls c ih =>
    obtain ⟨node, ec⟩ := c
    obtain ⟨hC, hR⟩ := ih (fun done n e hpre =>
      hconf done n e (hpre.trans (prefix_append calls [(node, ec)])))
    have hlast := hconf calls node ec (prefix_refl _)
    rw [run_concat, performed_concat]
    exact ⟨ecUnion_classes hC hlast, ecUnion_represents hC hR hlast⟩

/-- **The two maps are a union-find in every state of a run exactly if every call of the run
    conforms.** -/
theorem run_unionFind_iff (calls : List (N × N)) :
    (∀ done, done <+: calls → UnionFind (run sccRepNode ptsMap worklist done) done) ↔
      (∀ done node ec, done ++ [(node, ec)] <+: calls →
        Conforming (run sccRepNode ptsMap worklist done) node ec) := by
  constructor
  · intro hlaw done
    -- on the number of calls before: those made earlier conform already
    induction hlen : done.length using Nat.strong_induction_on generalizing done with
    | h n ih =>
      intro node ec hpre
      have hbefore : done <+: calls := (prefix_append done [(node, ec)]).trans hpre
      obtain ⟨hC, hR⟩ := run_of_conforming sccRepNode ptsMap worklist done
        (fun before n' ec' hp => by
          have hshort : before.length < n := by
            have hle := hp.length_le
            rw [length_append, length_singleton] at hle
            omega
          exact ih before.length hshort before rfl n' ec' (hp.trans hbefore))
      have hnext := hlaw (done ++ [(node, ec)]) hpre
      have hrep := hnext.represents
      have hcls := hnext.classes
      rw [run_concat] at hrep hcls
      rw [performed_concat] at hrep
      exact conforming_of_law hC hR hrep hcls
  · intro hconf done hdone
    obtain ⟨hC, hR⟩ := run_of_conforming sccRepNode ptsMap worklist done
      (fun before node ec hpre => hconf before node ec (hpre.trans hdone))
    exact ⟨hR, hC.classes⟩

end Run

/-- After `ecUnion(0, 1)` and `ecUnion(0, 2)` only node 0 has moved on: 0 and 1 are connected
    but lie in the classes of 2 and of 1. -/
theorem run_not_unionFind :
    ¬ UnionFind (run (fun n : ℕ => n) (fun _ => ∅) FIFOWorkList.empty [(0, 1), (0, 2)])
      [(0, 1), (0, 2)] := by
  intro h
  have hpair : Relation.EqvGen (Performed [(0, 1), (0, 2)]) 0 1 :=
    Relation.EqvGen.rel 0 1 (mem_cons_self)
  cases (h.represents 0 1).mpr hpair

end Steensgaard

end SvfSteensgaard
