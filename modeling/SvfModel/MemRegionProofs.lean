import Mathlib
import SvfModel.OrderedSetProofs

/-!
# `sortPointsTo`: every points-to set under a largest one

The regions of a program are its inclusion-maximal points-to sets. `sortPointsTo` takes the sets
one by one and maps each to a superset: the new set is mapped to a representative above it, if
there is one, and whatever has a representative inside the new set is mapped to the new set. Only
representatives are compared, in one pass.

This is enough because a representative is always maximal among the sets seen (`Grouped`). The
heart is that no representative lies inside a set that itself lies inside another
(`sortPointsTo_grouped`): so a set that absorbs anything is maximal, and what it absorbs needs no
second look. **`sortPointsTo_maximal`** reads off the rest for every sequence of sets.
-/

namespace SvfMSSA

open SvfOrderedSet List
open OrderedMap (find_isSome)
open OrderedSet (mem_def mem_insert)

-- ── Points-to sets and their order

/-- A set of node ids. -/
abbrev NodeBS := Finset ℕ

namespace NodeBS

/-- The ids from `begin()` to `end()`, in ascending order. -/
def iterate (s : NodeBS) : List ℕ := (List.range (s.sup id + 1)).filter (· ∈ s)

theorem mem_iterate {s : NodeBS} {x : ℕ} : x ∈ iterate s ↔ x ∈ s := by
  rw [iterate, mem_filter, mem_range, decide_eq_true_eq]
  constructor
  · exact And.right
  · intro hx
    have hle : x ≤ s.sup id := Finset.le_sup hx (f := id)
    exact ⟨by omega, hx⟩

theorem length_iterate (s : NodeBS) : (iterate s).length = s.card := by
  have hnodup : (iterate s).Nodup := nodup_range.filter _
  rw [← toFinset_card_of_nodup hnodup]
  congr 1
  ext x
  rw [mem_toFinset, mem_iterate]

/-- `contains`: the intersection with the other set is the other set. -/
def contains (l r : NodeBS) : Bool := decide (l ∩ r = r)

theorem contains_iff {l r : NodeBS} : contains l r ↔ r ⊆ l := by
  rw [contains, decide_eq_true_eq, Finset.inter_eq_right]

end NodeBS

/-- The loop of `cmpNodeBS` over two sets of one size: the first difference decides. -/
def cmpElements : List ℕ → List ℕ → Bool
  | bit :: bits, rbit :: rbits => if bit ≠ rbit then decide (bit < rbit) else cmpElements bits rbits
  | _, _ => false

theorem cmpElements_irrefl : ∀ l : List ℕ, cmpElements l l = false
  | [] => rfl
  | x :: xs => by
      rw [cmpElements, if_neg (by simp)]
      exact cmpElements_irrefl xs

theorem cmpElements_trans : ∀ {a b c : List ℕ}, cmpElements a b → cmpElements b c → cmpElements a c
  | x :: xs, y :: ys, z :: zs => by
      intro hab hbc
      rw [cmpElements] at hab hbc ⊢
      by_cases hxy : x = y
      · subst hxy
        by_cases hxz : x = z
        · subst hxz
          simp only [ne_eq, not_true_eq_false, if_false] at hab hbc ⊢
          exact cmpElements_trans hab hbc
        · rwa [if_pos hxz] at hbc ⊢
      · rw [if_pos hxy, decide_eq_true_eq] at hab
        by_cases hyz : y = z
        · subst hyz
          rw [if_pos hxy, decide_eq_true_eq]
          exact hab
        · rw [if_pos hyz, decide_eq_true_eq] at hbc
          rw [if_pos (by omega), decide_eq_true_eq]
          omega
  | [], _, _ => by simp [cmpElements]
  | _ :: _, [], _ => by simp [cmpElements]
  | _ :: _, _ :: _, [] => by simp [cmpElements]

theorem eq_of_cmpElements : ∀ {a b : List ℕ}, a.length = b.length →
    cmpElements a b = false → cmpElements b a = false → a = b
  | [], [] => fun _ _ _ => rfl
  | [], _ :: _ => fun hlen => by simp at hlen
  | _ :: _, [] => fun hlen => by simp at hlen
  | x :: xs, y :: ys => by
      intro hlen hab hba
      rw [cmpElements] at hab hba
      by_cases hxy : x = y
      · subst hxy
        simp only [ne_eq, not_true_eq_false, if_false] at hab hba
        rw [eq_of_cmpElements (by simpa using hlen) hab hba]
      · rw [if_pos hxy, decide_eq_false_iff_not] at hab
        rw [if_pos (Ne.symm hxy), decide_eq_false_iff_not] at hba
        omega

/-- The smaller set is before the larger one, and of two sets of one size the one with the
    smaller id at the first difference. -/
def cmpNodeBS (lpts rpts : NodeBS) : Bool :=
  if lpts.card ≠ rpts.card then decide (lpts.card < rpts.card)
  else cmpElements (NodeBS.iterate lpts) (NodeBS.iterate rpts)

theorem card_le_of_cmpNodeBS {l r : NodeBS} (h : cmpNodeBS l r) : l.card ≤ r.card := by
  rw [cmpNodeBS] at h
  by_cases hcard : l.card = r.card
  · exact hcard.le
  · rw [if_pos hcard, decide_eq_true_eq] at h
    exact h.le

instance : StrictTotal cmpNodeBS where
  irrefl a := by
    rw [cmpNodeBS, if_neg (by simp)]
    exact cmpElements_irrefl _
  trans := by
    intro a b c hab hbc
    have hle := card_le_of_cmpNodeBS hab
    have hle' := card_le_of_cmpNodeBS hbc
    rw [cmpNodeBS] at hab hbc ⊢
    by_cases hac : a.card = c.card
    · rw [if_neg (by omega)] at hab hbc ⊢
      exact cmpElements_trans hab hbc
    · rw [if_pos hac, decide_eq_true_eq]
      omega
  eq_of := by
    intro a b hab hba
    rw [cmpNodeBS] at hab hba
    by_cases hcard : a.card = b.card
    · rw [if_neg (by omega)] at hab hba
      have hlen : (NodeBS.iterate a).length = (NodeBS.iterate b).length := by
        rw [NodeBS.length_iterate, NodeBS.length_iterate, hcard]
      have hiter := eq_of_cmpElements hlen hab hba
      ext x
      rw [← NodeBS.mem_iterate, hiter, NodeBS.mem_iterate]
    · rw [if_pos hcard, decide_eq_false_iff_not] at hab
      rw [if_pos (Ne.symm hcard), decide_eq_false_iff_not] at hba
      omega

abbrev PointsToList := OrderedSet cmpNodeBS

abbrev PtsToRepPtsSetMap := OrderedMap cmpNodeBS NodeBS

-- ── `sortPointsTo`

/-- The pass over the map: the keys whose representative the new set contains, and the
    representative of the new set. -/
def scanReps (m : PtsToRepPtsSetMap) (cpts : NodeBS) :
    List NodeBS → PointsToList × NodeBS → PointsToList × NodeBS
  | [], found => found
  | key :: rest, (subSetList, repCPts) =>
    let existCPts := m.value key
    if NodeBS.contains cpts existCPts then scanReps m cpts rest (subSetList.insert key, repCPts)
    else if NodeBS.contains existCPts cpts then scanReps m cpts rest (subSetList, existCPts)
    else scanReps m cpts rest (subSetList, repCPts)

def sortPointsTo (m : PtsToRepPtsSetMap) (cpts : NodeBS) : PtsToRepPtsSetMap :=
  if (m.find cpts).isSome then m
  else
    let found := scanReps m cpts m.keys.elems (OrderedSet.empty, cpts)
    (found.1.elems.foldl (fun m key => m.set key cpts) m).set cpts found.2

def noPts : PtsToRepPtsSetMap := ⟨OrderedSet.empty, fun _ => ∅⟩

def getRepPointsTo (m : PtsToRepPtsSetMap) (cpts : NodeBS) : Option NodeBS := m.find cpts

variable {m : PtsToRepPtsSetMap} {cpts key : NodeBS} {keys : List NodeBS}
  {subSetList : PointsToList} {repCPts : NodeBS}

/-- What a loop adds, if the element at hand is what it looks for, and if it is not. -/
theorem or_and_cons {A : Type} {P : A → Prop} {x k : A} {p q : Prop} (hk : P k) :
    (x = k ∨ p) ∨ q ∧ P x ↔ p ∨ (x = k ∨ q) ∧ P x := by
  by_cases hx : x = k
  · simp only [hx, hk, true_or, and_true, or_true]
  · simp only [hx, false_or]

theorem or_and_skip {A : Type} {P : A → Prop} {x k : A} {p q : Prop} (hk : ¬ P k) :
    p ∨ q ∧ P x ↔ p ∨ (x = k ∨ q) ∧ P x := by
  by_cases hx : x = k
  · simp only [hx, hk, and_false]
  · simp only [hx, false_or]

theorem mem_scanReps : key ∈ (scanReps m cpts keys (subSetList, repCPts)).1 ↔
    key ∈ subSetList ∨ key ∈ keys ∧ m.value key ⊆ cpts := by
  induction keys generalizing subSetList repCPts with
  | nil => simp [scanReps]
  | cons k ks ih =>
    rw [scanReps]
    by_cases hsub : m.value k ⊆ cpts
    · rw [if_pos (NodeBS.contains_iff.mpr hsub), ih, mem_insert, mem_cons]
      exact or_and_cons (P := fun key => m.value key ⊆ cpts) hsub
    · have hskip := or_and_skip (P := fun key => m.value key ⊆ cpts) (x := key)
        (p := key ∈ subSetList) (q := key ∈ ks) hsub
      rw [← mem_cons] at hskip
      rw [if_neg (by rw [NodeBS.contains_iff]; exact hsub)]
      split
      · rw [ih, hskip]
      · rw [ih, hskip]

/-- The representative found: the one at hand, if no representative lies above the new set, or
    one that does. -/
theorem scanReps_rep (m : PtsToRepPtsSetMap) (cpts : NodeBS) (keys : List NodeBS)
    (subSetList : PointsToList) (repCPts : NodeBS) :
    ((scanReps m cpts keys (subSetList, repCPts)).2 = repCPts ∧
      ∀ k ∈ keys, cpts ⊆ m.value k → m.value k ⊆ cpts) ∨
    ∃ k ∈ keys, (scanReps m cpts keys (subSetList, repCPts)).2 = m.value k ∧
      cpts ⊆ m.value k ∧ ¬m.value k ⊆ cpts := by
  induction keys generalizing subSetList repCPts with
  | nil => exact .inl ⟨rfl, nofun⟩
  | cons k ks ih =>
    have hrest : ∀ subSetList', (cpts ⊆ m.value k → m.value k ⊆ cpts) →
        ((scanReps m cpts ks (subSetList', repCPts)).2 = repCPts ∧
          ∀ k' ∈ k :: ks, cpts ⊆ m.value k' → m.value k' ⊆ cpts) ∨
        ∃ k' ∈ k :: ks, (scanReps m cpts ks (subSetList', repCPts)).2 = m.value k' ∧
          cpts ⊆ m.value k' ∧ ¬m.value k' ⊆ cpts := by
      intro subSetList' hk
      rcases ih subSetList' repCPts with ⟨hrep, hall⟩ | ⟨k', hk', h⟩
      · left
        refine ⟨hrep, ?_⟩
        intro k' hk'
        rcases mem_cons.mp hk' with rfl | hk'
        · exact hk
        · exact hall k' hk'
      · exact .inr ⟨k', mem_cons_of_mem _ hk', h⟩
    rw [scanReps]
    by_cases hsub : m.value k ⊆ cpts
    · rw [if_pos (NodeBS.contains_iff.mpr hsub)]
      exact hrest _ (fun _ => hsub)
    · rw [if_neg (by rw [NodeBS.contains_iff]; exact hsub)]
      by_cases hsup : cpts ⊆ m.value k
      · rw [if_pos (NodeBS.contains_iff.mpr hsup)]
        right
        rcases ih subSetList (m.value k) with ⟨hrep, _⟩ | ⟨k', hk', h⟩
        · exact ⟨k, mem_cons_self, hrep, hsup, hsub⟩
        · exact ⟨k', mem_cons_of_mem _ hk', h⟩
      · rw [if_neg (by rw [NodeBS.contains_iff]; exact hsup)]
        exact hrest _ (fun h => absurd h hsup)

-- ── What the map keeps

structure Grouped (cs : List NodeBS) (m : PtsToRepPtsSetMap) : Prop where
  mem_keys : ∀ {c}, c ∈ m.keys ↔ c ∈ cs
  maximal : ∀ {c}, c ∈ cs → Maximal (· ∈ cs) (m.value c)
  le_value : ∀ {c}, c ∈ cs → c ⊆ m.value c

theorem grouped_nil : Grouped [] noPts where
  mem_keys := by simp [noPts]
  maximal hc := absurd hc not_mem_nil
  le_value hc := absurd hc not_mem_nil

theorem Grouped.congr {cs cs' : List NodeBS} (h : Grouped cs m) (hcs : ∀ c, c ∈ cs ↔ c ∈ cs') :
    Grouped cs' m where
  mem_keys := h.mem_keys.trans (hcs _)
  maximal hc := by
    simp only [← hcs]
    exact h.maximal ((hcs _).mpr hc)
  le_value hc := h.le_value ((hcs _).mpr hc)

theorem sortPointsTo_value (hnew : cpts ∉ m.keys) : (sortPointsTo m cpts).value key =
      if key = cpts then (scanReps m cpts m.keys.elems (OrderedSet.empty, cpts)).2
      else if key ∈ m.keys ∧ m.value key ⊆ cpts then cpts else m.value key := by
  have hfind : ¬(m.find cpts).isSome := by
    rw [find_isSome]
    exact hnew
  have hsub : key ∈ (scanReps m cpts m.keys.elems (OrderedSet.empty, cpts)).1.elems ↔
      key ∈ m.keys ∧ m.value key ⊆ cpts := by
    rw [← mem_def, mem_scanReps, mem_def (s := m.keys)]
    simp
  rw [sortPointsTo, if_neg hfind, OrderedMap.value_set, OrderedMap.value_foldl_set]
  simp only [hsub]

theorem mem_keys_sortPointsTo (hnew : cpts ∉ m.keys) :
    key ∈ (sortPointsTo m cpts).keys ↔ key = cpts ∨ key ∈ m.keys := by
  have hfind : ¬(m.find cpts).isSome := by
    rw [find_isSome]
    exact hnew
  have hsub : key ∈ (scanReps m cpts m.keys.elems (OrderedSet.empty, cpts)).1.elems →
      key ∈ m.keys := by
    rw [← mem_def, mem_scanReps]
    rintro (h | h)
    · exact absurd h OrderedSet.not_mem_empty
    · exact h.1
  rw [sortPointsTo, if_neg hfind, OrderedMap.mem_keys_set, OrderedMap.mem_keys_foldl_set]
  tauto

section

variable {cs : List NodeBS} (h : Grouped cs m)
include h

theorem Grouped.absorbs (hnew : cpts ∉ cs) {k d : NodeBS} (hk : k ∈ cs) (hkc : m.value k ⊆ cpts)
    (hd : d ∈ cs) : ¬cpts ⊆ d := by
  intro hcd
  have hdk : d ⊆ m.value k := (h.maximal hk).2 hd (hkc.trans hcd)
  have heq : cpts = d := Finset.Subset.antisymm hcd (hdk.trans hkc)
  rw [heq] at hnew
  exact hnew hd

theorem sortPointsTo_grouped (cpts : NodeBS) :
    Grouped (cpts :: cs) (sortPointsTo m cpts) := by
  by_cases hold : cpts ∈ m.keys
  · have hsame : sortPointsTo m cpts = m := by
      rw [sortPointsTo, if_pos (find_isSome.mpr hold)]
    rw [hsame]
    refine h.congr ?_
    intro c
    rw [mem_cons]
    constructor
    · exact .inr
    · rintro (rfl | hc)
      · exact h.mem_keys.mp hold
      · exact hc
  · have hnew : cpts ∉ cs := fun hc => hold (h.mem_keys.mpr hc)
    -- a maximal set stays one unless the new set contains it
    have hstays : ∀ {r}, Maximal (· ∈ cs) r → ¬r ⊆ cpts → Maximal (· ∈ cpts :: cs) r := by
      intro r hr hrc
      refine ⟨mem_cons_of_mem _ hr.1, ?_⟩
      intro d hd hrd
      rcases mem_cons.mp hd with rfl | hd
      · exact absurd hrd hrc
      · exact hr.2 hd hrd
    -- the new set is maximal if nothing that was there contains it
    have hself : (∀ d ∈ cs, ¬cpts ⊆ d) → Maximal (· ∈ cpts :: cs) cpts := by
      intro hnone
      refine ⟨mem_cons_self, ?_⟩
      intro d hd hcd
      rcases mem_cons.mp hd with rfl | hd
      · exact le_rfl
      · exact absurd hcd (hnone d hd)
    have hvalue : ∀ {c}, c ∈ cpts :: cs → Maximal (· ∈ cpts :: cs) ((sortPointsTo m cpts).value c) ∧
          c ⊆ (sortPointsTo m cpts).value c := by
      intro c hc
      rw [sortPointsTo_value hold]
      by_cases hcc : c = cpts
      · subst hcc
        rw [if_pos rfl]
        rcases scanReps_rep m c m.keys.elems OrderedSet.empty c with
          ⟨hrep, hall⟩ | ⟨k, hk, hrep, hup, hnot⟩
        · rw [hrep]
          refine ⟨hself ?_, Finset.Subset.refl _⟩
          intro d hd hcd
          have hdv := h.le_value hd
          have hback := hall d (h.mem_keys.mpr hd) (hcd.trans hdv)
          exact h.absorbs hnew hd hback hd hcd
        · rw [hrep]
          exact ⟨hstays (h.maximal (h.mem_keys.mp hk)) hnot, hup⟩
      · rw [if_neg hcc]
        have hc' : c ∈ cs := (mem_cons.mp hc).resolve_left hcc
        by_cases hsub : m.value c ⊆ cpts
        · rw [if_pos ⟨h.mem_keys.mpr hc', hsub⟩]
          exact ⟨hself (fun d hd => h.absorbs hnew hc' hsub hd), (h.le_value hc').trans hsub⟩
        · rw [if_neg (fun hk => hsub hk.2)]
          exact ⟨hstays (h.maximal hc') hsub, h.le_value hc'⟩
    constructor
    case mem_keys =>
      intro c
      rw [mem_keys_sortPointsTo hold, mem_cons, h.mem_keys]
    case maximal => exact fun hc => (hvalue hc).1
    case le_value => exact fun hc => (hvalue hc).2

theorem foldl_sortPointsTo_grouped (cs' : List NodeBS) :
    Grouped (cs' ++ cs) (cs'.foldl sortPointsTo m) := by
  induction cs' generalizing m cs with
  | nil => exact h
  | cons c cs' ih =>
    refine (ih (sortPointsTo_grouped h c)).congr ?_
    intro d
    simp only [mem_append, mem_cons]
    tauto

end

theorem sortPointsTo_run (cs : List NodeBS) : Grouped cs (cs.foldl sortPointsTo noPts) := by
  have h := foldl_sortPointsTo_grouped grouped_nil cs
  rwa [append_nil] at h

theorem Grouped.value_of_maximal {cs : List NodeBS} (h : Grouped cs m) {r : NodeBS}
    (hr : Maximal (· ∈ cs) r) : m.value r = r :=
  Finset.Subset.antisymm (hr.2 (h.maximal hr.1).1 (h.le_value hr.1)) (h.le_value hr.1)

theorem Grouped.rep_of_mem {cs : List NodeBS} (h : Grouped cs m) {c : NodeBS} (hc : c ∈ cs) :
    getRepPointsTo m c = some (m.value c) := OrderedMap.find_of_mem (h.mem_keys.mpr hc)

/-- After any sequence of sets given to `sortPointsTo`: the keys are those sets, the
    representative of each is one of them that contains it and is its own representative, and the
    representatives are the inclusion-maximal sets, no two of which are comparable. -/
theorem sortPointsTo_maximal (cs : List NodeBS) : let m := cs.foldl sortPointsTo noPts
    (∀ c, c ∈ m.keys ↔ c ∈ cs) ∧
      (∀ c ∈ cs, ∃ r ∈ cs, getRepPointsTo m c = some r ∧ c ⊆ r ∧ getRepPointsTo m r = some r) ∧
      (∀ r, (∃ c, getRepPointsTo m c = some r) ↔ Maximal (· ∈ cs) r) ∧
      IsAntichain (· ⊆ ·) {r | ∃ c, getRepPointsTo m c = some r} := by
  intro m
  have h : Grouped cs m := sortPointsTo_run cs
  have hreps : ∀ r, (∃ c, getRepPointsTo m c = some r) ↔ Maximal (· ∈ cs) r := by
    intro r
    constructor
    · rintro ⟨c, hc⟩
      have hkey : c ∈ m.keys := by
        rw [← find_isSome, show m.find c = some r from hc]
        rfl
      have hcs := h.mem_keys.mp hkey
      rw [h.rep_of_mem hcs, Option.some_inj] at hc
      rw [← hc]
      exact h.maximal hcs
    · intro hr
      refine ⟨r, ?_⟩
      rw [h.rep_of_mem hr.1, h.value_of_maximal hr]
  refine ⟨fun c => h.mem_keys, ?_, hreps, ?_⟩
  · intro c hc
    have hmax := h.maximal hc
    refine ⟨m.value c, hmax.1, h.rep_of_mem hc, h.le_value hc, ?_⟩
    rw [h.rep_of_mem hmax.1, h.value_of_maximal hmax]
  · intro r hr s hs hne hrs
    have hr' := (hreps r).mp hr
    have hs' := (hreps s).mp hs
    exact hne (Finset.Subset.antisymm hrs (hr'.2 hs'.1 hrs))

-- ── Regions

/-- A memory region: its points-to set, by which regions are compared. -/
structure MemRegion where
  cptsSet : NodeBS
deriving DecidableEq

def equalMemRegion (lhs rhs : MemRegion) : Bool := cmpNodeBS lhs.cptsSet rhs.cptsSet

instance : StrictTotal equalMemRegion where
  irrefl a := StrictTotal.irrefl a.cptsSet
  trans := by
    intro a b c hab hbc
    have hac : cmpNodeBS a.cptsSet c.cptsSet = true := StrictTotal.trans hab hbc
    exact hac
  eq_of := by
    rintro ⟨a⟩ ⟨b⟩ hab hba
    have hcpts : a = b := StrictTotal.eq_of hab hba
    rw [hcpts]

abbrev MRSet := OrderedSet equalMemRegion

/-- The representatives, all memory regions and those of each function. -/
structure MRGenerator (F : Type) where
  cptsToRepCPtsMap : PtsToRepPtsSetMap
  memRegSet : MRSet
  funToMRsMap : F → MRSet

/-- The sets of each function, in the order in which the map is gone through. -/
structure FunToPointsTosMap (F : Type) where
  entries : List (F × PointsToList)
  nodup : (entries.map Prod.fst).Nodup

/-- The sets of all functions in the order in which they are met. -/
def FunToPointsTosMap.allPts {F : Type} (funs : FunToPointsTosMap F) : List NodeBS :=
  funs.entries.flatMap (fun e => e.2.elems)

namespace MRGenerator

variable {F : Type} [DecidableEq F] {g : MRGenerator F} {func f : F}

def new (F : Type) : MRGenerator F := ⟨noPts, OrderedSet.empty, fun _ => OrderedSet.empty⟩

def addToFun (g : MRGenerator F) (func : F) (mr : MemRegion) : MRGenerator F :=
  { g with
    funToMRsMap := Function.update g.funToMRsMap func ((g.funToMRsMap func).insert mr) }

def createMR (g : MRGenerator F) (func : F) (cpts : NodeBS) : Option (MRGenerator F) :=
  match getRepPointsTo g.cptsToRepCPtsMap cpts with
  | none => none
  | some repCPts =>
    match g.memRegSet.find ⟨repCPts⟩ with
    | some mr => some (if ((g.funToMRsMap func).find mr).isSome then g else g.addToFun func mr)
    | none => some
        { g.addToFun func ⟨repCPts⟩ with
          memRegSet := g.memRegSet.insert ⟨repCPts⟩ }

/-- `getMR`: none where one of its assertions fails. -/
def getMR (g : MRGenerator F) (cpts : NodeBS) : Option MemRegion :=
  (getRepPointsTo g.cptsToRepCPtsMap cpts).bind (fun repCPts => g.memRegSet.find ⟨repCPts⟩)

structure Adds (g : MRGenerator F) (func : F) (mr : MemRegion) (g' : MRGenerator F) : Prop where
  reps : g'.cptsToRepCPtsMap = g.cptsToRepCPtsMap
  regions : ∀ mr', mr' ∈ g'.memRegSet ↔ mr' = mr ∨ mr' ∈ g.memRegSet
  funs : ∀ f mr', mr' ∈ g'.funToMRsMap f ↔ f = func ∧ mr' = mr ∨ mr' ∈ g.funToMRsMap f

theorem mem_addToFun {mr mr' : MemRegion} :
    mr' ∈ (g.addToFun func mr).funToMRsMap f ↔ f = func ∧ mr' = mr ∨ mr' ∈ g.funToMRsMap f := by
  show mr' ∈ Function.update g.funToMRsMap func _ f ↔ _
  by_cases hf : f = func
  · subst hf
    rw [Function.update_self, mem_insert]
    simp only [true_and]
  · rw [Function.update_of_ne hf]
    simp only [hf, false_and, false_or]

/-- `createMR` adds the region of the representative to the function. -/
theorem createMR_adds (g : MRGenerator F) (func : F) {repCPts : NodeBS}
    (hrep : getRepPointsTo g.cptsToRepCPtsMap cpts = some repCPts) :
    ∃ g', g.createMR func cpts = some g' ∧ g.Adds func ⟨repCPts⟩ g' := by
  rw [createMR, hrep]
  cases hfind : g.memRegSet.find ⟨repCPts⟩ with
  | none =>
    simp only [hfind]
    exact ⟨_, rfl, rfl, fun _ => mem_insert, fun _ _ => mem_addToFun⟩
  | some mr =>
    obtain ⟨hold, rfl⟩ := OrderedSet.find_iff.mp hfind
    have hregions : ∀ mr', mr' ∈ g.memRegSet ↔ mr' = ⟨repCPts⟩ ∨ mr' ∈ g.memRegSet := by
      intro mr'
      exact ⟨.inr, fun h => h.elim (fun heq => by rw [heq]; exact hold) id⟩
    simp only [hfind]
    refine ⟨_, rfl, ?_⟩
    by_cases hin : ((g.funToMRsMap func).find ⟨repCPts⟩).isSome
    · rw [if_pos hin]
      refine ⟨rfl, hregions, ?_⟩
      intro f mr'
      refine ⟨.inr, ?_⟩
      rintro (⟨rfl, rfl⟩ | h)
      · exact OrderedSet.find_isSome.mp hin
      · exact h
    · rw [if_neg hin]
      exact ⟨rfl, hregions, fun _ _ => mem_addToFun⟩

end MRGenerator

end SvfMSSA
