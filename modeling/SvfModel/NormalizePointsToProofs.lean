import SvfModel.GepObjVarProofs
import SvfModel.PtsStoreProofs

/-!
# Field-insensitive objects are normalised

`BVDataPTAImpl::normalizePointsTo` collects the field nodes of the field-insensitive objects,
replaces them in every points-to set by the nodes of their objects and takes them out of the
graph and its two maps.

A points-to set is changed while it is iterated. The persistent store only changes the id of the
variable, and the iteration goes on over the set it has begun with. In the mutable store the set
itself changes: a sparse bit vector has a list node for each block of 128 numbers, and `reset`
erases the node of a block that gets empty, with the iterator on it. `Separate` says that this
does not happen, and it decides (**`normalizePointsTo_losesNothing_iff`**).
-/

namespace SvfNormalize

open SvfPts SvfPtsCache SvfPtsCache.PersistentPointsToCache SvfPtsStore SvfGepObjVar List Option
open Function (update update_apply update_eq_self update_of_ne update_self)

-- ── The graph

/-- A field node of a field-insensitive object. -/
def Redundant (pag : SVFIR) (insensitive : ℕ → Bool) (id : ℕ) : Prop :=
  ∃ base k, pag.IDToNodeMap id = some (.GepObjVar base k) ∧ insensitive base = true

def isGepObjVar (pag : SVFIR) (id : ℕ) : Bool :=
  match pag.IDToNodeMap id with
  | some (.GepObjVar _ _) => true
  | _ => false

def getBaseObjVar (pag : SVFIR) (id : ℕ) : ℕ :=
  match pag.IDToNodeMap id with
  | some (.GepObjVar mem _) => mem
  | _ => id

/-- The first loop, over the keys of `memToFieldsMap`; `none` where the assertion fails. -/
def dropNodes (pag : SVFIR) (insensitive : ℕ → Bool) : List ℕ → Option (Finset ℕ)
  | [] => some ∅
  | base :: bases =>
    (dropNodes pag insensitive bases).bind fun drop =>
      if insensitive base then
        if ∀ id ∈ pag.memToFieldsMap base, isGepObjVar pag id = true ∨ id = base then
          some ((pag.memToFieldsMap base).filter (isGepObjVar pag ·) ∪ drop)
        else none
      else some drop

/-- The body of the last loop. -/
def removeField (pag : SVFIR) (n : ℕ) : SVFIR :=
  match pag.IDToNodeMap n with
  | some (.GepObjVar base apOffset) =>
    { pag with
      GepObjVarMap := update pag.GepObjVarMap (base, apOffset) none
      memToFieldsMap :=
        update pag.memToFieldsMap base ((pag.memToFieldsMap base).erase n)
      IDToNodeMap := update pag.IDToNodeMap n none }
  | _ => pag

def removeFields (pag : SVFIR) (drop : Finset ℕ) : SVFIR :=
  (drop.sort (· ≤ ·)).foldl removeField pag

-- ── The sets

/-- The numbers in one list node of a sparse bit vector. -/
def block (x : ℕ) : ℕ := x / 128

section Stores

variable {D : Type} [DataSet D ℕ]

section

variable (pag : SVFIR)

/-- The mutable store: the iteration goes over the bits that are set at the time. `none` where
    the list node under the iterator is erased. -/
def mutVisit (drop : Finset ℕ) (n : ℕ) (m : MutablePTData ℕ ℕ D) (obj : ℕ) :
    Option (MutablePTData ℕ ℕ D) :=
  if obj ∉ DataSet.elems (m.getPts n) ∨ obj ∉ drop then some m
  else
    let m := m.clearPts n obj
    if ∃ x ∈ DataSet.elems (m.getPts n), block x = block obj then
      some (m.addPts n (getBaseObjVar pag obj)).2
    else none

def mutVisits (drop : Finset ℕ) (bound : ℕ) (m : MutablePTData ℕ ℕ D) (n : ℕ) :
    Option (MutablePTData ℕ ℕ D) :=
  (List.range bound).foldlM (mutVisit pag drop n) m

/-- `normalizePointsTo` on the mutable store. `bound` is above all identifiers, `bases` are the
    keys of `memToFieldsMap` and `nodes` those of the graph. -/
def normalizeMut (insensitive : ℕ → Bool) (bound : ℕ) (bases nodes : List ℕ)
    (m : MutablePTData ℕ ℕ D) : Option (SVFIR × MutablePTData ℕ ℕ D) :=
  (dropNodes pag insensitive bases).bind fun drop =>
    (nodes.foldlM (mutVisits pag drop bound) m).map fun m => (removeFields pag drop, m)

/-- The persistent store: the set at the beginning is iterated. -/
def persVisit (drop : Finset ℕ) (n : ℕ) (p : PersistentPTData ℕ ℕ D) (obj : ℕ) :
    Except PtsError (PersistentPTData ℕ ℕ D) :=
  if obj ∉ drop then .ok p
  else do
    let p ← p.clearPts n obj
    let r ← p.addPts n (getBaseObjVar pag obj)
    return r.2

def persVisits (drop : Finset ℕ) (p : PersistentPTData ℕ ℕ D) (n : ℕ) :
    Except PtsError (PersistentPTData ℕ ℕ D) := do
  let tmpPts ← p.getPts n
  (DataSet.elems tmpPts).foldlM (persVisit pag drop n) p

def normalizePers (insensitive : ℕ → Bool) (bases nodes : List ℕ)
    (p : PersistentPTData ℕ ℕ D) : Option (Except PtsError (SVFIR × PersistentPTData ℕ ℕ D)) :=
  (dropNodes pag insensitive bases).map fun drop => do
    let p ← nodes.foldlM (persVisits pag drop) p
    return (removeFields pag drop, p)

end

end Stores

-- ── What it is for

/-- A state of an analysis: the maps of the graph say the same, `bases` and `nodes` are their
    keys, and only nodes have points-to sets, of identifiers below `bound`. -/
structure State (pag : SVFIR) (bound : ℕ) (bases nodes : List ℕ) (f : ℕ → Set ℕ) : Prop where
  bases : ∀ base, pag.memToFieldsMap base ≠ ∅ → base ∈ bases
  keyed : ∀ n, n ∉ nodes → f n = ∅
  nodup : nodes.Nodup
  below : ∀ n, ∀ x ∈ f n, x < bound

/-- Nothing is lost. -/
structure LosesNothing (pag : SVFIR) (insensitive : ℕ → Bool) (f : ℕ → Set ℕ) (pag' : SVFIR)
    (f' : ℕ → Set ℕ) : Prop where
  noField : ∀ n, ∀ x ∈ f' n, ¬ Redundant pag insensitive x
  base : ∀ n, ∀ d ∈ f n, Redundant pag insensitive d → getBaseObjVar pag d ∈ f' n
  other : ∀ n x, ¬ Redundant pag insensitive x →
    (∀ d ∈ f n, Redundant pag insensitive d → x ≠ getBaseObjVar pag d) → (x ∈ f' n ↔ x ∈ f n)
  node : ∀ x node, pag'.IDToNodeMap x = some node ↔
    pag.IDToNodeMap x = some node ∧ ¬ Redundant pag insensitive x
  field : ∀ key x, pag'.GepObjVarMap key = some x ↔
    pag.GepObjVarMap key = some x ∧ ¬ Redundant pag insensitive x
  member : ∀ base x, x ∈ pag'.memToFieldsMap base ↔
    x ∈ pag.memToFieldsMap base ∧ ¬ Redundant pag insensitive x

/-- The set `S` when the elements of `done` have been handled. -/
def After (pag : SVFIR) (insensitive : ℕ → Bool) (S done : Set ℕ) : Set ℕ :=
  {x | x ∈ S ∧ (Redundant pag insensitive x → x ∉ done) ∨
    ∃ d ∈ S ∩ done, Redundant pag insensitive d ∧ x = getBaseObjVar pag d}

/-- The block of `d` is not empty when `d` is taken out of `S`, the smaller ones being handled. -/
def KeepsBlock (pag : SVFIR) (insensitive : ℕ → Bool) (S : Set ℕ) (d : ℕ) : Prop :=
  ∃ x ∈ After pag insensitive S (Set.Iio d), x ≠ d ∧ block x = block d

/-- Each field that is replaced leaves something in its block: an element that stays or comes
    later, or the object of an earlier one. -/
def Separate (pag : SVFIR) (insensitive : ℕ → Bool) (f : ℕ → Set ℕ) : Prop :=
  ∀ n, ∀ d ∈ f n, Redundant pag insensitive d → KeepsBlock pag insensitive (f n) d

-- ── The maps of the graph

structure Listed (pag : SVFIR) : Prop where
  member : ∀ base, ∀ id ∈ pag.memToFieldsMap base, id = base ∧ IsObject pag base ∨
    ∃ k, pag.IDToNodeMap id = some (.GepObjVar base k)
  listed : ∀ id base k, pag.IDToNodeMap id = some (.GepObjVar base k) →
    id ∈ pag.memToFieldsMap base

/-- The two maps and the nodes of a graph say the same. -/
structure Indexed (pag : SVFIR) : Prop extends Listed pag where
  field_iff : ∀ base k id, pag.GepObjVarMap (base, k) = some id ↔
    pag.IDToNodeMap id = some (.GepObjVar base k)
  owner : ∀ id base k, pag.IDToNodeMap id = some (.GepObjVar base k) → IsObject pag base

section Graph

variable {pag pag' : SVFIR} {insensitive : ℕ → Bool} {base id x : ℕ}

/-- A new node, with its entry if it is an object's or a field. -/
theorem Listed.add (h : Listed pag) {node : SVFVar} (hfree : pag.IDToNodeMap id = none)
    (hnode : pag'.IDToNodeMap = update pag.IDToNodeMap id (some node))
    (hmem : ∀ b i, i ∈ pag'.memToFieldsMap b ↔ i ∈ pag.memToFieldsMap b ∨
      i = id ∧ (node = .FIObjVar id ∧ b = id ∨ ∃ k, node = .GepObjVar b k)) : Listed pag' := by
  have hgrow : ∀ i n, pag.IDToNodeMap i = some n → pag'.IDToNodeMap i = some n := fun i n hi =>
    hnode ▸ update_of_none hfree hi
  have hself : pag'.IDToNodeMap id = some node := hnode ▸ update_self _ _ _
  constructor
  case member =>
    intro b i hi
    rcases (hmem b i).mp hi with hi | ⟨rfl, ⟨rfl, rfl⟩ | ⟨k, rfl⟩⟩
    · refine (h.member b i hi).imp (And.imp_right fun hobj => ?_) fun ⟨k, hk⟩ => ⟨k, hgrow i _ hk⟩
      exact hobj.imp (hgrow b _) (hgrow b _)
    · exact .inl ⟨rfl, .inl hself⟩
    · exact .inr ⟨k, hself⟩
  case listed =>
    intro i b k hi
    by_cases hid : i = id
    · subst hid
      exact (hmem b i).mpr (.inr ⟨rfl, .inr ⟨k, mem_unique hself hi⟩⟩)
    · rw [hnode, update_of_ne hid] at hi
      exact (hmem b i).mpr (.inl (h.listed i b k hi))

theorem mem_update_insert {fields : ℕ → Finset ℕ} {i b : ℕ} :
    i ∈ update fields base (insert id (fields base)) b ↔ i ∈ fields b ∨ i = id ∧ b = base := by
  by_cases hb : b = base
  · subst hb
    rw [update_self, Finset.mem_insert]
    tauto
  · rw [update_of_ne hb]
    tauto

section

variable {opts : Options} {limit : ℕ → UInt32} {calls : List Call} (hr : Runs opts limit pag calls)
include hr

theorem listed_of_runs : Listed pag := by
  induction hr with
  | init allocator =>
    exact ⟨fun _ i hi => absurd hi (Finset.notMem_empty i), fun _ _ _ h => nomatch h⟩
  | obj _ hadd ih =>
    obtain ⟨hfree, rfl⟩ := addNode_eq_some.mp hadd
    refine ih.add hfree rfl fun b i => mem_update_insert.trans (or_congr_right (and_congr_right ?_))
    intro _
    constructor
    · rintro rfl
      exact .inl ⟨rfl, rfl⟩
    · exact fun h => h.elim And.right fun ⟨_, h⟩ => nomatch h
  | dummy _ hadd ih =>
    obtain ⟨hfree, rfl⟩ := addNode_eq_some.mp hadd
    refine ih.add hfree rfl fun b i => (or_iff_left ?_).symm
    rintro ⟨-, ⟨h, -⟩ | ⟨_, h⟩⟩ <;> exact nomatch h
  | val _ hadd ih =>
    obtain ⟨hfree, rfl⟩ := addNode_eq_some.mp hadd
    refine ih.add hfree rfl fun b i => (or_iff_left ?_).symm
    rintro ⟨-, ⟨h, -⟩ | ⟨_, h⟩⟩ <;> exact nomatch h
  | call _ hcall ih =>
    rw [getGepObjVar_eq] at hcall
    obtain ⟨p, -, hcall⟩ := bind_eq_some_iff.mp hcall
    rcases getGepObjVarOf_cases hcall with ⟨rfl, -⟩ | ⟨k, allocator, -, -, -, hfree, rfl⟩
    · exact ih
    · refine ih.add hfree rfl fun b i => mem_update_insert.trans (or_congr_right (and_congr_right ?_))
      intro _
      constructor
      · rintro rfl
        exact .inr ⟨k, rfl⟩
      · rintro (⟨h, -⟩ | ⟨k', h⟩)
        · cases h
        · exact (SVFVar.GepObjVar.inj h).1.symm

/-- **Every graph that is built** has maps that agree with its nodes. -/
theorem indexed_of_runs : Indexed pag :=
  { listed_of_runs hr with
    field_iff := hr.inv.field_iff
    owner := hr.inv.owner }

end

theorem isGepObjVar_iff : isGepObjVar pag id ↔
    ∃ base k, pag.IDToNodeMap id = some (.GepObjVar base k) := by
  rw [isGepObjVar]
  split
  · next base k hnode => exact iff_of_true rfl ⟨base, k, hnode⟩
  · next hnone => exact iff_of_false Bool.false_ne_true fun ⟨base, k, h⟩ => hnone base k h

theorem getBaseObjVar_eq {k : Int64} (h : pag.IDToNodeMap id = some (.GepObjVar base k)) :
    getBaseObjVar pag id = base := by
  rw [getBaseObjVar, h]

/-- An object is not replaced. -/
theorem Indexed.not_redundant_base (h : Indexed pag) (hx : Redundant pag insensitive x) :
    ¬ Redundant pag insensitive (getBaseObjVar pag x) := by
  obtain ⟨base, k, hnode, -⟩ := hx
  rw [getBaseObjVar_eq hnode]
  rintro ⟨b, j, hb, -⟩
  exact (h.owner x base k hnode).not_field hb

/-- **The first loop** collects the fields of the field-insensitive objects. -/
theorem Indexed.dropNodes_spec (h : Indexed pag) (insensitive : ℕ → Bool) (bases : List ℕ) :
    ∃ drop, dropNodes pag insensitive bases = some drop ∧ ∀ x, x ∈ drop ↔
      Redundant pag insensitive x ∧ ∃ base ∈ bases, x ∈ pag.memToFieldsMap base := by
  induction bases with
  | nil => exact ⟨∅, rfl, fun x => by simp⟩
  | cons base bases ih =>
    obtain ⟨drop, hdrop, hmem⟩ := ih
    rw [dropNodes, hdrop, bind_some]
    have hfield : ∀ x, x ∈ pag.memToFieldsMap base → isGepObjVar pag x →
        ∃ k, pag.IDToNodeMap x = some (.GepObjVar base k) := by
      intro x hx hgep
      obtain ⟨b, k, hnode⟩ := isGepObjVar_iff.mp hgep
      rcases h.member base x hx with ⟨rfl, hobj⟩ | hk
      · exact absurd hnode hobj.not_field
      · exact hk
    cases hins : insensitive base with
    | true =>
      have hassert : ∀ id ∈ pag.memToFieldsMap base, isGepObjVar pag id ∨ id = base :=
        fun id hid => (h.member base id hid).elim (fun hobj => .inr hobj.1)
          fun ⟨k, hk⟩ => .inl (isGepObjVar_iff.mpr ⟨base, k, hk⟩)
      rw [if_pos rfl, if_pos hassert]
      refine ⟨_, rfl, fun x => ?_⟩
      rw [Finset.mem_union, Finset.mem_filter, hmem, exists_mem_cons_iff]
      constructor
      · rintro (⟨hx, hgep⟩ | ⟨hred, hb⟩)
        · obtain ⟨k, hk⟩ := hfield x hx hgep
          exact ⟨⟨base, k, hk, hins⟩, .inl hx⟩
        · exact ⟨hred, .inr hb⟩
      · rintro ⟨⟨b, k, hk, hb⟩, hx | hx⟩
        · exact .inl ⟨hx, isGepObjVar_iff.mpr ⟨b, k, hk⟩⟩
        · exact .inr ⟨⟨b, k, hk, hb⟩, hx⟩
    | false =>
      rw [if_neg Bool.false_ne_true]
      refine ⟨drop, rfl, fun x => ?_⟩
      rw [hmem, exists_mem_cons_iff]
      refine and_congr_right fun ⟨b, k, hk, hb⟩ => (or_iff_right fun hx => ?_).symm
      obtain ⟨j, hj⟩ := hfield x hx (isGepObjVar_iff.mpr ⟨b, k, hk⟩)
      obtain ⟨rfl, -⟩ := SVFVar.GepObjVar.inj (mem_unique hk hj)
      exact Bool.false_ne_true (hins.symm.trans hb)

structure Removed (l : List ℕ) (pag pag' : SVFIR) : Prop where
  node : ∀ x node, pag'.IDToNodeMap x = some node ↔ pag.IDToNodeMap x = some node ∧ x ∉ l
  field : ∀ key x, pag'.GepObjVarMap key = some x ↔ pag.GepObjVarMap key = some x ∧ x ∉ l
  member : ∀ base x, x ∈ pag'.memToFieldsMap base ↔ x ∈ pag.memToFieldsMap base ∧ x ∉ l

/-- **One field** is taken out under the key that it has. -/
theorem Indexed.removed (h : Indexed pag) {k : Int64}
    (hn : pag.IDToNodeMap id = some (.GepObjVar base k)) :
    Removed [id] pag (removeField pag id) := by
  rw [removeField, hn]
  constructor
  case node =>
    intro x node
    show update pag.IDToNodeMap id none x = some node ↔ _
    rw [mem_singleton]
    by_cases hx : x = id
    · rw [hx, update_self]
      exact iff_of_false (nomatch ·) fun h => h.2 rfl
    · rw [update_of_ne hx, and_iff_left hx]
  case field =>
    rintro ⟨b, j⟩ x
    have hkey : pag.GepObjVarMap (b, j) = some id → (b, j) = (base, k) := by
      intro hx
      obtain ⟨rfl, rfl⟩ := SVFVar.GepObjVar.inj
        (some.inj (((h.field_iff b j id).mp hx).symm.trans hn))
      rfl
    show update pag.GepObjVarMap (base, k) none (b, j) = some x ↔ _
    rw [mem_singleton]
    by_cases he : (b, j) = (base, k)
    · rw [he, update_self, (h.field_iff base k id).mpr hn, some_inj]
      exact iff_of_false (nomatch ·) fun hx => hx.2 hx.1.symm
    · rw [update_of_ne he]
      exact ⟨fun hx => ⟨hx, fun hid => he (hkey (hid ▸ hx))⟩, And.left⟩
  case member =>
    intro b x
    show x ∈ update pag.memToFieldsMap base _ b ↔ _
    rw [mem_singleton]
    by_cases hb : b = base
    · rw [hb, update_self, Finset.mem_erase, and_comm]
    · rw [update_of_ne hb]
      refine ⟨fun hx => ⟨hx, ?_⟩, And.left⟩
      rintro rfl
      rcases h.member b x hx with ⟨rfl, hobj⟩ | ⟨j, hj⟩
      · exact hobj.not_field hn
      · exact hb (SVFVar.GepObjVar.inj (mem_unique hj hn)).1

/-- The maps still agree. -/
theorem Indexed.remove (h : Indexed pag) {k : Int64} (hrem : Removed [id] pag pag')
    (hn : pag.IDToNodeMap id = some (.GepObjVar base k)) : Indexed pag' := by
  have hnode : ∀ x n, pag'.IDToNodeMap x = some n ↔ pag.IDToNodeMap x = some n ∧ x ≠ id :=
    fun x n => by rw [hrem.node, mem_singleton]
  have hobj : ∀ b, IsObject pag b → IsObject pag' b := by
    intro b hb
    have hne : b ≠ id := by
      rintro rfl
      exact hb.not_field hn
    exact hb.imp (fun hb => (hnode b _).mpr ⟨hb, hne⟩) fun hb => (hnode b _).mpr ⟨hb, hne⟩
  refine ⟨⟨?_, ?_⟩, ?_, ?_⟩
  · intro b i hi
    obtain ⟨hi, hne⟩ := (hrem.member b i).mp hi
    exact (h.member b i hi).imp (And.imp_right (hobj b))
      fun ⟨j, hj⟩ => ⟨j, (hnode i _).mpr ⟨hj, mem_singleton.not.mp hne⟩⟩
  · intro i b j hi
    obtain ⟨hi, hne⟩ := (hnode i _).mp hi
    exact (hrem.member b i).mpr ⟨h.listed i b j hi, mem_singleton.not.mpr hne⟩
  · intro b j i
    rw [hrem.field, h.field_iff, hnode, mem_singleton]
  · exact fun i b j hi => hobj b (h.owner i b j ((hnode i _).mp hi).1)

/-- **The last loop.** -/
theorem Indexed.foldl_removed : ∀ (l : List ℕ) {pag : SVFIR}, Indexed pag → l.Nodup →
    (∀ x ∈ l, ∃ base k, pag.IDToNodeMap x = some (.GepObjVar base k)) →
    Removed l pag (l.foldl removeField pag) := by
  intro l
  induction l with
  | nil => exact fun _ _ _ => ⟨by simp, by simp, by simp⟩
  | cons n l ih =>
    intro pag h hl hgep
    obtain ⟨hnl, hl⟩ := nodup_cons.mp hl
    obtain ⟨base, k, hn⟩ := hgep n mem_cons_self
    have hone := h.removed hn
    have hrest := ih (h.remove hone hn) hl fun x hx => by
      obtain ⟨b, j, hx'⟩ := hgep x (mem_cons_of_mem n hx)
      refine ⟨b, j, (hone.node x _).mpr ⟨hx', fun he => ?_⟩⟩
      rw [mem_singleton] at he
      exact hnl (he ▸ hx)
    constructor
    case node =>
      intro x node
      rw [foldl_cons, hrest.node, hone.node, mem_singleton, mem_cons, not_or, and_assoc]
    case field =>
      intro key x
      rw [foldl_cons, hrest.field, hone.field, mem_singleton, mem_cons, not_or, and_assoc]
    case member =>
      intro b x
      rw [foldl_cons, hrest.member, hone.member, mem_singleton, mem_cons, not_or, and_assoc]

end Graph

-- ── The sets as the loop changes them

section Sets

variable {pag : SVFIR} {insensitive : ℕ → Bool} {S done : Set ℕ} {f : ℕ → Set ℕ} {j n : ℕ}

theorem after_empty : After pag insensitive S ∅ = S := by
  ext x
  constructor
  · rintro (⟨hx, -⟩ | ⟨d, ⟨-, hd⟩, -⟩)
    · exact hx
    · exact absurd hd (Set.notMem_empty d)
  · exact fun hx => .inl ⟨hx, fun _ => Set.notMem_empty x⟩

theorem after_of_empty : After pag insensitive ∅ done = ∅ := by
  refine Set.eq_empty_of_forall_notMem ?_
  rintro x (⟨hx, -⟩ | ⟨d, ⟨hd, -⟩, -⟩)
  · exact Set.notMem_empty x hx
  · exact Set.notMem_empty d hd

theorem after_insert_of_not (hj : ¬ (j ∈ S ∧ Redundant pag insensitive j)) :
    After pag insensitive S (insert j done) = After pag insensitive S done := by
  have hsame : ∀ x ∈ S, Redundant pag insensitive x → (x ∈ insert j done ↔ x ∈ done) := by
    intro x hx hred
    refine or_iff_right ?_
    rintro rfl
    exact hj ⟨hx, hred⟩
  ext x
  constructor
  · rintro (⟨hx, hnot⟩ | ⟨d, ⟨hd, hdone⟩, hred, rfl⟩)
    · exact .inl ⟨hx, fun hred hdone => hnot hred (.inr hdone)⟩
    · exact .inr ⟨d, ⟨hd, (hsame d hd hred).mp hdone⟩, hred, rfl⟩
  · rintro (⟨hx, hnot⟩ | ⟨d, ⟨hd, hdone⟩, hred, rfl⟩)
    · exact .inl ⟨hx, fun hred hins => hnot hred ((hsame x hx hred).mp hins)⟩
    · exact .inr ⟨d, ⟨hd, .inr hdone⟩, hred, rfl⟩

section

variable (h : Indexed pag)
include h

/-- **One field**: it is taken out and its object put in. -/
theorem Indexed.after_insert (hj : j ∈ S) (hred : Redundant pag insensitive j) :
    After pag insensitive S (insert j done) =
      After pag insensitive S done \ {j} ∪ {getBaseObjVar pag j} := by
  ext x
  constructor
  · rintro (⟨hx, hnot⟩ | ⟨d, ⟨hd, rfl | hdone⟩, hr, rfl⟩)
    · refine .inl ⟨.inl ⟨hx, fun hr hdone => hnot hr (.inr hdone)⟩, ?_⟩
      rintro rfl
      exact hnot hred (.inl rfl)
    · exact .inr rfl
    · refine .inl ⟨.inr ⟨d, ⟨hd, hdone⟩, hr, rfl⟩, fun he => ?_⟩
      rw [Set.mem_singleton_iff] at he
      exact h.not_redundant_base hr (he ▸ hred)
  · rintro (⟨⟨hx, hnot⟩ | ⟨d, ⟨hd, hdone⟩, hr, rfl⟩, hne⟩ | rfl)
    · exact .inl ⟨hx, fun hr hins => hins.elim hne (hnot hr)⟩
    · exact .inr ⟨d, ⟨hd, .inr hdone⟩, hr, rfl⟩
    · exact .inr ⟨j, ⟨hj, .inl rfl⟩, hred, rfl⟩

theorem Indexed.mem_after_iff (hred : Redundant pag insensitive j)
    (hdone : j ∉ done) : j ∈ After pag insensitive S done ↔ j ∈ S := by
  constructor
  · rintro (⟨hj, -⟩ | ⟨d, -, hr, rfl⟩)
    · exact hj
    · exact absurd hred (h.not_redundant_base hr)
  · exact fun hj => .inl ⟨hj, fun _ => hdone⟩

/-- The two calls of the loop. -/
theorem Indexed.absStep_visit (D : Type) [DataSet D ℕ] (hj : j ∈ S)
    (hred : Redundant pag insensitive j) :
    (absStep (absStep (update f n (After pag insensitive S done))
      (.clearPts n j : PtsCall ℕ ℕ D)).2 (.addPts n (getBaseObjVar pag j) : PtsCall ℕ ℕ D)).2 =
        update f n (After pag insensitive S (insert j done)) := by
  rw [h.after_insert hj hred]
  simp [absStep, absUnion]

/-- **When all are handled** nothing is lost. -/
theorem Indexed.losesNothing {f' : ℕ → Set ℕ} {drop : Finset ℕ}
    (done : ℕ → Set ℕ) (hdrop : ∀ x, x ∈ drop ↔ Redundant pag insensitive x)
    (hf : ∀ n, f' n = After pag insensitive (f n) (done n)) (hdone : ∀ n, f n ⊆ done n) :
    LosesNothing pag insensitive f (removeFields pag drop) f' := by
  have hmem : ∀ x, x ∈ drop.sort (· ≤ ·) ↔ Redundant pag insensitive x := fun x =>
    (Finset.mem_sort _).trans (hdrop x)
  have hrem : Removed (drop.sort (· ≤ ·)) pag (removeFields pag drop) := by
    refine Indexed.foldl_removed _ h (Finset.sort_nodup _ _) fun x hx => ?_
    obtain ⟨base, k, hnode, -⟩ := (hmem x).mp hx
    exact ⟨base, k, hnode⟩
  constructor
  case noField =>
    intro n x hx hred
    rw [hf] at hx
    rcases hx with ⟨hx, hnot⟩ | ⟨d, -, hr, rfl⟩
    · exact hnot hred (hdone n hx)
    · exact h.not_redundant_base hr hred
  case base =>
    intro n d hd hred
    rw [hf]
    exact .inr ⟨d, ⟨hd, hdone n hd⟩, hred, rfl⟩
  case other =>
    intro n x hx hne
    rw [hf]
    constructor
    · rintro (⟨hx, -⟩ | ⟨d, ⟨hd, -⟩, hr, he⟩)
      · exact hx
      · exact absurd he (hne d hd hr)
    · exact fun hxf => .inl ⟨hxf, fun hr => absurd hr hx⟩
  case node =>
    intro x node
    rw [hrem.node, hmem]
  case field =>
    intro key x
    rw [hrem.field, hmem]
  case member =>
    intro base x
    rw [hrem.member, hmem]

end

/-- One node after the other. -/
theorem update_visited {R : Set ℕ → Set ℕ} {l : List ℕ} (hn : n ∉ l) :
    (fun k => if k ∈ l then R (update f n (R (f n)) k)
      else update f n (R (f n)) k) = fun k => if k ∈ n :: l then R (f k) else f k := by
  funext k
  by_cases hk : k = n
  · rw [hk, if_neg hn, if_pos mem_cons_self, update_self]
  · rw [update_of_ne hk]
    exact if_congr (by rw [mem_cons, or_iff_right hk]) rfl rfl

end Sets

-- ── The mutable store

section Mutable

variable {D : Type} [DataSet D ℕ]

def Ends (P : Prop) (g : ℕ → Set ℕ) (r : Option (MutablePTData ℕ ℕ D)) : Prop :=
  (P ∧ ∃ m, r = some m ∧ MutRep m g) ∨ (¬ P ∧ r = none)

variable {P Q : Prop} {f g g' : ℕ → Set ℕ} {r : Option (MutablePTData ℕ ℕ D)}
  {m : MutablePTData ℕ ℕ D}

theorem Ends.bind (h : Ends P g r) {s : MutablePTData ℕ ℕ D → Option (MutablePTData ℕ ℕ D)}
    (hs : ∀ m, MutRep m g → Ends Q g' (s m)) : Ends (P ∧ Q) g' (r >>= s) := by
  rcases h with ⟨hP, m, rfl, hm⟩ | ⟨hP, rfl⟩
  · rcases hs m hm with ⟨hQ, hend⟩ | ⟨hQ, hnone⟩
    · exact .inl ⟨⟨hP, hQ⟩, hend⟩
    · exact .inr ⟨fun hPQ => hQ hPQ.2, hnone⟩
  · exact .inr ⟨fun hPQ => hP hPQ.1, rfl⟩

theorem Ends.congr (h : Ends P g r) (hPQ : P ↔ Q) (hg : g = g') : Ends Q g' r := by
  subst hg
  rwa [propext hPQ] at h

variable [SetDataSet D] {pag : SVFIR} {insensitive : ℕ → Bool} {drop : Finset ℕ} {S : Set ℕ}
  {n j : ℕ}

theorem Iio_succ (j : ℕ) : Set.Iio (j + 1) = insert j (Set.Iio j) := by
  ext x
  rw [Set.mem_Iio, Set.mem_insert_iff, Set.mem_Iio]
  omega

variable (h : Indexed pag) (hdrop : ∀ x, x ∈ drop ↔ Redundant pag insensitive x)
include h hdrop

/-- **One element** of the set that is iterated. -/
theorem mutVisit_ends (hm : MutRep m (update f n (After pag insensitive S (Set.Iio j)))) :
    Ends (j ∈ S → Redundant pag insensitive j → KeepsBlock pag insensitive S j)
      (update f n (After pag insensitive S (Set.Iio (j + 1)))) (mutVisit pag drop n m j) := by
  have hpts : ∀ x, x ∈ DataSet.elems (m.getPts n) ↔ x ∈ After pag insensitive S (Set.Iio j) := by
    intro x
    have hden := hm.pts n
    rw [update_self] at hden
    rw [← hden]
    exact .rfl
  have hnot : j ∉ Set.Iio j := lt_irrefl j
  rw [mutVisit, Iio_succ]
  by_cases hj : j ∈ S ∧ Redundant pag insensitive j
  · have hclear := (mutStep_refines hm (.clearPts n j)).2
    have hadd := (mutStep_refines hclear (.addPts n (getBaseObjVar pag j))).2
    have hleft : ∀ x, x ∈ DataSet.elems ((m.clearPts n j).getPts n) ↔
        x ∈ After pag insensitive S (Set.Iio j) ∧ x ≠ j := by
      intro x
      have hden : den ((m.clearPts n j).getPts n) = After pag insensitive S (Set.Iio j) \ {j} := by
        have hset := hclear.pts n
        dsimp only [absStep] at hset
        rw [update_self, update_self] at hset
        exact hset
      show x ∈ den ((m.clearPts n j).getPts n) ↔ _
      rw [hden]
      exact .rfl
    have hin := (hpts j).mpr ((h.mem_after_iff hj.2 hnot).mpr hj.1)
    rw [if_neg (not_or.mpr ⟨not_not.mpr hin, not_not.mpr ((hdrop j).mpr hj.2)⟩)]
    have hiff : (∃ x ∈ DataSet.elems ((m.clearPts n j).getPts n), block x = block j) ↔
        KeepsBlock pag insensitive S j :=
      exists_congr fun x => by rw [hleft, and_assoc]
    by_cases hkeep : KeepsBlock pag insensitive S j
    · refine .inl ⟨fun _ _ => hkeep, _, if_pos (hiff.mpr hkeep), ?_⟩
      rw [← h.absStep_visit D hj.1 hj.2]
      exact hadd
    · exact .inr ⟨fun hP => hkeep (hP hj.1 hj.2), if_neg (hiff.not.mpr hkeep)⟩
  · rw [after_insert_of_not hj, if_pos]
    · exact .inl ⟨fun hS hred => absurd ⟨hS, hred⟩ hj, m, rfl, hm⟩
    · refine not_and_or.mp fun hin => hj ?_
      have hred := (hdrop j).mp hin.2
      exact ⟨(h.mem_after_iff hred hnot).mp ((hpts j).mp hin.1), hred⟩

/-- **One set**: the elements below `k`. -/
theorem mutVisits_ends (hm : MutRep m f) (n k : ℕ) :
    Ends (∀ d < k, d ∈ f n → Redundant pag insensitive d → KeepsBlock pag insensitive (f n) d)
      (update f n (After pag insensitive (f n) (Set.Iio k)))
      (mutVisits pag drop k m n) := by
  rw [mutVisits]
  induction k with
  | zero =>
    have hIio : Set.Iio 0 = (∅ : Set ℕ) := Set.Iio_bot
    refine .inl ⟨fun d hd => absurd hd (Nat.not_lt_zero d), m, rfl, ?_⟩
    rw [hIio, after_empty, update_eq_self]
    exact hm
  | succ k ih =>
    rw [range_succ, foldlM_append]
    refine (ih.bind fun m hm => ?_).congr Nat.forall_lt_succ_right.symm rfl
    rw [foldlM_cons]
    have hlast : (mutVisit pag drop n m k >>= fun m => [].foldlM (mutVisit pag drop n) m) =
        mutVisit pag drop n m k := bind_pure _
    rw [hlast]
    exact mutVisit_ends h hdrop hm

/-- **All sets.** -/
theorem mutNodes_ends (bound : ℕ) : ∀ (nodes : List ℕ) {m : MutablePTData ℕ ℕ D} {f : ℕ → Set ℕ}, MutRep m f →
      nodes.Nodup →
      Ends (∀ n ∈ nodes, ∀ d < bound, d ∈ f n → Redundant pag insensitive d →
          KeepsBlock pag insensitive (f n) d)
        (fun n => if n ∈ nodes then After pag insensitive (f n) (Set.Iio bound) else f n)
        (nodes.foldlM (mutVisits pag drop bound) m) := by
  intro nodes
  induction nodes with
  | nil => exact fun hm _ => .inl ⟨nofun, _, rfl, hm⟩
  | cons n nodes ih =>
    intro m f hm hnodup
    obtain ⟨hn, hnodup⟩ := nodup_cons.mp hnodup
    rw [foldlM_cons]
    refine ((mutVisits_ends h hdrop hm n bound).bind fun m hm => ih hm hnodup).congr ?_
      (update_visited (R := fun S => After pag insensitive S (Set.Iio bound)) hn)
    rw [forall_mem_cons]
    refine and_congr_right fun _ => forall₂_congr fun k hk => ?_
    rw [update_of_ne (ne_of_mem_of_not_mem hk hn)]

end Mutable

-- ── The persistent store

section Persistent

variable {D : Type} [DataSet D ℕ]

def Carries {A : Type} (Q : A → Prop) (r : Except PtsError A) : Prop :=
  (∃ a, r = .ok a ∧ Q a) ∨ r = .error .idsExhausted

theorem Carries.bind {A B : Type} {Q : A → Prop} {Q' : B → Prop} {r : Except PtsError A}
    (h : Carries Q r) {s : A → Except PtsError B} (hs : ∀ a, Q a → Carries Q' (s a)) :
    Carries Q' (r >>= s) := by
  rcases h with ⟨a, rfl, ha⟩ | rfl
  · exact hs a ha
  · exact .inr rfl

theorem Carries.of_map {A B : Type} {Q : B → Prop} {r : Except PtsError A} {g : A → B}
    (h : Carries Q (r.map g)) : Carries (Q ∘ g) r := by
  rcases h with ⟨b, hr, hb⟩ | hr
  · obtain ⟨a, rfl, rfl⟩ := map_ok hr
    exact .inl ⟨a, rfl, hb⟩
  · exact .inr (map_error hr)

variable [SetDataSet D] {p : PersistentPTData ℕ ℕ D} {f : ℕ → Set ℕ} {pag : SVFIR}
  {insensitive : ℕ → Bool} {drop : Finset ℕ} {S done : Set ℕ} {n j : ℕ}

theorem persStep_carries (hp : PersRep p f) (call : PtsCall ℕ ℕ D) :
    Carries (fun r => PersRep r.2 (absStep f call).2) (persStep p call) := by
  cases hs : persStep p call with
  | ok r => exact .inl ⟨r, rfl, (persStep_ok hp hs).2.rep⟩
  | error e => exact .inr (congrArg _ (persStep_error hp hs).1)

variable (h : Indexed pag) (hdrop : ∀ x, x ∈ drop ↔ Redundant pag insensitive x)
include h hdrop

/-- **One element** of the set that is iterated. -/
theorem persVisit_carries (hp : PersRep p (update f n (After pag insensitive S done))) (hj : j ∈ S) :
    Carries (PersRep · (update f n (After pag insensitive S (insert j done))))
      (persVisit pag drop n p j) := by
  rw [persVisit]
  by_cases hred : Redundant pag insensitive j
  · rw [if_neg (not_not.mpr ((hdrop j).mpr hred))]
    refine (persStep_carries hp (.clearPts n j)).of_map.bind fun p hclear => ?_
    refine (persStep_carries hclear (.addPts n (getBaseObjVar pag j))).of_map.bind fun r hadd => ?_
    refine .inl ⟨r.2, rfl, ?_⟩
    rw [← h.absStep_visit D hj hred]
    exact hadd
  · rw [if_pos ((hdrop j).not.mpr hred), after_insert_of_not fun hin => hred hin.2]
    exact .inl ⟨p, rfl, hp⟩

/-- **One set.** -/
theorem persVisits_carries :
    ∀ (l : List ℕ) {p : PersistentPTData ℕ ℕ D} {done : Set ℕ}, (∀ x ∈ l, x ∈ S) →
      PersRep p (update f n (After pag insensitive S done)) →
      Carries (PersRep · (update f n (After pag insensitive S (done ∪ {x | x ∈ l}))))
        (l.foldlM (persVisit pag drop n) p) := by
  intro l
  induction l with
  | nil =>
    intro p done _ hp
    refine .inl ⟨p, rfl, ?_⟩
    simpa using hp
  | cons j l ih =>
    intro p done hl hp
    rw [foldlM_cons]
    refine (persVisit_carries h hdrop hp (hl j mem_cons_self)).bind fun p hp => ?_
    have hdone : done ∪ {x | x ∈ j :: l} = insert j done ∪ {x | x ∈ l} := by
      ext x
      simp only [Set.mem_union, Set.mem_ofPred_eq, mem_cons, Set.mem_insert_iff]
      tauto
    rw [hdone]
    exact ih (forall_mem_cons.mp hl).2 hp

/-- **All sets.** -/
theorem persNodes_carries :
    ∀ (nodes : List ℕ) {p : PersistentPTData ℕ ℕ D} {f : ℕ → Set ℕ}, PersRep p f → nodes.Nodup →
      Carries (PersRep · fun n => if n ∈ nodes then After pag insensitive (f n) (f n) else f n)
        (nodes.foldlM (persVisits pag drop) p) := by
  intro nodes
  induction nodes with
  | nil => exact fun hp _ => .inl ⟨_, rfl, hp⟩
  | cons n nodes ih =>
    intro p f hp hnodup
    obtain ⟨hn, hnodup⟩ := nodup_cons.mp hnodup
    have hone : Carries (PersRep · (update f n (After pag insensitive (f n) (f n))))
        (persVisits pag drop p n) := by
      rw [persVisits]
      cases hpts : p.getPts n with
      | error e => cases (getActualPts_error hpts).2.symm.trans (hp.pts n)
      | ok d =>
        have hden : den d = f n := some.inj ((getActualPts_ok hpts).symm.trans (hp.pts n))
        have hsub : ∀ x ∈ DataSet.elems d, x ∈ f n := fun x hx => hden ▸ hx
        have hstart : PersRep p (update f n (After pag insensitive (f n) ∅)) := by
          rw [after_empty, update_eq_self]
          exact hp
        have hall := persVisits_carries h hdrop (DataSet.elems d) hsub hstart
        have hset : ∅ ∪ {x | x ∈ DataSet.elems d} = f n := (Set.empty_union _).trans hden
        rw [hset] at hall
        exact hall
    rw [foldlM_cons]
    refine hone.bind fun p hp => ?_
    rw [← update_visited (R := fun S => After pag insensitive S S) hn]
    exact ih hp hnodup

end Persistent

-- ── `normalizePointsTo`

section Normalize

variable {D : Type} [DataSet D ℕ] [SetDataSet D] {pag : SVFIR} {insensitive : ℕ → Bool}
  {bound : ℕ} {bases nodes : List ℕ} {f : ℕ → Set ℕ}

/-- The first loop collects the fields that are to go. -/
theorem State.dropNodes (hs : State pag bound bases nodes f) (h : Indexed pag)
    (insensitive : ℕ → Bool) : ∃ drop, SvfNormalize.dropNodes pag insensitive bases = some drop ∧
      ∀ x, x ∈ drop ↔ Redundant pag insensitive x := by
  obtain ⟨drop, hdrop, hmem⟩ := h.dropNodes_spec insensitive bases
  refine ⟨drop, hdrop, fun x => (hmem x).trans (and_iff_left_of_imp ?_)⟩
  rintro ⟨base, k, hnode, -⟩
  have hx := h.listed x base k hnode
  exact ⟨base, hs.bases base (Finset.ne_empty_of_mem hx), hx⟩

variable (insensitive) in
/-- **On the mutable store** it ends if and only if no block gets empty. -/
theorem normalizeMut_spec (h : Indexed pag) (hs : State pag bound bases nodes f)
    {m : MutablePTData ℕ ℕ D} (hm : MutRep m f) :
    (Separate pag insensitive f ∧ ∃ r f', normalizeMut pag insensitive bound bases nodes m = some r ∧
        MutRep r.2 f' ∧ LosesNothing pag insensitive f r.1 f') ∨
      ¬ Separate pag insensitive f ∧ normalizeMut pag insensitive bound bases nodes m = none := by
  obtain ⟨drop, hdrop, hmem⟩ := hs.dropNodes h insensitive
  have hsep : (∀ n ∈ nodes, ∀ d < bound, d ∈ f n → Redundant pag insensitive d →
      KeepsBlock pag insensitive (f n) d) ↔ Separate pag insensitive f := by
    constructor
    · intro hkeep n d hd
      have hn : n ∈ nodes := by
        by_contra hn
        rw [hs.keyed n hn] at hd
        exact hd
      exact hkeep n hn d (hs.below n d hd) hd
    · exact fun hkeep n _ d _ hd => hkeep n d hd
  rw [normalizeMut, hdrop, bind_some]
  rcases mutNodes_ends h hmem bound nodes hm hs.nodup with ⟨hkeep, m', hrun, hm'⟩ | ⟨hkeep, hrun⟩
  · rw [hrun]
    refine .inl ⟨hsep.mp hkeep, _, _, rfl, hm',
      h.losesNothing (fun _ => Set.Iio bound) hmem (fun n => ?_) hs.below⟩
    split_ifs with hn
    · rfl
    · rw [hs.keyed n hn, after_of_empty]
  · rw [hrun]
    exact .inr ⟨hsep.not.mp hkeep, rfl⟩

/-- **On the persistent store** it ends, unless the ids run out. -/
theorem normalizePers_spec (h : Indexed pag) (hs : State pag bound bases nodes f)
    {p : PersistentPTData ℕ ℕ D} (hp : PersRep p f) :
    (∃ r f', normalizePers pag insensitive bases nodes p = some (.ok r) ∧ PersRep r.2 f' ∧
        LosesNothing pag insensitive f r.1 f') ∨
      normalizePers pag insensitive bases nodes p = some (.error .idsExhausted) := by
  obtain ⟨drop, hdrop, hmem⟩ := hs.dropNodes h insensitive
  rw [normalizePers, hdrop, map_some]
  rcases persNodes_carries h hmem nodes hp hs.nodup with ⟨p', hrun, hp'⟩ | hrun
  · rw [hrun]
    refine .inl ⟨_, _, rfl, hp', h.losesNothing f hmem (fun n => ?_) fun _ => subset_rfl⟩
    split_ifs with hn
    · rfl
    · rw [hs.keyed n hn, after_of_empty]
  · rw [hrun]
    exact .inr rfl

variable (D) in
/-- **Nothing is lost** on the mutable store if and only if no list node is erased under the
    iterator, and on the persistent store unless the ids run out. -/
theorem normalizePointsTo_losesNothing_iff {opts : Options} {limit : ℕ → UInt32}
    {calls : List Call} (hr : Runs opts limit pag calls) (hs : State pag bound bases nodes f) :
    (∀ m : MutablePTData ℕ ℕ D, MutRep m f →
      ((∃ r f', normalizeMut pag insensitive bound bases nodes m = some r ∧ MutRep r.2 f' ∧
        LosesNothing pag insensitive f r.1 f') ↔ Separate pag insensitive f)) ∧
    ∀ p : PersistentPTData ℕ ℕ D, PersRep p f →
      (∃ r f', normalizePers pag insensitive bases nodes p = some (.ok r) ∧ PersRep r.2 f' ∧
        LosesNothing pag insensitive f r.1 f') ∨
      normalizePers pag insensitive bases nodes p = some (.error .idsExhausted) := by
  have h := indexed_of_runs hr
  refine ⟨fun m hm => ?_, fun p hp => normalizePers_spec h hs hp⟩
  rcases normalizeMut_spec insensitive h hs hm with ⟨hsep, hend⟩ | ⟨hsep, hnone⟩
  · exact iff_of_true hend hsep
  · refine iff_of_false ?_ hsep
    rintro ⟨r, f', hrun, -⟩
    cases hnone.symm.trans hrun

end Normalize

-- ── An object and its field

def oneField : SVFIR := withField oneObject ⟨6, 4, 5, 6, .SEQ⟩ 4 1 5

theorem oneField_runs : Runs defaults (fun _ => 3) oneField [⟨4, 1, 5⟩] := by
  have hcall : getGepObjVar defaults (fun _ => 3) oneObject 4 1 = some (5, oneField) := rfl
  exact (oneObject_runs _).call hcall

theorem redundant_oneField {x : ℕ} : Redundant oneField (· == 4) x ↔ x = 5 := by
  constructor
  · rintro ⟨base, k, hnode, -⟩
    by_contra hx
    have hrest : oneField.IDToNodeMap x = update (fun _ => none) 4 (some (.FIObjVar 4)) x :=
      update_of_ne hx _ _
    rw [hrest, update_apply] at hnode
    split_ifs at hnode
    cases hnode
  · rintro rfl
    exact ⟨4, 1, rfl, rfl⟩

def pointsTo (S : Set ℕ) : ℕ → Set ℕ := update (fun _ => ∅) 4 S

theorem state_pointsTo {l : List ℕ} (hl : ∀ x ∈ l, x < 6) :
    State oneField 6 [4] [4, 5] (pointsTo {x | x ∈ l}) := by
  have hother : ∀ n, n ≠ 4 → pointsTo {x | x ∈ l} n = ∅ := fun n hn => update_of_ne hn _ _
  constructor
  case bases =>
    intro base hne
    by_contra hbase
    rw [mem_singleton] at hbase
    refine hne ?_
    have hone : oneField.memToFieldsMap base = oneObject.memToFieldsMap base :=
      update_of_ne hbase _ _
    have hnone : oneObject.memToFieldsMap base = ∅ :=
      update_of_ne hbase (insert 4 ∅) fun _ => (∅ : Finset ℕ)
    exact hone.trans hnone
  case nodup => decide
  case keyed => exact fun n hn => hother n fun he => hn (he ▸ mem_cons_self)
  case below =>
    intro n x hx
    by_cases hn : n = 4
    · subst hn
      rw [pointsTo, update_self] at hx
      exact hl x hx
    · rw [hother n hn] at hx
      cases hx

/-- The mutable store where these elements have been added to the set of node 4. -/
def held (l : List ℕ) : MutablePTData ℕ ℕ (Finset ℕ) :=
  l.foldr (fun x m => (m.addPts 4 x).2) (MutablePTData.init false)

theorem held_rep (l : List ℕ) : MutRep (held l) (pointsTo {x | x ∈ l}) := by
  induction l with
  | nil =>
    have hempty : pointsTo {x | x ∈ []} = fun _ => ∅ := by
      simp [pointsTo]
    rw [hempty]
    exact mutRep_init false
  | cons x l ih =>
    have hadd := (mutStep_refines ih (.addPts 4 x)).2
    have hset : (absStep (pointsTo {x | x ∈ l}) (.addPts 4 x : PtsCall ℕ ℕ (Finset ℕ))).2 =
        pointsTo {y | y ∈ x :: l} := by
      have hins : {y | y ∈ x :: l} = {y | y ∈ l} ∪ {x} := by
        ext y
        simp
      rw [hins]
      simp [absStep, absUnion, pointsTo]
    rw [← hset]
    exact hadd

/-- Where the object is in the set, too, the list node stays. -/
theorem normalizePointsTo_losesNothing_iff_held :
    ∃ r f', normalizeMut oneField (· == 4) 6 [4] [4, 5] (held [4, 5]) = some r ∧ MutRep r.2 f' ∧
      LosesNothing oneField (· == 4) (pointsTo {x | x ∈ [4, 5]}) r.1 f' := by
  refine ((normalizePointsTo_losesNothing_iff (Finset ℕ) oneField_runs
    (state_pointsTo (by decide))).1 (held [4, 5]) (held_rep _)).mpr ?_
  intro n d hd hred
  obtain rfl := redundant_oneField.mp hred
  have hn : n = 4 := by
    by_contra hn
    rw [pointsTo, update_of_ne hn] at hd
    cases hd
  subst hn
  refine ⟨4, .inl ⟨?_, fun h4 => ?_⟩, by decide, rfl⟩
  · simp [pointsTo]
  · cases redundant_oneField.mp h4

/-- A field that is alone in the set: the list node is erased under the iterator. -/
theorem normalizePointsTo_erased : Runs defaults (fun _ => 3) oneField [⟨4, 1, 5⟩] ∧
    State oneField 6 [4] [4, 5] (pointsTo {x | x ∈ [5]}) ∧
    MutRep (held [5]) (pointsTo {x | x ∈ [5]}) ∧
    ¬ ∃ r f', normalizeMut oneField (· == 4) 6 [4] [4, 5] (held [5]) = some r ∧ MutRep r.2 f' ∧
      LosesNothing oneField (· == 4) (pointsTo {x | x ∈ [5]}) r.1 f' := by
  have hs : State oneField 6 [4] [4, 5] (pointsTo {x | x ∈ [5]}) := state_pointsTo (by decide)
  refine ⟨oneField_runs, hs, held_rep [5], ?_⟩
  rintro ⟨r, f', hrun, -⟩
  rcases normalizeMut_spec (· == 4) (indexed_of_runs oneField_runs) hs
    (held_rep [5]) with ⟨hsep, -⟩ | ⟨-, hnone⟩
  · have h5 : 5 ∈ pointsTo {x | x ∈ [5]} 4 := by simp [pointsTo]
    obtain ⟨x, hx, hne, -⟩ := hsep 4 5 h5 (redundant_oneField.mpr rfl)
    rw [pointsTo, update_self] at hx
    rcases hx with ⟨hx, -⟩ | ⟨d, ⟨hd, hlt⟩, -⟩
    · exact hne (mem_singleton.mp hx)
    · rw [Set.mem_Iio, mem_singleton.mp hd] at hlt
      exact lt_irrefl 5 hlt
  · cases hnone.symm.trans hrun

end SvfNormalize
