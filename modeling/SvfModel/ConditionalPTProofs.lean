import Mathlib

/-!
# Conditional sets

`CondStdSet` is an ordered set with `|=` and `&=` in place. The heart is one loop: `&=` goes
over the other side and erases from this one what this one does not have, which is nothing
(`and_assign_fst`), and says that it changed. So it is a meet of equal sets only
(**`inPlace_exact_iff`**).

`CondPointsToSet` is an unordered map from conditions to sets; a map is the sequence that its
iterators give. `==` compares two sequences, `isSubset` looks each condition of one side up in
the other, empty or not, and `intersectWithComplement` writes the conditions of the first operand
over those that were there. Each is the operation on the pairs that the maps stand for when
order, empty sets or old conditions do not matter (**`denotes_iff`**).
-/

namespace SvfCondPT

open List

-- ── CondStdSet

section CondStdSet

structure CondStdSet (Element : Type) where
  elements : Finset Element

variable {Element : Type} [LinearOrder Element]

namespace CondStdSet

def insertRange (elements : Finset Element) (range : List Element) : Finset Element :=
  range.foldl (fun es e => insert e es) elements

/-- `operator|=`. The old size is kept in a `u32_t`. -/
def or_assign (a rhs : CondStdSet Element) : CondStdSet Element × Bool :=
  if rhs.elements = ∅ ∨ a.elements = rhs.elements then (a, false)
  else
    let oldSize := a.elements.card % 2 ^ 32
    let elements := insertRange a.elements (rhs.elements.sort (· ≤ ·))
    (⟨elements⟩, decide (oldSize ≠ elements.card))

def andLoop : List Element → Finset Element → Bool → Finset Element × Bool
  | [], elements, changed => (elements, changed)
  | i :: l, elements, changed =>
    if i ∉ elements then andLoop l (elements.erase i) true
    else andLoop l elements changed

/-- `operator&=` -/
def and_assign (a rhs : CondStdSet Element) : CondStdSet Element × Bool :=
  if rhs.elements = ∅ ∨ a.elements = rhs.elements then (a, false)
  else
    let r := andLoop (rhs.elements.sort (· ≤ ·)) a.elements false
    (⟨r.1⟩, r.2)

def and_assign_all (a : CondStdSet Element) (sets : List (CondStdSet Element)) :
    CondStdSet Element :=
  sets.foldl (fun a rhs => (a.and_assign rhs).1) a

variable {a b : CondStdSet Element}

theorem insertRange_eq (range : List Element) : ∀ elements : Finset Element,
    insertRange elements range = elements ∪ range.toFinset := by
  induction range with
  | nil =>
    intro elements
    rw [toFinset_nil, Finset.union_empty]
    rfl
  | cons e range ih =>
    intro elements
    show insertRange (insert e elements) range = _
    rw [ih, toFinset_cons, Finset.insert_union, Finset.union_insert]

/-- **Erasing what is not there** leaves the set, and says that it changed. -/
theorem andLoop_eq (l : List Element) : ∀ (elements : Finset Element) (changed : Bool),
    andLoop l elements changed = (elements, changed || l.any (· ∉ elements)) := by
  induction l with
  | nil =>
    intro elements changed
    rw [any_nil, Bool.or_false]
    rfl
  | cons i l ih =>
    intro elements changed
    rw [andLoop, any_cons]
    split
    case isTrue hi =>
      rw [Finset.erase_eq_of_notMem hi, ih, decide_eq_true hi]
      simp
    case isFalse hi =>
      rw [ih, decide_eq_false hi, Bool.false_or]

section

variable (a b : CondStdSet Element)

theorem or_assign_fst :
    (a.or_assign b).1.elements = a.elements ∪ b.elements := by
  rw [or_assign]
  split
  case isTrue h =>
    rcases h with h | h
    · rw [h, Finset.union_empty]
    · rw [h, Finset.union_self]
  case isFalse =>
    show insertRange _ _ = _
    rw [insertRange_eq, Finset.sort_toFinset]

theorem and_assign_fst : (a.and_assign b).1 = a := by
  rw [and_assign]
  split
  case isTrue => rfl
  case isFalse => simp only [andLoop_eq]

theorem and_assign_snd :
    (a.and_assign b).2 ↔ ¬ b.elements ⊆ a.elements := by
  rw [and_assign]
  split
  case isTrue h =>
    refine iff_of_false Bool.false_ne_true (not_not.mpr ?_)
    rcases h with h | h
    · rw [h]
      exact Finset.empty_subset _
    · exact h.ge
  case isFalse =>
    simp only [andLoop_eq, Bool.false_or, any_eq_true, Finset.mem_sort, decide_eq_true_eq,
      Finset.not_subset]

end

/-- `|=` is the union, and tells whether it changed anything. -/
structure JoinExact (a b : CondStdSet Element) : Prop where
  content : (a.or_assign b).1.elements = a.elements ∪ b.elements
  flag : (a.or_assign b).2 = true ↔ (a.or_assign b).1.elements ≠ a.elements

structure MeetExact (a b : CondStdSet Element) : Prop where
  content : (a.and_assign b).1.elements = a.elements ∩ b.elements
  flag : (a.and_assign b).2 = true ↔ (a.and_assign b).1.elements ≠ a.elements

theorem joinExact_iff : JoinExact a b ↔ (b.elements ⊆ a.elements →
    b.elements = ∅ ∨ a.elements = b.elements ∨ a.elements.card < 2 ^ 32) := by
  have hflag : JoinExact a b ↔ ((a.or_assign b).2 ↔ ¬ b.elements ⊆ a.elements) := by
    have hiff : (a.or_assign b).1.elements ≠ a.elements ↔ ¬ b.elements ⊆ a.elements := by
      rw [or_assign_fst]
      exact not_congr Finset.union_eq_left
    exact ⟨fun h => h.flag.trans hiff, fun h => ⟨or_assign_fst a b, h.trans hiff.symm⟩⟩
  rw [hflag]
  by_cases hshort : b.elements = ∅ ∨ a.elements = b.elements
  · have hsub : b.elements ⊆ a.elements := by
      rcases hshort with h | h
      · rw [h]
        exact Finset.empty_subset _
      · exact h.ge
    rw [or_assign, if_pos hshort]
    refine iff_of_true (iff_of_false Bool.false_ne_true (not_not.mpr hsub)) fun _ => ?_
    rcases hshort with h | h
    · exact .inl h
    · exact .inr (.inl h)
  · have hcard : insertRange a.elements (b.elements.sort (· ≤ ·)) = a.elements ∪ b.elements := by
      rw [insertRange_eq, Finset.sort_toFinset]
    rw [or_assign, if_neg hshort]
    simp only [decide_eq_true_eq, hcard]
    constructor
    · intro h hsub
      refine .inr (.inr ?_)
      have heq := not_not.mp (mt h.mp (not_not.mpr hsub))
      rw [Finset.union_eq_left.mpr hsub] at heq
      rw [← heq]
      exact Nat.mod_lt _ (by decide)
    · intro h
      constructor
      · intro hne hsub
        obtain h | h | h := h hsub
        · exact hshort (.inl h)
        · exact hshort (.inr h)
        · rw [Finset.union_eq_left.mpr hsub, Nat.mod_eq_of_lt h] at hne
          exact hne rfl
      · intro hsub heq
        -- The old size only gets smaller in 32 bits, and the union is larger.
        have hlt : a.elements.card < (a.elements ∪ b.elements).card := by
          refine Finset.card_lt_card (Finset.ssubset_iff_subset_ne.mpr ⟨Finset.subset_union_left, ?_⟩)
          exact fun he => hsub (Finset.union_eq_left.mp he.symm)
        have hle := Nat.mod_le a.elements.card (2 ^ 32)
        omega

theorem meetExact_iff : MeetExact a b ↔ a = b := by
  constructor
  · intro h
    have hcontent := h.content
    have hflag := h.flag
    rw [and_assign_fst] at hcontent hflag
    have hsub : b.elements ⊆ a.elements := by
      rw [and_assign_snd] at hflag
      exact not_not.mp fun hno => hflag.mp hno rfl
    have heq : a.elements = b.elements :=
      Finset.Subset.antisymm (Finset.inter_eq_left.mp hcontent.symm) hsub
    cases a
    cases b
    exact congrArg mk heq
  · rintro rfl
    refine ⟨?_, ?_⟩
    · rw [and_assign_fst, Finset.inter_self]
    · rw [and_assign_snd, and_assign_fst]
      exact iff_of_false (not_not.mpr subset_rfl) fun h => h rfl

theorem and_assign_all_eq (a : CondStdSet Element) (sets : List (CondStdSet Element)) :
    a.and_assign_all sets = a := by
  rw [and_assign_all]
  induction sets with
  | nil => rfl
  | cons b sets ih => rw [foldl_cons, and_assign_fst, ih]

/-- **The operators in place**: `|=` is exact but for the size of large sets, `&=` on equal sets,
    and a repeated `&=` where it has nothing to take away. -/
theorem inPlace_exact_iff (a b : CondStdSet Element) (sets : List (CondStdSet Element)) :
    (JoinExact a b ↔ (b.elements ⊆ a.elements →
        b.elements = ∅ ∨ a.elements = b.elements ∨ a.elements.card < 2 ^ 32)) ∧
      (MeetExact a b ↔ a = b) ∧
      ((∀ e, e ∈ (a.and_assign_all sets).elements ↔
          e ∈ a.elements ∧ ∀ s ∈ sets, e ∈ s.elements) ↔
        ∀ s ∈ sets, a.elements ⊆ s.elements) := by
  refine ⟨joinExact_iff, meetExact_iff, ?_⟩
  rw [and_assign_all_eq]
  constructor
  · exact fun h s hs e he => ((h e).mp he).2 s hs
  · exact fun h e => ⟨fun he => ⟨he, fun s hs => h s hs he⟩, fun he => he.1⟩

/-- A set of 1 met with a set of 2 is left as it is, and is reported to have changed. -/
theorem and_assign_not_exact : (and_assign (⟨({1} : Finset ℕ)⟩) ⟨{2}⟩).2 = true ∧
      (and_assign (⟨({1} : Finset ℕ)⟩) ⟨{2}⟩).1 = ⟨{1}⟩ ∧
      ¬ MeetExact (⟨({1} : Finset ℕ)⟩) ⟨{2}⟩ := by
  refine ⟨(and_assign_snd _ _).mpr (by decide), and_assign_fst _ _, fun h => ?_⟩
  have hcontent := h.content
  rw [and_assign_fst] at hcontent
  exact absurd hcontent (by decide)

end CondStdSet

end CondStdSet

-- ── CondPointsToSet

section CondPointsToSet

structure CondPointsToSet (Cond Obj : Type) where
  condPts : List (Cond × Finset Obj)
  nodup : (condPts.map Prod.fst).Nodup

/-- Where a table puts a new entry, and the others with it. -/
structure Table (Cond Obj : Type) where
  add : Cond × Finset Obj → List (Cond × Finset Obj) → List (Cond × Finset Obj)
  perm : ∀ e l, (add e l).Perm (e :: l)

/-- A table that puts every entry first. -/
def Table.front (Cond Obj : Type) : Table Cond Obj := ⟨List.cons, fun _ _ => List.Perm.refl _⟩

variable {Cond Obj : Type} [DecidableEq Cond]

namespace CondPointsToSet

variable {a b c : CondPointsToSet Cond Obj} {cond : Cond} {pts : Finset Obj}

def find (c : CondPointsToSet Cond Obj) (cond : Cond) : Option (Finset Obj) :=
  c.condPts.lookup cond

/-- The pairs that a map stands for. -/
def Denotes (c : CondPointsToSet Cond Obj) : Set (Cond × Obj) :=
  {p | ∃ pts, (p.1, pts) ∈ c.condPts ∧ p.2 ∈ pts}

theorem mem_lookup {l : List (Cond × Finset Obj)} (h : (l.map Prod.fst).Nodup) :
    l.lookup cond = some pts ↔ (cond, pts) ∈ l := by
  induction l with
  | nil => exact iff_of_false (by simp) not_mem_nil
  | cons e l ih =>
    obtain ⟨d, q⟩ := e
    rw [map_cons, nodup_cons] at h
    rw [lookup_cons, mem_cons]
    by_cases hd : cond = d
    · subst hd
      simp only [beq_self_eq_true, Option.some.injEq, Prod.mk.injEq, true_and]
      constructor
      · exact fun hq => .inl hq.symm
      · rintro (hq | hmem)
        · exact hq.symm
        · exact absurd (mem_map_of_mem (f := Prod.fst) hmem) h.1
    · simp only [beq_eq_false_iff_ne.mpr hd, Prod.mk.injEq, hd, false_and, false_or]
      exact ih h.2

theorem find_eq_some : c.find cond = some pts ↔ (cond, pts) ∈ c.condPts := mem_lookup c.nodup

theorem pts_unique {q : Finset Obj} (h : (cond, pts) ∈ c.condPts) (h' : (cond, q) ∈ c.condPts) :
    pts = q :=
  Option.some.inj ((find_eq_some.mpr h).symm.trans (find_eq_some.mpr h'))

theorem find_eq_none : c.find cond = none ↔ ∀ pts, (cond, pts) ∉ c.condPts := by
  constructor
  · exact fun h pts hmem => Option.some_ne_none pts ((find_eq_some.mpr hmem).symm.trans h)
  · intro h
    cases hf : c.find cond with
    | none => rfl
    | some pts => exact absurd (find_eq_some.mp hf) (h pts)

theorem mem_denotes {o : Obj} (h : (cond, pts) ∈ c.condPts) : (cond, o) ∈ c.Denotes ↔ o ∈ pts := by
  constructor
  · rintro ⟨q, hq, ho⟩
    rwa [pts_unique h hq]
  · exact fun ho => ⟨pts, h, ho⟩

theorem denotes_subset_iff : a.Denotes ⊆ b.Denotes ↔ ∀ cond pts, pts ≠ ∅ →
    (cond, pts) ∈ a.condPts → ∃ q, (cond, q) ∈ b.condPts ∧ pts ⊆ q := by
  constructor
  · intro h cond pts hne hmem
    obtain ⟨o, ho⟩ := Finset.nonempty_iff_ne_empty.mpr hne
    obtain ⟨q, hq, -⟩ := h (show (cond, o) ∈ a.Denotes from ⟨pts, hmem, ho⟩)
    exact ⟨q, hq, fun o' ho' =>
      (mem_denotes hq).mp (h (show (cond, o') ∈ a.Denotes from ⟨pts, hmem, ho'⟩))⟩
  · rintro h ⟨cond, o⟩ ⟨pts, hmem, ho⟩
    obtain ⟨q, hq, hsub⟩ := h cond pts (Finset.ne_empty_of_mem ho) hmem
    exact ⟨q, hq, hsub ho⟩

theorem denotes_eq_iff : a.Denotes = b.Denotes ↔ ∀ cond pts, pts ≠ ∅ →
    ((cond, pts) ∈ a.condPts ↔ (cond, pts) ∈ b.condPts) := by
  constructor
  · intro h cond pts hne
    have hone : ∀ {v w : CondPointsToSet Cond Obj}, v.Denotes = w.Denotes →
        (cond, pts) ∈ v.condPts → (cond, pts) ∈ w.condPts := by
      intro v w hvw hv
      obtain ⟨q, hq, hsub⟩ := denotes_subset_iff.mp hvw.le cond pts hne hv
      have hback : q ⊆ pts := fun o ho => (mem_denotes hv).mp (hvw ▸ (mem_denotes hq).mpr ho)
      rwa [hsub.antisymm hback]
    exact ⟨hone h, hone h.symm⟩
  · intro h
    refine Set.Subset.antisymm (denotes_subset_iff.mpr fun cond pts hne hmem => ?_)
      (denotes_subset_iff.mpr fun cond pts hne hmem => ?_)
    · exact ⟨pts, (h cond pts hne).mp hmem, subset_rfl⟩
    · exact ⟨pts, (h cond pts hne).mpr hmem, subset_rfl⟩

-- ── Entries

section

variable (t : Table Cond Obj)

/-- `pointsTo(cond) = pts`: the set of a condition, that may be a new one. -/
def assignEntry (l : List (Cond × Finset Obj)) (cond : Cond)
    (pts : Finset Obj) : List (Cond × Finset Obj) :=
  if cond ∈ l.map Prod.fst then l.map fun e => if e.1 = cond then (cond, pts) else e
  else t.add (cond, pts) l

theorem nodup_assignEntry {l : List (Cond × Finset Obj)}
    (h : (l.map Prod.fst).Nodup) (cond : Cond) (pts : Finset Obj) :
    ((assignEntry t l cond pts).map Prod.fst).Nodup := by
  rw [assignEntry]
  split
  case isTrue =>
    have hkeys : Prod.fst ∘ (fun e : Cond × Finset Obj => if e.1 = cond then (cond, pts) else e) =
        Prod.fst := by
      funext e
      show (if e.1 = cond then (cond, pts) else e).1 = e.1
      split
      case isTrue heq => exact heq.symm
      case isFalse => rfl
    rwa [map_map, hkeys]
  case isFalse hnot =>
    rw [((t.perm (cond, pts) l).map Prod.fst).nodup_iff, map_cons]
    exact nodup_cons.mpr ⟨hnot, h⟩

def assign (c : CondPointsToSet Cond Obj) (cond : Cond) (pts : Finset Obj) :
    CondPointsToSet Cond Obj :=
  ⟨assignEntry t c.condPts cond pts, nodup_assignEntry t c.nodup cond pts⟩

end

theorem mem_assign {t : Table Cond Obj} {d : Cond} {q : Finset Obj} :
    (d, q) ∈ (c.assign t cond pts).condPts ↔
    d = cond ∧ q = pts ∨ d ≠ cond ∧ (d, q) ∈ c.condPts := by
  show (d, q) ∈ assignEntry t c.condPts cond pts ↔ _
  rw [assignEntry]
  split
  case isTrue hmem =>
    rw [mem_map]
    constructor
    · rintro ⟨e, he, heq⟩
      split at heq
      case isTrue => exact .inl ⟨(Prod.mk.inj heq).1.symm, (Prod.mk.inj heq).2.symm⟩
      case isFalse hne =>
        subst heq
        exact .inr ⟨hne, he⟩
    · rintro (⟨rfl, rfl⟩ | ⟨hne, he⟩)
      · obtain ⟨e, he, rfl⟩ := mem_map.mp hmem
        exact ⟨e, he, if_pos rfl⟩
      · exact ⟨(d, q), he, if_neg hne⟩
  case isFalse hmem =>
    rw [(t.perm (cond, pts) c.condPts).mem_iff, mem_cons, Prod.mk.injEq]
    refine or_congr .rfl ⟨fun he => ⟨?_, he⟩, fun he => he.2⟩
    rintro rfl
    exact hmem (mem_map_of_mem (f := Prod.fst) he)

variable [DecidableEq Obj]

-- ── ==

/-- The loop of `operator==` over both iterators. -/
def eqLoop : List (Cond × Finset Obj) → List (Cond × Finset Obj) → Bool
  | (lc, lpts) :: l, (rc, rpts) :: r => if lc ≠ rc ∨ lpts ≠ rpts then false else eqLoop l r
  | _, _ => true

/-- `operator==` -/
def eq (a rhs : CondPointsToSet Cond Obj) : Bool :=
  if a.condPts.length ≠ rhs.condPts.length then false else eqLoop a.condPts rhs.condPts

theorem eqLoop_iff {l : List (Cond × Finset Obj)} : ∀ {r : List (Cond × Finset Obj)},
    l.length = r.length → (eqLoop l r ↔ l = r) := by
  induction l with
  | nil =>
    intro r hlen
    rw [length_eq_zero_iff.mp hlen.symm]
    exact iff_of_true rfl rfl
  | cons e l ih =>
    intro r hlen
    cases r with
    | nil => exact absurd hlen (Nat.succ_ne_zero _)
    | cons e' r =>
      obtain ⟨lc, lpts⟩ := e
      obtain ⟨rc, rpts⟩ := e'
      rw [eqLoop, List.cons.injEq, Prod.mk.injEq]
      split
      case isTrue hne => exact iff_of_false Bool.false_ne_true fun h => by tauto
      case isFalse heq =>
        rw [ih (Nat.succ.inj hlen)]
        tauto

/-- **`==` compares sequences.** -/
theorem eq_iff : a.eq b ↔ a.condPts = b.condPts := by
  rw [eq]
  split
  case isTrue hne => exact iff_of_false Bool.false_ne_true fun h => hne (congrArg List.length h)
  case isFalse heq => exact eqLoop_iff (not_not.mp heq)

-- ── isSubset

def subsetLoop (rhs : CondPointsToSet Cond Obj) : List (Cond × Finset Obj) → Bool
  | [] => true
  | (lc, pts) :: l =>
    match rhs.find lc with
    | none => false
    | some rpts => if !decide (pts ⊆ rpts) then false else subsetLoop rhs l

def isSubset (a rhs : CondPointsToSet Cond Obj) : Bool :=
  if a.condPts.length > rhs.condPts.length then false else subsetLoop rhs a.condPts

theorem subsetLoop_iff (l : List (Cond × Finset Obj)) : subsetLoop b l ↔
    ∀ lc pts, (lc, pts) ∈ l → ∃ rpts, (lc, rpts) ∈ b.condPts ∧ pts ⊆ rpts := by
  induction l with
  | nil => exact iff_of_true rfl nofun
  | cons e l ih =>
    obtain ⟨lc, pts⟩ := e
    rw [subsetLoop]
    cases hf : b.find lc with
    | none =>
      refine iff_of_false Bool.false_ne_true fun h => ?_
      obtain ⟨rpts, hmem, -⟩ := h lc pts mem_cons_self
      exact find_eq_none.mp hf rpts hmem
    | some rpts =>
      have hmem := find_eq_some.mp hf
      have hpair : (∃ q, (lc, q) ∈ b.condPts ∧ pts ⊆ q) ↔ pts ⊆ rpts := by
        constructor
        · rintro ⟨q, hq, hsub⟩
          rwa [pts_unique hmem hq]
        · exact fun hsub => ⟨rpts, hmem, hsub⟩
      simp only [Bool.not_eq_true', decide_eq_false_iff_not]
      split
      case isTrue hno =>
        exact iff_of_false Bool.false_ne_true fun h => hno (hpair.mp (h lc pts mem_cons_self))
      case isFalse hsub =>
        rw [ih]
        constructor
        · intro h lc' pts' hmem'
          rcases mem_cons.mp hmem' with heq | hmem'
          · rw [(Prod.mk.inj heq).1, (Prod.mk.inj heq).2]
            exact hpair.mpr (not_not.mp hsub)
          · exact h lc' pts' hmem'
        · exact fun h lc' pts' hmem' => h lc' pts' (mem_cons_of_mem _ hmem')

theorem isSubset_iff : a.isSubset b ↔
    ∀ lc pts, (lc, pts) ∈ a.condPts → ∃ rpts, (lc, rpts) ∈ b.condPts ∧ pts ⊆ rpts := by
  rw [isSubset]
  split
  case isTrue hlen =>
    refine iff_of_false Bool.false_ne_true fun h => ?_
    have hsub : a.condPts.map Prod.fst ⊆ b.condPts.map Prod.fst := by
      intro lc hlc
      obtain ⟨⟨lc, pts⟩, hmem, rfl⟩ := mem_map.mp hlc
      obtain ⟨rpts, hr, -⟩ := h lc pts hmem
      exact mem_map.mpr ⟨(lc, rpts), hr, rfl⟩
    have hle := (a.nodup.subperm hsub).length_le
    rw [length_map, length_map] at hle
    omega
  case isFalse => exact subsetLoop_iff _

-- ── intersectWithComplement

/-- What is stored for a condition of the first operand. -/
def minus (cpts2 : CondPointsToSet Cond Obj) (cond : Cond) (pts1 : Finset Obj) : Finset Obj :=
  match cpts2.find cond with
  | some pts2 => pts1 \ pts2
  | none => pts1

def complementLoop (t : Table Cond Obj) (cpts2 : CondPointsToSet Cond Obj) :
    List (Cond × Finset Obj) → CondPointsToSet Cond Obj → CondPointsToSet Cond Obj
  | [], c => c
  | (cond, pts1) :: l, c =>
    complementLoop t cpts2 l (c.assign t cond (minus cpts2 cond pts1))

def intersectWithComplement (t : Table Cond Obj) (c cpts1 cpts2 : CondPointsToSet Cond Obj) :
    CondPointsToSet Cond Obj :=
  if cpts1.condPts = [] then ⟨[], nodup_nil⟩
  else if cpts2.condPts = [] then cpts1
  else complementLoop t cpts2 cpts1.condPts c

variable (t : Table Cond Obj)

/-- **What the loop leaves**: the conditions that it went over, and those from before that it
    did not meet. -/
theorem mem_complementLoop {d : Cond} {q : Finset Obj} (l : List (Cond × Finset Obj)) :
    ∀ c : CondPointsToSet Cond Obj, (l.map Prod.fst).Nodup →
      ((d, q) ∈ (complementLoop t b l c).condPts ↔
        (∃ p, (d, p) ∈ l ∧ q = minus b d p) ∨ (∀ p, (d, p) ∉ l) ∧ (d, q) ∈ c.condPts) := by
  induction l with
  | nil => simp [complementLoop]
  | cons e l ih =>
    obtain ⟨cond, pts⟩ := e
    intro c hnd
    rw [map_cons, nodup_cons] at hnd
    have hfresh : ∀ p, (cond, p) ∉ l := fun p hp => hnd.1 (mem_map.mpr ⟨(cond, p), hp, rfl⟩)
    rw [complementLoop, ih _ hnd.2, mem_assign]
    simp only [mem_cons, Prod.mk.injEq]
    by_cases hd : d = cond
    · subst hd
      constructor
      · rintro (⟨p, hp, -⟩ | ⟨-, ⟨-, rfl⟩ | ⟨hne, -⟩⟩)
        · exact absurd hp (hfresh p)
        · exact .inl ⟨pts, .inl ⟨rfl, rfl⟩, rfl⟩
        · exact absurd rfl hne
      · rintro (⟨p, ⟨-, rfl⟩ | hp, rfl⟩ | ⟨hno, -⟩)
        · exact .inr ⟨hfresh, .inl ⟨rfl, rfl⟩⟩
        · exact absurd hp (hfresh p)
        · exact absurd (.inl ⟨rfl, rfl⟩) (hno pts)
    · simp only [hd, false_and, false_or, ne_eq, not_false_eq_true, true_and]

theorem mem_minus {o : Obj} : o ∈ minus b cond pts ↔ o ∈ pts ∧ (cond, o) ∉ b.Denotes := by
  rw [minus]
  cases hf : b.find cond with
  | none =>
    refine (and_iff_left ?_).symm
    rintro ⟨q, hq, -⟩
    exact find_eq_none.mp hf q hq
  | some q => rw [Finset.mem_sdiff, mem_denotes (find_eq_some.mp hf)]

-- ── The maps as sets

structure Behaves (a b c : CondPointsToSet Cond Obj) : Prop where
  eq : a.eq b = true ↔ a.Denotes = b.Denotes
  isSubset : a.isSubset b = true ↔ a.Denotes ⊆ b.Denotes
  complement : (c.intersectWithComplement t a b).Denotes = a.Denotes \ b.Denotes

/-- Order, empty sets and old conditions that do not matter. -/
structure Conforms (a b c : CondPointsToSet Cond Obj) : Prop where
  /-- Maps with the same sets that are not empty are one sequence. -/
  order : (∀ cond pts, pts ≠ ∅ → ((cond, pts) ∈ a.condPts ↔ (cond, pts) ∈ b.condPts)) →
    a.condPts = b.condPts
  /-- Where the other sets are covered, the conditions of empty sets are conditions as well. -/
  empties : (∀ cond pts, pts ≠ ∅ → (cond, pts) ∈ a.condPts →
      ∃ q, (cond, q) ∈ b.condPts ∧ pts ⊆ q) →
    ∀ cond, (cond, ∅) ∈ a.condPts → ∃ q, (cond, q) ∈ b.condPts
  /-- The loop is not taken, or overwrites what the map holds. -/
  stale : a.condPts = [] ∨ b.condPts = [] ∨
    ∀ cond pts, pts ≠ ∅ → (cond, pts) ∈ c.condPts → ∃ q, (cond, q) ∈ a.condPts

theorem denotes_complement : (c.intersectWithComplement t a b).Denotes = a.Denotes \ b.Denotes ↔
    (a.condPts = [] ∨ b.condPts = [] ∨
      ∀ cond pts, pts ≠ ∅ → (cond, pts) ∈ c.condPts → ∃ q, (cond, q) ∈ a.condPts) := by
  have hnil : ∀ v : CondPointsToSet Cond Obj, v.condPts = [] → v.Denotes = ∅ := by
    intro v hv
    refine Set.eq_empty_iff_forall_notMem.mpr ?_
    rintro p ⟨pts, hmem, -⟩
    rw [hv] at hmem
    cases hmem
  rw [intersectWithComplement]
  split
  case isTrue ha =>
    refine iff_of_true ?_ (.inl ha)
    rw [hnil ⟨[], nodup_nil⟩ rfl, hnil a ha, Set.empty_sdiff]
  case isFalse ha =>
    split
    case isTrue hb =>
      refine iff_of_true ?_ (.inr (.inl hb))
      rw [hnil b hb, Set.sdiff_empty]
    case isFalse hb =>
      simp only [ha, hb, false_or]
      have hleft : ∀ cond o, (cond, o) ∈ (complementLoop t b a.condPts c).Denotes ↔
          (cond, o) ∈ a.Denotes \ b.Denotes ∨
            (∀ p, (cond, p) ∉ a.condPts) ∧ (cond, o) ∈ c.Denotes := by
        intro cond o
        constructor
        · rintro ⟨q, hq, ho⟩
          rcases (mem_complementLoop t a.condPts c a.nodup).mp hq with ⟨p, hp, rfl⟩ | ⟨hno, hc⟩
          · obtain ⟨hop, hob⟩ := mem_minus.mp ho
            exact .inl ⟨⟨p, hp, hop⟩, hob⟩
          · exact .inr ⟨hno, q, hc, ho⟩
        · rintro (⟨⟨p, hp, hop⟩, hob⟩ | ⟨hno, q, hc, ho⟩)
          · exact ⟨_, (mem_complementLoop t a.condPts c a.nodup).mpr (.inl ⟨p, hp, rfl⟩),
              mem_minus.mpr ⟨hop, hob⟩⟩
          · exact ⟨q, (mem_complementLoop t a.condPts c a.nodup).mpr (.inr ⟨hno, hc⟩), ho⟩
      constructor
      · intro h cond pts hne hmem
        by_contra hno
        obtain ⟨o, ho⟩ := Finset.nonempty_iff_ne_empty.mpr hne
        have hin := (hleft cond o).mpr (.inr ⟨fun p hp => hno ⟨p, hp⟩, pts, hmem, ho⟩)
        rw [h] at hin
        obtain ⟨⟨p, hp, -⟩, -⟩ := hin
        exact hno ⟨p, hp⟩
      · intro h
        ext ⟨cond, o⟩
        rw [hleft]
        refine or_iff_left ?_
        rintro ⟨hno, pts, hmem, ho⟩
        obtain ⟨q, hq⟩ := h cond pts (Finset.ne_empty_of_mem ho) hmem
        exact hno q hq

/-- **Conditional points-to sets** behave as the sets they stand for exactly when neither their
    order nor empty sets nor old conditions matter. -/
theorem denotes_iff (a b c : CondPointsToSet Cond Obj) : Behaves t a b c ↔ Conforms a b c := by
  have horder : (a.eq b ↔ a.Denotes = b.Denotes) ↔ ((∀ cond pts, pts ≠ ∅ →
      ((cond, pts) ∈ a.condPts ↔ (cond, pts) ∈ b.condPts)) → a.condPts = b.condPts) := by
    rw [eq_iff, denotes_eq_iff]
    refine ⟨fun h => h.mpr, fun h => ⟨fun heq cond pts _ => by rw [heq], h⟩⟩
  have hempties : (a.isSubset b ↔ a.Denotes ⊆ b.Denotes) ↔ ((∀ cond pts, pts ≠ ∅ →
      (cond, pts) ∈ a.condPts → ∃ q, (cond, q) ∈ b.condPts ∧ pts ⊆ q) →
      ∀ cond, (cond, ∅) ∈ a.condPts → ∃ q, (cond, q) ∈ b.condPts) := by
    rw [isSubset_iff, denotes_subset_iff]
    constructor
    · intro h hsub cond hmem
      obtain ⟨q, hq, -⟩ := h.mpr hsub cond ∅ hmem
      exact ⟨q, hq⟩
    · refine fun h => ⟨fun hall cond pts _ hmem => hall cond pts hmem, fun hsub cond pts hmem => ?_⟩
      by_cases hne : pts = ∅
      · subst hne
        obtain ⟨q, hq⟩ := h hsub cond hmem
        exact ⟨q, hq, Finset.empty_subset q⟩
      · exact hsub cond pts hne hmem
  constructor
  · exact fun h => ⟨horder.mp h.eq, hempties.mp h.isSubset, (denotes_complement t).mp h.complement⟩
  · exact fun h => ⟨horder.mpr h.order, hempties.mpr h.empties, (denotes_complement t).mpr h.stale⟩

/-- The same two sets in either order are not equal, and an empty set of a condition that the
    other side does not have is no subset. -/
theorem orders_not_behaves :
    ¬ Behaves (Table.front ℕ ℕ) ⟨[(1, {7}), (2, {8})], by decide⟩ ⟨[(2, {8}), (1, {7})], by decide⟩
        ⟨[], by decide⟩ ∧
      ¬ Behaves (Table.front ℕ ℕ) ⟨[(1, ∅)], by decide⟩ ⟨[(2, {8})], by decide⟩ ⟨[], by decide⟩ := by
  constructor
  · intro h
    have heq := h.eq.mpr (denotes_eq_iff.mpr fun cond pts _ => by simp [or_comm])
    cases heq
  · intro h
    have hsub := h.isSubset.mpr (denotes_subset_iff.mpr fun cond pts hne hmem => by
      rw [mem_singleton] at hmem
      exact absurd (Prod.mk.inj hmem).2 hne)
    cases hsub

end CondPointsToSet

end CondPointsToSet

end SvfCondPT
