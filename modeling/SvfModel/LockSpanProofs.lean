import SvfModel.LoopProofs
import SvfModel.WorkListProofs

/-!
# Lock spans

The walk of the lock analysis over context-sensitive statements, whatever these are: from the
entries along the edges, with a lockset for every statement. The first lockset that comes to a
statement is its own, later ones are intersected with it, and a statement whose lockset shrinks
is walked again. A lock is the statement that acquires it.

The heart is `Inv.carried`: where a lock is in a lockset, so are the locks that were held when
it was acquired. It follows that a lockset which shrinks at an acquire loses the lock of that
acquire too (`mark_pending`), so the acquire is new again when it is walked, and what it passes
on is never left out. Three things go wrong all the same:
an empty lockset leaves no entry in the map, so the next one is taken for the first (`StepOk`);
a release never finds its own statement in the lockset and passes nothing on (`ReleasesOk`);
and acquires in a ring take each other's locks away forever (`Readds`). Without the first, the
locksets are held locks exactly where the second does no harm (`Runs.held_iff`).
-/

namespace SvfLockSpan

open SvfLoop SvfWorkList List Option Nat
open Function (update update_apply update_of_ne update_self)
open Relation (TransGen)
open FIFOWorkList (dataList_pop den_of_isEmpty den_push pop_some pop_spec)
open Finset (mem_erase mem_filter mem_insert mem_insert_self mem_inter notMem_empty)

variable {X : Type} [DecidableEq X]

/-- What the walk does at a statement. -/
inductive StmtKind | acquire | release | other
deriving DecidableEq

/-- The statements as they follow each other. Nothing leads back to an entry. -/
structure SpanGraph (X : Type) where
  entries : List X
  next : X → List X
  kind : X → StmtKind
  entry_first : ∀ e ∈ entries, ∀ x, e ∉ next x

/-- The state of the walk. -/
structure LockSpans (X : Type) [DecidableEq X] where
  cxtStmtList : FIFOWorkList X
  cxtStmtToCxtLockSet : X → Option (Finset X)
  instToCxtStmtSet : Finset X

namespace LockSpans

section

variable (s : LockSpans X)

def getCxtLockfromCxtStmt (cts : X) : Finset X :=
  (s.cxtStmtToCxtLockSet cts).getD ∅

def setLocks (cts : X) (lockset : Finset X) : LockSpans X :=
  { s with cxtStmtToCxtLockSet := update s.cxtStmtToCxtLockSet cts (some lockset) }

def pushToCTSWorkList (cs : X) : LockSpans X :=
  { s with cxtStmtList := (s.cxtStmtList.push cs).2 }

def touchCxtStmt (cts : X) : LockSpans X :=
  s.setLocks cts (s.getCxtLockfromCxtStmt cts)

def addCxtStmtToSpan (cts cl : X) : Bool × LockSpans X :=
  (decide (cl ∉ s.getCxtLockfromCxtStmt cts),
    s.setLocks cts (insert cl (s.getCxtLockfromCxtStmt cts)))

def removeCxtStmtToSpan (cts cl : X) : Bool × LockSpans X :=
  if cl ∈ s.getCxtLockfromCxtStmt cts then
    (true, s.setLocks cts ((s.getCxtLockfromCxtStmt cts).erase cl))
  else (false, s.touchCxtStmt cts)

end

def intersect (tgrlockset srclockset : Finset X) : Bool × Finset X :=
  let toBeDeleted := tgrlockset.filter (· ∉ srclockset)
  (decide (toBeDeleted ≠ ∅), tgrlockset \ toBeDeleted)

/-- `markCxtStmtFlag(tgr, src)`. The loop that adds the first lockset makes no entry when
    there is no lock to add. -/
def markCxtStmtFlag (s : LockSpans X) (tgr src : X) : LockSpans X :=
  let srclockset := s.getCxtLockfromCxtStmt src
  match s.cxtStmtToCxtLockSet tgr with
  | none =>
    if srclockset = ∅ then s.pushToCTSWorkList tgr
    else (s.setLocks tgr srclockset).pushToCTSWorkList tgr
  | some tgrlockset =>
    let r := intersect tgrlockset srclockset
    if r.1 then (s.setLocks tgr r.2).pushToCTSWorkList tgr else s.setLocks tgr r.2

def markAll (cts : X) (l : List X) (s : LockSpans X) : LockSpans X :=
  l.foldl (fun s tgr => s.markCxtStmtFlag tgr cts) s

section Walk

variable (G : SpanGraph X)

/-- What a handler does: it marks the statements that follow. -/
def propagate (s : LockSpans X) (cts : X) : LockSpans X :=
  (G.next cts).foldl (fun s tgr => s.markCxtStmtFlag tgr cts) s

def visit (s : LockSpans X) (cts : X) : LockSpans X :=
  let s := { s.touchCxtStmt cts with instToCxtStmtSet := insert cts s.instToCxtStmtSet }
  match G.kind cts with
  | .acquire =>
    let r := s.addCxtStmtToSpan cts cts
    if r.1 then r.2.propagate G cts else r.2
  | .release =>
    let r := s.removeCxtStmtToSpan cts cts
    if r.1 then r.2.propagate G cts else r.2
  | .other => s.propagate G cts

/-- One iteration of the loop. -/
def step (s : LockSpans X) : Option (LockSpans X) :=
  match s.cxtStmtList.pop with
  | none => none
  | some (cts, w) => some (visit G { s with cxtStmtList := w } cts)

/-- The entries wait, and no statement has a lockset. -/
def init : LockSpans X where
  cxtStmtList := G.entries.foldl (fun w e => (w.push e).2) FIFOWorkList.empty
  cxtStmtToCxtLockSet := fun _ => none
  instToCxtStmtSet := ∅

def analyzeLockSpanCxtStmt (fuel : Nat) : Option (LockSpans X) :=
  whileM (fun s : LockSpans X => !s.cxtStmtList.isEmpty) (step G) fuel (init G)

end Walk

-- ── marking a statement

theorem intersect_fst (tgr src : Finset X) : (intersect tgr src).1 ↔ ¬ tgr ⊆ src := by
  rw [intersect, decide_eq_true_iff, ← Finset.nonempty_iff_ne_empty, Finset.not_subset]
  constructor
  · rintro ⟨l, hl⟩
    exact ⟨l, mem_filter.mp hl⟩
  · rintro ⟨l, hl⟩
    exact ⟨l, mem_filter.mpr hl⟩

theorem intersect_snd (tgr src : Finset X) : (intersect tgr src).2 = tgr ∩ src := by
  ext l
  rw [intersect, Finset.mem_sdiff, Finset.mem_filter, Finset.mem_inter]
  tauto

/-- What a mark leaves behind. `grown` is the case where the first lockset to come was empty
    and the statement is still waiting. -/
structure Marked (s t : LockSpans X) (tgr : X) (srclockset : Finset X) : Prop where
  visited : t.instToCxtStmtSet = s.instToCxtStmtSet
  others : ∀ x, x ≠ tgr → t.cxtStmtToCxtLockSet x = s.cxtStmtToCxtLockSet x
  first : s.cxtStmtToCxtLockSet tgr = none →
    t.cxtStmtToCxtLockSet tgr = (if srclockset = ∅ then none else some srclockset) ∧
    t.cxtStmtList = (s.cxtStmtList.push tgr).2
  later : ∀ L, s.cxtStmtToCxtLockSet tgr = some L →
    t.cxtStmtToCxtLockSet tgr = some (L ∩ srclockset) ∧
    t.cxtStmtList = if L ⊆ srclockset then s.cxtStmtList else (s.cxtStmtList.push tgr).2

theorem mark_spec (s : LockSpans X) (tgr src : X) :
    Marked s (s.markCxtStmtFlag tgr src) tgr (s.getCxtLockfromCxtStmt src) := by
  rw [markCxtStmtFlag]
  cases hmap : s.cxtStmtToCxtLockSet tgr with
  | none =>
    by_cases hempty : s.getCxtLockfromCxtStmt src = ∅
    · simp only [if_pos hempty]
      exact ⟨rfl, fun _ _ => rfl, fun _ => ⟨hmap.trans (if_pos hempty).symm, rfl⟩,
        fun L hL => (nomatch hmap.symm.trans hL)⟩
    · simp only [if_neg hempty]
      refine ⟨rfl, fun x hx => update_of_ne hx _ _, fun _ => ⟨?_, rfl⟩,
        fun L hL => (nomatch hmap.symm.trans hL)⟩
      rw [if_neg hempty]
      exact update_self _ _ _
  | some L =>
    have hthe : ∀ M, s.cxtStmtToCxtLockSet tgr = some M → M = L := fun M hM => mem_unique hM hmap
    by_cases hsub : L ⊆ s.getCxtLockfromCxtStmt src
    · have hfst : ¬ (intersect L (s.getCxtLockfromCxtStmt src)).1 := fun h =>
        (intersect_fst _ _).mp h hsub
      simp only [if_neg hfst, intersect_snd]
      refine ⟨rfl, fun x hx => update_of_ne hx _ _,
        fun h => (nomatch hmap.symm.trans h), fun M hM => ?_⟩
      obtain rfl := hthe M hM
      rw [if_pos hsub]
      exact ⟨update_self _ _ _, rfl⟩
    · have hfst := (intersect_fst L (s.getCxtLockfromCxtStmt src)).mpr hsub
      simp only [if_pos hfst, intersect_snd]
      refine ⟨rfl, fun x hx => update_of_ne hx _ _,
        fun h => (nomatch hmap.symm.trans h), fun M hM => ?_⟩
      obtain rfl := hthe M hM
      rw [if_neg hsub]
      exact ⟨update_self _ _ _, rfl⟩

section Marked

variable {s t : LockSpans X} {tgr : X} {S : Finset X}

section

variable (h : Marked s t tgr S)
include h

theorem Marked.locks_others {x : X} (hx : x ≠ tgr) :
    t.getCxtLockfromCxtStmt x = s.getCxtLockfromCxtStmt x := by
  rw [getCxtLockfromCxtStmt, getCxtLockfromCxtStmt, h.others x hx]

theorem Marked.locks_first (hnone : s.cxtStmtToCxtLockSet tgr = none) :
    t.getCxtLockfromCxtStmt tgr = S := by
  rw [getCxtLockfromCxtStmt, (h.first hnone).1]
  by_cases hempty : S = ∅
  · rw [if_pos hempty, hempty]
    rfl
  · rw [if_neg hempty]
    rfl

theorem Marked.locks_later (hsome : s.cxtStmtToCxtLockSet tgr ≠ none) :
    t.getCxtLockfromCxtStmt tgr = s.getCxtLockfromCxtStmt tgr ∩ S := by
  obtain ⟨L, hL⟩ := ne_none_iff_exists'.mp hsome
  rw [getCxtLockfromCxtStmt, getCxtLockfromCxtStmt, (h.later L hL).1, hL]
  rfl

theorem Marked.locks_subset : t.getCxtLockfromCxtStmt tgr ⊆ S := by
  by_cases hnone : s.cxtStmtToCxtLockSet tgr = none
  · rw [h.locks_first hnone]
  · rw [h.locks_later hnone]
    exact Finset.inter_subset_right

theorem Marked.missing {l : X} (hl : l ∉ t.getCxtLockfromCxtStmt tgr) :
    l ∉ S ∨ (s.cxtStmtToCxtLockSet tgr ≠ none ∧ l ∉ s.getCxtLockfromCxtStmt tgr) := by
  by_cases hnone : s.cxtStmtToCxtLockSet tgr = none
  · rw [h.locks_first hnone] at hl
    exact .inl hl
  · rw [h.locks_later hnone, mem_inter] at hl
    exact (not_and_or.mp hl).symm.imp_right fun hl => ⟨hnone, hl⟩

theorem Marked.den : t.cxtStmtList.den = s.cxtStmtList.den ∪
    {x | x = tgr ∧ (s.cxtStmtToCxtLockSet tgr = none ∨ ¬ s.getCxtLockfromCxtStmt tgr ⊆ S)} := by
  cases hmap : s.cxtStmtToCxtLockSet tgr with
  | none =>
    rw [(h.first hmap).2, den_push]
    ext x
    simp
  | some L =>
    have hL : s.getCxtLockfromCxtStmt tgr = L := by
      rw [getCxtLockfromCxtStmt, hmap]
      rfl
    rw [(h.later L hmap).2, hL]
    by_cases hsub : L ⊆ S
    · rw [if_pos hsub]
      ext x
      simp [hsub]
    · rw [if_neg hsub, den_push]
      ext x
      simp [hsub]

end

end Marked

end LockSpans

-- ── the ways through the program

namespace SpanGraph

variable (G : SpanGraph X)

/-- A way from an entry, with the statements on it in order. -/
inductive Path : List X → X → Prop
  | entry {e : X} (he : e ∈ G.entries) : Path [e] e
  | next {π : List X} {x y : X} (h : Path π x) (hy : y ∈ G.next x) : Path (π ++ [y]) y

/-- Some way reaches the statement, with no release before it. -/
inductive Free : X → Prop
  | entry {e : X} (he : e ∈ G.entries) : Free e
  | next {x y : X} (h : Free x) (hk : G.kind x ≠ .release) (hy : y ∈ G.next x) : Free y

/-- Some such way does not pass `l`. -/
inductive Avoids (l : X) : X → Prop
  | entry {e : X} (he : e ∈ G.entries) (hne : l ≠ e) : Avoids l e
  | next {x y : X} (h : Avoids l x) (hk : G.kind x ≠ .release) (hy : y ∈ G.next x) (hne : l ≠ y) :
      Avoids l y

/-- An acquire that directly follows and whose own lock need not be held before: its lockset
    loses that lock when this statement is walked, and it is walked again. -/
def Readds (x y : X) : Prop :=
  G.kind x ≠ .release ∧ y ∈ G.next x ∧ G.kind y = .acquire ∧ G.Avoids y x

/-- On the way `π` the lock `l` has been acquired, and nothing before its last statement has
    released it since. -/
def Held (releases : X → X → Prop) (l : X) (π : List X) : Prop :=
  ∃ π₁ π₂, π = π₁ ++ l :: π₂ ∧ ∀ r ∈ π₂.dropLast, ¬ releases r l

/-- What directly follows a release is reached without it, and the locks that no such way
    avoids are not avoided before the release either, nor released by it. -/
def ReleasesOk (releases : X → X → Prop) : Prop :=
  ∀ x, G.Free x → G.kind x = .release → ∀ y ∈ G.next x, G.Free y ∧
    ∀ l, G.kind l = .acquire → l ≠ y → ¬ G.Avoids l y → ¬ G.Avoids l x ∧ ¬ releases x l

variable {G}

section

omit [DecidableEq X]

theorem Avoids.free {l x : X} (h : G.Avoids l x) : G.Free x := by
  induction h with
  | entry he _ => exact .entry he
  | next _ hk hy _ ih => exact ih.next hk hy

theorem Path.last {π : List X} {x : X} (h : G.Path π x) : ∃ ρ, π = ρ ++ [x] := by
  cases h with
  | entry he => exact ⟨[], rfl⟩
  | next hπ hy => exact ⟨_, rfl⟩

theorem Free.path {x : X} (h : G.Free x) : ∃ π, G.Path π x := by
  induction h with
  | entry he => exact ⟨_, .entry he⟩
  | next _ _ hy ih =>
    obtain ⟨π, hπ⟩ := ih
    exact ⟨_, hπ.next hy⟩

theorem Avoids.path {l x : X} (h : G.Avoids l x) : ∃ π, G.Path π x ∧ l ∉ π := by
  induction h with
  | entry he hne => exact ⟨_, .entry he, fun hl => hne (mem_singleton.mp hl)⟩
  | next _ _ hy hne ih =>
    obtain ⟨π, hπ, hl⟩ := ih
    refine ⟨_, hπ.next hy, fun hmem => ?_⟩
    rcases mem_append.mp hmem with hmem | hmem
    · exact hl hmem
    · exact hne (mem_singleton.mp hmem)

end

section Held

variable {releases : X → X → Prop} {l x y : X} {π : List X}

omit [DecidableEq X] in
variable (releases) in
theorem Held.now (π : List X) (l : X) : Held releases l (π ++ [l]) := ⟨π, [], rfl, nofun⟩

omit [DecidableEq X] in
theorem Held.next (h : Held releases l π) (hπ : G.Path π x) (hnot : ¬ releases x l) :
    Held releases l (π ++ [y]) := by
  obtain ⟨π1, π2, rfl, hkeep⟩ := h
  refine ⟨π1, π2 ++ [y], by rw [append_assoc, cons_append], fun r hr => ?_⟩
  rw [dropLast_concat] at hr
  obtain ⟨ρ, hρ⟩ := hπ.last
  rcases eq_nil_or_concat' π2 with rfl | ⟨τ, z, rfl⟩
  · cases hr
  · rw [← cons_append, ← append_assoc] at hρ
    obtain ⟨-, hz⟩ := append_inj' hρ rfl
    rw [dropLast_concat] at hkeep
    rcases mem_append.mp hr with hr | hr
    · exact hkeep r hr
    · rw [mem_singleton.mp hr, (List.cons.inj hz).1]
      exact hnot

omit [DecidableEq X] in
/-- A lock that is held one statement further on, and not acquired by these two, is on the way
    and not released. -/
theorem Held.before (h : Held releases l (π ++ [y])) (hπ : G.Path π x) (hy : l ≠ y) (hx : l ≠ x) :
    l ∈ π ∧ ¬ releases x l := by
  obtain ⟨ρ, rfl⟩ := hπ.last
  obtain ⟨π1, π2, heq, hkeep⟩ := h
  rcases eq_nil_or_concat' π2 with rfl | ⟨τ, z, rfl⟩
  · exact absurd (List.cons.inj (append_inj' heq rfl).2).1.symm hy
  · rw [← cons_append, ← append_assoc] at heq
    have hρ := (append_inj' heq rfl).1
    rw [dropLast_concat] at hkeep
    refine ⟨hρ ▸ mem_append_right _ mem_cons_self, hkeep x ?_⟩
    rcases eq_nil_or_concat' τ with rfl | ⟨τ', w, rfl⟩
    · exact absurd (List.cons.inj (append_inj' hρ rfl).2).1.symm hx
    · rw [← cons_append, ← append_assoc] at hρ
      have hw := (List.cons.inj (append_inj' hρ rfl).2).1
      rw [hw]
      exact mem_append_right _ mem_cons_self

end Held

end SpanGraph

-- ── weights on a relation without cycles

omit [DecidableEq X] in
open Classical in
/-- On finitely many elements, a relation without cycles has weights: an element weighs more
    than all it is related to, counted as often as they are listed. -/
theorem exists_weight {R : X → X → Prop} (U : Finset X) (next : X → List X)
    (hU : ∀ x y, R x y → y ∈ U) (hacyclic : ∀ x, ¬ TransGen R x x) :
    ∃ weight : X → ℕ, ∀ x ∈ U,
      ((next x).map fun y => if R x y then weight y else 0).sum < weight x := by
  -- the height of an element is the number of elements below it
  let height : X → ℕ := fun x => (U.filter (TransGen R x)).card
  let degree : ℕ := ∑ x ∈ U, (next x).length
  have hheight : ∀ {x y}, R x y → height y < height x := by
    intro x y hxy
    refine Finset.card_lt_card ?_
    rw [Finset.ssubset_iff_of_subset]
    · refine ⟨y, mem_filter.mpr ⟨hU x y hxy, .single hxy⟩, ?_⟩
      exact fun hmem => hacyclic y (mem_filter.mp hmem).2
    · intro z hz
      obtain ⟨hz, hyz⟩ := mem_filter.mp hz
      exact mem_filter.mpr ⟨hz, .head hxy hyz⟩
  refine ⟨fun x => (degree + 1) ^ height x, fun x hx => ?_⟩
  have hdegree : (next x).length ≤ degree :=
    Finset.single_le_sum (f := fun x => (next x).length) (fun _ _ => Nat.zero_le _) hx
  cases hh : height x with
  | zero =>
    have hnone : ∀ n ∈ (next x).map fun y => if R x y then (degree + 1) ^ height y else 0,
        n ≤ 0 := by
      intro n hn
      obtain ⟨y, -, rfl⟩ := mem_map.mp hn
      refine (if_neg fun hxy => ?_).le
      exact absurd (hheight hxy) (by omega)
    have hsum := sum_le_card_nsmul _ 0 hnone
    rw [smul_zero] at hsum
    exact lt_of_le_of_lt hsum (Nat.pow_pos (Nat.succ_pos degree))
  | succ k =>
    show _ < (degree + 1) ^ height x
    rw [hh]
    have hbound : ∀ n ∈ (next x).map fun y => if R x y then (degree + 1) ^ height y else 0,
        n ≤ (degree + 1) ^ k := by
      intro n hn
      obtain ⟨y, -, rfl⟩ := mem_map.mp hn
      by_cases hxy : R x y
      · have hlt := hheight hxy
        rw [if_pos hxy]
        exact Nat.pow_le_pow_right (Nat.succ_pos degree) (by omega)
      · rw [if_neg hxy]
        exact Nat.zero_le _
    have hsum := sum_le_card_nsmul _ _ hbound
    rw [length_map, smul_eq_mul] at hsum
    calc _ ≤ (next x).length * (degree + 1) ^ k := hsum
      _ ≤ degree * (degree + 1) ^ k := Nat.mul_le_mul_right _ hdegree
      _ < (degree + 1) * (degree + 1) ^ k :=
          Nat.mul_lt_mul_of_pos_right (Nat.lt_succ_self degree) (Nat.pow_pos (Nat.succ_pos degree))
      _ = (degree + 1) ^ (k + 1) := (Nat.pow_succ').symm

namespace LockSpans

variable {G : SpanGraph X}

-- ── the invariant

/-- The walk has come to `x`. -/
def Reached (s : LockSpans X) (x : X) : Prop :=
  x ∈ s.cxtStmtList.den ∨ x ∈ s.instToCxtStmtSet

variable (G) in
/-- What holds whenever a statement is popped; while `cur` is walked, what follows `cur` need
    not be reached yet. -/
structure Inv (cur : Option X) (s : LockSpans X) : Prop where
  touched : ∀ x ∈ s.instToCxtStmtSet, s.cxtStmtToCxtLockSet x ≠ none
  reached : ∀ x, s.cxtStmtToCxtLockSet x ≠ none → s.Reached x
  key : ∀ x, ∀ l ∈ s.getCxtLockfromCxtStmt x, G.kind l = .acquire ∧ l ∈ s.instToCxtStmtSet
  carried : ∀ x, ∀ l ∈ s.getCxtLockfromCxtStmt x, l ≠ x →
    ∀ m ∈ s.getCxtLockfromCxtStmt l, m ≠ l → m ≠ x → m ∈ s.getCxtLockfromCxtStmt x
  pending : ∀ x ∈ s.cxtStmtList.den, G.kind x = .acquire → x ∉ s.getCxtLockfromCxtStmt x
  avoid : ∀ x l, s.Reached x → G.kind l = .acquire → l ≠ x →
    l ∉ s.getCxtLockfromCxtStmt x → G.Avoids l x
  follow : ∀ x ∈ s.instToCxtStmtSet, some x ≠ cur → G.kind x ≠ .release →
    ∀ y ∈ G.next x, s.Reached y
  entry : ∀ e ∈ G.entries, s.Reached e ∧ s.getCxtLockfromCxtStmt e ⊆ {e}
  free : ∀ x, s.Reached x → G.Free x

variable (G) in
/-- The statement that is walked: it has its own lock if it acquires one. -/
structure Visiting (cur : X) (s : LockSpans X) : Prop extends Inv G (some cur) s where
  visited : cur ∈ s.instToCxtStmtSet
  own : G.kind cur = .acquire → cur ∈ s.getCxtLockfromCxtStmt cur
  passes : G.kind cur ≠ .release

section Mark

variable {s t : LockSpans X} {cur tgr : X}

section

variable (h : Visiting G cur s)
include h

theorem Visiting.locks_cur (hm : Marked s t tgr (s.getCxtLockfromCxtStmt cur)) :
    t.getCxtLockfromCxtStmt cur = s.getCxtLockfromCxtStmt cur := by
  by_cases hcur : cur = tgr
  · subst hcur
    rw [hm.locks_later (h.touched _ h.visited), Finset.inter_self]
  · exact hm.locks_others hcur

/-- What `cur` carries, it carries whole: the locks that were held at an acquire. -/
theorem Visiting.carries {l m : X} (hl : l ∈ s.getCxtLockfromCxtStmt cur)
    (hm : m ∈ s.getCxtLockfromCxtStmt l) (hne : m ≠ l) : m ∈ s.getCxtLockfromCxtStmt cur := by
  by_cases hlc : l = cur
  · exact hlc ▸ hm
  · by_cases hmc : m = cur
    · rw [hmc]
      exact h.own ((hmc ▸ h.key l m hm).1)
    · exact h.carried cur l hl hlc m hm hne hmc

/-- **A lockset that shrinks at an acquire loses the acquire's own lock.** -/
theorem mark_pending (hshrink : s.cxtStmtToCxtLockSet tgr = none ∨
      ¬ s.getCxtLockfromCxtStmt tgr ⊆ s.getCxtLockfromCxtStmt cur) :
    tgr ∉ s.getCxtLockfromCxtStmt cur := by
  intro hmem
  rcases hshrink with hnone | hshrink
  · exact h.touched tgr (h.key cur tgr hmem).2 hnone
  · refine hshrink fun m hm => ?_
    by_cases hne : m = tgr
    · rw [hne]
      exact hmem
    · exact h.carries hmem hm hne

theorem Visiting.reached_mark (hm : Marked s t tgr (s.getCxtLockfromCxtStmt cur)) (x : X) :
    t.Reached x ↔ s.Reached x ∨ x = tgr := by
  rw [Reached, Reached, hm.visited, hm.den]
  constructor
  · rintro ((hx | ⟨rfl, -⟩) | hx)
    · exact .inl (.inl hx)
    · exact .inr rfl
    · exact .inl (.inr hx)
  · rintro ((hx | hx) | rfl)
    · exact .inl (.inl hx)
    · exact .inr hx
    · by_cases hnone : s.cxtStmtToCxtLockSet x = none
      · exact .inl (.inr ⟨rfl, .inl hnone⟩)
      · exact (h.reached x hnone).imp_left .inl

/-- **One mark** keeps the invariant. -/
theorem Visiting.mark
    (hm : Marked s t tgr (s.getCxtLockfromCxtStmt cur)) (htgr : tgr ∈ G.next cur) :
    Visiting G cur t := by
  have hreached := h.reached_mark hm
  have hkeyed : ∀ l ∈ s.getCxtLockfromCxtStmt cur, t.getCxtLockfromCxtStmt l ⊆ s.getCxtLockfromCxtStmt l := by
    intro l hl
    by_cases hltgr : l = tgr
    · subst hltgr
      rw [hm.locks_later (h.touched l (h.key cur l hl).2)]
      exact Finset.inter_subset_left
    · rw [hm.locks_others hltgr]
  have hinv : Inv G (some cur) t := by
    constructor
    case touched =>
      intro x hx
      rw [hm.visited] at hx
      by_cases hxt : x = tgr
      · subst hxt
        obtain ⟨L, hL⟩ := ne_none_iff_exists'.mp (h.touched x hx)
        rw [(hm.later L hL).1]
        exact some_ne_none _
      · rw [hm.others x hxt]
        exact h.touched x hx
    case reached =>
      intro x hx
      rw [hreached]
      by_cases hxt : x = tgr
      · exact .inr hxt
      · rw [hm.others x hxt] at hx
        exact .inl (h.reached x hx)
    case key =>
      intro x l hl
      rw [hm.visited]
      by_cases hxt : x = tgr
      · exact h.key cur l (hm.locks_subset (hxt ▸ hl))
      · rw [hm.locks_others hxt] at hl
        exact h.key x l hl
    case carried =>
      intro x l hl hlx m hml hne hmx
      by_cases hxt : x = tgr
      · subst hxt
        have hlS := hm.locks_subset hl
        have hmS := h.carries hlS (hkeyed l hlS hml) hne
        by_cases hnone : s.cxtStmtToCxtLockSet x = none
        · rw [hm.locks_first hnone]
          exact hmS
        · rw [hm.locks_later hnone] at hl ⊢
          have hold := h.carried x l (mem_inter.mp hl).1 hlx m (hkeyed l hlS hml) hne hmx
          exact mem_inter.mpr ⟨hold, hmS⟩
      · rw [hm.locks_others hxt] at hl ⊢
        have hmold : m ∈ s.getCxtLockfromCxtStmt l := by
          by_cases hlt : l = tgr
          · subst hlt
            rw [hm.locks_later (h.touched l (h.key x l hl).2)] at hml
            exact (mem_inter.mp hml).1
          · rw [hm.locks_others hlt] at hml
            exact hml
        exact h.carried x l hl hlx m hmold hne hmx
    case pending =>
      intro x hx hkind
      rw [hm.den] at hx
      by_cases hxt : x = tgr
      · subst hxt
        rcases hx with hx | ⟨-, hshrink⟩
        · by_cases hnone : s.cxtStmtToCxtLockSet x = none
          · rw [hm.locks_first hnone]
            exact mark_pending h (.inl hnone)
          · rw [hm.locks_later hnone]
            exact fun hmem => h.pending x hx hkind (mem_inter.mp hmem).1
        · exact fun hmem => mark_pending h hshrink (hm.locks_subset hmem)
      · rw [hm.locks_others hxt]
        exact h.pending x (hx.resolve_right fun hx => hxt hx.1) hkind
    case avoid =>
      intro x l hx hkind hlx hl
      rw [hreached] at hx
      by_cases hxt : x = tgr
      · subst hxt
        rcases hm.missing hl with hl | ⟨hsome, hl⟩
        · have hlcur : l ≠ cur := by
            rintro rfl
            exact hl (h.own hkind)
          have hcur := h.avoid cur l (.inr h.visited) hkind hlcur hl
          exact hcur.next h.passes htgr hlx
        · exact h.avoid x l (h.reached x hsome) hkind hlx hl
      · rw [hm.locks_others hxt] at hl
        exact h.avoid x l (hx.resolve_right hxt) hkind hlx hl
    case follow =>
      intro x hx hcur hk y hy
      rw [hm.visited] at hx
      exact (hreached y).mpr (.inl (h.follow x hx hcur hk y hy))
    case entry =>
      intro e he
      obtain ⟨hre, hsub⟩ := h.entry e he
      have hne : e ≠ tgr := by
        rintro rfl
        exact G.entry_first e he cur htgr
      rw [hm.locks_others hne]
      exact ⟨(hreached e).mpr (.inl hre), hsub⟩
    case free =>
      intro x hx
      rcases (hreached x).mp hx with hx | rfl
      · exact h.free x hx
      · exact (h.free cur (.inr h.visited)).next h.passes htgr
  constructor
  case toInv => exact hinv
  case visited =>
    rw [hm.visited]
    exact h.visited
  case own =>
    intro hkind
    rw [h.locks_cur hm]
    exact h.own hkind
  case passes => exact h.passes

end

end Mark

-- ── walking a statement

/-- Marking several statements: each is reached, and holds nothing that `cur` does not. -/
theorem Visiting.all_marked {cur : X} : ∀ (l : List X) (s : LockSpans X), Visiting G cur s →
    (∀ y ∈ l, y ∈ G.next cur) →
    Visiting G cur (markAll cur l s) ∧
    (markAll cur l s).getCxtLockfromCxtStmt cur =
      s.getCxtLockfromCxtStmt cur ∧
    (∀ y, s.Reached y → (markAll cur l s).Reached y) ∧
    ∀ y ∈ l, (markAll cur l s).Reached y := by
  intro l
  induction l with
  | nil => exact fun s hs _ => ⟨hs, rfl, fun _ hy => hy, nofun⟩
  | cons tgr l ih =>
    intro s hs hl
    have hm := mark_spec s tgr cur
    have hreached := hs.reached_mark hm
    obtain ⟨ht, hlocks, hkept, hall⟩ := ih _ (hs.mark hm (hl tgr mem_cons_self))
      (forall_mem_cons.mp hl).2
    refine ⟨ht, hlocks.trans (hs.locks_cur hm), fun y hy => ?_, fun y hy => ?_⟩
    · exact hkept y ((hreached y).mpr (.inl hy))
    · rcases mem_cons.mp hy with rfl | hy
      · exact hkept y ((hreached y).mpr (.inr rfl))
      · exact hall y hy

/-- The state in which the statement `cts` passes its lockset on: it has been popped, has an
    entry, counts as visited and has its own lock if it acquires one. -/
def entered (s : LockSpans X) (w : FIFOWorkList X) (cts : X) (own : Bool) : LockSpans X where
  cxtStmtList := w
  cxtStmtToCxtLockSet := update s.cxtStmtToCxtLockSet cts (some
    (if own then insert cts (s.getCxtLockfromCxtStmt cts) else s.getCxtLockfromCxtStmt cts))
  instToCxtStmtSet := insert cts s.instToCxtStmtSet

section Entered

variable {s : LockSpans X} {w : FIFOWorkList X} {cts : X} {own : Bool}

theorem map_entered (x : X) : (entered s w cts own).cxtStmtToCxtLockSet x = if x = cts then some
      (if own then insert cts (s.getCxtLockfromCxtStmt cts) else s.getCxtLockfromCxtStmt cts)
    else s.cxtStmtToCxtLockSet x :=
  update_apply _ _ _ _

theorem locks_entered (x : X) : (entered s w cts own).getCxtLockfromCxtStmt x =
    if x = cts ∧ own = true then insert cts (s.getCxtLockfromCxtStmt cts)
    else s.getCxtLockfromCxtStmt x := by
  rw [getCxtLockfromCxtStmt, map_entered]
  by_cases hx : x = cts
  · subst hx
    rw [if_pos rfl]
    cases own with
    | true => simp
    | false => simp
  · rw [if_neg hx, if_neg fun h => hx h.1]
    rfl

theorem mem_locks_entered {x l : X} (h : l ∈ (entered s w cts own).getCxtLockfromCxtStmt x) :
    l ∈ s.getCxtLockfromCxtStmt x ∨ (l = cts ∧ x = cts ∧ own) := by
  rw [locks_entered] at h
  by_cases hx : x = cts ∧ own
  · rw [if_pos hx] at h
    rcases mem_insert.mp h with h | h
    · exact .inr ⟨h, hx⟩
    · exact .inl (hx.1 ▸ h)
  · rw [if_neg hx] at h
    exact .inl h

theorem locks_le_entered (x : X) :
    s.getCxtLockfromCxtStmt x ⊆ (entered s w cts own).getCxtLockfromCxtStmt x := by
  rw [locks_entered]
  by_cases hx : x = cts ∧ own
  · rw [if_pos hx, hx.1]
    exact Finset.subset_insert _ _
  · rw [if_neg hx]

variable (hpop : s.cxtStmtList.pop = some (cts, w))

include hpop

theorem reached_entered (x : X) : (entered s w cts own).Reached x ↔ s.Reached x := by
  obtain ⟨hmem, hden⟩ := pop_some hpop
  show x ∈ w.den ∨ x ∈ insert cts s.instToCxtStmtSet ↔ _
  rw [hden, mem_insert, Reached, Set.mem_sdiff, Set.mem_singleton_iff]
  constructor
  · rintro (⟨hx, -⟩ | rfl | hx)
    · exact .inl hx
    · exact .inl hmem
    · exact .inr hx
  · rintro (hx | hx)
    · by_cases hxc : x = cts
      · exact .inr (.inl hxc)
      · exact .inl ⟨hx, hxc⟩
    · exact .inr (.inr hx)

theorem Inv.enter (h : Inv G none s) (hown : own → G.kind cts = .acquire) :
    Inv G (some cts) (entered s w cts own) := by
  obtain ⟨hmem, hden⟩ := pop_some hpop
  have hreached : ∀ x, (entered s w cts own).Reached x ↔ s.Reached x := reached_entered hpop
  constructor
  case touched =>
    intro x hx
    rw [map_entered]
    by_cases hxc : x = cts
    · rw [if_pos hxc]
      exact some_ne_none _
    · rw [if_neg hxc]
      exact h.touched x ((mem_insert.mp hx).resolve_left hxc)
  case reached =>
    intro x hx
    rw [hreached]
    by_cases hxc : x = cts
    · exact .inl (hxc ▸ hmem)
    · refine h.reached x ?_
      rw [map_entered, if_neg hxc] at hx
      exact hx
  case key =>
    intro x l hl
    rcases mem_locks_entered hl with hl | ⟨rfl, -, how⟩
    · exact ⟨(h.key x l hl).1, Finset.mem_insert_of_mem (h.key x l hl).2⟩
    · exact ⟨hown how, mem_insert_self _ _⟩
  case carried =>
    intro x l hl hlx m hm hne hmx
    have hlold : l ∈ s.getCxtLockfromCxtStmt x := (mem_locks_entered hl).resolve_right
      fun hnew => hlx (hnew.1.trans hnew.2.1.symm)
    have hmold : m ∈ s.getCxtLockfromCxtStmt l := (mem_locks_entered hm).resolve_right
      fun hnew => hne (hnew.1.trans hnew.2.1.symm)
    exact locks_le_entered x (h.carried x l hlold hlx m hmold hne hmx)
  case pending =>
    intro x hx hkind hmemx
    have hx : x ∈ w.den := hx
    rw [hden] at hx
    rcases mem_locks_entered hmemx with hmemx | ⟨rfl, -, -⟩
    · exact h.pending x hx.1 hkind hmemx
    · exact hx.2 rfl
  case avoid =>
    intro x l hx hkind hlx hl
    exact h.avoid x l ((hreached x).mp hx) hkind hlx fun hmem => hl (locks_le_entered x hmem)
  case follow =>
    intro x hx hcur hk y hy
    have hx := (mem_insert.mp hx).resolve_left fun heq => hcur (congrArg some heq)
    exact (hreached y).mpr (h.follow x hx (some_ne_none x) hk y hy)
  case entry =>
    intro e he
    obtain ⟨hre, hsub⟩ := h.entry e he
    refine ⟨(hreached e).mpr hre, fun l hl => ?_⟩
    rcases mem_locks_entered hl with hl | ⟨rfl, rfl, -⟩
    · exact hsub hl
    · exact Finset.mem_singleton_self _
  case free => exact fun x hx => h.free x ((hreached x).mp hx)

end Entered

-- ── one iteration

variable {s : LockSpans X} {w : FIFOWorkList X} {cts : X}

section

variable (h : Inv G none s) (hpop : s.cxtStmtList.pop = some (cts, w))
include h hpop

theorem visit_eq :
    visit G { s with cxtStmtList := w } cts =
      if G.kind cts = .release then entered s w cts false
      else (entered s w cts (decide (G.kind cts = .acquire))).propagate G cts := by
  obtain ⟨hmem, -⟩ := pop_some hpop
  have htouch : { ({ s with cxtStmtList := w } : LockSpans X).touchCxtStmt cts with
      instToCxtStmtSet := insert cts s.instToCxtStmtSet } = entered s w cts false := rfl
  have hlocks : (entered s w cts false).getCxtLockfromCxtStmt cts = s.getCxtLockfromCxtStmt cts := by
    simp [locks_entered]
  rw [visit]
  cases hk : G.kind cts with
  | acquire =>
    have hnew : cts ∉ s.getCxtLockfromCxtStmt cts := h.pending cts hmem hk
    have hadd : (entered s w cts false).addCxtStmtToSpan cts cts =
        (true, entered s w cts true) := by
      rw [addCxtStmtToSpan, hlocks, decide_eq_true hnew, setLocks, entered, entered]
      simp
    simp only [htouch, hadd]
    simp
  | release =>
    -- a release acquires nothing, so its own statement is no lock
    have hold : cts ∉ s.getCxtLockfromCxtStmt cts := fun hmem =>
      StmtKind.noConfusion (hk.symm.trans (h.key cts cts hmem).1)
    have hremove : (entered s w cts false).removeCxtStmtToSpan cts cts =
        (false, entered s w cts false) := by
      rw [removeCxtStmtToSpan, hlocks, if_neg hold, touchCxtStmt, hlocks, setLocks, entered]
      simp
    simp only [htouch, hremove]
    simp
  | other =>
    simp only [htouch]
    simp

theorem Inv.visiting (hk : G.kind cts ≠ .release) :
    Visiting G cts (entered s w cts (decide (G.kind cts = .acquire))) := by
  constructor
  case toInv => exact h.enter hpop of_decide_eq_true
  case visited => exact mem_insert_self _ _
  case own =>
    intro hacq
    rw [locks_entered, if_pos ⟨rfl, decide_eq_true hacq⟩]
    exact mem_insert_self _ _
  case passes => exact hk

/-- **One iteration** keeps the invariant. -/
theorem Inv.visit :
    Inv G none (visit G { s with cxtStmtList := w } cts) := by
  rw [visit_eq h hpop]
  by_cases hk : G.kind cts = .release
  · rw [if_pos hk]
    have hinv : Inv G (some cts) (entered s w cts false) := h.enter hpop nofun
    refine { hinv with follow := fun x hx _ hkx => hinv.follow x hx ?_ hkx }
    intro heq
    exact hkx (some.inj heq ▸ hk)
  · rw [if_neg hk]
    obtain ⟨hv, -, -, hall⟩ := Visiting.all_marked _ _ (h.visiting hpop hk) fun y hy => hy
    refine { hv.toInv with follow := fun x hx _ hkx y hy => ?_ }
    by_cases hxc : x = cts
    · exact hall y (hxc ▸ hy)
    · exact hv.follow x hx (fun heq => hxc (some.inj heq)) hkx y hy

end

theorem reached_init (x : X) : (init G).Reached x ↔ x ∈ G.entries := by
  rw [Reached, init, FIFOWorkList.den_pushAll, FIFOWorkList.den_empty, Set.empty_union]
  exact or_iff_left (notMem_empty x)

theorem inv_init : Inv G none (init G) := by
  constructor
  case touched => exact fun x hx => absurd hx (notMem_empty x)
  case reached => exact fun x hx => absurd rfl hx
  case key => exact fun x l hl => absurd hl (notMem_empty l)
  case carried => exact fun x l hl => absurd hl (notMem_empty l)
  case pending => exact fun x _ _ => notMem_empty x
  case avoid =>
    intro x l hx _ hne _
    exact .entry ((reached_init x).mp hx) hne
  case follow => exact fun x hx => absurd hx (notMem_empty x)
  case entry => exact fun e he => ⟨(reached_init e).mpr he, Finset.empty_subset _⟩
  case free => exact fun x hx => .entry ((reached_init x).mp hx)

-- ── the walk ends

section Measure

variable (U : Finset X)

/-- How much can still come to `x`: it can be reached, its first lockset can come, and that
    can lose locks other than its own. -/
def phase (s : LockSpans X) (x : X) : ℕ :=
  match s.cxtStmtToCxtLockSet x with
  | none => if x ∈ s.cxtStmtList.dataSet then U.card + 2 else U.card + 3
  | some L => (L.erase x).card

theorem phase_some {s : LockSpans X} {x : X} {L : Finset X}
    (h : s.cxtStmtToCxtLockSet x = some L) : phase U s x = (L.erase x).card := by
  rw [phase, h]

theorem phase_waiting {s : LockSpans X} {x : X} (h : s.cxtStmtToCxtLockSet x = none)
    (hx : x ∈ s.cxtStmtList.den) : phase U s x = U.card + 2 := by
  rw [phase, h]
  exact if_pos ((s.cxtStmtList.agree x).mpr hx)

theorem phase_new {s : LockSpans X} {x : X} (h : s.cxtStmtToCxtLockSet x = none)
    (hx : x ∉ s.cxtStmtList.den) : phase U s x = U.card + 3 := by
  rw [phase, h]
  exact if_neg fun hmem => hx ((s.cxtStmtList.agree x).mp hmem)

def waiting (weight : X → ℕ) (s : LockSpans X) : ℕ := (s.cxtStmtList.dataList.map weight).sum

theorem waiting_push (weight : X → ℕ) (v : FIFOWorkList X) (x : X) :
    ((v.push x).2.dataList.map weight).sum ≤ (v.dataList.map weight).sum + weight x := by
  by_cases hx : x ∈ v.dataList
  · have hfind : v.find x := decide_eq_true ((v.agree x).mpr hx)
    rw [FIFOWorkList.push, dif_pos hfind]
    exact le_add_right _ _
  · rw [FIFOWorkList.dataList_push hx, map_append, sum_append, map_singleton, sum_singleton]

variable {cur tgr : X} {t : LockSpans X}

open Classical in
/-- A mark lowers the phase of its statement, or queues it as one that is added again. -/
theorem Visiting.measure_mark (h : Visiting G cur s)
    (hm : Marked s t tgr (s.getCxtLockfromCxtStmt cur)) (htgr : tgr ∈ G.next cur)
    (hU : ∀ x, G.Free x → x ∈ U) (weight : X → ℕ) :
    (∀ x, phase U t x ≤ phase U s x) ∧ (phase U t tgr < phase U s tgr ∨
        waiting weight t ≤ waiting weight s + if G.Readds cur tgr then weight tgr else 0) := by
  have hkeys : s.getCxtLockfromCxtStmt cur ⊆ U := fun l hl =>
    hU l (h.free l (.inr (h.key cur l hl).2))
  have hothers : ∀ x, x ≠ tgr → phase U t x = phase U s x := by
    intro x hx
    have hmem : x ∈ t.cxtStmtList.dataSet ↔ x ∈ s.cxtStmtList.dataSet := by
      rw [t.cxtStmtList.agree, s.cxtStmtList.agree]
      show x ∈ t.cxtStmtList.den ↔ x ∈ s.cxtStmtList.den
      rw [hm.den]
      exact or_iff_left fun hxt => hx hxt.1
    rw [phase, phase, hm.others x hx]
    simp only [hmem]
  have hall : phase U t tgr ≤ phase U s tgr → ∀ x, phase U t x ≤ phase U s x := by
    intro hle x
    by_cases hx : x = tgr
    · rw [hx]
      exact hle
    · exact (hothers x hx).le
  have hsmall : ((s.getCxtLockfromCxtStmt cur).erase tgr).card ≤ U.card :=
    Finset.card_le_card ((Finset.erase_subset _ _).trans hkeys)
  cases hmap : s.cxtStmtToCxtLockSet tgr with
  | none =>
    obtain ⟨hnew, hlist⟩ := hm.first hmap
    have hin : tgr ∈ t.cxtStmtList.den := by
      rw [hlist, den_push]
      exact Set.mem_insert _ _
    by_cases hempty : s.getCxtLockfromCxtStmt cur = ∅
    · rw [if_pos hempty] at hnew
      by_cases hwait : tgr ∈ s.cxtStmtList.den
      · refine ⟨hall ?_, .inr ?_⟩
        · rw [phase_waiting U hmap hwait, phase_waiting U hnew hin]
        · have hfind : s.cxtStmtList.find tgr :=
            decide_eq_true ((s.cxtStmtList.agree tgr).mpr hwait)
          rw [waiting, waiting, hlist, FIFOWorkList.push, dif_pos hfind]
          exact le_add_right _ _
      · have hlt : phase U t tgr < phase U s tgr := by
          rw [phase_new U hmap hwait, phase_waiting U hnew hin]
          exact lt_succ_self _
        exact ⟨hall hlt.le, .inl hlt⟩
    · rw [if_neg hempty] at hnew
      have hlt : phase U t tgr < phase U s tgr := by
        rw [phase_some U hnew]
        by_cases hwait : tgr ∈ s.cxtStmtList.den
        · rw [phase_waiting U hmap hwait]
          omega
        · rw [phase_new U hmap hwait]
          omega
      exact ⟨hall hlt.le, .inl hlt⟩
  | some L =>
    obtain ⟨hnew, hlist⟩ := hm.later L hmap
    have hL : s.getCxtLockfromCxtStmt tgr = L := by
      rw [getCxtLockfromCxtStmt, hmap]
      rfl
    have hsub : (L ∩ s.getCxtLockfromCxtStmt cur).erase tgr ⊆ L.erase tgr :=
      Finset.erase_subset_erase _ Finset.inter_subset_left
    have hle : phase U t tgr ≤ phase U s tgr := by
      rw [phase_some U hnew, phase_some U hmap]
      exact Finset.card_le_card hsub
    by_cases hkept : L ⊆ s.getCxtLockfromCxtStmt cur
    · refine ⟨hall hle, .inr ?_⟩
      rw [waiting, waiting, hlist, if_pos hkept]
      exact le_add_right _ _
    · by_cases hlost : ∃ m ∈ L, m ∉ s.getCxtLockfromCxtStmt cur ∧ m ≠ tgr
      · -- another lock than its own is lost
        obtain ⟨m, hmL, hmS, hne⟩ := hlost
        have hlt : phase U t tgr < phase U s tgr := by
          rw [phase_some U hnew, phase_some U hmap]
          refine Finset.card_lt_card ((Finset.ssubset_iff_of_subset hsub).mpr ⟨m, ?_, ?_⟩)
          · exact mem_erase.mpr ⟨hne, hmL⟩
          · exact fun hmem => hmS (mem_inter.mp (mem_erase.mp hmem).2).2
        exact ⟨hall hle, .inl hlt⟩
      · -- only its own lock is lost: the statement is an acquire, and is added again
        have hown : tgr ∈ L ∧ tgr ∉ s.getCxtLockfromCxtStmt cur := by
          obtain ⟨m, hmL, hmS⟩ := Finset.not_subset.mp hkept
          have hmt : m = tgr := by
            by_contra hne
            exact hlost ⟨m, hmL, hmS, hne⟩
          exact hmt ▸ ⟨hmL, hmS⟩
        have hacq := (h.key tgr tgr (hL ▸ hown.1)).1
        have hne : tgr ≠ cur := by
          rintro rfl
          exact hown.2 (hL ▸ hown.1)
        have hreadds : G.Readds cur tgr :=
          ⟨h.passes, htgr, hacq, h.avoid cur tgr (.inr h.visited) hacq hne hown.2⟩
        refine ⟨hall hle, .inr ?_⟩
        rw [waiting, waiting, hlist, if_neg hkept, if_pos hreadds]
        exact waiting_push weight s.cxtStmtList tgr

open Classical in
theorem Visiting.measure_markAll (hU : ∀ x, G.Free x → x ∈ U) (weight : X → ℕ) :
    ∀ (l : List X) (s : LockSpans X), Visiting G cur s → (∀ y ∈ l, y ∈ G.next cur) →
    (∀ x, phase U (markAll cur l s) x ≤ phase U s x) ∧
      ((∃ x ∈ U, phase U (markAll cur l s) x < phase U s x) ∨
        waiting weight (markAll cur l s) ≤ waiting weight s +
          (l.map fun y => if G.Readds cur y then weight y else 0).sum) := by
  intro l
  induction l with
  | nil => exact fun s _ _ => ⟨fun _ => le_refl _, .inr (le_refl _)⟩
  | cons tgr l ih =>
    intro s hs hl
    have hm := mark_spec s tgr cur
    have htgr := hl tgr mem_cons_self
    have hmarked := hs.mark hm htgr
    obtain ⟨hle, hone⟩ := hs.measure_mark U hm htgr hU weight
    obtain ⟨hle', hrest⟩ := ih _ hmarked (forall_mem_cons.mp hl).2
    refine ⟨fun x => (hle' x).trans (hle x), ?_⟩
    rcases hone with hlt | hone
    · have htgrU : tgr ∈ U := hU tgr (hmarked.free tgr ((hs.reached_mark hm tgr).mpr (.inr rfl)))
      exact .inl ⟨tgr, htgrU, lt_of_le_of_lt (hle' tgr) hlt⟩
    · rcases hrest with ⟨x, hx, hlt⟩ | hrest
      · exact .inl ⟨x, hx, lt_of_lt_of_le hlt (hle x)⟩
      · right
        rw [map_cons, sum_cons, markAll, foldl_cons]
        rw [markAll] at hrest
        omega

end Measure

-- ── termination

section Total

variable {U : Finset X}

theorem waiting_le (weight : X → ℕ) (h : ∀ x ∈ s.cxtStmtList.den, x ∈ U) :
    waiting weight s ≤ ∑ x ∈ U, weight x := by
  rw [waiting, ← sum_toFinset weight s.cxtStmtList.nodup]
  exact Finset.sum_le_sum_of_subset fun x hx => h x (mem_toFinset.mp hx)

theorem measure_entered (hpop : s.cxtStmtList.pop = some (cts, w)) (own : Bool) (weight : X → ℕ) :
    (∀ x, phase U (entered s w cts own) x ≤ phase U s x) ∧
      waiting weight (entered s w cts own) + weight cts = waiting weight s := by
  obtain ⟨hmem, hden⟩ := pop_some hpop
  constructor
  · intro x
    by_cases hx : x = cts
    · subst hx
      have herase : ((if own then insert x (s.getCxtLockfromCxtStmt x)
          else s.getCxtLockfromCxtStmt x).erase x) = (s.getCxtLockfromCxtStmt x).erase x := by
        cases own with
        | true => exact Finset.erase_insert_eq_erase _ _
        | false => rfl
      rw [phase_some U (by rw [map_entered, if_pos rfl]), herase]
      cases hmap : s.cxtStmtToCxtLockSet x with
      | none =>
        have hlocks : s.getCxtLockfromCxtStmt x = ∅ := by
          rw [getCxtLockfromCxtStmt, hmap]
          rfl
        rw [hlocks, Finset.erase_empty, Finset.card_empty]
        exact zero_le _
      | some L =>
        have hlocks : s.getCxtLockfromCxtStmt x = L := by
          rw [getCxtLockfromCxtStmt, hmap]
          rfl
        rw [hlocks, phase_some U hmap]
    · have hwait : x ∈ w.dataSet ↔ x ∈ s.cxtStmtList.dataSet := by
        rw [w.agree, s.cxtStmtList.agree]
        show x ∈ w.den ↔ x ∈ s.cxtStmtList.den
        rw [hden]
        exact and_iff_left hx
      rw [phase, phase, map_entered, if_neg hx]
      show (match s.cxtStmtToCxtLockSet x with
        | none => if x ∈ w.dataSet then U.card + 2 else U.card + 3
        | some L => (L.erase x).card) ≤ _
      simp only [hwait]
      exact le_refl _
  · rw [waiting, waiting, dataList_pop hpop, map_cons, sum_cons]
    exact add_comm _ _

open Classical in
/-- **The walk ends** if no acquires in a ring take each other's locks away. -/
theorem analyzeLockSpanCxtStmt_total (hU : ∀ x, G.Free x → x ∈ U)
    (hacyclic : ∀ x, ¬ TransGen G.Readds x x) :
    ∃ t, Stops (analyzeLockSpanCxtStmt G) t := by
  have htarget : ∀ x y, G.Readds x y → y ∈ U := by
    rintro x y ⟨hk, hy, -, hav⟩
    exact hU y (hav.free.next hk hy)
  obtain ⟨weight, hweight⟩ := exists_weight U G.next htarget hacyclic
  let μ : LockSpans X → ℕ := fun s =>
    (∑ x ∈ U, phase U s x) * (∑ x ∈ U, weight x + 1) + waiting weight s
  have hbody : ∀ s, Inv G none s → (!s.cxtStmtList.isEmpty) →
      ∃ s', step G s = some s' ∧ Inv G none s' ∧ μ s' < μ s := by
    intro s hs hne
    obtain ⟨cts, w, hpop, hmem, -⟩ := pop_spec (Bool.not_eq_true' _ ▸ hne)
    have hinv := hs.visit hpop
    refine ⟨_, by rw [step, hpop], hinv, ?_⟩
    have hctsU : cts ∈ U := hU cts (hs.free cts (.inl hmem))
    have hbound : waiting weight (visit G { s with cxtStmtList := w } cts) ≤ ∑ x ∈ U, weight x :=
      waiting_le weight fun x hx => hU x (hinv.free x (.inl hx))
    -- either a phase is lower, or the weight that waits is
    have hdrop : (∀ x, phase U (visit G { s with cxtStmtList := w } cts) x ≤ phase U s x) ∧
        ((∃ x ∈ U, phase U (visit G { s with cxtStmtList := w } cts) x < phase U s x) ∨
          waiting weight (visit G { s with cxtStmtList := w } cts) < waiting weight s) := by
      have hpos : 0 < weight cts := lt_of_le_of_lt (zero_le _) (hweight cts hctsU)
      rw [visit_eq hs hpop]
      by_cases hk : G.kind cts = .release
      · rw [if_pos hk]
        obtain ⟨hle, hwait⟩ := measure_entered (U := U) hpop false weight
        exact ⟨hle, .inr (by omega)⟩
      · rw [if_neg hk]
        obtain ⟨hle, hwait⟩ := measure_entered (U := U) hpop (decide (G.kind cts = .acquire)) weight
        obtain ⟨hle', hrest⟩ := Visiting.measure_markAll U hU weight (G.next cts) _
          (hs.visiting hpop hk) fun y hy => hy
        refine ⟨fun x => (hle' x).trans (hle x), ?_⟩
        rcases hrest with ⟨x, hx, hlt⟩ | hrest
        · exact .inl ⟨x, hx, lt_of_lt_of_le hlt (hle x)⟩
        · have hlt := hweight cts hctsU
          exact .inr (hrest.trans_lt (by omega))
    obtain ⟨hle, hdrop⟩ := hdrop
    rcases hdrop with ⟨x, hx, hlt⟩ | hdrop
    · have hsum := Finset.sum_lt_sum (fun x _ => hle x) ⟨x, hx, hlt⟩
      calc _ ≤ (∑ x ∈ U, phase U (visit G { s with cxtStmtList := w } cts) x) *
              (∑ x ∈ U, weight x + 1) + ∑ x ∈ U, weight x := Nat.add_le_add_left hbound _
        _ < (∑ x ∈ U, phase U (visit G { s with cxtStmtList := w } cts) x + 1) *
              (∑ x ∈ U, weight x + 1) := by
            rw [add_mul, one_mul]
            omega
        _ ≤ (∑ x ∈ U, phase U s x) * (∑ x ∈ U, weight x + 1) := mul_le_mul_right _ hsum
        _ ≤ _ := le_add_right _ _
    · have hsum := Finset.sum_le_sum fun x (_ : x ∈ U) => hle x
      exact add_lt_add_of_le_of_lt (mul_le_mul_right _ hsum) hdrop
  obtain ⟨t, ht, -, -⟩ := whileM_total hbody inv_init
  exact ⟨t, ht⟩

end Total

-- ── runs

variable (G) in
/-- The runs of the loop in which every iteration meets `P`. -/
inductive Runs (P : LockSpans X → X → Prop) : LockSpans X → Prop
  | init : Runs P (init G)
  | iter {s : LockSpans X} {w : FIFOWorkList X} {cts : X} (h : Runs P s)
      (hpop : s.cxtStmtList.pop = some (cts, w)) (hok : P s cts) :
      Runs P (visit G { s with cxtStmtList := w } cts)

variable {P : LockSpans X → X → Prop}

theorem Runs.inv (h : Runs G P s) : Inv G none s := by
  induction h with
  | init => exact inv_init
  | iter _ hpop _ ih => exact ih.visit hpop

theorem Runs.stops (h : Runs G P s) (hdone : s.cxtStmtList.isEmpty) :
    Stops (analyzeLockSpanCxtStmt G) s := by
  have hreach : ∃ n, ∀ fuel, whileM (fun s : LockSpans X => !s.cxtStmtList.isEmpty) (step G)
      (n + fuel) (LockSpans.init G) = whileM (fun s => !s.cxtStmtList.isEmpty) (step G) fuel s := by
    clear hdone
    induction h with
    | init => exact ⟨0, fun fuel => by rw [zero_add]⟩
    | @iter s w cts _ hpop _ ih =>
      obtain ⟨n, hn⟩ := ih
      refine ⟨n + 1, fun fuel => ?_⟩
      have hne : (!s.cxtStmtList.isEmpty) := by
        rw [FIFOWorkList.isEmpty, dataList_pop hpop]
        rfl
      rw [add_assoc, add_comm 1, hn, whileM, if_pos hne, step, hpop]
      rfl
  obtain ⟨n, hn⟩ := hreach
  refine stops_of_whileM (n := n + 1) ?_
  rw [hn, whileM, hdone]
  rfl

theorem runs_of_stops (h : Stops (analyzeLockSpanCxtStmt G) s) :
    Runs G (fun _ _ => True) s ∧ s.cxtStmtList.isEmpty := by
  have hstep : ∀ u v, Runs G (fun _ _ => True) u → step G u = some v →
      Runs G (fun _ _ => True) v := by
    intro u v hruns hv
    rw [step] at hv
    cases hpop : u.cxtStmtList.pop with
    | none => cases hpop ▸ hv
    | some r =>
      rw [hpop] at hv
      exact some.inj hv ▸ hruns.iter hpop trivial
  obtain ⟨n, hn⟩ := h
  have hn := hn (n + 1) (lt_succ_self n)
  refine ⟨whileM_keeps hstep (n + 1) _ _ .init hn, ?_⟩
  have hcond := cond_of_whileM hn
  exact Bool.not_eq_false' _ ▸ hcond

/-- **What is visited**: exactly what some way reaches with no release before it. -/
theorem visited_iff (h : Stops (analyzeLockSpanCxtStmt G) s) (x : X) :
    x ∈ s.instToCxtStmtSet ↔ G.Free x := by
  obtain ⟨hruns, hdone⟩ := runs_of_stops h
  have hinv := hruns.inv
  have hvisited : ∀ y, s.Reached y → y ∈ s.instToCxtStmtSet := by
    rintro y (hy | hy)
    · rw [den_of_isEmpty hdone] at hy
      exact absurd hy (Set.notMem_empty y)
    · exact hy
  constructor
  · exact fun hx => hinv.free x (.inr hx)
  · intro hx
    induction hx with
    | entry he => exact hvisited _ (hinv.entry _ he).1
    | @next y z _ hk hz ih => exact hvisited z (hinv.follow y ih (some_ne_none y) hk z hz)

-- ── where the locksets are right

variable (G) in
/-- The iterations in which nothing is lost: no lock comes to a statement that waits for its
    first lockset and has been given the empty one. -/
def StepOk (s : LockSpans X) (cts : X) : Prop :=
  ∀ tgr ∈ G.next cts, tgr ≠ cts → tgr ∈ s.cxtStmtList.den → s.cxtStmtToCxtLockSet tgr = none →
    G.kind cts ≠ .acquire ∧ s.getCxtLockfromCxtStmt cts = ∅

variable (G) in
/-- What has been walked and does not wait has passed its lockset on: a statement that follows
    it has no other lock, its own apart. -/
def Passed (cur : Option X) (s : LockSpans X) : Prop :=
  ∀ x ∈ s.instToCxtStmtSet, x ∉ s.cxtStmtList.den → some x ≠ cur → G.kind x ≠ .release →
    ∀ y ∈ G.next x, ∀ l ∈ s.getCxtLockfromCxtStmt y, l ≠ y → l ∈ s.getCxtLockfromCxtStmt x

section Passed

variable {t : LockSpans X} {cur tgr : X}

theorem Passed.mark (h : Passed G (some cur) s) (hv : Visiting G cur s)
    (hm : Marked s t tgr (s.getCxtLockfromCxtStmt cur)) (htgr : tgr ∈ G.next cur)
    (hfirst : s.getCxtLockfromCxtStmt cur ≠ ∅ → ∀ y ∈ G.next cur,
      s.cxtStmtToCxtLockSet y = none → y ∉ s.cxtStmtList.den) :
    Passed G (some cur) t := by
  intro x hx hwait hcur hk y hy l hl hly
  rw [hm.visited] at hx
  rw [hm.den] at hwait
  have hxs : x ∉ s.cxtStmtList.den := fun hmem => hwait (.inl hmem)
  have hsame : t.getCxtLockfromCxtStmt x = s.getCxtLockfromCxtStmt x := by
    by_cases hxt : x = tgr
    · have hsub : s.getCxtLockfromCxtStmt tgr ⊆ s.getCxtLockfromCxtStmt cur := by
        by_contra hshrink
        exact hwait (.inr ⟨hxt, .inr hshrink⟩)
      subst hxt
      rw [hm.locks_later (hv.touched x hx)]
      exact Finset.inter_eq_left.mpr hsub
    · exact hm.locks_others hxt
  rw [hsame]
  refine h x hx hxs hcur hk y hy l ?_ hly
  by_cases hyt : y = tgr
  · subst hyt
    by_cases hnone : s.cxtStmtToCxtLockSet y = none
    · rw [hm.locks_first hnone] at hl
      rcases hv.follow x hx hcur hk y hy with hyw | hyv
      · exact absurd hyw (hfirst (Finset.ne_empty_of_mem hl) y htgr hnone)
      · exact absurd hnone (hv.touched y hyv)
    · rw [hm.locks_later hnone] at hl
      exact (mem_inter.mp hl).1
  · rw [hm.locks_others hyt] at hl
    exact hl

theorem Passed.all_marked : ∀ (l : List X) (s : LockSpans X), Passed G (some cur) s →
    Visiting G cur s → (∀ y ∈ l, y ∈ G.next cur) →
    (s.getCxtLockfromCxtStmt cur ≠ ∅ → ∀ y ∈ G.next cur,
      s.cxtStmtToCxtLockSet y = none → y ∉ s.cxtStmtList.den) →
    Passed G (some cur) (markAll cur l s) ∧
    (∀ y, s.getCxtLockfromCxtStmt y ⊆ s.getCxtLockfromCxtStmt cur →
      (markAll cur l s).getCxtLockfromCxtStmt y ⊆
        s.getCxtLockfromCxtStmt cur) ∧
    ∀ y ∈ l, (markAll cur l s).getCxtLockfromCxtStmt y ⊆
      s.getCxtLockfromCxtStmt cur := by
  intro l
  induction l with
  | nil => exact fun s h _ _ _ => ⟨h, fun _ hy => hy, nofun⟩
  | cons tgr l ih =>
    intro s h hv hl hfirst
    have hm := mark_spec s tgr cur
    have htgr := hl tgr mem_cons_self
    have hcur := hv.locks_cur hm
    have hfirst' : (s.markCxtStmtFlag tgr cur).getCxtLockfromCxtStmt cur ≠ ∅ →
        ∀ y ∈ G.next cur, (s.markCxtStmtFlag tgr cur).cxtStmtToCxtLockSet y = none →
        y ∉ (s.markCxtStmtFlag tgr cur).cxtStmtList.den := by
      intro hne y hy hnone
      rw [hcur] at hne
      have hyt : y ≠ tgr := by
        rintro rfl
        by_cases hold : s.cxtStmtToCxtLockSet y = none
        · rw [(hm.first hold).1, if_neg hne] at hnone
          cases hnone
        · obtain ⟨L, hL⟩ := ne_none_iff_exists'.mp hold
          rw [(hm.later L hL).1] at hnone
          cases hnone
      rw [hm.others y hyt] at hnone
      rw [hm.den]
      rintro (hmem | ⟨heq, -⟩)
      · exact hfirst hne y hy hnone hmem
      · exact hyt heq
    obtain ⟨hp, hkept, hall⟩ := ih _ (h.mark hv hm htgr hfirst) (hv.mark hm htgr)
      (forall_mem_cons.mp hl).2 hfirst'
    rw [hcur] at hkept hall
    refine ⟨hp, fun y hy => hkept y ?_, fun y hy => ?_⟩
    · by_cases hyt : y = tgr
      · rw [hyt]
        exact hm.locks_subset
      · rw [hm.locks_others hyt]
        exact hy
    · rcases mem_cons.mp hy with rfl | hy
      · exact hkept y hm.locks_subset
      · exact hall y hy

/-- **One iteration** passes on what it should. -/
theorem Passed.visit (h : Passed G none s) (hinv : Inv G none s)
    (hpop : s.cxtStmtList.pop = some (cts, w)) (hok : StepOk G s cts) :
    Passed G none (visit G { s with cxtStmtList := w } cts) := by
  obtain ⟨hmem, hden⟩ := pop_some hpop
  have henter : ∀ own, (own = true → G.kind cts = .acquire) →
      Passed G (some cts) (entered s w cts own) := by
    intro own hown x hx hwait hcur hk y hy l hl hly
    have hxc : x ≠ cts := fun heq => hcur (congrArg some heq)
    have hx := (mem_insert.mp hx).resolve_left hxc
    have hxs : x ∉ s.cxtStmtList.den := by
      intro hxs
      have hxw : x ∈ w.den := by
        rw [hden]
        exact ⟨hxs, hxc⟩
      exact hwait hxw
    have hl := (mem_locks_entered hl).resolve_right fun hnew => hly (hnew.1.trans hnew.2.1.symm)
    exact locks_le_entered x (h x hx hxs (some_ne_none x) hk y hy l hl hly)
  rw [visit_eq hinv hpop]
  by_cases hk : G.kind cts = .release
  · rw [if_pos hk]
    intro x hx hwait _ hkx
    refine henter false nofun x hx hwait ?_ hkx
    exact fun heq => hkx (some.inj heq ▸ hk)
  · rw [if_neg hk]
    have hv := hinv.visiting hpop hk
    have hfirst : (entered s w cts (decide (G.kind cts = .acquire))).getCxtLockfromCxtStmt cts ≠ ∅ →
        ∀ y ∈ G.next cts, (entered s w cts (decide (G.kind cts = .acquire))).cxtStmtToCxtLockSet y =
          none → y ∉ w.den := by
      intro hne y hy hnone hyw
      rw [map_entered] at hnone
      by_cases hyc : y = cts
      · rw [if_pos hyc] at hnone
        cases hnone
      · rw [if_neg hyc] at hnone
        rw [hden] at hyw
        obtain ⟨hacq, hempty⟩ := hok y hy hyc hyw.1 hnone
        rw [locks_entered, if_neg fun h => hacq (of_decide_eq_true h.2)] at hne
        exact hne hempty
    obtain ⟨hp, -, hall⟩ := Passed.all_marked (G.next cts) _ (henter _ of_decide_eq_true) hv
      (fun y hy => hy) hfirst
    obtain ⟨-, hcur, -, -⟩ := Visiting.all_marked (G.next cts) _ hv fun y hy => hy
    intro x hx hwait _ hkx y hy l hl hly
    by_cases hxc : x = cts
    · subst hxc
      rw [propagate, ← markAll, hcur]
      exact hall y hy hl
    · exact hp x hx hwait (fun heq => hxc (some.inj heq)) hkx y hy l hl hly

theorem Runs.passed (h : Runs G (StepOk G) s) : Passed G none s := by
  induction h with
  | init => exact fun x hx => absurd hx (notMem_empty x)
  | @iter s w cts hruns hpop hok ih => exact ih.visit hruns.inv hpop hok

end Passed

section Held

variable (h : Runs G (StepOk G) s) (hdone : s.cxtStmtList.isEmpty = true)
include h hdone

theorem Runs.mem_locks {x l : X} (hx : G.Free x) (hk : G.kind l = .acquire) (hne : l ≠ x) :
    l ∈ s.getCxtLockfromCxtStmt x ↔ ¬ G.Avoids l x := by
  have hvisited := visited_iff (h.stops hdone)
  constructor
  · intro hl havoid
    clear hx hne
    induction havoid with
    | entry he hne => exact hne (Finset.mem_singleton.mp ((h.inv.entry _ he).2 hl))
    | @next x y havoid hkx hy hne ih =>
      refine ih (h.passed x ((hvisited x).mpr havoid.free) ?_ (some_ne_none x) hkx y hy l hl hne)
      rw [den_of_isEmpty hdone]
      exact Set.notMem_empty x
  · intro havoid
    by_contra hl
    exact havoid (h.inv.avoid x l (.inr ((hvisited x).mpr hx)) hk hne hl)

/-- **Locksets are held locks** after a run whose iterations are all right, and all that a way
    reaches is visited, exactly where what directly follows a release is reached without it and
    has only locks that were held at the release and are not released by it. -/
theorem Runs.held_iff {releases : X → X → Prop} (hrel : ∀ r l, releases r l → G.kind r = .release) :
    (∀ π x, G.Path π x → x ∈ s.instToCxtStmtSet ∧
      ∀ l ∈ s.getCxtLockfromCxtStmt x, SpanGraph.Held releases l π) ↔
    G.ReleasesOk releases := by
  have hvisited := visited_iff (h.stops hdone)
  constructor
  · intro hall x hx hk y hy
    obtain ⟨π, hπ⟩ := hx.path
    have hfree := (hvisited y).mp (hall _ _ (hπ.next hy)).1
    refine ⟨hfree, fun l hkl hne havoid => ?_⟩
    have hl := (h.mem_locks hdone hfree hkl hne).mpr havoid
    have hlx : l ≠ x := by
      rintro rfl
      rw [hk] at hkl
      cases hkl
    have hback : ∀ ρ, G.Path ρ x → l ∈ ρ ∧ ¬ releases x l := fun ρ hρ =>
      ((hall _ _ (hρ.next hy)).2 l hl).before hρ hne hlx
    refine ⟨fun hav => ?_, (hback π hπ).2⟩
    obtain ⟨ρ, hρ, hnot⟩ := hav.path
    exact hnot (hback ρ hρ).1
  · intro hok π x hπ
    induction hπ with
    | @entry e he =>
      refine ⟨(hvisited e).mpr (.entry he), fun l hl => ?_⟩
      rw [Finset.mem_singleton.mp ((h.inv.entry e he).2 hl)]
      exact SpanGraph.Held.now releases [] e
    | @next π x y hπ hy ih =>
      obtain ⟨hx, hlocks⟩ := ih
      have hxw : x ∉ s.cxtStmtList.den := by
        rw [den_of_isEmpty hdone]
        exact Set.notMem_empty x
      have hfreex := (hvisited x).mp hx
      -- what `y` has, `x` has and does not release
      have hfrom : G.Free y ∧ ∀ l ∈ s.getCxtLockfromCxtStmt y, l ≠ y →
          l ∈ s.getCxtLockfromCxtStmt x ∧ ¬ releases x l := by
        by_cases hk : G.kind x = .release
        · obtain ⟨hfree, hkeep⟩ := hok x hfreex hk y hy
          refine ⟨hfree, fun l hl hne => ?_⟩
          have hkl := (h.inv.key y l hl).1
          obtain ⟨havoid, hnot⟩ := hkeep l hkl hne ((h.mem_locks hdone hfree hkl hne).mp hl)
          have hlx : l ≠ x := by
            rintro rfl
            rw [hk] at hkl
            cases hkl
          exact ⟨(h.mem_locks hdone hfreex hkl hlx).mpr havoid, hnot⟩
        · refine ⟨hfreex.next hk hy, fun l hl hne => ⟨?_, fun hr => hk (hrel x l hr)⟩⟩
          exact h.passed x hx hxw (some_ne_none x) hk y hy l hl hne
      refine ⟨(hvisited y).mpr hfrom.1, fun l hl => ?_⟩
      by_cases hne : l = y
      · rw [hne]
        exact SpanGraph.Held.now releases π y
      · obtain ⟨hlx, hnot⟩ := hfrom.2 l hl hne
        exact (hlocks l hlx).next hπ hnot

end Held

end LockSpans

end SvfLockSpan
