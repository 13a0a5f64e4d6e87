import SvfModel.SccProofs

/-!
# Tarjan's search for components

The search numbers the nodes as it comes to them and keeps on a stack those whose component is not
closed. The heart is `Inv`, which does not mention `lowlink` at all: what is on the stack reaches
what is above it, and reaches back to a node whose visit is running. `Low` says what `lowlink`
knows while a visit is running: it is the number of a node on the stack that can be reached, and
no edge from what the visit has put on the stack goes below it. So a visit that ends with its own
number as `lowlink` has its component on top of the stack (`Running.component`).

**`detect_spec`**: the components are the classes of mutual reachability, and an edge never goes to
a component with a larger number.
-/

namespace SvfTarjan

open SvfScc Relation List Nat
open Function (update update_of_ne update_self)
open Option (ne_none_iff_exists' some_inj)

variable {N : Type} [DecidableEq N]

structure Search (N : Type) where
  partOf : N → Option ℕ
  idx : N → Option ℕ
  low : N → ℕ
  onStack : N → Bool
  stack : List N
  index : ℕ
  count : ℕ

namespace Search

/-- Nothing is visited. -/
def start : Search N := ⟨fun _ => none, fun _ => none, fun _ => 0, fun _ => false, [], 0, 0⟩

/-- A visit begins. -/
def enter (s : Search N) (v : N) : Search N :=
  { s with
    idx := update s.idx v (some s.index)
    low := update s.low v s.index
    onStack := update s.onStack v true
    stack := v :: s.stack
    index := s.index + 1 }

/-- `lowlink` is lowered. -/
def lower (s : Search N) (v : N) (i : ℕ) : Search N :=
  { s with low := update s.low v (min (s.low v) i) }

/-- The nodes on the stack down to `v` become a component. -/
def pop (v : N) : List N → Search N → Search N
  | [], s => { s with stack := [] }
  | w :: stack, s =>
    let s : Search N := { s with
      onStack := update s.onStack w false
      stack := stack
      partOf := update s.partOf w (some s.count) }
    if w = v then s else pop v stack s

/-- A visit ends. -/
def leave (s : Search N) (v : N) : Search N :=
  if s.idx v = some (s.low v) then { pop v s.stack s with count := s.count + 1 } else s

def follow (visit : Search N → N → Search N) (v : N) (s : Search N) (w : N) : Search N :=
  match s.idx w with
  | none => (visit s w).lower v ((visit s w).low w)
  | some i => if s.onStack w then s.lower v i else s

def visit (next : N → List N) : ℕ → Search N → N → Search N
  | 0, s, _ => s
  | fuel + 1, s, v => ((next v).foldl (follow (visit next fuel) v) (s.enter v)).leave v

def visitAll (next : N → List N) (fuel : ℕ) (s : Search N) (vs : List N) : Search N :=
  vs.foldl (fun s v => if s.idx v = none then visit next fuel s v else s) s

def detect (next : N → List N) (fuel : ℕ) (starts : List N) : Search N :=
  visitAll next fuel start starts

/-- The number of a visited node. -/
def num (s : Search N) (n : N) : ℕ := (s.idx n).getD 0

end Search

open Search

/-- The second node is a successor of the first. -/
abbrev Edge (next : N → List N) (a b : N) : Prop := b ∈ next a

variable {next : N → List N} {path : List N} {s t u : Search N} {v w : N}

omit [DecidableEq N] in
theorem num_of_idx {n : N} {i : ℕ} (h : s.idx n = some i) : s.num n = i := by
  unfold num
  rw [h]
  rfl

-- ── The invariant

/-- The invariant, with the nodes whose visit is running, the innermost first. -/
structure Inv (next : N → List N) (path : List N) (s : Search N) : Prop where
  idx_lt : ∀ n i, s.idx n = some i → i < s.index
  visited : ∀ n ∈ s.stack, s.idx n ≠ none
  on_iff : ∀ n, s.onStack n = true ↔ n ∈ s.stack
  sorted : s.stack.Pairwise (fun a b => s.num b < s.num a)
  done_iff : ∀ n, s.partOf n ≠ none ↔ s.idx n ≠ none ∧ n ∉ s.stack
  path_mem : ∀ n ∈ path, n ∈ s.stack
  path_sorted : path.Pairwise (fun a b => s.num b < s.num a)
  stack_reach : ∀ a ∈ s.stack, ∀ b ∈ s.stack, s.num a ≤ s.num b → Reach (Edge next) a b
  stack_path : ∀ b ∈ s.stack, ∃ a ∈ path, s.num a ≤ s.num b ∧ Reach (Edge next) b a
  black : ∀ a, s.idx a ≠ none → a ∉ path → ∀ b, Edge next a b → s.idx b ≠ none
  done_edge : ∀ a b c, s.partOf a = some c → Edge next a b → ∃ d ≤ c, s.partOf b = some d
  done_mutual : ∀ a b c d, s.partOf a = some c → s.partOf b = some d →
    (c = d ↔ Mutual (Edge next) a b)
  part_lt : ∀ n c, s.partOf n = some c → c < s.count
  part_onto : ∀ c < s.count, ∃ n, s.partOf n = some c

/-- From before a visit of `v` to a later state: what was visited is as it was, and what is new has
    a larger number, is reached from `v`, and lies on top of the stack if it is on it. -/
structure Frame (next : N → List N) (v : N) (s t : Search N) : Prop where
  idx_keep : ∀ n, s.idx n ≠ none → t.idx n = s.idx n
  low_keep : ∀ n, s.idx n ≠ none → t.low n = s.low n
  stack : ∃ xs, t.stack = xs ++ s.stack ∧ ∀ x ∈ xs, s.idx x = none
  new : ∀ n i, s.idx n = none → t.idx n = some i → s.index ≤ i ∧ Reach (Edge next) v n
  index : s.index ≤ t.index

/-- What `lowlink` of `v` says once the successors in `pre` have been followed. -/
structure Low (next : N → List N) (v : N) (pre : List N) (s : Search N) : Prop where
  le : s.low v ≤ s.num v
  reach : ∃ y ∈ s.stack, s.num y = s.low v ∧ Reach (Edge next) v y
  edge : ∀ x ∈ s.stack, s.num v ≤ s.num x → ∀ z ∈ s.stack, Edge next x z →
    (x = v → z ∈ pre) → s.num z < s.num v → s.low v ≤ s.num z

structure Running (next : N → List N) (path : List N) (v : N) (pre : List N) (s t : Search N) :
    Prop where
  inv : Inv next (v :: path) t
  frame : Frame next v s t
  fresh : s.idx v = none
  idx : t.idx v = some s.index
  low : Low next v pre t
  seen : ∀ w ∈ pre, t.idx w ≠ none

structure Visited (next : N → List N) (path : List N) (v : N) (s t : Search N) : Prop where
  inv : Inv next path t
  frame : Frame next v s t
  idx : t.idx v = some s.index
  low : t.low v < s.index → ∃ y ∈ t.stack, t.num y = t.low v ∧ Reach (Edge next) v y
  edge : ∀ x ∈ t.stack, s.index ≤ t.num x → ∀ z ∈ t.stack, Edge next x z →
    t.num z < s.index → t.low v ≤ t.num z

section

omit [DecidableEq N]

theorem Inv.num_lt (h : Inv next path s) {n : N} (hn : s.idx n ≠ none) : s.num n < s.index := by
  obtain ⟨i, hi⟩ := ne_none_iff_exists'.mp hn
  rw [num_of_idx hi]
  exact h.idx_lt n i hi

theorem Frame.refl (v : N) (s : Search N) : Frame next v s s where
  idx_keep _ _ := rfl
  low_keep _ _ := rfl
  stack := ⟨[], rfl, by simp⟩
  new n i hnone hsome := absurd (hnone.symm.trans hsome) (by simp)
  index := le_refl _

section

variable (h : Frame next v s t)
include h

theorem Frame.num_keep {n : N} (hn : s.idx n ≠ none) :
    t.num n = s.num n := by
  unfold num
  rw [h.idx_keep n hn]

theorem Frame.visited {n : N} (hn : s.idx n ≠ none) : t.idx n ≠ none := by
  rw [h.idx_keep n hn]
  exact hn

theorem Frame.old {n : N} (hn : t.idx n ≠ none)
    (hlt : t.num n < s.index) : s.idx n ≠ none := by
  intro hnone
  obtain ⟨i, hi⟩ := ne_none_iff_exists'.mp hn
  rw [num_of_idx hi] at hlt
  exact absurd (h.new n i hnone hi).1 (not_le.mpr hlt)

theorem Frame.mem_stack {n : N} (hn : s.idx n ≠ none) :
    n ∈ t.stack ↔ n ∈ s.stack := by
  obtain ⟨xs, hxs, hnew⟩ := h.stack
  rw [hxs, mem_append]
  exact or_iff_right fun hx => hn (hnew n hx)

/-- A later visit of a node reached from `v`. -/
theorem Frame.trans (h' : Frame next w t u)
    (hvw : Reach (Edge next) v w) : Frame next v s u := by
  constructor
  case idx_keep =>
    intro n hn
    rw [h'.idx_keep n (h.visited hn), h.idx_keep n hn]
  case low_keep =>
    intro n hn
    rw [h'.low_keep n (h.visited hn), h.low_keep n hn]
  case stack =>
    obtain ⟨xs, hxs, hnew⟩ := h.stack
    obtain ⟨ys, hys, hnew'⟩ := h'.stack
    refine ⟨ys ++ xs, by rw [hys, hxs, append_assoc], ?_⟩
    intro x hx
    rcases mem_append.mp hx with hx | hx
    · by_contra hsx
      exact h.visited hsx (hnew' x hx)
    · exact hnew x hx
  case new =>
    intro n i hnone hsome
    by_cases hn : t.idx n = none
    · obtain ⟨hle, hreach⟩ := h'.new n i hn hsome
      exact ⟨h.index.trans hle, hvw.trans hreach⟩
    · rw [h'.idx_keep n hn] at hsome
      exact h.new n i hnone hsome
  case index => exact h.index.trans h'.index

end

end

-- ── A visit begins

omit [DecidableEq N] in
theorem inv_start : Inv next [] (start : Search N) := by
  constructor <;> simp [start]

theorem Inv.lower (h : Inv next path s) (v : N) (i : ℕ) : Inv next path (s.lower v i) :=
  { h with }

theorem Frame.lower (h : Frame next v s t) (hv : s.idx v = none) (i : ℕ) :
    Frame next v s (t.lower v i) :=
  { h with
    low_keep := by
      intro n hn
      have hne : n ≠ v := fun heq => hn (heq ▸ hv)
      show update t.low v (min (t.low v) i) n = s.low n
      rw [update_of_ne hne, h.low_keep n hn] }

section

variable (s : Search N)

theorem enter_idx_self (v : N) : (s.enter v).idx v = some s.index := update_self ..

theorem enter_idx_of_ne {v n : N} (h : n ≠ v) : (s.enter v).idx n = s.idx n :=
  update_of_ne h ..

theorem enter_num_self (v : N) : (s.enter v).num v = s.index :=
  num_of_idx (enter_idx_self s v)

theorem enter_num_of_ne {v n : N} (h : n ≠ v) : (s.enter v).num n = s.num n := by
  unfold num
  rw [enter_idx_of_ne s h]

theorem enter_visited {v n : N} :
    (s.enter v).idx n ≠ none ↔ n = v ∨ s.idx n ≠ none := by
  by_cases hn : n = v
  · subst hn
    simp [enter_idx_self]
  · rw [enter_idx_of_ne s hn]
    exact (or_iff_right hn).symm

end

theorem frame_enter (hv : s.idx v = none) : Frame next v s (s.enter v) := by
  have hne : ∀ {n}, s.idx n ≠ none → n ≠ v := fun hn heq => hn (heq ▸ hv)
  constructor
  case idx_keep => exact fun n hn => enter_idx_of_ne s (hne hn)
  case low_keep => exact fun n hn => update_of_ne (hne hn) ..
  case stack =>
    refine ⟨[v], rfl, ?_⟩
    rw [forall_mem_singleton]
    exact hv
  case new =>
    intro n i hnone hsome
    by_cases hn : n = v
    · subst hn
      rw [enter_idx_self, some_inj] at hsome
      exact ⟨hsome.le, .refl⟩
    · rw [enter_idx_of_ne s hn, hnone] at hsome
      cases hsome
  case index => exact le_succ _

section

variable (h : Inv next path s) (hv : s.idx v = none) (hpath : ∀ a ∈ path, Reach (Edge next) a v)
include h hv hpath

theorem Inv.enter : Inv next (v :: path) (s.enter v) := by
  have hfresh : ∀ {n}, s.idx n ≠ none → n ≠ v := fun hn heq => hn (heq ▸ hv)
  have hnum : ∀ {n}, s.idx n ≠ none → (s.enter v).num n = s.num n ∧ s.num n < s.index :=
    fun hn => ⟨enter_num_of_ne s (hfresh hn), h.num_lt hn⟩
  have hself := enter_num_self s v
  have hpart : ∀ {n c}, s.partOf n = some c → s.idx n ≠ none :=
    fun hn => ((h.done_iff _).mp (by rw [hn]; simp)).1
  constructor
  case idx_lt =>
    intro n i hi
    show i < s.index + 1
    by_cases hn : n = v
    · subst hn
      rw [enter_idx_self, some_inj] at hi
      omega
    · rw [enter_idx_of_ne s hn] at hi
      have := h.idx_lt n i hi
      omega
  case visited =>
    intro n hn
    rw [enter_visited]
    exact (mem_cons.mp hn).imp_right (h.visited n)
  case on_iff =>
    intro n
    show update s.onStack v true n ↔ n ∈ v :: s.stack
    by_cases hn : n = v
    · subst hn
      simp
    · rw [update_of_ne hn, h.on_iff, mem_cons, or_iff_right hn]
  case sorted =>
    refine pairwise_cons.mpr ⟨?_, ?_⟩
    · intro b hb
      obtain ⟨hkeep, hlt⟩ := hnum (h.visited b hb)
      rw [hself, hkeep]
      exact hlt
    · refine h.sorted.imp_of_mem ?_
      intro a b ha hb hab
      rw [(hnum (h.visited a ha)).1, (hnum (h.visited b hb)).1]
      exact hab
  case done_iff =>
    intro n
    show s.partOf n ≠ none ↔ (s.enter v).idx n ≠ none ∧ n ∉ v :: s.stack
    rw [h.done_iff, enter_visited, mem_cons, not_or]
    constructor
    · exact fun hn => ⟨.inr hn.1, hfresh hn.1, hn.2⟩
    · exact fun hn => ⟨hn.1.resolve_left hn.2.1, hn.2.2⟩
  case path_mem =>
    intro n hn
    rcases mem_cons.mp hn with rfl | hn
    · exact mem_cons_self
    · exact mem_cons_of_mem v (h.path_mem n hn)
  case path_sorted =>
    refine pairwise_cons.mpr ⟨?_, ?_⟩
    · intro b hb
      obtain ⟨hkeep, hlt⟩ := hnum (h.visited b (h.path_mem b hb))
      rw [hself, hkeep]
      exact hlt
    · refine h.path_sorted.imp_of_mem ?_
      intro a b ha hb hab
      rw [(hnum (h.visited a (h.path_mem a ha))).1, (hnum (h.visited b (h.path_mem b hb))).1]
      exact hab
  case stack_reach =>
    -- what is on the stack reaches a running node, and that reaches `v`
    have hto : ∀ a ∈ s.stack, Reach (Edge next) a v := by
      intro a ha
      obtain ⟨p, hp, _, hap⟩ := h.stack_path a ha
      exact hap.trans (hpath p hp)
    intro a ha b hb hab
    rcases mem_cons.mp ha with rfl | has
    · rcases mem_cons.mp hb with rfl | hb
      · exact .refl
      · obtain ⟨hkeep, hlt⟩ := hnum (h.visited b hb)
        omega
    · rcases mem_cons.mp hb with rfl | hb
      · exact hto a has
      · rw [(hnum (h.visited a has)).1, (hnum (h.visited b hb)).1] at hab
        exact h.stack_reach a has b hb hab
  case stack_path =>
    intro b hb
    rcases mem_cons.mp hb with rfl | hb
    · exact ⟨b, mem_cons_self, le_refl _, .refl⟩
    · obtain ⟨a, ha, hab, hreach⟩ := h.stack_path b hb
      refine ⟨a, mem_cons_of_mem v ha, ?_, hreach⟩
      rw [(hnum (h.visited a (h.path_mem a ha))).1, (hnum (h.visited b hb)).1]
      exact hab
  case black =>
    intro a ha hnot b hE
    rw [mem_cons, not_or] at hnot
    rw [enter_visited] at ha ⊢
    exact .inr (h.black a (ha.resolve_left hnot.1) hnot.2 b hE)
  case done_edge => exact h.done_edge
  case done_mutual => exact h.done_mutual
  case part_lt => exact h.part_lt
  case part_onto => exact h.part_onto

theorem Inv.running : Running next path v [] s (s.enter v) := by
  have hlow : (s.enter v).low v = s.index := update_self ..
  have hnum := enter_num_self s v
  constructor
  case inv => exact h.enter hv hpath
  case frame => exact frame_enter hv
  case fresh => exact hv
  case idx => exact enter_idx_self s v
  case low =>
    constructor
    case le => rw [hlow, hnum]
    case reach =>
      exact ⟨v, mem_cons_self, hnum.trans hlow.symm, .refl⟩
    case edge =>
      intro x hx hle z _ _ hpre _
      rcases mem_cons.mp hx with rfl | hx
      · cases hpre rfl
      · have hne : x ≠ v := fun heq => h.visited x hx (heq ▸ hv)
        have := h.num_lt (h.visited x hx)
        rw [hnum, enter_num_of_ne s hne] at hle
        omega
  case seen => exact nofun

end

-- ── The successors

section

variable {pre : List N} (h : Running next path v pre s t)
include h

/-- A running visit goes on to `u` over what a successor `w` brings, and lowers `lowlink` to
    `i`. -/
theorem Running.lower {i : ℕ} (hE : Edge next v w) (hinv : Inv next (v :: path) u)
    (hframe : Frame next w t u) (hw : u.idx w ≠ none)
    (hreach : i < t.low v → ∃ y ∈ u.stack, u.num y = i ∧ Reach (Edge next) w y)
    (hedge : ∀ x ∈ u.stack, ∀ z ∈ u.stack, Edge next x z → t.idx x = none ∨ z = w → u.num z < t.num v → i ≤ u.num z) :
    Running next path v (w :: pre) s (u.lower v i) := by
  have hvt : t.idx v ≠ none := by
    rw [h.idx]
    simp
  have hnumv : u.num v = t.num v := hframe.num_keep hvt
  have hlow : (u.lower v i).low v = min (t.low v) i := by
    show update u.low v (min (u.low v) i) v = _
    rw [update_self, hframe.low_keep v hvt]
  constructor
  case inv => exact hinv.lower v i
  case frame => exact (h.frame.trans hframe (.single hE)).lower h.fresh i
  case fresh => exact h.fresh
  case idx => exact (hframe.idx_keep v hvt).trans h.idx
  case low =>
    constructor
    case le =>
      rw [hlow]
      exact (min_le_left _ _).trans (h.low.le.trans hnumv.ge)
    case reach =>
      rw [hlow]
      rcases lt_or_ge i (t.low v) with hlt | hle
      · rw [min_eq_right hlt.le]
        obtain ⟨y, hy, hnum, hwy⟩ := hreach hlt
        exact ⟨y, hy, hnum, .head hE hwy⟩
      · rw [min_eq_left hle]
        obtain ⟨y, hy, hnum, hvy⟩ := h.low.reach
        have hvis := h.inv.visited y hy
        exact ⟨y, (hframe.mem_stack hvis).mpr hy, (hframe.num_keep hvis).trans hnum, hvy⟩
    case edge =>
      intro x hx hle z hz hxz hpre hlt
      have hlt' : u.num z < t.num v := lt_of_lt_of_eq hlt hnumv
      rw [hlow]
      by_cases hnew : t.idx x = none ∨ z = w
      · exact (min_le_right _ _).trans (hedge x hx z hz hxz hnew hlt')
      · -- an edge from before
        rw [not_or] at hnew
        have hzt : t.idx z ≠ none := hframe.old (hinv.visited z hz) (hlt'.trans (h.inv.num_lt hvt))
        have hle' : t.num v ≤ t.num x := by
          rw [← hnumv, ← hframe.num_keep hnew.1]
          exact hle
        rw [hframe.num_keep hzt] at hlt'
        have := h.low.edge x ((hframe.mem_stack hnew.1).mp hx) hle' z
          ((hframe.mem_stack hzt).mp hz) hxz
          (fun hxv => (mem_cons.mp (hpre hxv)).resolve_left hnew.2) hlt'
        show min (t.low v) i ≤ u.num z
        rw [hframe.num_keep hzt]
        exact (min_le_left _ _).trans this
  case seen =>
    exact forall_mem_cons.mpr ⟨hw, fun x hx => hframe.visited (h.seen x hx)⟩

theorem Running.visited (hE : Edge next v w) (hw : Visited next (v :: path) w t u) :
    Running next path v (w :: pre) s (u.lower v (u.low w)) := by
  have hvt : t.idx v ≠ none := by
    rw [h.idx]
    simp
  have hlt := h.inv.num_lt hvt
  refine h.lower hE hw.inv hw.frame (by rw [hw.idx]; simp) ?_ ?_
  · intro hless
    exact hw.low (hless.trans_le (h.low.le.trans hlt.le))
  · intro x hx z hz hxz hnew hzlt
    refine hw.edge x hx ?_ z hz hxz (hzlt.trans hlt)
    rcases hnew with hnew | rfl
    · obtain ⟨i, hi⟩ := ne_none_iff_exists'.mp (hw.inv.visited x hx)
      rw [num_of_idx hi]
      exact (hw.frame.new x i hnew hi).1
    · rw [num_of_idx hw.idx] at hzlt
      omega

theorem Running.onStack {i : ℕ} (hE : Edge next v w) (hw : t.idx w = some i) (hon : w ∈ t.stack) :
    Running next path v (w :: pre) s (t.lower v i) := by
  have hi := num_of_idx hw
  refine h.lower hE h.inv (Frame.refl w t) (by rw [hw]; simp) ?_ ?_
  · exact fun _ => ⟨w, hon, hi, .refl⟩
  · intro x hx z _ _ hnew _
    rcases hnew with hnew | rfl
    · exact absurd hnew (h.inv.visited x hx)
    · exact hi.ge

omit [DecidableEq N] in
theorem Running.skip (hw : t.idx w ≠ none) (hoff : w ∉ t.stack) :
    Running next path v (w :: pre) s t :=
  { h with
    low :=
      { h.low with
        edge := by
          intro x hx hle z hz hxz hpre hlt
          refine h.low.edge x hx hle z hz hxz (fun hxv => ?_) hlt
          exact (mem_cons.mp (hpre hxv)).resolve_left (fun hzw => hoff (hzw ▸ hz)) }
    seen := forall_mem_cons.mpr ⟨hw, h.seen⟩ }

theorem Running.follow {rec : Search N → N → Search N} (hE : Edge next v w)
    (hrec : t.idx w = none → Visited next (v :: path) w t (rec t w)) :
    Running next path v (w :: pre) s (follow rec v t w) := by
  unfold Search.follow
  cases hw : t.idx w with
  | none => exact h.visited hE (hrec hw)
  | some i =>
    by_cases hon : t.onStack w
    · simp only [hon, if_true]
      exact h.onStack hE hw ((h.inv.on_iff w).mp hon)
    · simp only [hon]
      exact h.skip (by rw [hw]; simp) (fun hmem => hon ((h.inv.on_iff w).mpr hmem))

end

-- ── A visit ends

structure Popped (C : N → Prop) (zs : List N) (s t : Search N) : Prop where
  stack : t.stack = zs
  idx : t.idx = s.idx
  low : t.low = s.low
  index : t.index = s.index
  part_in : ∀ n, C n → t.partOf n = some s.count
  part_ex : ∀ n, ¬C n → t.partOf n = s.partOf n
  on_in : ∀ n, C n → t.onStack n = false
  on_ex : ∀ n, ¬C n → t.onStack n = s.onStack n

theorem pop_popped (zs : List N) : ∀ (ys : List N) (s : Search N), v ∉ ys →
    Popped (fun n => n ∈ ys ∨ n = v) zs s (pop v (ys ++ v :: zs) s) := by
  intro ys
  induction ys with
  | nil =>
    intro s _
    rw [nil_append, pop, if_pos rfl]
    constructor
    case stack => rfl
    case idx => rfl
    case low => rfl
    case index => rfl
    case part_in =>
      rintro n (hn | rfl)
      · cases hn
      · exact update_self ..
    case part_ex => exact fun n hn => update_of_ne (fun heq => hn (.inr heq)) ..
    case on_in =>
      rintro n (hn | rfl)
      · cases hn
      · exact update_self ..
    case on_ex => exact fun n hn => update_of_ne (fun heq => hn (.inr heq)) ..
  | cons y ys ih =>
    intro s hv
    rw [mem_cons, not_or] at hv
    rw [cons_append, pop, if_neg (Ne.symm hv.1)]
    have hrest := ih { s with
      onStack := update s.onStack y false
      stack := ys ++ v :: zs
      partOf := update s.partOf y (some s.count) } hv.2
    have hout : ∀ {n}, ¬(n ∈ y :: ys ∨ n = v) → n ≠ y ∧ ¬(n ∈ ys ∨ n = v) := by
      intro n hn
      rw [mem_cons, or_assoc, not_or] at hn
      exact hn
    constructor
    case stack => exact hrest.stack
    case idx => exact hrest.idx
    case low => exact hrest.low
    case index => exact hrest.index
    case part_in =>
      intro n hn
      by_cases hin : n ∈ ys ∨ n = v
      · exact hrest.part_in n hin
      · rw [mem_cons, or_assoc] at hn
        obtain rfl := hn.resolve_right hin
        rw [hrest.part_ex n hin]
        exact update_self ..
    case part_ex =>
      intro n hn
      rw [hrest.part_ex n (hout hn).2]
      exact update_of_ne (hout hn).1 ..
    case on_in =>
      intro n hn
      by_cases hin : n ∈ ys ∨ n = v
      · exact hrest.on_in n hin
      · rw [mem_cons, or_assoc] at hn
        obtain rfl := hn.resolve_right hin
        rw [hrest.on_ex n hin]
        exact update_self ..
    case on_ex =>
      intro n hn
      rw [hrest.on_ex n (hout hn).2]
      exact update_of_ne (hout hn).1 ..

section

omit [DecidableEq N]

section

variable {pre : List N} (h : Running next path v pre s t)
include h

/-- The stack of a running visit of `v`: what the visit has put on it, `v`, and what was there. -/
theorem Running.split (hs : Inv next path s) :
    ∃ ys, t.stack = ys ++ v :: s.stack ∧ v ∉ ys ∧
      ∀ x, x ∈ ys ∨ x = v ↔ x ∈ t.stack ∧ t.num v ≤ t.num x := by
  obtain ⟨xs, hxs, hnew⟩ := h.frame.stack
  have hnumv := num_of_idx h.idx
  have hv : v ∈ xs := by
    have hmem := h.inv.path_mem v mem_cons_self
    rw [hxs, mem_append] at hmem
    exact hmem.resolve_right (fun hmem => hs.visited v hmem h.fresh)
  obtain ⟨ys, zs, rfl⟩ := append_of_mem hv
  have hsorted := h.inv.sorted
  rw [hxs, append_assoc, cons_append] at hsorted
  obtain ⟨_, hbelow, habove⟩ := pairwise_append.mp hsorted
  have hbelow' := (pairwise_cons.mp hbelow).1
  -- nothing of the visit lies below `v`
  have hzs : zs = [] := by
    rw [eq_nil_iff_forall_not_mem]
    intro z hz
    have hless := hbelow' z (mem_append_left _ hz)
    have hzxs : z ∈ ys ++ v :: zs := mem_append_right ys (mem_cons_of_mem v hz)
    have hzt : t.idx z ≠ none := h.inv.visited z (hxs ▸ mem_append_left _ hzxs)
    refine h.frame.old hzt ?_ (hnew z hzxs)
    omega
  subst hzs
  have hstack : t.stack = ys ++ v :: s.stack := by rw [hxs, append_assoc]; rfl
  refine ⟨ys, hstack, ?_, ?_⟩
  · intro hmem
    exact lt_irrefl _ (habove v hmem v mem_cons_self)
  · intro x
    rw [hstack, mem_append, mem_cons]
    constructor
    · rintro (hx | rfl)
      · exact ⟨.inl hx, (habove x hx v mem_cons_self).le⟩
      · exact ⟨.inr (.inl rfl), le_refl _⟩
    · rintro ⟨hx | rfl | hx, hle⟩
      · exact .inl hx
      · exact .inr rfl
      · have := hbelow' x hx
        omega

/-- If `lowlink` is the number of `v`, then its component is what lies on the stack from `v` on. -/
theorem Running.component (hall : ∀ w ∈ next v, w ∈ pre) (hroot : t.low v = t.num v) :
    (∀ x y, x ∈ t.stack ∧ t.num v ≤ t.num x → Edge next x y →
        (y ∈ t.stack ∧ t.num v ≤ t.num y) ∨ t.partOf y ≠ none) ∧
      ∀ x, (x ∈ t.stack ∧ t.num v ≤ t.num x) ↔ Mutual (Edge next) x v := by
  have hvstack := h.inv.path_mem v mem_cons_self
  have hpathlt := (pairwise_cons.mp h.inv.path_sorted).1
  have hout : ∀ x y, x ∈ t.stack ∧ t.num v ≤ t.num x → Edge next x y →
      (y ∈ t.stack ∧ t.num v ≤ t.num y) ∨ t.partOf y ≠ none := by
    rintro x y ⟨hx, hle⟩ hE
    have hy : t.idx y ≠ none := by
      by_cases hxv : x = v
      · exact h.seen y (hall y (hxv ▸ hE))
      · refine h.inv.black x (h.inv.visited x hx) ?_ y hE
        rw [mem_cons, not_or]
        refine ⟨hxv, fun hxp => ?_⟩
        have := hpathlt x hxp
        omega
    by_cases hys : y ∈ t.stack
    · refine .inl ⟨hys, ?_⟩
      by_contra hlt
      have := h.low.edge x hx hle y hys hE (fun hxv => hall y (hxv ▸ hE)) (not_le.mp hlt)
      omega
    · exact .inr ((h.inv.done_iff y).mpr ⟨hy, hys⟩)
  have hdone : ∀ x y, t.partOf x ≠ none → Edge next x y → t.partOf y ≠ none := by
    intro x y hx hE
    obtain ⟨c, hc⟩ := ne_none_iff_exists'.mp hx
    obtain ⟨d, _, hd⟩ := h.inv.done_edge x y c hc hE
    rw [hd]
    simp
  have hstackdone : ∀ x ∈ t.stack, ¬t.partOf x ≠ none :=
    fun x hx hpart => ((h.inv.done_iff x).mp hpart).2 hx
  refine ⟨hout, ?_⟩
  refine mem_iff_mutual (D := {x | t.partOf x ≠ none})
    (C := {x | x ∈ t.stack ∧ t.num v ≤ t.num x}) hdone hout ⟨hvstack, le_refl _⟩
    (hstackdone v hvstack) ?_ ?_
  · rintro x ⟨hx, hle⟩
    exact h.inv.stack_reach v hvstack x hx hle
  · rintro x ⟨hx, hle⟩
    -- the running node that `x` reaches is not below `v`
    obtain ⟨p, hp, _, hxp⟩ := h.inv.stack_path x hx
    rcases mem_cons.mp hp with rfl | hp'
    · exact hxp
    · have hclosed : ∀ x y, x ∈ {x | (x ∈ t.stack ∧ t.num v ≤ t.num x) ∨ t.partOf x ≠ none} →
          Edge next x y → y ∈ {x | (x ∈ t.stack ∧ t.num v ≤ t.num x) ∨ t.partOf x ≠ none} := by
        rintro x y (hx | hx) hE
        · exact hout x y hx hE
        · exact .inr (hdone x y hx hE)
      rcases Reach.mem_of_closed hclosed hxp (.inl ⟨hx, hle⟩) with hin | hin
      · have := hpathlt p hp'
        exact absurd hin.2 (by omega)
      · exact absurd hin (hstackdone p (h.inv.path_mem p hp))

theorem Running.push (hall : ∀ w ∈ next v, w ∈ pre) (hroot : t.low v ≠ t.num v) :
    Visited next path v s t := by
  have hnumv := num_of_idx h.idx
  obtain ⟨y, hy, hnumy, hvy⟩ := h.low.reach
  have hyv : t.num y < t.num v := by
    have := h.low.le
    omega
  have htail : ∀ p ∈ v :: path, t.num p < t.num v → p ∈ path := by
    intro p hp hlt
    refine (mem_cons.mp hp).resolve_left ?_
    rintro rfl
    exact lt_irrefl _ hlt
  constructor
  case inv =>
    exact
      { h.inv with
        path_mem := (forall_mem_cons.mp h.inv.path_mem).2
        path_sorted := (pairwise_cons.mp h.inv.path_sorted).2
        stack_path := by
          intro b hb
          obtain ⟨a, ha, hab, hba⟩ := h.inv.stack_path b hb
          rcases mem_cons.mp ha with rfl | ha
          · obtain ⟨p, hp, hpy, hyp⟩ := h.inv.stack_path y hy
            exact ⟨p, htail p hp (hpy.trans_lt hyv), (hpy.trans hyv.le).trans hab,
              (hba.trans hvy).trans hyp⟩
          · exact ⟨a, ha, hab, hba⟩
        black := by
          intro a ha hnot b hE
          by_cases hav : a = v
          · subst hav
            exact h.seen b (hall b hE)
          · exact h.inv.black a ha (by simp [hav, hnot]) b hE }
  case frame => exact h.frame
  case idx => exact h.idx
  case low => exact fun _ => ⟨y, hy, hnumy, hvy⟩
  case edge =>
    intro x hx hle z hz hE hlt
    exact h.low.edge x hx (hnumv.le.trans hle) z hz hE (fun hxv => hall z (hxv ▸ hE))
      (hlt.trans_le hnumv.ge)

end

end

section Close

-- the visit of a root has followed all successors, and its component has been popped
variable {pre : List N} (h : Running next path v pre s t) (hs : Inv next path s)
  (hall : ∀ w ∈ next v, w ∈ pre) (hroot : t.low v = t.num v)
  (hpop : Popped (fun x => x ∈ t.stack ∧ t.num v ≤ t.num x) s.stack t u)

include hpop in
omit [DecidableEq N] in
theorem Popped.num_eq (n : N) : u.num n = t.num n := by
  unfold num
  rw [hpop.idx]

include h hs in
omit [DecidableEq N] in
theorem Running.stays (n : N) : n ∈ s.stack ↔ n ∈ t.stack ∧ ¬t.num v ≤ t.num n := by
  have hnumv := num_of_idx h.idx
  obtain ⟨ys, hstack, _, hiff⟩ := h.split hs
  constructor
  · intro hn
    refine ⟨by rw [hstack]; simp [hn], ?_⟩
    have := hs.num_lt (hs.visited n hn)
    rw [h.frame.num_keep (hs.visited n hn)]
    omega
  · rintro ⟨hn, hle⟩
    have hnot : ¬(n ∈ ys ∨ n = v) := fun hmem => hle ((hiff n).mp hmem).2
    rw [hstack, mem_append, mem_cons] at hn
    rw [not_or] at hnot
    exact (hn.resolve_left hnot.1).resolve_left hnot.2

include h hpop in
omit [DecidableEq N] in
theorem Running.part_keep {n : N} {c : ℕ} (hn : t.partOf n = some c) : u.partOf n = some c := by
  have hnot : ¬(n ∈ t.stack ∧ t.num v ≤ t.num n) :=
    fun hmem => ((h.inv.done_iff n).mp (by rw [hn]; simp)).2 hmem.1
  exact (hpop.part_ex n hnot).trans hn

include hpop in
omit [DecidableEq N] in
theorem Popped.part_cases {n : N} {c : ℕ} (hn : u.partOf n = some c) :
    ((n ∈ t.stack ∧ t.num v ≤ t.num n) ∧ c = t.count) ∨
      (¬(n ∈ t.stack ∧ t.num v ≤ t.num n) ∧ t.partOf n = some c) := by
  by_cases hin : n ∈ t.stack ∧ t.num v ≤ t.num n
  · rw [hpop.part_in n hin, some_inj] at hn
    exact .inl ⟨hin, hn.symm⟩
  · rw [hpop.part_ex n hin] at hn
    exact .inr ⟨hin, hn⟩

include h hall hroot hpop in
omit [DecidableEq N] in
theorem Running.close_edge (a b : N) (c : ℕ) (hc : u.partOf a = some c) (hE : Edge next a b) :
    ∃ d ≤ c, u.partOf b = some d := by
  rcases hpop.part_cases hc with ⟨hin, rfl⟩ | ⟨_, hc⟩
  · rcases (h.component hall hroot).1 a b hin hE with hb | hb
    · exact ⟨t.count, le_refl _, hpop.part_in b hb⟩
    · obtain ⟨d, hd⟩ := ne_none_iff_exists'.mp hb
      exact ⟨d, (h.inv.part_lt b d hd).le, h.part_keep hpop hd⟩
  · obtain ⟨d, hle, hd⟩ := h.inv.done_edge a b c hc hE
    exact ⟨d, hle, h.part_keep hpop hd⟩

include h hall hroot hpop in
omit [DecidableEq N] in
theorem Running.close_mutual (a b : N) (c d : ℕ) (hc : u.partOf a = some c)
    (hd : u.partOf b = some d) : c = d ↔ Mutual (Edge next) a b := by
  have hmutual := (h.component hall hroot).2
  rcases hpop.part_cases hc with ⟨ha, rfl⟩ | ⟨ha, hc⟩
  · rcases hpop.part_cases hd with ⟨hb, rfl⟩ | ⟨hb, hd⟩
    · exact iff_of_true rfl (((hmutual a).mp ha).trans ((hmutual b).mp hb).symm)
    · refine iff_of_false (h.inv.part_lt b d hd).ne' ?_
      exact fun hab => hb ((hmutual b).mpr (hab.symm.trans ((hmutual a).mp ha)))
  · rcases hpop.part_cases hd with ⟨hb, rfl⟩ | ⟨hb, hd⟩
    · refine iff_of_false (h.inv.part_lt a c hc).ne ?_
      exact fun hab => ha ((hmutual a).mpr (hab.trans ((hmutual b).mp hb)))
    · exact h.inv.done_mutual a b c d hc hd

include h hs hall hroot hpop in
omit [DecidableEq N] in
theorem Running.close_inv : Inv next path { u with count := t.count + 1 } := by
  have hstay := h.stays hs
  have hnum := hpop.num_eq
  have hpathlt := (pairwise_cons.mp h.inv.path_sorted).1
  have hsub : s.stack.Sublist t.stack := by
    obtain ⟨xs, hxs, _⟩ := h.frame.stack
    rw [hxs]
    exact sublist_append_right xs s.stack
  constructor
  case idx_lt =>
    intro n i hi
    show i < u.index
    rw [hpop.index]
    exact h.inv.idx_lt n i (hpop.idx ▸ hi)
  case visited =>
    intro n hn
    show u.idx n ≠ none
    rw [hpop.idx]
    exact h.inv.visited n (hsub.subset (hpop.stack ▸ hn))
  case on_iff =>
    intro n
    show u.onStack n ↔ n ∈ u.stack
    rw [hpop.stack]
    by_cases hin : n ∈ t.stack ∧ t.num v ≤ t.num n
    · rw [hpop.on_in n hin, hstay]
      simp [hin.2]
    · rw [hpop.on_ex n hin, h.inv.on_iff, hstay]
      exact ⟨fun hn => ⟨hn, fun hle => hin ⟨hn, hle⟩⟩, And.left⟩
  case sorted =>
    show u.stack.Pairwise (fun a b => u.num b < u.num a)
    simp only [hnum, hpop.stack]
    exact h.inv.sorted.sublist hsub
  case done_iff =>
    intro n
    show u.partOf n ≠ none ↔ u.idx n ≠ none ∧ n ∉ u.stack
    rw [hpop.stack, hpop.idx, hstay]
    by_cases hin : n ∈ t.stack ∧ t.num v ≤ t.num n
    · rw [hpop.part_in n hin]
      simp [h.inv.visited n hin.1, hin.2]
    · rw [hpop.part_ex n hin, h.inv.done_iff]
      exact and_congr_right fun _ => not_congr ⟨fun hn => ⟨hn, fun hle => hin ⟨hn, hle⟩⟩, And.left⟩
  case path_mem =>
    intro n hn
    show n ∈ u.stack
    rw [hpop.stack, hstay]
    exact ⟨h.inv.path_mem n (mem_cons_of_mem v hn), Nat.not_le.mpr (hpathlt n hn)⟩
  case path_sorted =>
    show path.Pairwise (fun a b => u.num b < u.num a)
    simp only [hnum]
    exact (pairwise_cons.mp h.inv.path_sorted).2
  case stack_reach =>
    intro a ha b hb hab
    have hab' : t.num a ≤ t.num b := by
      rw [← hnum, ← hnum]
      exact hab
    exact h.inv.stack_reach a (hsub.subset (hpop.stack ▸ ha)) b (hsub.subset (hpop.stack ▸ hb)) hab'
  case stack_path =>
    intro b hb
    have hb' := (hstay b).mp (hpop.stack ▸ hb)
    obtain ⟨a, ha, hab, hba⟩ := h.inv.stack_path b hb'.1
    rcases mem_cons.mp ha with rfl | ha
    · exact absurd hab hb'.2
    · refine ⟨a, ha, ?_, hba⟩
      show u.num a ≤ u.num b
      rw [hnum, hnum]
      exact hab
  case black =>
    intro a ha hnot b hE
    show u.idx b ≠ none
    have ha' : t.idx a ≠ none := by
      rw [← hpop.idx]
      exact ha
    rw [hpop.idx]
    by_cases hav : a = v
    · subst hav
      exact h.seen b (hall b hE)
    · exact h.inv.black a ha' (by simp [hav, hnot]) b hE
  case done_edge =>
    have hedge := h.close_edge hall hroot hpop
    exact hedge
  case done_mutual =>
    have hsame := h.close_mutual hall hroot hpop
    exact hsame
  case part_lt =>
    intro n c hc
    show c < t.count + 1
    rcases hpop.part_cases hc with ⟨_, rfl⟩ | ⟨_, hc⟩
    · exact Nat.lt_succ_self _
    · exact (h.inv.part_lt n c hc).trans (Nat.lt_succ_self _)
  case part_onto =>
    intro c hc
    rcases Nat.lt_succ_iff_lt_or_eq.mp hc with hlt | rfl
    · obtain ⟨n, hn⟩ := h.inv.part_onto c hlt
      exact ⟨n, h.part_keep hpop hn⟩
    · exact ⟨v, hpop.part_in v ⟨h.inv.path_mem v mem_cons_self, Nat.le_refl _⟩⟩

include h hs hall hroot hpop in
omit [DecidableEq N] in
theorem Running.close : Visited next path v s { u with count := t.count + 1 } := by
  have hnumv := num_of_idx h.idx
  constructor
  case inv => exact h.close_inv hs hall hroot hpop
  case frame =>
    constructor
    case idx_keep => exact fun n hn => (congrFun hpop.idx n).trans (h.frame.idx_keep n hn)
    case low_keep => exact fun n hn => (congrFun hpop.low n).trans (h.frame.low_keep n hn)
    case stack => exact ⟨[], hpop.stack, by simp⟩
    case new =>
      intro n i hnone hsome
      exact h.frame.new n i hnone ((congrFun hpop.idx n).symm.trans hsome)
    case index => exact h.frame.index.trans hpop.index.ge
  case idx => exact (congrFun hpop.idx v).trans h.idx
  case low =>
    intro hlt
    have hlow : u.low v = t.low v := congrFun hpop.low v
    have hlt' : u.low v < s.index := hlt
    omega
  case edge =>
    intro x hx hle
    have hx' : x ∈ s.stack := hpop.stack ▸ hx
    have := hs.num_lt (hs.visited x hx')
    have hnumx : u.num x = s.num x := (hpop.num_eq x).trans (h.frame.num_keep (hs.visited x hx'))
    have hle' : s.index ≤ u.num x := hle
    omega

end Close

theorem Running.leave {pre : List N} (h : Running next path v pre s t) (hs : Inv next path s)
    (hall : ∀ w ∈ next v, w ∈ pre) : Visited next path v s (t.leave v) := by
  have hnumv := num_of_idx h.idx
  unfold Search.leave
  by_cases hroot : t.idx v = some (t.low v)
  · rw [if_pos hroot]
    have hroot' : t.low v = t.num v := (num_of_idx hroot).symm
    obtain ⟨ys, hstack, hnot, hiff⟩ := h.split hs
    refine h.close hs hall hroot' ?_
    have hpop := pop_popped s.stack ys t hnot
    simp only [hiff] at hpop
    rw [hstack]
    rw [hstack] at hpop
    exact hpop
  · rw [if_neg hroot]
    refine h.push hall (fun heq => hroot ?_)
    rw [heq, hnumv, h.idx]

-- ── The whole search

variable {U : Finset N}

/-- The nodes not visited. -/
def unvisited (U : Finset N) (s : Search N) : Finset N := U.filter (fun n => s.idx n = none)

omit [DecidableEq N] in
theorem Frame.unvisited_subset (h : Frame next v s t) : unvisited U t ⊆ unvisited U s := by
  intro n hn
  obtain ⟨hU, hnone⟩ := Finset.mem_filter.mp hn
  refine Finset.mem_filter.mpr ⟨hU, ?_⟩
  by_contra hs
  exact h.visited hs hnone

theorem unvisited_enter (hU : v ∈ U) (hv : s.idx v = none) :
    (unvisited U (s.enter v)).card < (unvisited U s).card := by
  refine Finset.card_lt_card ⟨(@frame_enter N _ (fun _ => []) s v hv).unvisited_subset, ?_⟩
  intro hsub
  have hmem := hsub (Finset.mem_filter.mpr ⟨hU, hv⟩)
  have hnone := (Finset.mem_filter.mp hmem).2
  rw [enter_idx_self] at hnone
  cases hnone

/-- Visits do what they should if the fuel is enough for the nodes left, and more fuel changes
    nothing. -/
def VisitsTo (next : N → List N) (U : Finset N) (fuel : ℕ) : Prop :=
  ∀ (path : List N) (s : Search N) (v : N), Inv next path s → v ∈ U → s.idx v = none →
    (∀ a ∈ path, Reach (Edge next) a v) → (unvisited U s).card ≤ fuel →
      Visited next path v s (visit next fuel s v) ∧
        ∀ more, fuel ≤ more → visit next more s v = visit next fuel s v

/-- The loop over the successors of `v`. -/
theorem follow_loop {fuel : ℕ} (ih : VisitsTo next U fuel) (hU : ∀ a ∈ U, ∀ b ∈ next a, b ∈ U)
    (hv : v ∈ U) (hpath : ∀ a ∈ path, Reach (Edge next) a v) :
    ∀ (ws pre : List N) (t : Search N), (∀ w ∈ ws, Edge next v w) →
      Running next path v pre s t → (unvisited U t).card ≤ fuel →
        (∃ pre', (∀ w, w ∈ pre' ↔ w ∈ ws ∨ w ∈ pre) ∧
          Running next path v pre' s (ws.foldl (follow (visit next fuel) v) t)) ∧
        ∀ more, fuel ≤ more → ws.foldl (follow (visit next more) v) t =
          ws.foldl (follow (visit next fuel) v) t := by
  intro ws
  induction ws with
  | nil => exact fun pre t _ h _ => ⟨⟨pre, by simp, h⟩, fun _ _ => rfl⟩
  | cons w ws ihws =>
    intro pre t hE h hcard
    have hw : Edge next v w := hE w mem_cons_self
    have hto : ∀ a ∈ v :: path, Reach (Edge next) a w := by
      intro a ha
      rcases mem_cons.mp ha with rfl | ha
      · exact .single hw
      · exact (hpath a ha).tail hw
    have hvisit := fun hnone => ih (v :: path) t w h.inv (hU v hv w hw) hnone hto hcard
    have hnext : Running next path v (w :: pre) s (follow (visit next fuel) v t w) :=
      h.follow hw (fun hnone => (hvisit hnone).1)
    have hframe : (unvisited U (follow (visit next fuel) v t w)).card ≤ fuel := by
      refine (Finset.card_le_card ?_).trans hcard
      intro n hn
      unfold Search.follow at hn
      cases hidx : t.idx w with
      | none =>
        simp only [hidx] at hn
        exact (hvisit hidx).1.frame.unvisited_subset hn
      | some i =>
        simp only [hidx] at hn
        split at hn
        · exact hn
        · exact hn
    obtain ⟨⟨pre', hpre', hrun⟩, hmore⟩ := ihws (w :: pre) _ (forall_mem_cons.mp hE).2 hnext hframe
    refine ⟨⟨pre', ?_, hrun⟩, ?_⟩
    · intro x
      rw [hpre', mem_cons, mem_cons]
      tauto
    · intro more hle
      rw [foldl_cons, foldl_cons, ← hmore more hle]
      congr 1
      unfold Search.follow
      cases hidx : t.idx w with
      | none => simp only [(hvisit hidx).2 more hle]
      | some i => rfl

theorem visit_spec (hU : ∀ a ∈ U, ∀ b ∈ next a, b ∈ U) : ∀ fuel, VisitsTo next U fuel := by
  intro fuel
  induction fuel with
  | zero =>
    intro path s v _ hv hnone _ hcard
    have hmem : v ∈ unvisited U s := Finset.mem_filter.mpr ⟨hv, hnone⟩
    have hpos := Finset.card_pos.mpr ⟨v, hmem⟩
    omega
  | succ fuel ih =>
    intro path s v hs hv hnone hpath hcard
    have hless := unvisited_enter hv hnone
    obtain ⟨⟨pre, hpre, hrun⟩, hmore⟩ := follow_loop ih hU hv hpath (next v) [] (s.enter v)
      (fun w hw => hw) (hs.running hnone hpath) (by omega)
    constructor
    · exact hrun.leave hs (fun w hw => (hpre w).mpr (.inl hw))
    · intro more hle
      obtain ⟨more, rfl⟩ := exists_eq_succ_of_ne_zero (show more ≠ 0 by omega)
      rw [visit, visit, hmore more (by omega)]

structure Components (next : N → List N) (starts : List N) (t : Search N) : Prop where
  visited : ∀ n, t.idx n ≠ none ↔ ∃ v ∈ starts, Reach (Edge next) v n
  part : ∀ n, (∃ c, t.partOf n = some c) ↔ ∃ v ∈ starts, Reach (Edge next) v n
  same : ∀ a b c d, t.partOf a = some c → t.partOf b = some d →
    (c = d ↔ Mutual (Edge next) a b)
  order : ∀ a b c d, t.partOf a = some c → t.partOf b = some d → Edge next a b → d ≤ c
  count : ∀ c, c < t.count ↔ ∃ n, t.partOf n = some c

theorem visitAll_spec (hU : ∀ a ∈ U, ∀ b ∈ next a, b ∈ U) {fuel : ℕ} (hfuel : U.card ≤ fuel) :
    ∀ (vs : List N) (s : Search N), (∀ v ∈ vs, v ∈ U) → Inv next [] s →
      (Inv next [] (visitAll next fuel s vs) ∧
        (∀ n, s.idx n ≠ none → (visitAll next fuel s vs).idx n ≠ none) ∧
        (∀ v ∈ vs, (visitAll next fuel s vs).idx v ≠ none) ∧
        ∀ n, (visitAll next fuel s vs).idx n ≠ none →
          s.idx n ≠ none ∨ ∃ v ∈ vs, Reach (Edge next) v n) ∧
      ∀ more, fuel ≤ more → visitAll next more s vs = visitAll next fuel s vs := by
  intro vs
  induction vs with
  | nil => exact fun s _ hs => ⟨⟨hs, fun _ h => h, by simp, fun _ h => .inl h⟩, fun _ _ => rfl⟩
  | cons v vs ih =>
    intro s hvs hs
    have hrest : ∀ v ∈ vs, v ∈ U := (forall_mem_cons.mp hvs).2
    by_cases hv : s.idx v = none
    · have hcard : (unvisited U s).card ≤ fuel :=
        (Finset.card_le_card (Finset.filter_subset _ U)).trans hfuel
      obtain ⟨hvisit, hsame⟩ :=
        visit_spec hU fuel [] s v hs (hvs v mem_cons_self) hv (by simp) hcard
      obtain ⟨⟨hinv, hkeep, hall, hfrom⟩, hmore⟩ := ih _ hrest hvisit.inv
      simp only [visitAll, foldl_cons, hv, if_true]
      refine ⟨⟨hinv, ?_, ?_, ?_⟩, ?_⟩
      · exact fun n hn => hkeep n (hvisit.frame.visited hn)
      · exact forall_mem_cons.mpr ⟨hkeep v (by rw [hvisit.idx]; simp), hall⟩
      · intro n hn
        rcases hfrom n hn with hn | ⟨w, hw, hreach⟩
        · by_cases hsn : s.idx n = none
          · obtain ⟨i, hi⟩ := ne_none_iff_exists'.mp hn
            exact .inr ⟨v, mem_cons_self, (hvisit.frame.new n i hsn hi).2⟩
          · exact .inl hsn
        · exact .inr ⟨w, mem_cons_of_mem v hw, hreach⟩
      · intro more hle
        rw [hsame more hle]
        exact hmore more hle
    · obtain ⟨⟨hinv, hkeep, hall, hfrom⟩, hmore⟩ := ih s hrest hs
      simp only [visitAll, foldl_cons, hv, if_false]
      refine ⟨⟨hinv, hkeep, forall_mem_cons.mpr ⟨hkeep v hv, hall⟩, ?_⟩, hmore⟩
      intro n hn
      refine (hfrom n hn).imp_right ?_
      rintro ⟨w, hw, hreach⟩
      exact ⟨w, mem_cons_of_mem v hw, hreach⟩

/-- The search closes the components of what the starts reach, each after those it leads to; more
    fuel changes nothing. -/
theorem detect_spec (hU : ∀ a ∈ U, ∀ b ∈ next a, b ∈ U) {starts : List N}
    (hstarts : ∀ v ∈ starts, v ∈ U) {fuel : ℕ} (hfuel : U.card ≤ fuel) :
    Components next starts (detect next fuel starts) ∧
      ∀ more, fuel ≤ more → detect next more starts = detect next fuel starts := by
  obtain ⟨⟨hinv, _, hall, hfrom⟩, hmore⟩ := visitAll_spec hU hfuel starts start hstarts inv_start
  change Inv next [] (detect next fuel starts) at hinv
  refine ⟨?_, hmore⟩
  have hempty : ∀ n, n ∉ (detect next fuel starts).stack := by
    intro n hn
    obtain ⟨a, ha, _⟩ := hinv.stack_path n hn
    cases ha
  have hvisited : ∀ n, (detect next fuel starts).idx n ≠ none ↔
      ∃ v ∈ starts, Reach (Edge next) v n := by
    intro n
    constructor
    · intro hn
      exact (hfrom n hn).resolve_left (fun h => h rfl)
    · rintro ⟨v, hv, hreach⟩
      exact Reach.mem_of_closed (S := {n | (detect next fuel starts).idx n ≠ none})
        (fun a b ha hE => hinv.black a ha not_mem_nil b hE) hreach (hall v hv)
  constructor
  case visited => exact hvisited
  case part =>
    intro n
    rw [← hvisited, ← ne_none_iff_exists', hinv.done_iff]
    exact and_iff_left (hempty n)
  case same => exact hinv.done_mutual
  case order =>
    intro a b c d hc hd hE
    obtain ⟨d', hle, hd'⟩ := hinv.done_edge a b c hc hE
    rw [hd, some_inj] at hd'
    exact hd' ▸ hle
  case count =>
    intro c
    constructor
    · exact hinv.part_onto c
    · rintro ⟨n, hn⟩
      exact hinv.part_lt n c hn

end SvfTarjan
