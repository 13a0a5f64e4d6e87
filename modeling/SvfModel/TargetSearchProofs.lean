import SvfModel.LoopProofs

/-!
# Searching for a target

A depth-first search that gives up as soon as it takes its target from the worklist. Nodes are
marked when they are taken, not when they are put on the list, so a node may wait more than once;
what has been marked may come from an earlier search that found no target.

The search ends with whether the target was missed (**`explore_spec`**): it is missed exactly if
nothing on the worklist reaches it, and then exactly what the worklist reaches has been marked.
Several searches one after the other, with one set of marks, are **`exploreAll_spec`**.
-/

namespace SvfTargetSearch

open SvfLoop Relation List

variable {X : Type} [DecidableEq X]

/-- The second node is reached from the first. -/
abbrev Reaches (next : X → List X) : X → X → Prop := ReflTransGen (fun x y => y ∈ next x)

/-- The search from a worklist, the node taken next in front: whether the target was missed, and
    the nodes marked. -/
def explore (next : X → List X) (target : X) : ℕ → List X → List X → Option (Bool × List X)
  | 0, _, _ => none
  | _ + 1, [], seen => some (true, seen)
  | fuel + 1, x :: wl, seen =>
    if target = x then some (false, seen)
    else if x ∈ seen then explore next target fuel wl seen
    else explore next target fuel ((next x).reverse ++ wl) (x :: seen)

/-- A search from each node of a list, as long as no target is found. -/
def exploreAll (next : X → List X) (target : X) (fuel : ℕ) :
    List X → List X → Option (Bool × List X)
  | [], seen => some (true, seen)
  | x :: xs, seen =>
    match explore next target fuel [x] seen with
    | none => none
    | some (false, seen) => some (false, seen)
    | some (true, seen) => exploreAll next target fuel xs seen

variable {next : X → List X} {target : X}

theorem explore_succ : ∀ (fuel : ℕ) (wl seen : List X) (r : Bool × List X),
    explore next target fuel wl seen = some r →
      explore next target (fuel + 1) wl seen = some r := by
  intro fuel
  induction fuel with
  | zero =>
    intro wl seen r h
    exact absurd h (by simp [explore])
  | succ fuel ih =>
    intro wl seen r h
    cases wl with
    | nil => exact h
    | cons x wl =>
      rw [explore] at h ⊢
      by_cases hx : target = x
      · rw [if_pos hx] at h ⊢
        exact h
      · rw [if_neg hx] at h ⊢
        by_cases hseen : x ∈ seen
        · rw [if_pos hseen] at h ⊢
          exact ih _ _ _ h
        · rw [if_neg hseen] at h ⊢
          exact ih _ _ _ h

/-- Marked nodes lead to marked nodes or to the worklist, and the target is not among them. -/
structure Marked (next : X → List X) (target : X) (wl seen : List X) : Prop where
  closed : ∀ x ∈ seen, ∀ y ∈ next x, y ∈ seen ∨ y ∈ wl
  missed : target ∉ seen

/-- What a search from `wl` ends with. -/
structure Explored (next : X → List X) (target : X) (wl seen : List X) (missed : Bool)
    (seen' : List X) : Prop where
  found : missed = false → ∃ w ∈ wl, Reaches next w target
  kept : missed = true → ∀ x, x ∈ seen ∨ x ∈ wl → x ∈ seen'
  closed : missed = true → Marked next target [] seen'
  sound : ∀ x ∈ seen', x ∈ seen ∨ ∃ w ∈ wl, Reaches next w x

/-- What is left to do: the nodes not marked with what they put on the worklist, and the
    worklist. -/
def todo (next : X → List X) (U seen wl : List X) : ℕ :=
  ∑ x ∈ U.toFinset \ seen.toFinset, ((next x).length + 1) + wl.length

-- ── One node of the worklist

section Node

variable {x : X} {wl seen seen' : List X} {missed : Bool}

section

omit [DecidableEq X]

theorem mem_push {w : X} : w ∈ (next x).reverse ++ wl ↔ w ∈ next x ∨ w ∈ wl := by
  rw [mem_append, mem_reverse]

theorem Marked.skip (h : Marked next target (x :: wl) seen) (hseen : x ∈ seen) :
    Marked next target wl seen := by
  refine ⟨?_, h.missed⟩
  intro y hy z hz
  rcases h.closed y hy z hz with h | h
  · exact .inl h
  · rcases mem_cons.mp h with rfl | h
    · exact .inl hseen
    · exact .inr h

theorem Marked.push (h : Marked next target (x :: wl) seen) (hx : target ≠ x) :
    Marked next target ((next x).reverse ++ wl) (x :: seen) := by
  constructor
  · intro y hy z hz
    rw [mem_push, mem_cons]
    rcases mem_cons.mp hy with rfl | hy
    · exact .inr (.inl hz)
    · rcases h.closed y hy z hz with h | h
      · exact .inl (.inr h)
      · rcases mem_cons.mp h with rfl | h
        · exact .inl (.inl rfl)
        · exact .inr (.inr h)
  · rw [mem_cons, not_or]
    exact ⟨hx, h.missed⟩

theorem Explored.skip (h : Explored next target wl seen missed seen') (hseen : x ∈ seen) :
    Explored next target (x :: wl) seen missed seen' := by
  refine ⟨?_, ?_, h.closed, ?_⟩
  · intro hm
    obtain ⟨w, hw, hreach⟩ := h.found hm
    exact ⟨w, mem_cons_of_mem x hw, hreach⟩
  · intro hm y hy
    refine h.kept hm y ?_
    rcases hy with hy | hy
    · exact .inl hy
    · rcases mem_cons.mp hy with rfl | hy
      · exact .inl hseen
      · exact .inr hy
  · intro y hy
    refine (h.sound y hy).imp_right ?_
    rintro ⟨w, hw, hreach⟩
    exact ⟨w, mem_cons_of_mem x hw, hreach⟩

theorem Explored.push (h : Explored next target ((next x).reverse ++ wl) (x :: seen) missed seen') :
    Explored next target (x :: wl) seen missed seen' := by
  -- what starts at a node pushed starts at `x`
  have hfrom : ∀ {w y}, w ∈ (next x).reverse ++ wl → Reaches next w y →
      ∃ w ∈ x :: wl, Reaches next w y := by
    intro w y hw hreach
    rcases mem_push.mp hw with hw | hw
    · exact ⟨x, mem_cons_self, .head hw hreach⟩
    · exact ⟨w, mem_cons_of_mem x hw, hreach⟩
  refine ⟨?_, ?_, h.closed, ?_⟩
  · intro hm
    obtain ⟨w, hw, hreach⟩ := h.found hm
    exact hfrom hw hreach
  · intro hm y hy
    refine h.kept hm y ?_
    rw [mem_push, mem_cons]
    rcases hy with hy | hy
    · exact .inl (.inr hy)
    · rcases mem_cons.mp hy with rfl | hy
      · exact .inl (.inl rfl)
      · exact .inr (.inr hy)
  · intro y hy
    rcases h.sound y hy with h | ⟨w, hw, hreach⟩
    · rcases mem_cons.mp h with rfl | h
      · exact .inr ⟨y, mem_cons_self, .refl⟩
      · exact .inl h
    · exact .inr (hfrom hw hreach)

end

theorem todo_skip (U : List X) : todo next U seen wl < todo next U seen (x :: wl) := by
  simp only [todo, length_cons]
  omega

theorem todo_push {U : List X} (hxU : x ∈ U) (hseen : x ∉ seen) :
    todo next U (x :: seen) ((next x).reverse ++ wl) < todo next U seen (x :: wl) := by
  have hmem : x ∈ U.toFinset \ seen.toFinset := by
    rw [Finset.mem_sdiff, mem_toFinset, mem_toFinset]
    exact ⟨hxU, hseen⟩
  have hsum := Finset.add_sum_erase _ (fun y => (next y).length + 1) hmem
  have herase : U.toFinset \ (x :: seen).toFinset = (U.toFinset \ seen.toFinset).erase x := by
    rw [toFinset_cons, Finset.sdiff_insert]
  simp only [todo, length_cons, length_append, length_reverse, herase]
  omega

end Node

theorem explore_run {U : List X} (hU : ∀ x ∈ U, ∀ y ∈ next x, y ∈ U) :
    ∀ {fuel : ℕ} {wl seen : List X}, (∀ w ∈ wl, w ∈ U) → todo next U seen wl < fuel →
      Marked next target wl seen →
        ∃ missed seen', explore next target fuel wl seen = some (missed, seen') ∧
          Explored next target wl seen missed seen' := by
  intro fuel
  induction fuel with
  | zero => exact fun _ h => absurd h (Nat.not_lt_zero _)
  | succ fuel ih =>
    intro wl seen hwl htodo hmark
    cases wl with
    | nil =>
      refine ⟨true, seen, rfl, ?_, ?_, fun _ => hmark, fun x hx => .inl hx⟩
      · exact nofun
      · exact fun _ x hx => hx.resolve_right not_mem_nil
    | cons x wl =>
      rw [explore]
      by_cases hx : target = x
      · subst hx
        rw [if_pos rfl]
        refine ⟨false, seen, rfl, ?_, ?_, ?_, fun y hy => .inl hy⟩
        · exact fun _ => ⟨target, mem_cons_self, .refl⟩
        · exact nofun
        · exact nofun
      · rw [if_neg hx]
        have hxU : x ∈ U := hwl x mem_cons_self
        have hwl' : ∀ w ∈ wl, w ∈ U := (forall_mem_cons.mp hwl).2
        by_cases hseen : x ∈ seen
        · -- a node that is marked already
          rw [if_pos hseen]
          have hless : todo next U seen wl < todo next U seen (x :: wl) := todo_skip U
          obtain ⟨missed, seen', hrun, hout⟩ := ih hwl' (by omega) (hmark.skip hseen)
          exact ⟨missed, seen', hrun, hout.skip hseen⟩
        · -- a new node
          rw [if_neg hseen]
          have hpush : ∀ w ∈ (next x).reverse ++ wl, w ∈ U :=
            fun w hw => (mem_push.mp hw).elim (hU x hxU w) (hwl' w)
          have hless : todo next U (x :: seen) ((next x).reverse ++ wl) < todo next U seen (x :: wl) :=
            todo_push hxU hseen
          obtain ⟨missed, seen', hrun, hout⟩ := ih hpush (by omega) (hmark.push hx)
          exact ⟨missed, seen', hrun, hout.push⟩

omit [DecidableEq X] in
theorem Marked.reaches {seen : List X} (h : Marked next target [] seen) {x y : X} (hx : x ∈ seen)
    (hxy : Reaches next x y) : y ∈ seen := by
  induction hxy with
  | refl => exact hx
  | tail _ hstep ih => exact (h.closed _ ih _ hstep).resolve_right not_mem_nil

/-- A search stops. Only what the worklist reaches is marked anew. The target is missed exactly if
    nothing on the worklist reaches it; then all that the worklist reaches is marked. -/
theorem explore_spec {U : List X} (hU : ∀ x ∈ U, ∀ y ∈ next x, y ∈ U) {wl seen : List X}
    (hwl : ∀ w ∈ wl, w ∈ U) (hmark : Marked next target wl seen) :
    ∃ missed seen', Stops (fun fuel => explore next target fuel wl seen) (missed, seen') ∧
      (∀ x ∈ seen', x ∈ seen ∨ ∃ w ∈ wl, Reaches next w x) ∧
      (missed ↔ ∀ w ∈ wl, ¬Reaches next w target) ∧
      (missed → Marked next target [] seen' ∧
        ∀ x, x ∈ seen' ↔ x ∈ seen ∨ ∃ w ∈ wl, Reaches next w x) := by
  obtain ⟨missed, seen', hrun, hout⟩ := explore_run hU hwl (Nat.lt_succ_self _) hmark
  refine ⟨missed, seen', stops_of_succ (fun n r h => explore_succ n wl seen r h) hrun,
    hout.sound, ?_, ?_⟩
  · constructor
    · intro h w hw hreach
      have hclosed := hout.closed h
      exact hclosed.missed (hclosed.reaches (hout.kept h w (.inr hw)) hreach)
    · intro h
      by_contra hmissed
      obtain ⟨w, hw, hreach⟩ := hout.found (by simpa using hmissed)
      exact h w hw hreach
  · intro h
    have hclosed := hout.closed h
    refine ⟨hclosed, ?_⟩
    intro x
    constructor
    · exact hout.sound x
    · rintro (hx | ⟨w, hw, hreach⟩)
      · exact hout.kept h x (.inl hx)
      · exact hclosed.reaches (hout.kept h w (.inr hw)) hreach

theorem exploreAll_spec {U : List X} (hU : ∀ x ∈ U, ∀ y ∈ next x, y ∈ U) {xs seen : List X}
    (hxs : ∀ x ∈ xs, x ∈ U) (hmark : Marked next target [] seen) :
    ∃ missed seen', Stops (fun fuel => exploreAll next target fuel xs seen) (missed, seen') ∧
      (missed ↔ ∀ x ∈ xs, ¬Reaches next x target) := by
  induction xs generalizing seen with
  | nil => exact ⟨true, seen, ⟨0, fun _ _ => rfl⟩, by simp⟩
  | cons x xs ih =>
    have hmark' : Marked next target [x] seen :=
      ⟨fun y hy z hz => .inl ((hmark.closed y hy z hz).resolve_right not_mem_nil), hmark.missed⟩
    have hx : ∀ w ∈ [x], w ∈ U := by
      intro w hw
      rw [mem_singleton.mp hw]
      exact hxs x mem_cons_self
    obtain ⟨missed, seen1, ⟨m, hm⟩, _, hiff, hmarked⟩ := explore_spec hU hx hmark'
    rw [forall_mem_singleton] at hiff
    cases missed with
    | false =>
      refine ⟨false, seen1, ⟨m, fun fuel hf => ?_⟩, ?_⟩
      · have hrun : explore next target fuel [x] seen = some (false, seen1) := hm fuel hf
        show exploreAll next target fuel (x :: xs) seen = _
        rw [exploreAll, hrun]
      · refine iff_of_false (by simp) ?_
        intro h
        cases hiff.mpr (h x mem_cons_self)
    | true =>
      obtain ⟨missed, seen2, ⟨n, hn⟩, hiff'⟩ := ih (forall_mem_cons.mp hxs).2 (hmarked rfl).1
      refine ⟨missed, seen2, ⟨m + n, fun fuel hf => ?_⟩, ?_⟩
      · have hrun : explore next target fuel [x] seen = some (true, seen1) := hm fuel (by omega)
        show exploreAll next target fuel (x :: xs) seen = _
        rw [exploreAll, hrun]
        exact hn fuel (by omega)
      · rw [hiff', forall_mem_cons, and_iff_right (hiff.mp rfl)]

end SvfTargetSearch
