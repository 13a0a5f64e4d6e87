import Mathlib.Tactic.Common
import Mathlib.Data.List.Basic
import Mathlib.Logic.Function.Basic

/-!
# Ordered sets and maps

A set, or the keys of a map, as the elements in the order of a comparison: nothing occurs twice,
and what the container is gone through in is the order itself. Two elements neither of which is
before the other count as one, so a lookup finds an element only when the comparison is total
(`StrictTotal`); then it is membership (**`find_iff`**), and insertion and erasure are those of
sets (`mem_insert`, `mem_erase`).
-/

namespace SvfOrderedSet

open List

variable {α β : Type} {lt : α → α → Bool}

/-- A comparison under which two elements are the same or one is before the other. -/
class StrictTotal (lt : α → α → Bool) : Prop where
  irrefl : ∀ a, lt a a = false
  trans : ∀ {a b c}, lt a b = true → lt b c = true → lt a c = true
  eq_of : ∀ {a b}, lt a b = false → lt b a = false → a = b

/-- Neither is before the other. -/
def equivalent (lt : α → α → Bool) (x y : α) : Bool := !lt x y && !lt y x

theorem equivalent_iff [StrictTotal lt] {x y : α} : equivalent lt x y ↔ y = x := by
  constructor
  · intro h
    rw [equivalent, Bool.and_eq_true, Bool.not_eq_true', Bool.not_eq_true'] at h
    exact StrictTotal.eq_of h.2 h.1
  · rintro rfl
    have hy : lt y y = false := StrictTotal.irrefl y
    rw [equivalent, hy]
    rfl

/-- The elements, each before those that follow. -/
structure OrderedSet (lt : α → α → Bool) where
  elems : List α
  sorted : elems.Pairwise (fun a b => lt a b = true)

-- ── Insertion into the elements

/-- The elements with one more at its place, unless an equivalent one is there. -/
def insertElem (lt : α → α → Bool) (x : α) : List α → List α
  | [] => [x]
  | y :: ys =>
    if lt x y then x :: y :: ys
    else if lt y x then y :: insertElem lt x ys
    else y :: ys

theorem mem_insertElem [StrictTotal lt] {x z : α} {l : List α} :
    z ∈ insertElem lt x l ↔ z = x ∨ z ∈ l := by
  induction l with
  | nil => simp [insertElem]
  | cons y ys ih =>
    simp only [insertElem]
    by_cases hxy : lt x y
    · rw [if_pos hxy, mem_cons]
    · rw [if_neg hxy]
      by_cases hyx : lt y x
      · rw [if_pos hyx, mem_cons, ih, mem_cons]
        exact or_left_comm
      · have hxy' : x = y := StrictTotal.eq_of (by simpa using hxy) (by simpa using hyx)
        subst hxy'
        rw [if_neg hyx, mem_cons]
        exact (or_self_left ..).symm

theorem sorted_insertElem [StrictTotal lt] {x : α} {l : List α}
    (h : l.Pairwise (fun a b => lt a b)) :
    (insertElem lt x l).Pairwise (fun a b => lt a b) := by
  induction l with
  | nil => exact pairwise_singleton _ _
  | cons y ys ih =>
    obtain ⟨hy, hys⟩ := List.pairwise_cons.mp h
    simp only [insertElem]
    by_cases hxy : lt x y
    · rw [if_pos hxy]
      refine List.pairwise_cons.mpr ⟨?_, h⟩
      intro z hz
      rcases List.mem_cons.mp hz with rfl | hz
      · exact hxy
      · exact StrictTotal.trans hxy (hy z hz)
    · rw [if_neg hxy]
      by_cases hyx : lt y x
      · rw [if_pos hyx]
        refine List.pairwise_cons.mpr ⟨?_, ih hys⟩
        intro z hz
        rcases mem_insertElem.mp hz with rfl | hz
        · exact hyx
        · exact hy z hz
      · rw [if_neg hyx]
        exact h

-- ── The operations

namespace OrderedSet

variable {s : OrderedSet lt} {x : α}

instance : Membership α (OrderedSet lt) := ⟨fun s x => x ∈ s.elems⟩

theorem mem_def : x ∈ s ↔ x ∈ s.elems := Iff.rfl

instance [DecidableEq α] (s : OrderedSet lt) (x : α) : Decidable (x ∈ s) :=
  inferInstanceAs (Decidable (x ∈ s.elems))

/-- The container with nothing in it. -/
def empty : OrderedSet lt := ⟨[], List.Pairwise.nil⟩

@[simp] theorem not_mem_empty : x ∉ (empty : OrderedSet lt) := not_mem_nil

def insert [StrictTotal lt] (s : OrderedSet lt) (x : α) : OrderedSet lt :=
  ⟨insertElem lt x s.elems, sorted_insertElem s.sorted⟩

@[simp] theorem mem_insert [StrictTotal lt] {x z : α} :
    z ∈ s.insert x ↔ z = x ∨ z ∈ s := mem_insertElem

/-- `find`: an element neither before nor after the one looked for. -/
def find (s : OrderedSet lt) (x : α) : Option α := s.elems.find? (equivalent lt x)

theorem find_iff [StrictTotal lt] {x y : α} : s.find x = some y ↔ x ∈ s ∧ y = x := by
  constructor
  · intro h
    have hy : y = x := equivalent_iff.mp (find?_some h)
    subst hy
    exact ⟨mem_of_find?_eq_some h, rfl⟩
  · rintro ⟨hx, rfl⟩
    have hsome : (s.elems.find? (equivalent lt y)).isSome :=
      find?_isSome.mpr ⟨y, hx, equivalent_iff.mpr rfl⟩
    obtain ⟨z, hz⟩ := Option.isSome_iff_exists.mp hsome
    have hzy : z = y := equivalent_iff.mp (find?_some hz)
    subst hzy
    exact hz

theorem find_isSome [StrictTotal lt] : (s.find x).isSome ↔ x ∈ s := by
  rw [Option.isSome_iff_exists]
  constructor
  · rintro ⟨y, hy⟩
    exact (find_iff.mp hy).1
  · intro hx
    exact ⟨x, find_iff.mpr ⟨hx, rfl⟩⟩

/-- `erase`: the elements but the one found. -/
def erase (s : OrderedSet lt) (x : α) : OrderedSet lt :=
  ⟨s.elems.filter (fun y => !equivalent lt x y), s.sorted.filter _⟩

@[simp] theorem mem_erase [StrictTotal lt] {x z : α} : z ∈ s.erase x ↔ z ∈ s ∧ z ≠ x := by
  show z ∈ s.elems.filter _ ↔ _
  rw [mem_filter, Bool.not_eq_true', ← Bool.not_eq_true, equivalent_iff]
  rfl

/-- What goes through the elements inserts each that is among `l`. -/
theorem mem_foldl_insert [StrictTotal lt] {l : List α} {z : α} :
    z ∈ l.foldl insert s ↔ z ∈ l ∨ z ∈ s := by
  induction l generalizing s with
  | nil => simp
  | cons x xs ih =>
    rw [foldl_cons, ih, mem_insert, mem_cons]
    tauto

theorem mem_foldl_erase [StrictTotal lt] {l : List α} {z : α} :
    z ∈ l.foldl erase s ↔ z ∈ s ∧ z ∉ l := by
  induction l generalizing s with
  | nil => simp
  | cons x xs ih =>
    rw [foldl_cons, ih, mem_erase, mem_cons]
    tauto

end OrderedSet

-- ── Maps

/-- The keys in their order, and what each is mapped to. -/
structure OrderedMap (lt : α → α → Bool) (β : Type) where
  keys : OrderedSet lt
  value : α → β

namespace OrderedMap

variable [StrictTotal lt] [DecidableEq α] {m : OrderedMap lt β} {k k' : α} {v : β}

def set (m : OrderedMap lt β) (k : α) (v : β) : OrderedMap lt β where
  keys := m.keys.insert k
  value := Function.update m.value k v

def find (m : OrderedMap lt β) (k : α) : Option β := (m.keys.find k).map m.value

@[simp] theorem mem_keys_set : k' ∈ (m.set k v).keys ↔ k' = k ∨ k' ∈ m.keys := OrderedSet.mem_insert

theorem value_set : (m.set k v).value k' = if k' = k then v else m.value k' :=
  Function.update_apply ..

omit [DecidableEq α] in
theorem find_isSome : (m.find k).isSome ↔ k ∈ m.keys := by
  rw [find, Option.isSome_map]
  exact OrderedSet.find_isSome

omit [DecidableEq α] in
theorem find_of_mem (hk : k ∈ m.keys) : m.find k = some (m.value k) := by
  rw [find, OrderedSet.find_iff.mpr ⟨hk, rfl⟩]
  rfl

/-- Every key of `l` is mapped to one value. -/
theorem value_foldl_set {l : List α} :
    (l.foldl (fun m k => m.set k v) m).value k' = if k' ∈ l then v else m.value k' := by
  induction l generalizing m with
  | nil => simp
  | cons x xs ih =>
    rw [foldl_cons, ih, value_set]
    by_cases hxs : k' ∈ xs
    · rw [if_pos hxs, if_pos (mem_cons_of_mem _ hxs)]
    · rw [if_neg hxs]
      simp only [mem_cons, hxs, or_false]

theorem mem_keys_foldl_set {l : List α} :
    k' ∈ (l.foldl (fun m k => m.set k v) m).keys ↔ k' ∈ l ∨ k' ∈ m.keys := by
  induction l generalizing m with
  | nil => simp
  | cons x xs ih =>
    rw [foldl_cons, ih, mem_keys_set, mem_cons]
    tauto

end OrderedMap

end SvfOrderedSet
