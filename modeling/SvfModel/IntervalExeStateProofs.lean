import SvfModel.IntervalValueProofs

/-!
# `IntervalESBase`: states of the interval analysis

A state has four tables: variables and locations to intervals, and variables and locations to
sets of addresses. `joinWith` goes through the keys of the other state and adds the ones that
are missing (`lookup_joinTable`); the widenings go through their own keys and never look at the
address tables (`lookup_widenTable`). So a join covers both states (`covers_joinWith`), and a
widening covers the other state exactly where the other state binds nothing that this one does
not (**`widening_covers_iff`**).
-/

namespace SvfInterval

open List
open IntervalValue (contains_join_with contains_widen_with join_with widen_with)

/-- An unordered map. -/
abbrev Table (K V : Type) := AList fun _ : K => V

section Table

variable {K V : Type} [DecidableEq K]

section

variable (op : V → V → V)

def widenTable (t other : Table K V) : Table K V where
  entries := t.entries.map fun e =>
    ⟨e.1, match other.lookup e.1 with
      | some v => op e.2 v
      | none => e.2⟩
  nodupKeys := by
    have hkeys : (t.entries.map fun e => (⟨e.1, match other.lookup e.1 with
        | some v => op e.2 v
        | none => e.2⟩ : Sigma fun _ : K => V)).keys = t.entries.keys := by
      rw [List.keys, map_map]
      rfl
    rw [List.NodupKeys, hkeys]
    exact t.nodupKeys

def joinEntry (t : Table K V) (e : Sigma fun _ : K => V) : Table K V :=
  match t.lookup e.1 with
  | some v => t.insert e.1 (op v e.2)
  | none => t.insert e.1 e.2

/-- The loop of a join: bindings that are missing are added. -/
def joinTable (t other : Table K V) : Table K V :=
  other.entries.foldl (joinEntry op) t

theorem lookup_widenTable (t other : Table K V) (k : K) :
    (widenTable op t other).lookup k = (t.lookup k).map fun v =>
      match other.lookup k with
      | some w => op v w
      | none => v := by
  show List.dlookup k (t.entries.map _) = (List.dlookup k t.entries).map _
  induction t.entries with
  | nil => rfl
  | cons e l ih =>
    obtain ⟨k', v⟩ := e
    by_cases hk : k = k'
    · subst hk
      rw [map_cons, dlookup_cons_eq, dlookup_cons_eq]
      rfl
    · rw [map_cons, dlookup_cons_ne _ _ hk, dlookup_cons_ne _ _ hk, ih]

theorem lookup_joinEntry (t : Table K V) (k' : K) (w : V) (k : K) :
    (joinEntry op t ⟨k', w⟩).lookup k =
      if k = k' then some (((t.lookup k).map fun v => op v w).getD w) else t.lookup k := by
  rw [joinEntry]
  by_cases hk : k = k'
  · subst hk
    rw [if_pos rfl]
    cases t.lookup k with
    | none => exact AList.lookup_insert _
    | some v => exact AList.lookup_insert _
  · rw [if_neg hk]
    cases t.lookup k' with
    | none => exact AList.lookup_insert_ne hk
    | some v => exact AList.lookup_insert_ne hk

theorem lookup_joinTable (t other : Table K V) (k : K) : (joinTable op t other).lookup k =
      match other.lookup k with
      | some w => some (((t.lookup k).map fun v => op v w).getD w)
      | none => t.lookup k := by
  obtain ⟨l, hl⟩ := other
  show (l.foldl (joinEntry op) t).lookup k = match List.dlookup k l with
      | some w => some (((t.lookup k).map fun v => op v w).getD w)
      | none => t.lookup k
  induction l generalizing t with
  | nil => rfl
  | cons e l ih =>
    obtain ⟨k', w⟩ := e
    obtain ⟨hnew, hl⟩ := List.nodupKeys_cons.mp hl
    rw [foldl_cons, ih _ hl, lookup_joinEntry]
    by_cases hk : k = k'
    · subst hk
      rw [List.dlookup_eq_none.mpr hnew, dlookup_cons_eq, if_pos rfl]
    · rw [dlookup_cons_ne _ _ hk, if_neg hk]

end

end Table

variable {K A : Type} [DecidableEq K] [DecidableEq A]

structure IntervalESBase (K A : Type) where
  varToItvVal : Table K IntervalValue
  locToItvVal : Table K IntervalValue
  varToAddrs : Table K (Finset A)
  locToAddrs : Table K (Finset A)

namespace IntervalESBase

section

variable (s other : IntervalESBase K A)

def widening : IntervalESBase K A :=
  { s with
    varToItvVal := widenTable widen_with s.varToItvVal other.varToItvVal
    locToItvVal := widenTable widen_with s.locToItvVal other.locToItvVal }

/-- `widenWith(other)`, which changes the state itself. -/
def widenWith : IntervalESBase K A :=
  { s with
    varToItvVal := widenTable widen_with s.varToItvVal other.varToItvVal
    locToItvVal := widenTable widen_with s.locToItvVal other.locToItvVal }

/-- `joinWith(other)`, with that of `ExeState` for the addresses. -/
def joinWith : IntervalESBase K A where
  varToItvVal := joinTable join_with s.varToItvVal other.varToItvVal
  locToItvVal := joinTable join_with s.locToItvVal other.locToItvVal
  varToAddrs := joinTable (· ∪ ·) s.varToAddrs other.varToAddrs
  locToAddrs := joinTable (· ∪ ·) s.locToAddrs other.locToAddrs

end

end IntervalESBase

-- ── covering

def Contains (w v : IntervalValue) : Prop := ∀ n, v.contains n = true → w.contains n = true

def TableCovers {V : Type} (larger : V → V → Prop) (t s : Table K V) : Prop :=
  ∀ k v, s.lookup k = some v → ∃ w, t.lookup k = some w ∧ larger w v

/-- A state over-approximates another. -/
structure Covers (t s : IntervalESBase K A) : Prop where
  vars : TableCovers Contains t.varToItvVal s.varToItvVal
  locs : TableCovers Contains t.locToItvVal s.locToItvVal
  varAddrs : TableCovers (fun a b => b ⊆ a) t.varToAddrs s.varToAddrs
  locAddrs : TableCovers (fun a b => b ⊆ a) t.locToAddrs s.locToAddrs

section TableCovers

variable {V : Type} {larger : V → V → Prop} {op : V → V → V} {t other : Table K V}

section

variable (hrefl : ∀ v, larger v v)
include hrefl

theorem TableCovers.join_left (hop : ∀ v w, larger (op v w) v) :
    TableCovers larger (joinTable op t other) t := by
  intro k v hv
  rw [lookup_joinTable, hv]
  cases other.lookup k with
  | none => exact ⟨v, rfl, hrefl v⟩
  | some w => exact ⟨op v w, rfl, hop v w⟩

theorem TableCovers.join_right (hop : ∀ v w, larger (op v w) w) :
    TableCovers larger (joinTable op t other) other := by
  intro k w hw
  rw [lookup_joinTable, hw]
  cases t.lookup k with
  | none => exact ⟨w, rfl, hrefl w⟩
  | some v => exact ⟨op v w, rfl, hop v w⟩

theorem TableCovers.widen_left (hop : ∀ v w, larger (op v w) v) :
    TableCovers larger (widenTable op t other) t := by
  intro k v hv
  rw [lookup_widenTable, hv]
  cases other.lookup k with
  | none => exact ⟨v, rfl, hrefl v⟩
  | some w => exact ⟨op v w, rfl, hop v w⟩

end

theorem TableCovers.widen_right_iff (hop : ∀ v w, larger (op v w) w) :
    TableCovers larger (widenTable op t other) other ↔ ∀ k ∈ other, k ∈ t := by
  constructor
  · intro hcovers k hk
    obtain ⟨w, hw⟩ := Option.isSome_iff_exists.mp (AList.lookup_isSome.mpr hk)
    obtain ⟨u, hu, -⟩ := hcovers k w hw
    rw [lookup_widenTable] at hu
    obtain ⟨v, hv, -⟩ := Option.map_eq_some_iff.mp hu
    exact AList.lookup_isSome.mp (hv ▸ rfl)
  · intro hkeys k w hw
    obtain ⟨v, hv⟩ := Option.isSome_iff_exists.mp
      (AList.lookup_isSome.mpr (hkeys k (AList.lookup_isSome.mp (hw ▸ rfl))))
    rw [lookup_widenTable, hv, hw]
    exact ⟨op v w, rfl, hop v w⟩

end TableCovers

theorem contains_refl (v : IntervalValue) : Contains v v := fun _ hn => hn

/-- **A join** over-approximates both states. -/
theorem covers_joinWith (s other : IntervalESBase K A) :
    Covers (s.joinWith other) s ∧ Covers (s.joinWith other) other := by
  have hleft : ∀ v w : IntervalValue, Contains (v.join_with w) v :=
    fun _ _ _ hn => contains_join_with (.inl hn)
  have hright : ∀ v w : IntervalValue, Contains (v.join_with w) w :=
    fun _ _ _ hn => contains_join_with (.inr hn)
  constructor
  · exact ⟨TableCovers.join_left contains_refl hleft, TableCovers.join_left contains_refl hleft,
      TableCovers.join_left (fun _ => subset_rfl) fun _ _ => Finset.subset_union_left,
      TableCovers.join_left (fun _ => subset_rfl) fun _ _ => Finset.subset_union_left⟩
  · exact ⟨TableCovers.join_right contains_refl hright, TableCovers.join_right contains_refl hright,
      TableCovers.join_right (fun _ => subset_rfl) fun _ _ => Finset.subset_union_right,
      TableCovers.join_right (fun _ => subset_rfl) fun _ _ => Finset.subset_union_right⟩

/-- The other state binds nothing that this one does not, and no other addresses. -/
structure BindsNoMore (other s : IntervalESBase K A) : Prop where
  vars : ∀ k ∈ other.varToItvVal, k ∈ s.varToItvVal
  locs : ∀ k ∈ other.locToItvVal, k ∈ s.locToItvVal
  varAddrs : TableCovers (fun a b => b ⊆ a) s.varToAddrs other.varToAddrs
  locAddrs : TableCovers (fun a b => b ⊆ a) s.locToAddrs other.locToAddrs

/-- **A widening** over-approximates both states exactly where the other one binds no more; a
    join always does. -/
theorem widening_covers_iff (s other : IntervalESBase K A) :
    (Covers (s.joinWith other) s ∧ Covers (s.joinWith other) other) ∧
    s.widenWith other = s.widening other ∧
    (Covers (s.widening other) s ∧ Covers (s.widening other) other ↔ BindsNoMore other s) := by
  have hleft : ∀ v w : IntervalValue, Contains (v.widen_with w) v :=
    fun _ _ _ hn => contains_widen_with (.inl hn)
  have hright : ∀ v w : IntervalValue, Contains (v.widen_with w) w :=
    fun _ _ _ hn => contains_widen_with (.inr hn)
  refine ⟨covers_joinWith s other, rfl, ?_, fun h => ⟨?_, ?_⟩⟩
  · rintro ⟨-, h⟩
    exact ⟨(TableCovers.widen_right_iff hright).mp h.vars,
      (TableCovers.widen_right_iff hright).mp h.locs, h.varAddrs, h.locAddrs⟩
  · exact ⟨TableCovers.widen_left contains_refl hleft, TableCovers.widen_left contains_refl hleft,
      fun k v hv => ⟨v, hv, subset_rfl⟩, fun k v hv => ⟨v, hv, subset_rfl⟩⟩
  · exact ⟨(TableCovers.widen_right_iff hright).mpr h.vars,
      (TableCovers.widen_right_iff hright).mpr h.locs, h.varAddrs, h.locAddrs⟩

/-- The state before a loop binds nothing, the one after its body binds variable 0. -/
theorem widening_not_covers : ¬ ∀ s other : IntervalESBase ℕ ℕ,
    Covers (s.widening other) s ∧ Covers (s.widening other) other := by
  intro hall
  have hcovers := (hall ⟨∅, ∅, ∅, ∅⟩ ⟨AList.singleton 0 ⟨.numeral 1, .numeral 1⟩, ∅, ∅, ∅⟩).2.vars
  obtain ⟨w, hw, -⟩ := hcovers 0 ⟨.numeral 1, .numeral 1⟩ rfl
  exact Option.some_ne_none w hw.symm

end SvfInterval
