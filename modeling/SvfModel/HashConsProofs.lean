import Mathlib

/-!
# Hash-consing: interned values and memoised operations on their ids

A hash-consed store keeps a growing array of values, a hash map from value to index, and
memo tables recording the results of binary operations as ids. Two facts carry every
argument about such a store and are stated here for any value type with an equivalence
`==` and a hash agreeing with it:

* `Interns` — array and map are mutually inverse up to `==`; kept by pushing a value the
  map does not know (`Interns.push`);
* `MemoSound` — every memoised `(l, r) ↦ x` tells the truth about what the ids denote;
  kept by growth of the store (`MemoSound.mono`) and by recording a true entry
  (`MemoSound.insert`).
-/

namespace SvfHashCons

variable {D S : Type}

/-- `store` and `ids` are mutually inverse, up to `==` on values. -/
structure Interns [BEq D] [Hashable D] (store : Array D) (ids : Std.HashMap D Nat) :
    Prop where
  id_of_value : ∀ (i : Nat) (d : D), store[i]? = some d → ids[d]? = some i
  value_of_id : ∀ (d : D) (i : Nat), ids[d]? = some i → ∃ d', store[i]? = some d' ∧ (d' == d) = true

section Interning

variable [BEq D] [Hashable D] [EquivBEq D] [LawfulHashable D]

theorem Interns.single (d : D) : Interns #[d] ((∅ : Std.HashMap D Nat).insert d 0) := by
  constructor
  · intro i d' h
    obtain ⟨hi, rfl⟩ := Array.getElem?_eq_some_iff.mp h
    have h0 : i = 0 := by simpa using hi
    subst h0
    simp
  · intro d' i h
    rw [Std.HashMap.getElem?_insert] at h
    by_cases hd : (d == d')
    · rw [if_pos hd, Option.some.injEq] at h
      exact ⟨d, by simp [← h], hd⟩
    · rw [if_neg hd] at h
      simp at h

section

variable {store : Array D} {ids : Std.HashMap D Nat} (h : Interns store ids)
include h

theorem Interns.push {d : D} (hfresh : ids[d]? = none) :
    Interns (store.push d) (ids.insert d store.size) := by
  constructor
  · intro i d' hi
    rw [Array.getElem?_push] at hi
    rw [Std.HashMap.getElem?_insert]
    by_cases hlast : i = store.size
    · rw [if_pos hlast, Option.some.injEq] at hi
      subst hi
      simp [hlast]
    · rw [if_neg hlast] at hi
      have hid : ids[d']? = some i := h.id_of_value i d' hi
      have hne : ¬ (d == d') := by
        intro heq
        rw [← Std.HashMap.getElem?_congr heq, hfresh] at hid
        cases hid
      rw [if_neg hne]
      exact hid
  · intro d' i hi
    rw [Std.HashMap.getElem?_insert] at hi
    by_cases heq : (d == d')
    · rw [if_pos heq, Option.some.injEq] at hi
      subst hi
      exact ⟨d, by simp, heq⟩
    · rw [if_neg heq] at hi
      obtain ⟨d'', hd'', hbeq⟩ := h.value_of_id d' i hi
      have hlt : i < store.size := (Array.getElem?_eq_some_iff.mp hd'').1
      refine ⟨d'', ?_, hbeq⟩
      rw [Array.getElem?_push_lt hlt]
      exact (Array.getElem?_eq_getElem hlt).symm.trans hd''

/-- Distinct ids hold values that are not `==`. -/
theorem Interns.injective {i j : Nat} {d d' : D} (hi : store[i]? = some d)
    (hj : store[j]? = some d') (heq : (d == d')) : i = j := by
  have hdi : ids[d]? = some i := h.id_of_value i d hi
  have hdj : ids[d']? = some j := h.id_of_value j d' hj
  rw [Std.HashMap.getElem?_congr heq, hdj] at hdi
  exact (Option.some.inj hdi).symm

end

end Interning

/-! ## Growth and memo tables -/

/-- `g` still means by every id what `f` meant. -/
def Keeps (f g : Nat → Option S) : Prop := ∀ i s, f i = some s → g i = some s

theorem Keeps.refl (f : Nat → Option S) : Keeps f f := fun _ _ h => h

theorem Keeps.trans {f g h : Nat → Option S} (hfg : Keeps f g) (hgh : Keeps g h) :
    Keeps f h := fun i s hs => hgh i s (hfg i s hs)

/-- Every entry `(l, r) ↦ x` of the memo table `m` names stored values with
    `x = op l r`. -/
def MemoSound (f : Nat → Option S) (op : S → S → S) (m : Std.HashMap (Nat × Nat) Nat) : Prop :=
  ∀ l r x, m[(l, r)]? = some x →
    ∃ L R, f l = some L ∧ f r = some R ∧ f x = some (op L R)

theorem MemoSound.empty (f : Nat → Option S) (op : S → S → S) : MemoSound f op ∅ := by
  intro l r x h
  simp at h

theorem MemoSound.mono {f g : Nat → Option S} {op : S → S → S}
    {m : Std.HashMap (Nat × Nat) Nat} (h : MemoSound f op m) (hk : Keeps f g) :
    MemoSound g op m := by
  intro l r x hx
  obtain ⟨L, R, hl, hr, hv⟩ := h l r x hx
  exact ⟨L, R, hk l L hl, hk r R hr, hk x _ hv⟩

theorem MemoSound.insert {f : Nat → Option S} {op : S → S → S}
    {m : Std.HashMap (Nat × Nat) Nat} (h : MemoSound f op m) {k : Nat × Nat} {x : Nat}
    {L R : S} (hl : f k.1 = some L) (hr : f k.2 = some R) (hx : f x = some (op L R)) :
    MemoSound f op (m.insert k x) := by
  intro l r y hy
  rw [Std.HashMap.getElem?_insert] at hy
  by_cases hk : (k == (l, r))
  · rw [if_pos hk, Option.some.injEq] at hy
    have hkeq : k = (l, r) := eq_of_beq hk
    subst hkeq
    subst hy
    exact ⟨L, R, hl, hr, hx⟩
  · rw [if_neg hk] at hy
    exact h l r y hy

end SvfHashCons
