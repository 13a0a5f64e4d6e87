import Mathlib

/-!
# Search with a visited set

A traversal keeps three sets: `W` waits to be processed, `V` has been visited and will not be
queued again, `P` has been processed. Starting points are queued without being marked, so they
may be processed twice. The invariant is `Searching`: whatever started or was visited is
waiting or processed, and the successors of what was processed have been visited. When
nothing waits, exactly what the starting points reach has been processed (`Searching.done`).

The set of starting points may grow during a search: a second traversal that keeps the visited
set of the first continues it.
-/

namespace SvfSearch

open Set

variable {D : Type}

/-- What lies on some path of `R` from `S`. -/
def Reach (R : D → D → Prop) (S : Set D) : Set D :=
  {d | ∃ s ∈ S, Relation.ReflTransGen R s d}

variable {R : D → D → Prop} {S W V P : Set D}

theorem subset_reach : S ⊆ Reach R S := fun s hs => ⟨s, hs, Relation.ReflTransGen.refl⟩

theorem Reach.step {d e : D} (h : d ∈ Reach R S) (hde : R d e) : e ∈ Reach R S := by
  obtain ⟨s, hs, hd⟩ := h
  exact ⟨s, hs, hd.tail hde⟩

theorem reach_mono {S' : Set D} (h : S ⊆ S') : Reach R S ⊆ Reach R S' := by
  rintro d ⟨s, hs, hd⟩
  exact ⟨s, h hs, hd⟩

/-- A set that contains `S` and is closed under `R` contains all that `S` reaches. -/
theorem reach_subset {T : Set D} (hS : S ⊆ T) (hT : ∀ d ∈ T, ∀ e, R d e → e ∈ T) :
    Reach R S ⊆ T := by
  rintro d ⟨s, hs, hd⟩
  induction hd with
  | refl => exact hS hs
  | tail _ hde ih => exact hT _ ih _ hde

/-- Nothing is lost and nothing else is found. -/
structure Found (R : D → D → Prop) (S W V P : Set D) : Prop where
  starts : S ⊆ P ∪ W
  visited : V ⊆ P ∪ W
  sound : P ∪ (W ∪ V) ⊆ Reach R S

/-- The invariant between two rounds. -/
structure Searching (R : D → D → Prop) (S W V P : Set D) : Prop extends Found R S W V P where
  closed : ∀ d ∈ P, ∀ e, R d e → e ∈ V

theorem Searching.nothing : Searching R (∅ : Set D) ∅ ∅ ∅ := by
  refine ⟨⟨empty_subset _, empty_subset _, ?_⟩, fun d hd => absurd hd (notMem_empty d)⟩
  rw [empty_union, empty_union]
  exact empty_subset _

theorem Searching.start (h : Searching R S W V P) (s : D) :
    Searching R (insert s S) (insert s W) V P := by
  have hmono : Reach R S ⊆ Reach R (insert s S) := reach_mono (subset_insert s S)
  refine ⟨⟨?_, ?_, ?_⟩, h.closed⟩
  · rintro d (rfl | hd)
    · exact .inr (.inl rfl)
    · exact (h.starts hd).imp id .inr
  · exact fun d hd => (h.visited hd).imp id .inr
  · rintro d (hd | ((rfl | hd) | hd))
    · exact hmono (h.sound (.inl hd))
    · exact subset_reach (mem_insert d S)
    · exact hmono (h.sound (.inr (.inl hd)))
    · exact hmono (h.sound (.inr (.inr hd)))

theorem Found.pop {W' : Set D} {e : D} (h : Found R S W V P) (he : e ∈ W)
    (hsub : W' ⊆ W) (hrest : W ⊆ insert e W') : Found R S W' V (insert e P) := by
  have hmove : P ∪ W ⊆ insert e P ∪ W' := by
    rintro d (hd | hd)
    · exact .inl (.inr hd)
    · rcases hrest hd with rfl | hd
      · exact .inl (.inl rfl)
      · exact .inr hd
  refine ⟨h.starts.trans hmove, h.visited.trans hmove, ?_⟩
  rintro d ((rfl | hd) | (hd | hd))
  · exact h.sound (.inr (.inl he))
  · exact h.sound (.inl hd)
  · exact h.sound (.inr (.inl (hsub hd)))
  · exact h.sound (.inr (.inr hd))

theorem Found.visit {d e : D} (h : Found R S W V P) (he : e ∈ P) (hde : R e d) :
    Found R S (insert d W) (insert d V) P := by
  have hd : d ∈ Reach R S := Reach.step (h.sound (.inl he)) hde
  refine ⟨fun x hx => (h.starts hx).imp id .inr, ?_, ?_⟩
  · rintro x (rfl | hx)
    · exact .inr (.inl rfl)
    · exact (h.visited hx).imp id .inr
  · rintro x (hx | ((rfl | hx) | (rfl | hx)))
    · exact h.sound (.inl hx)
    · exact hd
    · exact h.sound (.inr (.inl hx))
    · exact hd
    · exact h.sound (.inr (.inr hx))

/-- A round: one element is taken out, its successors are marked, and those that were not
    before are queued. -/
theorem Searching.round {e : D} (h : Searching R S W V P) (he : e ∈ W) :
    Searching R S (W \ {e} ∪ {d | R e d ∧ d ∉ V}) (V ∪ {d | R e d}) (insert e P) := by
  have hpop : Found R S (W \ {e}) V (insert e P) := by
    refine h.toFound.pop he sdiff_subset ?_
    rw [insert_sdiff_singleton]
    exact subset_insert e W
  have hreach : ∀ d, R e d → d ∈ Reach R S := fun d hd => Reach.step (h.sound (.inr (.inl he))) hd
  refine ⟨⟨fun d hd => (hpop.starts hd).imp id .inl, ?_, ?_⟩, ?_⟩
  · rintro d (hd | hd)
    · exact (hpop.visited hd).imp id .inl
    · by_cases hV : d ∈ V
      · exact (hpop.visited hV).imp id .inl
      · exact .inr (.inr ⟨hd, hV⟩)
  · rintro d (hd | ((hd | ⟨hd, -⟩) | (hd | hd)))
    · exact hpop.sound (.inl hd)
    · exact hpop.sound (.inr (.inl hd))
    · exact hreach d hd
    · exact hpop.sound (.inr (.inr hd))
    · exact hreach d hd
  · rintro d (rfl | hd) x hx
    · exact .inr hx
    · exact .inl (h.closed d hd x hx)

/-- **At the end** exactly what the starting points reach has been processed. -/
theorem Searching.done (h : Searching R S ∅ V P) : P = Reach R S := by
  have hP : P ∪ ∅ = P := union_empty P
  refine Set.Subset.antisymm (fun d hd => h.sound (.inl hd)) ?_
  refine reach_subset (hP ▸ h.starts) fun d hd e hde => ?_
  exact hP ▸ h.visited (h.closed d hd e hde)

end SvfSearch
