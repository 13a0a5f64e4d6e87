import SvfModel.MemRegionProofs

/-!
# Points-to chains

`CollectPtsChain` collects what can be reached from an object through points-to, base by base:
the fields of the base, and the chains of all they point to. The chain of a base is published in
the cache before it is complete, so inside a cycle the search reads what has been collected of a
base it is still busy with, and the chains built from that stay in the cache.

What a call returns is a matter of the cache before it: the fields of the bases that the search
reaches over bases without an entry, and the entries at which it stops (`Collects.seen`). The
answer to the first query is therefore complete, cycles or not; it is what the query leaves
behind that may not be. `NoOpenCycle` says that the search closes no cycle but that of a base with
itself; then nothing unfinished is read, and every entry is complete (`Collects.full`).
-/

namespace SvfMSSA

open Relation List Option
open Function (update update_of_ne update_self)
open Finset (mem_filter mem_union subset_union_left)

/-- What `CollectPtsChain` asks the program and the pointer analysis: the base of an object, the
    fields of a base after collapse, and what a node points to; all among finitely many nodes. -/
structure PtsInfo where
  nodes : Finset ℕ
  getBaseObjVar : ℕ → ℕ
  getFieldsAfterCollapse : ℕ → NodeBS
  getPts : ℕ → NodeBS
  base_mem : ∀ id ∈ nodes, getBaseObjVar id ∈ nodes
  fields_mem : ∀ b ∈ nodes, getFieldsAfterCollapse b ⊆ nodes
  pts_mem : ∀ n ∈ nodes, getPts n ⊆ nodes

abbrev NodeToPTSSMap := ℕ → Option NodeBS

def noChains : NodeToPTSSMap := fun _ => none

def addChain (cache : NodeToPTSSMap) (baseId : ℕ) (chain : NodeBS) : NodeToPTSSMap :=
  update cache baseId (some ((cache baseId).getD ∅ ∪ chain))

namespace PtsInfo

variable (I : PtsInfo)

def targets (baseId : ℕ) : List ℕ :=
  (NodeBS.iterate (I.getFieldsAfterCollapse baseId)).flatMap
    (fun nodeId => NodeBS.iterate (I.getPts nodeId))

def collectTarget (call : NodeToPTSSMap → ℕ → Option (NodeToPTSSMap × NodeBS)) (baseId : ℕ)
    (cache : NodeToPTSSMap) (o : ℕ) : Option NodeToPTSSMap :=
  match call cache o with
  | none => none
  | some (cache, chain) => some (addChain cache baseId chain)

/-- `CollectPtsChain`, to a depth of recursion: the cache afterwards and the chain returned. -/
def collectAt : ℕ → NodeToPTSSMap → ℕ → Option (NodeToPTSSMap × NodeBS)
  | 0, _, _ => none
  | depth + 1, cache, id =>
    let baseId := I.getBaseObjVar id
    match cache baseId with
    | some pts => some (cache, pts)
    | none =>
      let published := update cache baseId (some (I.getFieldsAfterCollapse baseId))
      match (I.targets baseId).foldlM (collectTarget (collectAt depth) baseId) published with
      | none => none
      | some cache => some (cache, (cache baseId).getD ∅)

def CollectPtsChain (cache : NodeToPTSSMap) (id : ℕ) : Option (NodeToPTSSMap × NodeBS) :=
  I.collectAt (I.nodes.card + 1) cache id

-- ── Chains

/-- A field of the first base points to an object of the second. -/
def Edge (b w : ℕ) : Prop :=
  ∃ n ∈ I.getFieldsAfterCollapse b, ∃ o ∈ I.getPts n, I.getBaseObjVar o = w

/-- The fields of the bases that points-to reaches from a base in any number of steps. -/
def Chain (b x : ℕ) : Prop :=
  ∃ c, ReflTransGen I.Edge b c ∧ x ∈ I.getFieldsAfterCollapse c

section

variable (cache : NodeToPTSSMap)

/-- A step to a base that has no entry. -/
def White (b w : ℕ) : Prop := I.Edge b w ∧ cache w = none

/-- The search from the first base comes to the second over bases without an entry. -/
def Search (b c : ℕ) : Prop :=
  cache b = none ∧ ReflTransGen (I.White cache) b c

/-- No two bases that the search comes to lie on a cycle of bases without an entry. -/
def NoOpenCycle (b : ℕ) : Prop :=
  ∀ c c', I.Search cache b c → I.Search cache c c' → I.Search cache c' c → c = c'

/-- The fields of a base that the search comes to, or the entry at which it stops. -/
def Seen (b x : ℕ) : Prop :=
  (∃ c, I.Search cache b c ∧ x ∈ I.getFieldsAfterCollapse c) ∨
    ∃ w e, (w = b ∨ ∃ c, I.Search cache b c ∧ I.Edge c w) ∧ cache w = some e ∧ x ∈ e

/-- No entry holds more than the chain. -/
def Sound : Prop := ∀ c e, cache c = some e → ∀ x ∈ e, I.Chain c x

/-- The entry of a base is complete. -/
def Full (c : ℕ) : Prop :=
  ∀ e, cache c = some e → ∀ x, I.Chain c x → x ∈ e

end

variable {I : PtsInfo} {cache cache' : NodeToPTSSMap} {b c w x id : ℕ} {r : NodeBS}

theorem mem_targets {o : ℕ} : o ∈ I.targets b ↔
    ∃ n ∈ I.getFieldsAfterCollapse b, o ∈ I.getPts n := by
  simp only [targets, mem_flatMap, NodeBS.mem_iterate]

theorem edge_iff : I.Edge b w ↔ ∃ o ∈ I.targets b, I.getBaseObjVar o = w := by
  simp only [Edge, mem_targets]
  constructor
  · rintro ⟨n, hn, o, ho, hw⟩
    exact ⟨o, ⟨n, hn, ho⟩, hw⟩
  · rintro ⟨o, ⟨n, hn, ho⟩, hw⟩
    exact ⟨n, hn, o, ho, hw⟩

theorem Chain.head (hbw : I.Edge b w) (h : I.Chain w x) : I.Chain b x := by
  obtain ⟨c, hc, hx⟩ := h
  exact ⟨c, .head hbw hc, hx⟩

theorem Search.refl (hb : cache b = none) : I.Search cache b b := ⟨hb, ReflTransGen.refl⟩

theorem Search.white (h : I.Search cache b c) : cache c = none := by
  obtain ⟨hb, h⟩ := h
  cases h with
  | refl => exact hb
  | tail _ hw => exact hw.2

theorem Search.tail (h : I.Search cache b c) (hcw : I.Edge c w) (hw : cache w = none) :
    I.Search cache b w :=
  ⟨h.1, h.2.tail ⟨hcw, hw⟩⟩

theorem Search.head (hb : cache b = none) (hbw : I.Edge b w) (h : I.Search cache w c) :
    I.Search cache b c :=
  ⟨hb, .head ⟨hbw, h.1⟩ h.2⟩

theorem Search.anti (hext : ∀ c e, cache c = some e → ∃ e', cache' c = some e')
    (h : I.Search cache' b c) : I.Search cache b c := by
  have hnone : ∀ c, cache' c = none → cache c = none := by
    intro c hc
    cases he : cache c with
    | none => rfl
    | some e =>
      obtain ⟨e', he'⟩ := hext c e he
      rw [hc] at he'
      cases he'
  have hmono : ∀ x y, I.White cache' x y → I.White cache x y :=
    fun x y hxy => ⟨hxy.1, hnone y hxy.2⟩
  exact ⟨hnone b h.1, ReflTransGen.mono hmono _ _ h.2⟩

-- ── What a call does

/-- The base got its entry between the two. -/
def New (cache cache' : NodeToPTSSMap) (c : ℕ) : Prop := cache c = none ∧ cache' c ≠ none

def Followed (I : PtsInfo) (b : ℕ) (ws : List ℕ) (c w : ℕ) : Prop :=
  c ≠ b ∧ I.Edge c w ∨ c = b ∧ w ∈ ws

/-- What the loop for the base `b` keeps, the targets with the bases `ws` being done: the entries
    there were are as they were; the new ones are those of bases the search comes to, and hold no
    more than that of `b`, which holds their fields and the old entries met from them, and nothing
    else. -/
structure Collecting (I : PtsInfo) (cache : NodeToPTSSMap) (b : ℕ) (ws : List ℕ)
    (cache' : NodeToPTSSMap) (r : NodeBS) : Prop where
  old : ∀ {c e}, cache c = some e → cache' c = some e
  reached : ∀ {c}, New cache cache' c → I.Search cache b c
  closed : ∀ {c w}, New cache cache' c → Followed I b ws c w → cache' w ≠ none
  start : cache b = none
  root : cache' b = some r
  entry : ∀ {c e}, cache c = none → cache' c = some e → I.getFieldsAfterCollapse c ⊆ e ∧ e ⊆ r
  met : ∀ {c w e}, New cache cache' c → Followed I b ws c w → cache w = some e → e ⊆ r
  seen : ∀ {x}, x ∈ r → (∃ c, New cache cache' c ∧ x ∈ I.getFieldsAfterCollapse c) ∨
    ∃ c w e, New cache cache' c ∧ I.Edge c w ∧ cache w = some e ∧ x ∈ e
  sound : I.Sound cache → I.Sound cache'
  full : I.NoOpenCycle cache b →
    (∀ {c w}, I.Search cache b c → I.Edge c w → I.Full cache w) →
      ∀ {c}, New cache cache' c → c ≠ b → I.Full cache' c

/-- What a call for a base without an entry does: all steps have been followed, and the entry of
    the base is the chain returned. -/
def Collects (I : PtsInfo) (cache : NodeToPTSSMap) (b : ℕ) (cache' : NodeToPTSSMap)
    (r : NodeBS) : Prop :=
  ∃ ws, Collecting I cache b ws cache' r ∧ ∀ w, w ∈ ws ↔ I.Edge b w

namespace Collecting

variable {ws : List ℕ} {w₀ : ℕ} {cache₁ : NodeToPTSSMap} {r₁ : NodeBS}

theorem publish (hb : cache b = none) :
    Collecting I cache b [] (update cache b (some (I.getFieldsAfterCollapse b)))
      (I.getFieldsAfterCollapse b) := by
  have hnew : ∀ {c}, New cache (update cache b (some (I.getFieldsAfterCollapse b))) c → c = b := by
    rintro c ⟨hc, hc'⟩
    by_contra hcb
    rw [update_of_ne hcb] at hc'
    exact hc' hc
  have hnone : ∀ {c w}, New cache (update cache b (some (I.getFieldsAfterCollapse b))) c →
      ¬Followed I b [] c w := by
    rintro c w hc (⟨hcb, _⟩ | ⟨_, hw⟩)
    · exact hcb (hnew hc)
    · exact not_mem_nil hw
  constructor
  case old =>
    intro c e hc
    have hcb : c ≠ b := by
      rintro rfl
      rw [hb] at hc
      cases hc
    rw [update_of_ne hcb, hc]
  case reached =>
    intro c hc
    rw [hnew hc]
    exact Search.refl hb
  case closed => exact fun hc hw => absurd hw (hnone hc)
  case start => exact hb
  case root => exact update_self ..
  case entry =>
    intro c e hc he
    have hcb : c = b := hnew ⟨hc, by rw [he]; simp⟩
    subst hcb
    rw [update_self, some_inj] at he
    rw [he]
    exact ⟨Finset.Subset.refl _, Finset.Subset.refl _⟩
  case met => exact fun hc hw => absurd hw (hnone hc)
  case seen =>
    intro x hx
    exact .inl ⟨b, ⟨hb, by rw [update_self]; simp⟩, hx⟩
  case sound =>
    intro hs c e hc x hx
    by_cases hcb : c = b
    · subst hcb
      rw [update_self, some_inj] at hc
      rw [← hc] at hx
      exact ⟨c, .refl, hx⟩
    · rw [update_of_ne hcb] at hc
      exact hs c e hc x hx
  case full =>
    intro _ _ c hc hcb
    exact absurd (hnew hc) hcb

theorem mem_ws {c w : ℕ} (h : Followed I b (ws ++ [w₀]) c w) :
    Followed I b ws c w ∨ c = b ∧ w = w₀ := by
  rcases h with h | ⟨hc, hw⟩
  · exact .inl (.inl h)
  · rcases mem_append.mp hw with hw | hw
    · exact .inl (.inr ⟨hc, hw⟩)
    · exact .inr ⟨hc, mem_singleton.mp hw⟩

theorem addChain_eq (hroot : cache b = some r) :
    addChain cache b r₁ = update cache b (some (r ∪ r₁)) := by
  rw [addChain, hroot]
  rfl

theorem update_ne_none (hroot : cache b = some r) (r' : NodeBS) (c : ℕ) :
    update cache b (some r') c ≠ none ↔ cache c ≠ none := by
  by_cases hcb : c = b
  · subst hcb
    rw [update_self, hroot]
    simp
  · rw [update_of_ne hcb]

theorem sound_union (hs : I.Sound cache) (hroot : cache b = some r) (hw0 : cache w₀ = some r₁)
    (hbw : I.Edge b w₀) : I.Sound (update cache b (some (r ∪ r₁))) := by
  intro c e hc x hx
  by_cases hcb : c = b
  · subst hcb
    rw [update_self, some_inj] at hc
    rw [← hc] at hx
    rcases mem_union.mp hx with hx | hx
    · exact hs c r hroot x hx
    · exact Chain.head hbw (hs w₀ r₁ hw0 x hx)
  · rw [update_of_ne hcb] at hc
    exact hs c e hc x hx

theorem meet (h : Collecting I cache b ws cache' r) (hbw : I.Edge b w₀)
    (hw0 : cache' w₀ = some r₁) :
    Collecting I cache b (ws ++ [w₀]) (addChain cache' b r₁) (r ∪ r₁) := by
  rw [addChain_eq h.root]
  have hbnew : New cache cache' b := ⟨h.start, by rw [h.root]; simp⟩
  have hkeys := update_ne_none h.root (r ∪ r₁)
  have hnew : ∀ {c}, New cache (update cache' b (some (r ∪ r₁))) c ↔
      New cache cache' c := fun {c} => and_congr_right (fun _ => hkeys c)
  -- an entry that is not an old one is part of what has been collected
  have hr1 : cache w₀ = none → r₁ ⊆ r := fun hw => (h.entry hw hw0).2
  constructor
  case old =>
    intro c e hc
    have hcb : c ≠ b := by
      rintro rfl
      rw [h.start] at hc
      cases hc
    rw [update_of_ne hcb]
    exact h.old hc
  case reached => exact fun hc => h.reached (hnew.mp hc)
  case closed =>
    intro c w hc hw
    rw [hkeys]
    rcases mem_ws hw with hw | ⟨_, rfl⟩
    · exact h.closed (hnew.mp hc) hw
    · rw [hw0]
      simp
  case start => exact h.start
  case root => exact update_self ..
  case entry =>
    intro c e hc he
    by_cases hcb : c = b
    · subst hcb
      rw [update_self, some_inj] at he
      rw [← he]
      exact ⟨(h.entry hc h.root).1.trans subset_union_left, Finset.Subset.refl _⟩
    · rw [update_of_ne hcb] at he
      exact ⟨(h.entry hc he).1, (h.entry hc he).2.trans subset_union_left⟩
  case met =>
    intro c w e hc hw he
    rcases mem_ws hw with hw | ⟨_, rfl⟩
    · exact (h.met (hnew.mp hc) hw he).trans subset_union_left
    · rw [h.old he, some_inj] at hw0
      rw [hw0]
      exact Finset.subset_union_right
  case seen =>
    intro x hx
    simp only [hnew]
    rcases mem_union.mp hx with hx | hx
    · exact h.seen hx
    · cases hw : cache w₀ with
      | none => exact h.seen (hr1 hw hx)
      | some e =>
        rw [h.old hw, some_inj] at hw0
        rw [← hw0] at hx
        exact .inr ⟨b, w₀, e, hbnew, hbw, hw, hx⟩
  case sound => exact fun hs => sound_union (h.sound hs) h.root hw0 hbw
  case full =>
    intro hno hold c hc hcb e he
    rw [update_of_ne hcb] at he
    exact h.full hno hold (hnew.mp hc) hcb e he

end Collecting

namespace Collects

variable {ws : List ℕ} {w₀ : ℕ} {cache₁ : NodeToPTSSMap} {r₁ : NodeBS}

theorem followed {c w : ℕ} (hws : ∀ w, w ∈ ws ↔ I.Edge b w) (hcw : I.Edge c w) :
    Followed I b ws c w := by
  by_cases hcb : c = b
  · subst hcb
    exact .inr ⟨rfl, (hws w).mpr hcw⟩
  · exact .inl ⟨hcb, hcw⟩

section

variable (h : Collects I cache b cache' r)
include h

theorem new_iff : New cache cache' c ↔ I.Search cache b c := by
  obtain ⟨ws, h, hws⟩ := h
  constructor
  · exact h.reached
  · rintro ⟨_, hbc⟩
    induction hbc with
    | refl => exact ⟨h.start, by rw [h.root]; simp⟩
    | tail _ hstep ih => exact ⟨hstep.2, h.closed ih (followed hws hstep.1)⟩

/-- The fields of a base the search comes to, and the entries at which it stops, are in the chain
    returned. -/
theorem fields_subset (hc : I.Search cache b c) : I.getFieldsAfterCollapse c ⊆ r := by
  have hnew := h.new_iff.mpr hc
  obtain ⟨ws, h, _⟩ := h
  obtain ⟨e, he⟩ := ne_none_iff_exists'.mp hnew.2
  obtain ⟨hsub, hsub'⟩ := h.entry hnew.1 he
  exact hsub.trans hsub'

theorem met_subset {e : NodeBS} (hc : I.Search cache b c)
    (hcw : I.Edge c w) (he : cache w = some e) : e ⊆ r := by
  have hnew := h.new_iff.mpr hc
  obtain ⟨ws, h, hws⟩ := h
  exact h.met hnew (followed hws hcw) he

theorem complete
    (hold : ∀ {c w}, I.Search cache b c → I.Edge c w → I.Full cache w) (hx : I.Chain b x) :
    x ∈ r := by
  obtain ⟨d, hbd, hxd⟩ := hx
  have hfrom : ∀ {c}, ReflTransGen I.Edge c d → I.Search cache b c → x ∈ r := by
    intro c hcd
    induction hcd using ReflTransGen.head_induction_on with
    | refl => exact fun hc => h.fields_subset hc hxd
    | head hcw hwd ih =>
      rename_i c w
      intro hc
      cases hw : cache w with
      | none => exact ih (hc.tail hcw hw)
      | some e => exact h.met_subset hc hcw hw (hold hc hcw e hw x ⟨d, hwd, hxd⟩)
  have hstart : cache b = none := by
    obtain ⟨ws, h, _⟩ := h
    exact h.start
  exact hfrom hbd (Search.refl hstart)

end

theorem full_call (h : Collecting I cache b ws cache' r) (hbw : I.Edge b w₀)
    (hcall : Collects I cache' w₀ cache₁ r₁) (hno : I.NoOpenCycle cache b)
    (hold : ∀ {c w}, I.Search cache b c → I.Edge c w → I.Full cache w) (hc : New cache cache₁ c)
    (hcb : c ≠ b) : I.Full cache₁ c := by
  have hsub := hcall
  obtain ⟨ws1, h1, _⟩ := hsub
  have hext : ∀ c e, cache c = some e → ∃ e', cache' c = some e' := fun c e he => ⟨e, h.old he⟩
  have hopen : ∀ {c}, I.Search cache' w₀ c → I.Search cache w₀ c := fun hc => hc.anti hext
  have hbw0 : b ≠ w₀ := by
    rintro rfl
    have hnone := h1.start
    rw [h.root] at hnone
    cases hnone
  have hfull := fun {c} hc hcb => h.full hno hold (c := c) hc hcb
  -- the call meets no entry that is not complete: that of `b` would close a cycle
  have hstops : ∀ {c w}, I.Search cache' w₀ c → I.Edge c w → I.Full cache' w := by
    intro d w hd hdw e he
    have hsearch := Search.head h.start hbw (hopen hd)
    cases hw : cache w with
    | some e' =>
      rw [h.old hw, some_inj] at he
      rw [← he]
      exact hold hsearch hdw e' hw
    | none =>
      by_cases hwb : w = b
      · subst hwb
        have hcycle := hno w w₀ (Search.refl h.start)
          (Search.head h.start hbw (Search.refl (hopen hd).1)) ((hopen hd).tail hdw hw)
        exact absurd hcycle hbw0
      · exact hfull ⟨hw, by rw [he]; simp⟩ hwb e he
  have hno1 : I.NoOpenCycle cache' w₀ := by
    intro c c' hc hcc' hc'c
    exact hno c c' (Search.head h.start hbw (hopen hc)) (hcc'.anti hext) (hc'c.anti hext)
  intro e he
  cases hmid : cache' c with
  | some e' =>
    rw [h1.old hmid, some_inj] at he
    rw [← he]
    exact hfull ⟨hc.1, by rw [hmid]; simp⟩ hcb e' hmid
  | none =>
    by_cases hcw : c = w₀
    · subst hcw
      rw [h1.root, some_inj] at he
      rw [← he]
      exact fun x => hcall.complete hstops
    · exact h1.full hno1 hstops ⟨hmid, by rw [he]; simp⟩ hcw e he

/-- The chain of a target that has no entry: a call between two rounds of the loop. -/
theorem collecting (h : Collecting I cache b ws cache' r) (hbw : I.Edge b w₀)
    (hsub : Collects I cache' w₀ cache₁ r₁) :
    Collecting I cache b (ws ++ [w₀]) (addChain cache₁ b r₁) (r ∪ r₁) := by
  have hcall := hsub
  obtain ⟨ws1, h1, hws1⟩ := hsub
  have hroot : cache₁ b = some r := h1.old h.root
  rw [Collecting.addChain_eq hroot]
  have hopen : ∀ {c}, I.Search cache' w₀ c → I.Search cache w₀ c :=
    fun hc => hc.anti (fun c e he => ⟨e, h.old he⟩)
  have hkeys := Collecting.update_ne_none hroot (r ∪ r₁)
  -- a new entry is one of before the call or one of the call
  have hnew : ∀ {c}, New cache (update cache₁ b (some (r ∪ r₁))) c →
      New cache cache' c ∨ New cache' cache₁ c := by
    rintro c ⟨hc, hc'⟩
    rw [hkeys] at hc'
    by_cases hmid : cache' c = none
    · exact .inr ⟨hmid, hc'⟩
    · exact .inl ⟨hc, hmid⟩
  have hnewb : ∀ {c}, New cache' cache₁ c → c ≠ b := by
    rintro c hc rfl
    rw [New, h.root] at hc
    cases hc.1
  have hnew1 : ∀ {c}, New cache' cache₁ c → New cache (update cache₁ b (some (r ∪ r₁))) c := by
    intro c hc
    refine ⟨?_, (hkeys c).mpr hc.2⟩
    exact (hopen (h1.reached hc)).white
  have hnew0 : ∀ {c}, New cache cache' c → New cache (update cache₁ b (some (r ∪ r₁))) c := by
    intro c hc
    refine ⟨hc.1, (hkeys c).mpr ?_⟩
    obtain ⟨e, he⟩ := ne_none_iff_exists'.mp hc.2
    rw [h1.old he]
    simp
  constructor
  case old =>
    intro c e hc
    have hcb : c ≠ b := by
      rintro rfl
      rw [h.start] at hc
      cases hc
    rw [update_of_ne hcb]
    exact h1.old (h.old hc)
  case reached =>
    intro c hc
    rcases hnew hc with hc | hc
    · exact h.reached hc
    · exact Search.head h.start hbw (hopen (h1.reached hc))
  case closed =>
    intro c w hc hw
    rw [hkeys]
    rcases hnew hc with hc | hc
    · rcases Collecting.mem_ws hw with hw | ⟨_, rfl⟩
      · obtain ⟨e, he⟩ := ne_none_iff_exists'.mp (h.closed hc hw)
        rw [h1.old he]
        simp
      · rw [h1.root]
        simp
    · rcases hw with ⟨_, hcw⟩ | ⟨hcb, _⟩
      · exact h1.closed hc (followed hws1 hcw)
      · exact absurd hcb (hnewb hc)
  case start => exact h.start
  case root => exact update_self ..
  case entry =>
    intro c e hc he
    by_cases hcb : c = b
    · subst hcb
      rw [update_self, some_inj] at he
      rw [← he]
      exact ⟨(h.entry hc h.root).1.trans subset_union_left, Finset.Subset.refl _⟩
    · rw [update_of_ne hcb] at he
      cases hmid : cache' c with
      | none =>
        obtain ⟨hsub, hsub'⟩ := h1.entry hmid he
        exact ⟨hsub, hsub'.trans Finset.subset_union_right⟩
      | some e' =>
        rw [h1.old hmid, some_inj] at he
        rw [← he]
        obtain ⟨hsub, hsub'⟩ := h.entry hc hmid
        exact ⟨hsub, hsub'.trans subset_union_left⟩
  case met =>
    intro c w e hc hw he
    rcases hnew hc with hc | hc
    · rcases Collecting.mem_ws hw with hw | ⟨_, rfl⟩
      · exact (h.met hc hw he).trans subset_union_left
      · have hnone := h1.start
        rw [h.old he] at hnone
        cases hnone
    · rcases hw with ⟨_, hcw⟩ | ⟨hcb, _⟩
      · exact (h1.met hc (followed hws1 hcw) (h.old he)).trans Finset.subset_union_right
      · exact absurd hcb (hnewb hc)
  case seen =>
    intro x hx
    have hold : x ∈ r → (∃ c, New cache (update cache₁ b (some (r ∪ r₁))) c ∧
        x ∈ I.getFieldsAfterCollapse c) ∨
        ∃ c w e, New cache (update cache₁ b (some (r ∪ r₁))) c ∧ I.Edge c w ∧
          cache w = some e ∧ x ∈ e := by
      intro hx
      rcases h.seen hx with ⟨c, hc, hx⟩ | ⟨c, w, e, hc, hcw, he, hx⟩
      · exact .inl ⟨c, hnew0 hc, hx⟩
      · exact .inr ⟨c, w, e, hnew0 hc, hcw, he, hx⟩
    rcases mem_union.mp hx with hx | hx
    · exact hold hx
    · rcases h1.seen hx with ⟨c, hc, hx⟩ | ⟨c, w, e, hc, hcw, he, hx⟩
      · exact .inl ⟨c, hnew1 hc, hx⟩
      · -- an entry met in the call is an old one, or was collected before
        cases hw : cache w with
        | none => exact hold ((h.entry hw he).2 hx)
        | some e' =>
          rw [h.old hw, some_inj] at he
          rw [← he] at hx
          exact .inr ⟨c, w, e', hnew1 hc, hcw, hw, hx⟩
  case sound =>
    exact fun hs => Collecting.sound_union (h1.sound (h.sound hs)) hroot h1.root hbw
  case full =>
    intro hno hold c hc hcb e he
    rw [update_of_ne hcb] at he
    exact full_call h hbw hcall hno hold ⟨hc.1, (hkeys c).mp hc.2⟩ hcb e he

end Collects

-- ── Calls

/-- How many bases have no entry. -/
def openBases (I : PtsInfo) (cache : NodeToPTSSMap) : ℕ :=
  (I.nodes.filter (fun n => cache n = none)).card

section

variable (hext : ∀ c e, cache c = some e → ∃ e', cache' c = some e')
include hext

theorem openBases_subset :
    (I.nodes.filter fun n => cache' n = none) ⊆ I.nodes.filter fun n => cache n = none := by
  intro c hc
  obtain ⟨hmem, hnone⟩ := mem_filter.mp hc
  refine mem_filter.mpr ⟨hmem, ?_⟩
  cases he : cache c with
  | none => rfl
  | some e =>
    obtain ⟨e', he'⟩ := hext c e he
    rw [hnone] at he'
    cases he'

theorem openBases_le : I.openBases cache' ≤ I.openBases cache :=
  Finset.card_le_card (openBases_subset hext)

theorem openBases_lt (hb : b ∈ I.nodes) (hnone : cache b = none) (hsome : cache' b ≠ none) :
    I.openBases cache' < I.openBases cache :=
  Finset.card_lt_card ⟨openBases_subset hext, fun hsub =>
    hsome (mem_filter.mp (hsub (mem_filter.mpr ⟨hb, hnone⟩))).2⟩

end

/-- What a call does: it returns the entry of its base, or collects it. -/
def Called (I : PtsInfo) (cache : NodeToPTSSMap) (b : ℕ)
    (result : Option (NodeToPTSSMap × NodeBS)) : Prop :=
  (∃ e, cache b = some e ∧ result = some (cache, e)) ∨
    ∃ cache' r, result = some (cache', r) ∧ Collects I cache b cache' r

theorem foldlM_collectTarget {call : NodeToPTSSMap → ℕ → Option (NodeToPTSSMap × NodeBS)}
    {depth : ℕ} (hcall : ∀ {cache : NodeToPTSSMap} {id : ℕ}, id ∈ I.nodes →
      I.openBases cache < depth → Called I cache (I.getBaseObjVar id) (call cache id))
    {ws os : List ℕ} (hos : ∀ o ∈ os, o ∈ I.nodes ∧ I.Edge b (I.getBaseObjVar o))
    (h : Collecting I cache b ws cache' r) (hopen : I.openBases cache' < depth) :
    ∃ cache₁ r₁, os.foldlM (collectTarget call b) cache' = some cache₁ ∧
      Collecting I cache b (ws ++ os.map I.getBaseObjVar) cache₁ r₁ := by
  induction os generalizing ws cache' r with
  | nil => exact ⟨cache', r, rfl, by rwa [map_nil, append_nil]⟩
  | cons o os ih =>
    obtain ⟨ho, hbo⟩ := hos o mem_cons_self
    have happ : ws ++ (o :: os).map I.getBaseObjVar =
        (ws ++ [I.getBaseObjVar o]) ++ os.map I.getBaseObjVar := by
      rw [map_cons, append_assoc]
      rfl
    rw [happ]
    have hos' : ∀ o ∈ os, o ∈ I.nodes ∧ I.Edge b (I.getBaseObjVar o) := (forall_mem_cons.mp hos).2
    -- an addition leaves no base without an entry that had one
    have hadd : ∀ (cache₁ : NodeToPTSSMap) (chain : NodeBS),
        (∀ c e, cache' c = some e → cache₁ c = some e) →
          I.openBases (addChain cache₁ b chain) < depth := by
      intro cache₁ chain hold
      refine lt_of_le_of_lt (openBases_le ?_) hopen
      intro c e hc
      by_cases hcb : c = b
      · subst hcb
        exact ⟨_, update_self ..⟩
      · rw [addChain, update_of_ne hcb]
        exact ⟨e, hold c e hc⟩
    rcases hcall ho hopen with ⟨e, he, hresult⟩ | ⟨cache₁, r₁, hresult, hsub⟩
    · obtain ⟨cache2, r2, hloop, h2⟩ := ih hos' (h.meet hbo he) (hadd cache' e fun _ _ => id)
      refine ⟨cache2, r2, ?_, h2⟩
      rw [foldlM_cons, collectTarget, hresult]
      exact hloop
    · have hold : ∀ c e, cache' c = some e → cache₁ c = some e := by
        obtain ⟨_, h1, _⟩ := hsub
        exact fun c e => h1.old
      obtain ⟨cache2, r2, hloop, h2⟩ := ih hos' (hsub.collecting h hbo) (hadd cache₁ r₁ hold)
      refine ⟨cache2, r2, ?_, h2⟩
      rw [foldlM_cons, collectTarget, hresult]
      exact hloop

theorem collectAt_called : ∀ {depth : ℕ} {cache : NodeToPTSSMap} {id : ℕ}, id ∈ I.nodes →
    I.openBases cache < depth →
      Called I cache (I.getBaseObjVar id) (I.collectAt depth cache id) := by
  intro depth
  induction depth with
  | zero => exact fun _ h => absurd h (Nat.not_lt_zero _)
  | succ depth ih =>
    intro cache id hid hdepth
    have hb : I.getBaseObjVar id ∈ I.nodes := I.base_mem id hid
    rw [collectAt]
    generalize I.getBaseObjVar id = b at hb ⊢
    cases hcached : cache b with
    | some e =>
      exact .inl ⟨e, hcached, rfl⟩
    | none =>
      have hpub := Collecting.publish (I := I) hcached
      have hopen : I.openBases (update cache b (some (I.getFieldsAfterCollapse b))) < depth := by
        have hlt : _ < I.openBases cache := openBases_lt (fun c e hc => ⟨e, hpub.old hc⟩) hb
          hcached (by rw [hpub.root]; simp)
        exact lt_of_lt_of_le hlt (Nat.le_of_lt_succ hdepth)
      have htargets : ∀ o ∈ I.targets b, o ∈ I.nodes ∧ I.Edge b (I.getBaseObjVar o) := by
        intro o ho
        obtain ⟨n, hn, hno⟩ := mem_targets.mp ho
        exact ⟨I.pts_mem n (I.fields_mem b hb hn) hno, edge_iff.mpr ⟨o, ho, rfl⟩⟩
      obtain ⟨cache₁, r₁, hloop, h1⟩ := foldlM_collectTarget ih htargets hpub hopen
      simp only [hloop, h1.root, getD_some]
      refine .inr ⟨cache₁, r₁, rfl, _, h1, ?_⟩
      intro w
      rw [List.nil_append, List.mem_map, edge_iff]

theorem collectPtsChain_called (cache : NodeToPTSSMap) (hid : id ∈ I.nodes) :
    Called I cache (I.getBaseObjVar id) (I.CollectPtsChain cache id) := by
  refine collectAt_called hid (Nat.lt_succ_of_le ?_)
  exact Finset.card_filter_le _ _

-- ── Runs

/-- The caches after queries that meet a condition on the cache before them. -/
inductive Queried (I : PtsInfo) (ok : NodeToPTSSMap → ℕ → Prop) : NodeToPTSSMap → Prop
  | start : Queried I ok noChains
  | query {cache cache' : NodeToPTSSMap} {id : ℕ} {r : NodeBS} : Queried I ok cache →
      id ∈ I.nodes → ok cache id → I.CollectPtsChain cache id = some (cache', r) →
      Queried I ok cache'

theorem called_seen {result : Option (NodeToPTSSMap × NodeBS)} (h : Called I cache b result) :
    ∃ cache' r, result = some (cache', r) ∧ ∀ x, x ∈ r ↔ I.Seen cache b x := by
  rcases h with ⟨e, he, rfl⟩ | ⟨cache', r, rfl, hcol⟩
  · refine ⟨cache, e, rfl, ?_⟩
    intro x
    constructor
    · exact fun hx => .inr ⟨b, e, .inl rfl, he, hx⟩
    · have hnot : ∀ {c}, ¬I.Search cache b c := by
        rintro c ⟨hnone, _⟩
        rw [he] at hnone
        cases hnone
      rintro (⟨c, hc, _⟩ | ⟨w, e', rfl | ⟨c, hc, _⟩, he', hx⟩)
      · exact absurd hc hnot
      · rw [he, some_inj] at he'
        rw [he']
        exact hx
      · exact absurd hc hnot
  · refine ⟨cache', r, rfl, ?_⟩
    intro x
    constructor
    · intro hx
      have hseen : (∃ c, New cache cache' c ∧ x ∈ I.getFieldsAfterCollapse c) ∨
          ∃ c w e, New cache cache' c ∧ I.Edge c w ∧ cache w = some e ∧ x ∈ e := by
        obtain ⟨_, h, _⟩ := hcol
        exact h.seen hx
      simp only [hcol.new_iff] at hseen
      rcases hseen with h | ⟨c, w, e, hc, hcw, he, hx⟩
      · exact .inl h
      · exact .inr ⟨w, e, .inr ⟨c, hc, hcw⟩, he, hx⟩
    · rintro (⟨c, hc, hx⟩ | ⟨w, e, rfl | ⟨c, hc, hcw⟩, he, hx⟩)
      · exact hcol.fields_subset hc hx
      · obtain ⟨_, h, _⟩ := hcol
        rw [h.start] at he
        cases he
      · exact hcol.met_subset hc hcw he hx

theorem queried_sound {ok : NodeToPTSSMap → ℕ → Prop} (h : Queried I ok cache) : I.Sound cache := by
  induction h with
  | start => exact fun c e hc => absurd hc (by simp [noChains])
  | query _ hid _ hcall ih =>
    rcases collectPtsChain_called _ hid with ⟨e, _, hresult⟩ | ⟨cache', r, hresult, _, h, _⟩
    · rw [hcall, some_inj] at hresult
      cases hresult
      exact ih
    · rw [hcall, some_inj] at hresult
      cases hresult
      exact h.sound ih

/-- The search for an object closes no cycle of bases without an entry. -/
def OpensNoCycle (I : PtsInfo) (cache : NodeToPTSSMap) (id : ℕ) : Prop :=
  I.NoOpenCycle cache (I.getBaseObjVar id)

theorem queried_full (h : Queried I (OpensNoCycle I) cache) : ∀ c, I.Full cache c := by
  induction h with
  | start => exact fun c e hc => absurd hc (by simp [noChains])
  | @query cache cache' id r _ hid hok hcall ih =>
    rcases collectPtsChain_called _ hid with ⟨e, _, hresult⟩ | ⟨_, _, hresult, hcol⟩
    · rw [hcall, some_inj] at hresult
      cases hresult
      exact ih
    · rw [hcall, some_inj] at hresult
      cases hresult
      have hcomplete := fun x => hcol.complete (x := x) (fun {_ w} _ _ => ih w)
      obtain ⟨_, h, _⟩ := hcol
      intro c e he x hx
      cases hc : cache c with
      | some e' =>
        rw [h.old hc, some_inj] at he
        rw [← he]
        exact ih c e' hc x hx
      | none =>
        by_cases hcb : c = I.getBaseObjVar id
        · subst hcb
          rw [h.root, some_inj] at he
          rw [← he]
          exact hcomplete x hx
        · exact h.full hok (fun {_ w} _ _ => ih w) ⟨hc, by rw [he]; simp⟩ hcb e he x hx

/-- Every query is answered by part of the chain of its object: by the whole chain exactly if the
    search sees all of it. As long as the queries before have closed no cycle of two bases or
    more, it does, so then the answer does not depend on them. -/
theorem collectPtsChain_exact_iff (I : PtsInfo) :
    (∀ cache, Queried I (fun _ _ => True) cache → ∀ id ∈ I.nodes,
      ∃ cache' r, I.CollectPtsChain cache id = some (cache', r) ∧
        (∀ x ∈ r, I.Chain (I.getBaseObjVar id) x) ∧
        ((∀ x, x ∈ r ↔ I.Chain (I.getBaseObjVar id) x) ↔
          ∀ x, I.Chain (I.getBaseObjVar id) x → I.Seen cache (I.getBaseObjVar id) x)) ∧
    (∀ cache, Queried I (OpensNoCycle I) cache → ∀ id ∈ I.nodes,
      ∃ cache' r, I.CollectPtsChain cache id = some (cache', r) ∧
        ∀ x, x ∈ r ↔ I.Chain (I.getBaseObjVar id) x) := by
  have hsound : ∀ {ok : NodeToPTSSMap → ℕ → Prop} {cache cache' : NodeToPTSSMap} {id : ℕ}
      {r : NodeBS}, Queried I ok cache → id ∈ I.nodes →
        I.CollectPtsChain cache id = some (cache', r) →
          ∀ x ∈ r, I.Chain (I.getBaseObjVar id) x := by
    intro ok cache cache' id r hq hid hcall x hx
    have hs := queried_sound hq
    rcases collectPtsChain_called _ hid with ⟨e, he, hresult⟩ | ⟨_, _, hresult, _, h, _⟩
    · rw [hcall, some_inj] at hresult
      cases hresult
      exact hs _ r he x hx
    · rw [hcall, some_inj] at hresult
      cases hresult
      exact h.sound hs _ r h.root x hx
  constructor
  · intro cache hq id hid
    obtain ⟨cache', r, hcall, hseen⟩ := called_seen (collectPtsChain_called cache hid)
    refine ⟨cache', r, hcall, hsound hq hid hcall, ?_⟩
    simp only [hseen]
    constructor
    · exact fun h x => (h x).mpr
    · intro h x
      exact ⟨fun hx => hsound hq hid hcall x ((hseen x).mpr hx), h x⟩
  · intro cache hq id hid
    have hfull := queried_full hq
    rcases collectPtsChain_called cache hid with ⟨e, he, hcall⟩ | ⟨cache', r, hcall, hcol⟩
    · exact ⟨cache, e, hcall, fun x => ⟨hsound hq hid hcall x, hfull _ e he x⟩⟩
    · exact ⟨cache', r, hcall,
        fun x => ⟨hsound hq hid hcall x, hcol.complete (fun {_ w} _ _ => hfull w)⟩⟩

/-- Objects without fields: 1 points to 2 and 3, and 2 back to 1. -/
def twoCycle : PtsInfo where
  nodes := {1, 2, 3}
  getBaseObjVar := fun n => n
  getFieldsAfterCollapse := fun b => {b}
  getPts := fun n => if n = 1 then {2, 3} else if n = 2 then {1} else ∅
  base_mem := fun _ h => h
  fields_mem := by decide
  pts_mem := by decide

/-- Asked after 1, the chain of 2 is {1, 2}: it was built while 3 had not been met. -/
theorem collectPtsChain_partial :
    ¬∀ cache, Queried twoCycle (fun _ _ => True) cache → ∀ id ∈ twoCycle.nodes,
      ∀ cache' r, twoCycle.CollectPtsChain cache id = some (cache', r) →
        ∀ x, x ∈ r ↔ twoCycle.Chain (twoCycle.getBaseObjVar id) x := by
  intro h
  have hone : (1 : ℕ) ∈ twoCycle.nodes := by decide
  have htwo : (2 : ℕ) ∈ twoCycle.nodes := by decide
  obtain ⟨cache, r, hcall, _⟩ := called_seen (collectPtsChain_called (I := twoCycle) noChains hone)
  obtain ⟨cache', r', hcall', _⟩ := called_seen (collectPtsChain_called (I := twoCycle) cache htwo)
  have hqueried : Queried twoCycle (fun _ _ => True) cache := .query .start hone trivial hcall
  have hanswer : ((twoCycle.CollectPtsChain noChains 1).bind fun result =>
      (twoCycle.CollectPtsChain result.1 2).map Prod.snd) = some {1, 2} := by decide +kernel
  rw [hcall, bind_some, hcall', map_some, some_inj] at hanswer
  have hchain : twoCycle.Chain 2 3 := by
    refine ⟨3, .head (b := 1) ?_ (.single ?_), by decide⟩
    · exact ⟨2, by decide, 1, by decide, rfl⟩
    · exact ⟨1, by decide, 3, by decide, rfl⟩
  have hthree := (h cache hqueried 2 htwo cache' r' hcall' 3).mpr hchain
  change r' = {1, 2} at hanswer
  rw [hanswer] at hthree
  exact absurd hthree (by decide)

end PtsInfo

end SvfMSSA
