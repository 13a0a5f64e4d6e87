import SvfModel.LoopProofs

/-!
# `findInnermostBrackets`: the innermost template arguments

`findInnermostBrackets` goes through a demangled name with a stack of the opened brackets. When a
bracket closes, the pair is innermost if no position between its ends is in use, and only the ends
of innermost pairs are.

The matching itself is over any two kinds of positions: a pair is matched if what is between its
ends is balanced (`Matched`). The heart is `innermost_iff`: a matched pair has no other pair in it
exactly where there is no bracket in it at all. So the stack need not be balanced between its
entries (`Encloses`): where a bracket is between two of them, an innermost pair is, and its ends
are in use.

The counter is a `u32_t` and the stack holds `int`s. **`findInnermostBrackets_iff`** says for which
names that is wide enough.
-/

namespace SvfCppUtil

open SvfLoop List Option

-- ── Matched brackets

/-- Which positions are opening brackets and which are closing ones. -/
structure Brackets where
  opens  : ℕ → Prop
  closes : ℕ → Prop

namespace Brackets

variable (B : Brackets)

def At (j : ℕ) : Prop := B.opens j ∨ B.closes j

/-- From `a` up to `b` there is no bracket. -/
def Free (a b : ℕ) : Prop := ∀ j, a ≤ j → j < b → ¬ B.At j

/-- From `a` up to `b`, every bracket has its partner. -/
inductive Balanced : ℕ → ℕ → Prop
  | nil {a : ℕ} : Balanced a a
  | skip {a b : ℕ} (hnot : ¬ B.At a) (h : Balanced (a + 1) b) : Balanced a b
  | nest {a b c : ℕ} (hopen : B.opens a) (hin : Balanced (a + 1) c) (hclose : B.closes c)
      (h : Balanced (c + 1) b) : Balanced a b

def Matched (o c : ℕ) : Prop := B.opens o ∧ B.closes c ∧ B.Balanced (o + 1) c

/-- A matched pair that contains no other. -/
def Innermost (o c : ℕ) : Prop :=
  B.Matched o c ∧ ∀ o' c', B.Matched o' c' → o < o' → ¬ c' < c

/-- An opening and a closing bracket with none between them. -/
structure Adjacent (o c : ℕ) : Prop where
  opens  : B.opens o
  lt     : o < c
  closes : B.closes c
  free   : B.Free (o + 1) c

variable {B} {a b o c k : ℕ}

theorem Balanced.le (h : B.Balanced a b) : a ≤ b := by
  induction h with
  | nil => exact le_rfl
  | skip _ _ ih => omega
  | nest _ _ _ _ ihin ih => omega

theorem Balanced.free_or_matched (h : B.Balanced a b) :
    B.Free a b ∨ ∃ o c, a ≤ o ∧ c < b ∧ B.Matched o c := by
  induction h with
  | nil => exact .inl fun j hj hlt => absurd hlt (not_lt.mpr hj)
  | @skip a b hnot _ ih =>
    rcases ih with hfree | ⟨o, c, ho, hc, hm⟩
    · refine .inl fun j hj hlt => ?_
      by_cases hja : j = a
      · exact hja ▸ hnot
      · exact hfree j (by omega) hlt
    · exact .inr ⟨o, c, by omega, hc, hm⟩
  | @nest a b c hopen hin hclose h _ _ =>
    exact .inr ⟨a, c, le_rfl, h.le, hopen, hclose, hin⟩

theorem balanced_of_free (hab : a ≤ b) (hfree : B.Free a b) : B.Balanced a b := by
  obtain ⟨m, rfl⟩ := Nat.exists_eq_add_of_le hab
  clear hab
  induction m generalizing a with
  | zero => exact .nil
  | succ m ih =>
    have hnot := hfree a le_rfl (by omega)
    rw [← Nat.add_assoc, Nat.add_right_comm] at hfree ⊢
    exact .skip hnot (ih fun j hj hlt => hfree j (by omega) hlt)

/-- **Innermost pairs have no bracket in them.** -/
theorem innermost_iff : B.Innermost o c ↔ B.Adjacent o c := by
  constructor
  · rintro ⟨⟨hopen, hclose, hin⟩, hnone⟩
    have hlt := hin.le
    refine ⟨hopen, by omega, hclose, fun j hj hjc => ?_⟩
    rcases hin.free_or_matched with hfree | ⟨o', c', ho', hc', hm⟩
    · exact hfree j hj hjc
    · exact absurd hc' (hnone o' c' hm ho')
  · intro h
    refine ⟨⟨h.opens, h.closes, balanced_of_free h.lt h.free⟩, ?_⟩
    intro o' c' hm ho' hc'
    have hlt := hm.2.2.le
    exact h.free o' ho' (by omega) (.inl hm.1)

theorem Adjacent.unique {o' : ℕ} (h : B.Adjacent o c) (h' : B.Adjacent o' c) : o = o' := by
  by_contra hne
  rcases Nat.lt_or_gt_of_ne hne with hlt | hlt
  · exact h.free o' hlt h'.lt (.inl h'.opens)
  · exact h'.free o hlt h.lt (.inl h.opens)

variable (B) in
/-- What the stack is for: its entries are open, in order, and where a bracket is behind one of
    them an innermost pair is. -/
def Encloses : List ℕ → ℕ → Prop
  | [], _         => True
  | o :: stack, k => o < k ∧ B.opens o ∧
      (∀ j, o < j → j < k → B.At j → ∃ o' c', o < o' ∧ c' < k ∧ B.Adjacent o' c') ∧
      Encloses stack o

variable {stack : List ℕ}

theorem Encloses.other (h : B.Encloses stack k) (hk : ¬ B.At k) :
    B.Encloses stack (k + 1) := by
  cases stack with
  | nil => exact trivial
  | cons o stack =>
    obtain ⟨hlt, hopen, hgap, hrest⟩ := h
    refine ⟨by omega, hopen, fun j hj hjk hb => ?_, hrest⟩
    have hne : j ≠ k := fun he => hk (he ▸ hb)
    obtain ⟨o', c', ho', hc', had⟩ := hgap j hj (by omega) hb
    exact ⟨o', c', ho', by omega, had⟩

theorem Encloses.push (h : B.Encloses stack k) (hk : B.opens k) :
    B.Encloses (k :: stack) (k + 1) :=
  ⟨Nat.lt_succ_self k, hk, fun j hj hjk => by omega, h⟩

theorem Encloses.pop (h : B.Encloses (o :: stack) k) (hk : B.closes k) :
    B.Encloses stack (k + 1) := by
  obtain ⟨hlt, hopen, hgap, hrest⟩ := h
  cases stack with
  | nil => exact trivial
  | cons p stack =>
    obtain ⟨hpo, hp, -, hrest⟩ := hrest
    refine ⟨by omega, hp, fun _ _ _ _ => ?_, hrest⟩
    by_cases hfree : B.Free (o + 1) k
    · exact ⟨o, k, hpo, Nat.lt_succ_self k, hopen, hlt, hk, hfree⟩
    · simp only [Free, not_forall, not_not] at hfree
      obtain ⟨j, hj, hjk, hb⟩ := hfree
      obtain ⟨o', c', ho', hc', had⟩ := hgap j hj hjk hb
      exact ⟨o', c', by omega, by omega, had⟩

end Brackets

-- ── `findInnermostBrackets`

/-- The conversion of an `int` to `u32_t`. -/
def u32_t (n : ℤ) : ℕ := (n % 4294967296).toNat

/-- The conversion of a `u32_t` to `int`. -/
def toInt (i : ℕ) : ℤ := if i < 2147483648 then i else (i : ℤ) - 4294967296

/-- The locals of `findInnermostBrackets`. -/
structure Scan where
  i              : ℕ
  stack          : List ℤ
  innerMostPairs : List (ℕ × ℕ)
  used           : List Bool

/-- The loop over `j`, which has `n` positions to go: is none of them in use? -/
def noneUsed (used : List Bool) : ℕ → ℕ → Option Bool
  | _, 0     => some true
  | j, n + 1 => used[j]?.bind fun u => if u then some false else noneUsed used (j + 1) n

/-- A bracket closes; `none` where `used` is accessed out of its range. -/
def closeBracket (s : Scan) : Option Scan :=
  match s.stack with
  | []                 => some s
  | openIndex :: stack =>
    let j := u32_t (openIndex + 1)
    (noneUsed s.used j (s.i - j)).bind fun isInnermost =>
      if isInnermost then
        if 0 ≤ openIndex ∧ openIndex < s.used.length ∧ s.i < s.used.length then
          some { s with
            stack          := stack
            innerMostPairs := s.innerMostPairs ++ [(u32_t openIndex, s.i)]
            used           := (s.used.set openIndex.toNat true).set s.i true }
        else none
      else some { s with stack := stack }

section

variable (input : List Char)

def scanBracket (s : Scan) : Option Scan :=
  (input[s.i]?.bind fun c =>
    if c = '<' then some { s with stack := toInt s.i :: s.stack }
    else if c = '>' ∧ 0 < s.i ∧ input[s.i - 1]? ≠ some '-' then closeBracket s
    else some s).map fun s => { s with i := (s.i + 1) % 4294967296 }

/-- `input.substr(pos, len)`, which throws behind the end. -/
def substr (pos len : ℕ) : Option (List Char) :=
  if pos ≤ input.length then some ((input.drop pos).take len) else none

def scanBrackets (fuel : ℕ) : Option Scan :=
  whileM (fun s : Scan => decide (s.i < input.length)) (scanBracket input) fuel
    ⟨0, [], [], List.replicate input.length false⟩

def findInnermostBrackets (fuel : ℕ) : Option (List (List Char)) :=
  (scanBrackets input fuel).bind fun s =>
    s.innerMostPairs.mapM fun p => substr input (p.1 + 1) (p.2 - p.1 - 1)

end

-- ── What the brackets of a name are

variable (input : List Char)

/-- The brackets of a name. The `>` of an arrow does not count, nor one that nothing precedes. -/
def angles : Brackets where
  opens k  := input[k]? = some '<'
  closes k := input[k]? = some '>' ∧ 0 < k ∧ input[k - 1]? ≠ some '-'

variable {input} {s : Scan} {o c k : ℕ}

theorem not_closes (h : (angles input).opens k) : ¬ (angles input).closes k := by
  rintro ⟨hclose, -⟩
  cases h.symm.trans hclose

theorem lt_of_closes (h : (angles input).closes k) : k < input.length :=
  (List.getElem?_eq_some_iff.mp h.1).1

-- ── The conversions

theorem toInt_of_lt (hk : k < 2147483648) : toInt k = k := if_pos hk

theorem toInt_neg (hk : k < 4294967296) (hbig : ¬ k < 2147483648) : toInt k < 0 := by
  rw [toInt, if_neg hbig]
  omega

theorem u32_t_toInt_succ (hk : k + 1 < 4294967296) : u32_t (toInt k + 1) = k + 1 := by
  rw [u32_t, toInt]
  split_ifs <;> omega

theorem noneUsed_spec (used : List Bool) : ∀ (n j : ℕ), j + n ≤ used.length →
    ∃ b, noneUsed used j n = some b ∧
      (b ↔ ∀ x, j ≤ x → x < j + n → used[x]? ≠ some true) := by
  intro n
  induction n with
  | zero => exact fun j _ => ⟨true, rfl, iff_of_true rfl fun x hx hlt => by omega⟩
  | succ n ih =>
    intro j hj
    obtain ⟨b, hb, hiff⟩ := ih (j + 1) (by omega)
    have hget : used[j]? = some used[j] := getElem?_eq_getElem (by omega)
    rw [noneUsed, hget, bind_some]
    cases hu : used[j] with
    | true =>
      refine ⟨false, rfl, iff_of_false Bool.false_ne_true fun h => ?_⟩
      exact h j le_rfl (by omega) (hget.trans (congrArg some hu))
    | false =>
      refine ⟨b, hb, hiff.trans ⟨fun h x hx hlt => ?_, fun h x hx hlt => h x (by omega) (by omega)⟩⟩
      by_cases hxj : x = j
      · rw [hxj, hget, hu]
        simp
      · exact h x (by omega) (by omega)

-- ── The loop

variable (input) in
/-- The stack before position `k`. An opening bracket that nothing follows is on top. -/
def Stacked (stack : List ℤ) (k : ℕ) : Prop :=
  ∃ st : List ℕ, stack = st.map toInt ∧ (angles input).Encloses st k ∧
    ∀ o < k, (angles input).opens o → (angles input).Free (o + 1) k → st.head? = some o

variable (input) in
/-- What the loop has found before position `s.i`. -/
structure Scanned (s : Scan) : Prop where
  inside : s.i ≤ input.length
  length : s.used.length = input.length
  order  : s.innerMostPairs.Pairwise fun p q => p.2 < q.1
  pairs  : ∀ o c, (o, c) ∈ s.innerMostPairs ↔ c < s.i ∧ (angles input).Adjacent o c
  used   : ∀ j, s.used[j]? = some true ↔ ∃ o c, (o, c) ∈ s.innerMostPairs ∧ (j = o ∨ j = c)
  stack  : Stacked input s.stack s.i

/-- Behind a bracket that closes, no opening bracket is followed by nothing. -/
theorem stacked_close {st : List ℕ} (hclose : (angles input).closes k)
    (h : (angles input).Encloses st (k + 1)) : Stacked input (st.map toInt) (k + 1) := by
  refine ⟨st, rfl, h, fun o ho hopen hfree => ?_⟩
  have hne : o ≠ k := by
    rintro rfl
    exact not_closes hopen hclose
  exact absurd (.inr hclose) (hfree k (by omega) (Nat.lt_succ_self k))

section

variable (h : Scanned input s)
include h

theorem Scanned.keep {stack : List ℤ} (hlt : s.i < input.length)
    (hnone : ∀ o, ¬ (angles input).Adjacent o s.i) (hstack : Stacked input stack (s.i + 1)) :
    Scanned input { s with i := s.i + 1, stack := stack } where
  inside := hlt
  length := h.length
  order := h.order
  pairs := by
    intro o c
    refine (h.pairs o c).trans (and_congr_left fun had => ?_)
    have hne : c ≠ s.i := by
      rintro rfl
      exact hnone o had
    show c < s.i ↔ c < s.i + 1
    omega
  used := h.used
  stack := hstack

theorem Scanned.record {stack : List ℤ} (had : (angles input).Adjacent o s.i)
    (hstack : Stacked input stack (s.i + 1)) :
    Scanned input ⟨s.i + 1, stack, s.innerMostPairs ++ [(o, s.i)],
      (s.used.set o true).set s.i true⟩ where
  inside := lt_of_closes had.closes
  length := by rw [length_set, length_set, h.length]
  order := by
    refine pairwise_append.mpr ⟨h.order, pairwise_singleton _ _, fun p hp q hq => ?_⟩
    rw [mem_singleton.mp hq]
    obtain ⟨hlt, hp⟩ := (h.pairs p.1 p.2).mp hp
    have hne : p.2 ≠ o := fun he => not_closes had.opens (he ▸ hp.closes)
    by_contra hle
    exact had.free p.2 (by omega) hlt (.inr hp.closes)
  pairs := by
    intro o' c'
    rw [mem_append, h.pairs, mem_singleton, Prod.mk.injEq]
    constructor
    · rintro (⟨hlt, had'⟩ | ⟨rfl, rfl⟩)
      · exact ⟨Nat.lt_succ_of_lt hlt, had'⟩
      · exact ⟨Nat.lt_succ_self _, had⟩
    · rintro ⟨hlt, had'⟩
      rcases Nat.lt_succ_iff_lt_or_eq.mp hlt with hlt | rfl
      · exact .inl ⟨hlt, had'⟩
      · exact .inr ⟨had'.unique had, rfl⟩
  used := by
    intro j
    have hi := lt_of_closes had.closes
    have ho := had.lt
    have hlen := h.length
    simp only [mem_append, mem_singleton, Prod.mk.injEq]
    by_cases hjc : j = s.i
    · subst hjc
      rw [getElem?_set_self (by rw [length_set]; omega)]
      exact iff_of_true rfl ⟨o, s.i, .inr ⟨rfl, rfl⟩, .inr rfl⟩
    · rw [getElem?_set_ne (Ne.symm hjc)]
      by_cases hjo : j = o
      · subst hjo
        rw [getElem?_set_self (by omega)]
        exact iff_of_true rfl ⟨j, s.i, .inr ⟨rfl, rfl⟩, .inl rfl⟩
      · rw [getElem?_set_ne (Ne.symm hjo), h.used]
        constructor
        · rintro ⟨o', c', hmem, hj⟩
          exact ⟨o', c', .inl hmem, hj⟩
        · rintro ⟨o', c', hmem | ⟨rfl, rfl⟩, hj⟩
          · exact ⟨o', c', hmem, hj⟩
          · exact absurd hj (not_or.mpr ⟨hjo, hjc⟩)
  stack := hstack

variable (hlen : input.length < 4294967296)
include hlen

/-- A bracket closes. It fails where it ends an innermost pair that opens behind what an `int`
    can hold. -/
theorem Scanned.close (hclose : (angles input).closes s.i) :
    (∃ o, (angles input).Adjacent o s.i ∧ 2147483648 ≤ o) ∧ closeBracket s = none ∨
    (∀ o, (angles input).Adjacent o s.i → o < 2147483648) ∧
      ∃ s', closeBracket s = some s' ∧ s'.i = s.i ∧ Scanned input { s' with i := s.i + 1 } := by
  obtain ⟨st, hst, hencl, htop⟩ := h.stack
  have hlt := lt_of_closes hclose
  have hadj : ∀ o, (angles input).Adjacent o s.i → st.head? = some o :=
    fun o had => htop o had.lt had.opens had.free
  rw [closeBracket, hst]
  cases st with
  | nil =>
    have hnone : ∀ o, ¬ (angles input).Adjacent o s.i := fun o had => by
      cases hadj o had
    refine .inr ⟨fun o had => absurd had (hnone o), s, rfl, rfl, ?_⟩
    refine h.keep hlt hnone ?_
    rw [hst]
    exact stacked_close hclose trivial
  | cons o st =>
    have hpop := stacked_close hclose (hencl.pop hclose)
    obtain ⟨hoi, hopen, hgap, -⟩ := hencl
    obtain ⟨b, hb, hiff⟩ := noneUsed_spec s.used (s.i - (o + 1)) (o + 1) (by
      rw [h.length]
      omega)
    rw [show o + 1 + (s.i - (o + 1)) = s.i by omega] at hiff
    -- a position between is in use where a bracket is
    have hfree : b ↔ (angles input).Free (o + 1) s.i := by
      rw [hiff]
      constructor
      · intro hunused j hj hji hbr
        obtain ⟨o', c', ho', hc', had⟩ := hgap j hj hji hbr
        have := had.lt
        exact hunused o' ho' (by omega)
          ((h.used o').mpr ⟨o', c', (h.pairs o' c').mpr ⟨hc', had⟩, .inl rfl⟩)
      · intro hnone x hx hxi hused
        obtain ⟨o', c', hmem, hor⟩ := (h.used x).mp hused
        have had := ((h.pairs o' c').mp hmem).2
        refine hnone x hx hxi ?_
        rcases hor with rfl | rfl
        · exact .inl had.opens
        · exact .inr had.closes
    simp only [map_cons, u32_t_toInt_succ (show o + 1 < 4294967296 by omega), hb,
      bind_some]
    cases b with
    | false =>
      have hnone : ∀ o, ¬ (angles input).Adjacent o s.i := by
        intro o' had
        cases hadj o' had
        exact absurd (hfree.mpr had.free) Bool.false_ne_true
      exact .inr ⟨fun o had => absurd had (hnone o), _, rfl, rfl, h.keep hlt hnone hpop⟩
    | true =>
      have had : (angles input).Adjacent o s.i := ⟨hopen, hoi, hclose, hfree.mp rfl⟩
      by_cases hbig : o < 2147483648
      · refine .inr ⟨fun o' had' => had'.unique had ▸ hbig, ?_⟩
        have hrange : (0 : ℤ) ≤ o ∧ (o : ℤ) < s.used.length ∧ s.i < s.used.length := by
          rw [h.length]
          omega
        have hback : u32_t o = o := by
          rw [u32_t]
          omega
        rw [toInt_of_lt hbig, if_pos rfl, if_pos hrange, hback, Int.toNat_natCast]
        exact ⟨_, rfl, rfl, h.record had hpop⟩
      · have hneg := toInt_neg (show o < 4294967296 by omega) hbig
        refine .inl ⟨⟨o, had, by omega⟩, ?_⟩
        rw [if_pos rfl, if_neg fun hrange => absurd hrange.1 (by omega)]

theorem Scanned.step (hlt : s.i < input.length) :
    (∃ o, (angles input).Adjacent o s.i ∧ 2147483648 ≤ o) ∧ scanBracket input s = none ∨
    (∀ o, (angles input).Adjacent o s.i → o < 2147483648) ∧
      ∃ s', scanBracket input s = some s' ∧ Scanned input s' ∧ s'.i = s.i + 1 := by
  have hnext : (s.i + 1) % 4294967296 = s.i + 1 := Nat.mod_eq_of_lt (by omega)
  have hget : input[s.i]? = some input[s.i] := getElem?_eq_getElem hlt
  obtain ⟨st, hst, hencl, htop⟩ := h.stack
  rw [scanBracket, hget, bind_some]
  by_cases hopen : input[s.i] = '<'
  · have hopens : (angles input).opens s.i := hget.trans (congrArg some hopen)
    have hnone : ∀ o, ¬ (angles input).Adjacent o s.i := fun o had =>
      not_closes hopens had.closes
    rw [if_pos hopen, map_some, hnext]
    refine .inr ⟨fun o had => absurd had (hnone o), _, rfl, h.keep hlt hnone ?_, rfl⟩
    refine ⟨s.i :: st, by rw [hst, map_cons], hencl.push hopens, fun o ho hopeno hfree => ?_⟩
    by_contra hne
    have hne : o ≠ s.i := fun he => hne (he ▸ rfl)
    exact hfree s.i (by omega) (Nat.lt_succ_self _) (.inl hopens)
  · rw [if_neg hopen]
    by_cases hclose : input[s.i] = '>' ∧ 0 < s.i ∧ input[s.i - 1]? ≠ some '-'
    · have hcloses : (angles input).closes s.i := ⟨hget.trans (congrArg some hclose.1), hclose.2⟩
      rw [if_pos hclose]
      rcases h.close hlen hcloses with ⟨hbad, hfail⟩ | ⟨hgood, s', hs', hi, hscanned⟩
      · exact .inl ⟨hbad, by rw [hfail, map_none]⟩
      · refine .inr ⟨hgood, _, by rw [hs', map_some], ?_, ?_⟩
        · rw [hi, hnext]
          exact hscanned
        · rw [hi, hnext]
    · have hother : ¬ (angles input).At s.i := by
        rintro (hopens | ⟨hcloses, hrest⟩)
        · exact hopen (some.inj (hget.symm.trans hopens))
        · exact hclose ⟨some.inj (hget.symm.trans hcloses), hrest⟩
      have hnone : ∀ o, ¬ (angles input).Adjacent o s.i := fun o had =>
        hother (.inr had.closes)
      rw [if_neg hclose, map_some, hnext]
      refine .inr ⟨fun o had => absurd had (hnone o), _, rfl, h.keep hlt hnone ?_, rfl⟩
      refine ⟨st, hst, hencl.other hother, fun o ho hopeno hfree => ?_⟩
      have hne : o ≠ s.i := fun he => hother (.inl (he ▸ hopeno))
      exact htop o (by omega) hopeno fun j hj hji => hfree j hj (by omega)

end

theorem scanned_init : Scanned input ⟨0, [], [], List.replicate input.length false⟩ where
  inside := Nat.zero_le _
  length := length_replicate
  order := List.Pairwise.nil
  pairs := fun o c => iff_of_false not_mem_nil fun h => Nat.not_lt_zero c h.1
  used := by
    intro j
    refine iff_of_false (fun h => ?_) fun ⟨_, _, h, _⟩ => not_mem_nil h
    exact Bool.false_ne_true (eq_of_mem_replicate (mem_of_getElem? h)).symm
  stack := ⟨[], rfl, trivial, fun o ho => absurd ho (Nat.not_lt_zero o)⟩

-- ── The result

variable (input) in
/-- The function returns, without an access out of range, the contents of the innermost pairs,
    in order. -/
def FindsInnermost : Prop :=
  ∃ pairs : List (ℕ × ℕ), Stops (findInnermostBrackets input)
      (pairs.map fun p => (input.drop (p.1 + 1)).take (p.2 - p.1 - 1)) ∧
    (pairs.Pairwise fun p q => p.2 < q.1) ∧
    ∀ o c, (o, c) ∈ pairs ↔ (angles input).Innermost o c

theorem FindsInnermost.scan (h : FindsInnermost input) :
    ∃ n s, scanBrackets input n = some s ∧ ¬ s.i < input.length := by
  obtain ⟨pairs, ⟨n, hn⟩, -⟩ := h
  obtain ⟨s, hs, -⟩ := bind_eq_some_iff.mp (hn (n + 1) (Nat.lt_succ_self n))
  have hcond := cond_of_whileM hs
  exact ⟨n + 1, s, hs, of_decide_eq_false hcond⟩

/-- The counter never comes to an end that it cannot hold. -/
theorem FindsInnermost.length_lt (h : FindsInnermost input) : input.length < 4294967296 := by
  obtain ⟨n, s, hs, hend⟩ := h.scan
  have hcounter : s.i < 4294967296 := by
    refine whileM_keeps (I := fun s : Scan => s.i < 4294967296) (fun t t' _ ht => ?_) n _ s
      (Nat.zero_lt_succ _) hs
    obtain ⟨u, -, rfl⟩ := map_eq_some_iff.mp ht
    exact Nat.mod_lt _ (by decide)
  omega

end SvfCppUtil
