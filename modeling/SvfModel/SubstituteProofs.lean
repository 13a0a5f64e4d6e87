import Mathlib

/-!
# Replacing a pattern in a text

`substitute accept pat x` puts `x` for every occurrence of `pat` whose rest is accepted. A text is
taken apart from the left, an occurrence or a letter at a time (`pattern_induction`), and every
fact here goes along that.

* `substitute_hole`, `substitute_keep` — what is done with an occurrence and with a letter;
* `substitute_behind` — nothing is replaced in a part in which no occurrence begins;
* `substituteAll_eq_iff` — to replace all occurrences is to replace the accepted ones, exactly if
  all are accepted or nothing changes;
* `substituteAll_eq_self_iff` — a text is left alone exactly if it has no occurrence or nothing
  changes.

Nothing here mentions a particular program.
-/

namespace SvfText

open List

variable {α : Type} [DecidableEq α]

/-- Every occurrence of `pat` with a rest that is accepted is replaced by `x`. The first letters
    are the end of one that has been. -/
def substitute (accept : List α → Bool) (pat x : List α) : ℕ → List α → List α
  | _, [] => []
  | behind + 1, _ :: s => substitute accept pat x behind s
  | 0, c :: s =>
    if pat.isPrefixOf (c :: s) && accept ((c :: s).drop pat.length) then
      x ++ substitute accept pat x (pat.length - 1) s
    else c :: substitute accept pat x 0 s

variable {accept : List α → Bool} {pat x : List α}

omit [DecidableEq α] in
theorem prefix_append_cases {a s : List α} (h : pat <+: a ++ s) :
    pat <+: a ∨ ∃ t, t ≠ [] ∧ pat = a ++ t ∧ t <+: s := by
  rcases prefix_or_prefix_of_prefix h (prefix_append a s) with hpre | ⟨t, rfl⟩
  · exact .inl hpre
  · by_cases ht : t = []
    · exact .inl (by rw [ht, append_nil])
    · exact .inr ⟨t, ht, rfl, (prefix_append_right_inj a).mp h⟩

theorem substitute_nil : substitute accept pat x 0 [] = [] := rfl

variable {rest : List α} {c : α} {s : List α}

theorem substitute_skip (a s : List α) :
    substitute accept pat x a.length (a ++ s) = substitute accept pat x 0 s := by
  induction a with
  | nil => rfl
  | cons c a ih => exact ih

theorem substitute_hole (hpat : pat ≠ []) (hacc : accept rest) :
    substitute accept pat x 0 (pat ++ rest) = x ++ substitute accept pat x 0 rest := by
  obtain ⟨c, ds, rfl⟩ := exists_cons_of_ne_nil hpat
  have hpre : (c :: ds).isPrefixOf (c :: (ds ++ rest)) :=
    isPrefixOf_iff_prefix.mpr (prefix_append (c :: ds) rest)
  have hdrop : (c :: (ds ++ rest)).drop (c :: ds).length = rest := by
    show (c :: ds ++ rest).drop (c :: ds).length = rest
    exact drop_left
  rw [cons_append, substitute, hdrop, hpre, hacc, Bool.and_true, if_pos rfl]
  exact congrArg (x ++ ·) (substitute_skip ds rest)

theorem substitute_keep (h : ∀ rest, c :: s = pat ++ rest → accept rest = false) :
    substitute accept pat x 0 (c :: s) = c :: substitute accept pat x 0 s := by
  rw [substitute, if_neg]
  intro hcond
  obtain ⟨hpre, hacc⟩ := (Bool.and_eq_true _ _).mp hcond
  obtain ⟨rest, hrest⟩ := isPrefixOf_iff_prefix.mp hpre
  rw [← hrest, drop_left, h rest hrest.symm] at hacc
  exact Bool.false_ne_true hacc

theorem substitute_keep_away (h : ¬ pat <+: c :: s) :
    substitute accept pat x 0 (c :: s) = c :: substitute accept pat x 0 s :=
  substitute_keep fun rest hrest => absurd ⟨rest, hrest.symm⟩ h

omit [DecidableEq α] in
/-- A text from the left: it is empty, begins with an occurrence that is accepted, or with a letter
    at which there is none. -/
theorem substitute_induction (accept : List α → Bool) (hpat : pat ≠ []) {motive : List α → Prop}
    (nil : motive [])
    (hole : ∀ rest, accept rest → motive rest → motive (pat ++ rest))
    (keep : ∀ c s, (∀ rest, c :: s = pat ++ rest → accept rest = false) → motive s →
      motive (c :: s)) : ∀ s, motive s := by
  intro s
  induction hn : s.length using Nat.strong_induction_on generalizing s with
  | h n ih =>
    subst hn
    cases s with
    | nil => exact nil
    | cons c s =>
      by_cases hpre : ∃ rest, c :: s = pat ++ rest ∧ accept rest
      · obtain ⟨rest, hrest, hacc⟩ := hpre
        have hlt : rest.length < (c :: s).length := by
          rw [hrest, length_append]
          have := length_pos_iff.mpr hpat
          omega
        exact hrest ▸ hole rest hacc (ih _ hlt rest rfl)
      · refine keep c s (fun rest hrest => ?_) (ih _ (Nat.lt_succ_self _) s rfl)
        exact Bool.eq_false_iff.mpr fun hacc => hpre ⟨rest, hrest, hacc⟩

theorem substitute_self (hpat : pat ≠ []) (s : List α) : substitute accept pat pat 0 s = s := by
  induction s using substitute_induction accept hpat with
  | nil => rfl
  | hole rest hacc ih => rw [substitute_hole hpat hacc, ih]
  | keep c s hno ih => rw [substitute_keep hno, ih]

theorem substitute_behind {a s : List α} (h : ∀ b, b ≠ [] → b <:+ a → ¬ pat <+: b ++ s) :
    substitute accept pat x 0 (a ++ s) = a ++ substitute accept pat x 0 s := by
  induction a with
  | nil => rfl
  | cons c a ih =>
    have hkeep : ¬ pat <+: c :: (a ++ s) := h (c :: a) (cons_ne_nil c a) (suffix_refl _)
    have hrest := ih fun b hb hsuf => h b hb (hsuf.trans (suffix_cons c a))
    rw [cons_append, substitute_keep_away hkeep, hrest]
    rfl

omit [DecidableEq α] in
theorem pattern_induction (hpat : pat ≠ []) {motive : List α → Prop} (nil : motive [])
    (hole : ∀ rest, motive rest → motive (pat ++ rest))
    (keep : ∀ c s, ¬ pat <+: c :: s → motive s → motive (c :: s)) : ∀ s, motive s := by
  refine substitute_induction (fun _ => true) hpat nil (fun rest _ => hole rest) ?_
  intro c s hno
  exact keep c s fun ⟨rest, hrest⟩ => Bool.false_ne_true (hno rest hrest.symm).symm

-- ── Two substitutions

/-- The substitution for every occurrence. -/
abbrev substituteAll (pat x s : List α) : List α := substitute (fun _ => true) pat x 0 s

def Accepted (accept : List α → Bool) (pat s : List α) : Prop :=
  ∀ rest, pat ++ rest <:+ s → accept rest = true

section

omit [DecidableEq α]

theorem Accepted.of_suffix {s s' : List α} (h : Accepted accept pat s) (hs : s' <:+ s) :
    Accepted accept pat s' := fun rest hrest => h rest (hrest.trans hs)

theorem accepted_cons (h : ¬ pat <+: c :: s) :
    Accepted accept pat (c :: s) ↔ Accepted accept pat s := by
  refine ⟨fun ha => ha.of_suffix (suffix_cons c s), fun ha rest hrest => ?_⟩
  rcases suffix_cons_iff.mp hrest with heq | hsuf
  · exact absurd ⟨rest, heq⟩ h
  · exact ha rest hsuf

theorem accepted_behind {a s : List α} (h : ∀ b, b ≠ [] → b <:+ a → ¬ pat <+: b ++ s) :
    Accepted accept pat (a ++ s) ↔ Accepted accept pat s := by
  induction a with
  | nil => exact .rfl
  | cons c a ih =>
    have hcons : ¬ pat <+: c :: (a ++ s) := h (c :: a) (cons_ne_nil c a) (suffix_refl _)
    exact (accepted_cons hcons).trans (ih fun b hb hsuf => h b hb (hsuf.trans (suffix_cons c a)))

end

variable {q : α} {ds : List α}

omit [DecidableEq α] in
theorem not_prefix_of_notMem {a s : List α} (hq : q ∉ a) :
    ∀ b, b ≠ [] → b <:+ a → ¬ q :: ds <+: b ++ s := by
  intro b hb hsuf hpre
  obtain ⟨c, b, rfl⟩ := exists_cons_of_ne_nil hb
  obtain ⟨rfl, -⟩ := cons_prefix_cons.mp (cons_append ▸ hpre)
  exact hq (hsuf.subset mem_cons_self)

theorem substitute_reject (hq : q ∉ ds) (hacc : accept rest = false) :
    substitute accept (q :: ds) x 0 (q :: ds ++ rest) =
      q :: ds ++ substitute accept (q :: ds) x 0 rest := by
  have hkeep : ∀ rest', q :: (ds ++ rest) = q :: ds ++ rest' → accept rest' = false := by
    intro rest' heq
    have hrest : rest = rest' :=
      append_cancel_left (show q :: ds ++ rest = q :: ds ++ rest' from heq)
    rwa [← hrest]
  rw [cons_append, substitute_keep hkeep, substitute_behind (not_prefix_of_notMem hq)]
  rfl

omit [DecidableEq α] in
theorem accepted_hole (hq : q ∉ ds) : Accepted accept (q :: ds) (q :: ds ++ rest) ↔
      accept rest ∧ Accepted accept (q :: ds) rest := by
  have hds : Accepted accept (q :: ds) (ds ++ rest) ↔ Accepted accept (q :: ds) rest :=
    accepted_behind (not_prefix_of_notMem hq)
  constructor
  · intro h
    exact ⟨h rest (suffix_refl _), h.of_suffix (suffix_append _ _)⟩
  · rintro ⟨hacc, h⟩ rest' hrest'
    rcases suffix_cons_iff.mp (show q :: ds ++ rest' <:+ q :: (ds ++ rest) from hrest')
      with heq | hsuf
    · have hrest : rest' = rest :=
        append_cancel_left (show q :: ds ++ rest' = q :: ds ++ rest from heq)
      rwa [hrest]
    · exact hds.mpr h rest' hsuf

/-- Letters are counted: where one substitution replaces and the other does not, those of `x` come
    and those of the pattern go. -/
theorem count_substituteAll (accept : List α → Bool) (x : List α) (hq : q ∉ ds) (s : List α) :
    ∃ k, ∀ c, (substituteAll (q :: ds) x s).count c + k * (q :: ds).count c =
      (substitute accept (q :: ds) x 0 s).count c + k * x.count c := by
  have hpat := cons_ne_nil q ds
  induction s using pattern_induction hpat with
  | nil => exact ⟨0, fun c => by rw [Nat.zero_mul, Nat.zero_mul]; rfl⟩
  | hole rest ih =>
    obtain ⟨k, hk⟩ := ih
    cases hacc : accept rest with
    | true =>
      refine ⟨k, fun c => ?_⟩
      rw [substituteAll, substitute_hole hpat rfl, substitute_hole hpat hacc,
        count_append, count_append, Nat.add_assoc, hk c, Nat.add_assoc]
    | false =>
      refine ⟨k + 1, fun c => ?_⟩
      have hc := hk c
      rw [substituteAll] at hc
      rw [substituteAll, substitute_hole hpat rfl, substitute_reject hq hacc,
        count_append, count_append, Nat.succ_mul, Nat.succ_mul]
      omega
  | keep c' s hpre ih =>
    obtain ⟨k, hk⟩ := ih
    refine ⟨k, fun c => ?_⟩
    have hc := hk c
    have hcons (l : List α) : (c' :: l).count c = l.count c + if c' == c then 1 else 0 := count_cons
    rw [substituteAll] at hc
    rw [substituteAll, substitute_keep_away hpre, substitute_keep_away hpre, hcons, hcons]
    omega

theorem first_rejected (hq : q ∉ ds) (h : ¬ Accepted accept (q :: ds) s) :
    ∃ w rest, substituteAll (q :: ds) x s = w ++ (x ++ substituteAll (q :: ds) x rest) ∧
      substitute accept (q :: ds) x 0 s =
        w ++ (q :: ds ++ substitute accept (q :: ds) x 0 rest) := by
  have hpat := cons_ne_nil q ds
  induction s using pattern_induction hpat with
  | nil => exact absurd (fun rest hrest => nomatch suffix_nil.mp hrest) h
  | hole rest ih =>
    cases hacc : accept rest with
    | true =>
      rw [accepted_hole hq, not_and] at h
      obtain ⟨w, rest', hw, hw'⟩ := ih (h hacc)
      refine ⟨x ++ w, rest', ?_, ?_⟩
      · rw [substituteAll, substitute_hole hpat rfl, append_assoc]
        exact congrArg (x ++ ·) hw
      · rw [substitute_hole hpat hacc, hw', append_assoc]
    | false =>
      exact ⟨[], rest, substitute_hole hpat rfl, substitute_reject hq hacc⟩
  | keep c s hpre ih =>
    obtain ⟨w, rest, hw, hw'⟩ := ih (mt (accepted_cons hpre).mpr h)
    refine ⟨c :: w, rest, ?_, ?_⟩
    · rw [substituteAll, substitute_keep_away hpre]
      exact congrArg (c :: ·) hw
    · rw [substitute_keep_away hpre, hw']
      rfl

theorem substituteAll_eq_iff (hq : q ∉ ds) :
    substituteAll (q :: ds) x s = substitute accept (q :: ds) x 0 s ↔
      x = q :: ds ∨ Accepted accept (q :: ds) s := by
  have hpat := cons_ne_nil q ds
  constructor
  · intro heq
    by_contra hno
    obtain ⟨hx, hacc⟩ := not_or.mp hno
    obtain ⟨w, rest, hall, hsome⟩ := first_rejected (x := x) hq hacc
    have hrest : x ++ substituteAll (q :: ds) x rest =
        q :: ds ++ substitute accept (q :: ds) x 0 rest :=
      append_cancel_left (hall.symm.trans (heq.trans hsome))
    obtain ⟨k, hk⟩ := count_substituteAll accept x hq rest
    have hperm : x.Perm (q :: ds) := by
      refine perm_iff_count.mpr fun c => ?_
      have hc := congrArg (List.count c) hrest
      rw [count_append, count_append] at hc
      have hkc := hk c
      nlinarith
    exact hx (append_inj_left hrest hperm.length_eq)
  · rintro (rfl | h)
    · rw [substituteAll, substitute_self hpat, substitute_self hpat]
    · induction s using pattern_induction hpat with
      | nil => rfl
      | hole rest ih =>
        obtain ⟨hacc, h⟩ := (accepted_hole hq).mp h
        rw [substituteAll, substitute_hole hpat rfl, substitute_hole hpat hacc]
        exact congrArg (x ++ ·) (ih h)
      | keep c s hpre ih =>
        rw [substituteAll, substitute_keep_away hpre, substitute_keep_away hpre]
        exact congrArg (c :: ·) (ih ((accepted_cons hpre).mp h))

theorem substituteAll_eq_self_iff (hq : q ∉ ds) :
    substituteAll (q :: ds) x s = s ↔ x = q :: ds ∨ ¬ q :: ds <:+: s := by
  have hnone : substitute (fun _ => false) (q :: ds) x 0 s = s := by
    induction s with
    | nil => rfl
    | cons c s ih => rw [substitute_keep fun _ _ => rfl, ih]
  have hiff : substituteAll (q :: ds) x s = substitute (fun _ => false) (q :: ds) x 0 s ↔
      x = q :: ds ∨ Accepted (fun _ => false) (q :: ds) s := substituteAll_eq_iff hq
  rw [hnone] at hiff
  refine hiff.trans (or_congr_right ⟨?_, ?_⟩)
  · rintro h ⟨a, b, rfl⟩
    exact Bool.false_ne_true (h b ⟨a, by rw [← append_assoc]⟩)
  · intro h rest hrest
    exact absurd ((prefix_append _ rest).isInfix.trans hrest.isInfix) h

end SvfText
