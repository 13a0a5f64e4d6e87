import Mathlib

/-!
# Texts

What programs do with text files: lines, and numbers in decimal. A text is a list of characters.

* `getlines_putlines` — lines that are written are read back;
* `pieces_putlines` — the same for the stream of `getline`s, which ends with an empty one;
* `extract_putNat` — a number that is written is extracted again, up to what is no digit;
* `find_found` — a pattern is found where it is, if one of its characters is new there.

Nothing here mentions a particular program.
-/

namespace SvfText

open List Nat

-- ── Lines

abbrev Line := List Char

/-- `while (std::getline(ss, line)) lines.push_back(line)`. A last line need not be ended. -/
def getlines : List Char → List Line
  | [] => []
  | c :: cs =>
    if c = '\n' then [] :: getlines cs
    else
      match getlines cs with
      | [] => [[c]]
      | l :: ls => (c :: l) :: ls

def putlines (lines : List Line) : List Char := lines.flatMap (· ++ ['\n'])

theorem getlines_append_newline (l : Line) (hl : '\n' ∉ l) (cs : List Char) :
    getlines (l ++ '\n' :: cs) = l :: getlines cs := by
  induction l with
  | nil => exact if_pos rfl
  | cons c l ih =>
    obtain ⟨hc, hl⟩ := not_or.mp (mt mem_cons.mpr hl)
    rw [cons_append, getlines, if_neg (Ne.symm hc), ih hl]

theorem getlines_unended {l : Line} (hne : l ≠ []) (hl : '\n' ∉ l) : getlines l = [l] := by
  induction l with
  | nil => exact absurd rfl hne
  | cons c l ih =>
    obtain ⟨hc, hl⟩ := not_or.mp (mt mem_cons.mpr hl)
    rw [getlines, if_neg (Ne.symm hc)]
    cases l with
    | nil => rfl
    | cons d l => rw [ih (cons_ne_nil d l) hl]

theorem getlines_putlines (lines : List Line) (h : ∀ l ∈ lines, '\n' ∉ l) :
    getlines (putlines lines) = lines := by
  induction lines with
  | nil => rfl
  | cons l lines ih =>
    have hcons : putlines (l :: lines) = l ++ '\n' :: putlines lines := by
      rw [putlines, flatMap_cons, append_assoc]
      rfl
    rw [hcons, getlines_append_newline l (h l mem_cons_self),
      ih fun l' hl' => h l' (mem_cons_of_mem l hl')]

theorem newline_notMem_getlines : ∀ (cs : List Char), ∀ l ∈ getlines cs, '\n' ∉ l := by
  intro cs
  induction cs with
  | nil => exact nofun
  | cons c cs ih =>
    intro l hl
    rw [getlines] at hl
    by_cases hc : c = '\n'
    · rw [if_pos hc] at hl
      rcases mem_cons.mp hl with rfl | hl
      · exact not_mem_nil
      · exact ih l hl
    · rw [if_neg hc] at hl
      cases hls : getlines cs with
      | nil =>
        rw [hls] at hl
        rw [mem_singleton.mp hl, mem_singleton]
        exact Ne.symm hc
      | cons l' ls =>
        rw [hls] at hl ih
        rcases mem_cons.mp hl with rfl | hl
        · rw [mem_cons, not_or]
          exact ⟨Ne.symm hc, ih l' mem_cons_self⟩
        · exact ih l (mem_cons_of_mem l' hl)

/-- What the calls of `getline` on a stream give while it is good: the text between the line
    breaks, and what is after the last of them. -/
def pieces : List Char → List Line
  | [] => [[]]
  | c :: cs =>
    if c = '\n' then [] :: pieces cs
    else
      match pieces cs with
      | [] => [[c]]
      | l :: ls => (c :: l) :: ls

theorem pieces_append_newline (l : Line) (hl : '\n' ∉ l) (cs : List Char) :
    pieces (l ++ '\n' :: cs) = l :: pieces cs := by
  induction l with
  | nil => exact if_pos rfl
  | cons c l ih =>
    obtain ⟨hc, hl⟩ := not_or.mp (mt mem_cons.mpr hl)
    rw [cons_append, pieces, if_neg (Ne.symm hc), ih hl]

theorem putlines_cons (l : Line) (lines : List Line) :
    putlines (l :: lines) = l ++ '\n' :: putlines lines := by
  rw [putlines, flatMap_cons, append_assoc]
  rfl

theorem putlines_append (lines lines' : List Line) :
    putlines (lines ++ lines') = putlines lines ++ putlines lines' := flatMap_append

theorem pieces_putlines (lines : List Line) (h : ∀ l ∈ lines, '\n' ∉ l) :
    pieces (putlines lines) = lines ++ [[]] := by
  induction lines with
  | nil => rfl
  | cons l lines ih =>
    rw [putlines_cons, pieces_append_newline l (h l mem_cons_self),
      ih fun l' hl' => h l' (mem_cons_of_mem l hl')]
    rfl

-- ── Numbers

def putNat (n : ℕ) : List Char := Nat.toDigits 10 n

def putInt (i : ℤ) : List Char := if i < 0 then '-' :: putNat i.natAbs else putNat i.natAbs

/-- `isspace` in the C locale. -/
def isSpace (c : Char) : Bool := c == ' ' || c == '\t' || c == '\n' || c == '\r' ||
  c == '\x0b' || c == '\x0c'

/-- `ss >> n`: white space is skipped, then a sign and digits are taken. No number without a
    digit; the stream is at its end when nothing is left. -/
def extract (ss : List Char) : Option ℤ × List Char :=
  let ss := ss.dropWhile isSpace
  let neg := ss.head? = some '-'
  let ss := if ss.head? = some '-' ∨ ss.head? = some '+' then ss.tail else ss
  let digits := ss.takeWhile Char.isDigit
  let value : ℤ := Nat.ofDigitChars 10 digits 0
  (if digits = [] then none else some (if neg then -value else value), ss.dropWhile Char.isDigit)

variable {c : Char} {rest : List Char} {pat : List Char}

theorem length_extract_lt {ss : List Char} {n : ℤ} (h : (extract ss).1 = some n) :
    (extract ss).2.length < ss.length := by
  have hspace : (ss.dropWhile isSpace).length ≤ ss.length := (dropWhile_sublist isSpace).length_le
  have hdigits : ∀ cs : List Char, cs.takeWhile Char.isDigit ≠ [] →
      (cs.dropWhile Char.isDigit).length < cs.length := by
    intro cs hcs
    have hlen := congrArg List.length (takeWhile_append_dropWhile (p := Char.isDigit) (l := cs))
    rw [length_append] at hlen
    have := length_pos_iff.mpr hcs
    omega
  rw [extract] at h ⊢
  dsimp only at h ⊢
  generalize ss.dropWhile isSpace = cs at h hspace ⊢
  generalize hcs' : (if cs.head? = some '-' ∨ cs.head? = some '+' then cs.tail else cs) = cs' at h ⊢
  have hle : cs'.length ≤ cs.length := by
    rw [← hcs']
    split_ifs
    · rw [length_tail]
      omega
    · exact le_rfl
  by_cases hd : cs'.takeWhile Char.isDigit = []
  · rw [if_pos hd] at h
    cases h.symm
  · have := hdigits cs' hd
    omega

theorem isDigit_of_mem_putNat {n : ℕ} (h : c ∈ putNat n) : c.isDigit :=
  isDigit_of_mem_toDigits (by decide) (by decide) h

theorem putNat_ne_nil (n : ℕ) : putNat n ≠ [] := toDigits_ne_nil

theorem ne_of_isDigit {c d : Char} (hc : c.isDigit) (hd : d.isDigit = false) : c ≠ d := by
  rintro rfl
  exact absurd (hc.symm.trans hd) (Bool.false_ne_true ∘ Eq.symm)

theorem isSpace_of_isDigit (hc : c.isDigit) : isSpace c = false := by
  have hne : ∀ d : Char, d.isDigit = false → (c == d) = false := fun d hd =>
    beq_eq_false_iff_ne.mpr (ne_of_isDigit hc hd)
  rw [isSpace, hne _ rfl, hne _ rfl, hne _ rfl, hne _ rfl, hne _ rfl, hne _ rfl]
  rfl

/-- What is left does not begin with a digit. -/
def NoDigit (rest : List Char) : Prop := ∀ c, rest.head? = some c → c.isDigit = false

theorem takeWhile_digits {ds rest : List Char} (hd : ∀ c ∈ ds, c.isDigit)
    (hr : NoDigit rest) : (ds ++ rest).takeWhile Char.isDigit = ds ∧
      (ds ++ rest).dropWhile Char.isDigit = rest := by
  induction ds with
  | nil =>
    cases rest with
    | nil => exact ⟨rfl, rfl⟩
    | cons c rest =>
      have hc : ¬ c.isDigit := by rw [hr c rfl]; exact Bool.false_ne_true
      exact ⟨takeWhile_cons_of_neg hc, dropWhile_cons_of_neg hc⟩
  | cons c ds ih =>
    obtain ⟨ht, hdr⟩ := ih (forall_mem_cons.mp hd).2
    have hc := hd c mem_cons_self
    rw [cons_append, takeWhile_cons_of_pos hc, dropWhile_cons_of_pos hc, ht]
    exact ⟨rfl, hdr⟩

theorem extract_putNat (n : ℕ) (hr : NoDigit rest) :
    extract (putNat n ++ rest) = (some (n : ℤ), rest) := by
  obtain ⟨c, ds, hds⟩ := exists_cons_of_ne_nil (putNat_ne_nil n)
  have hc : c.isDigit := isDigit_of_mem_putNat (hds ▸ mem_cons_self)
  have hspace : (putNat n ++ rest).dropWhile isSpace = putNat n ++ rest := by
    rw [hds, cons_append, dropWhile_cons_of_neg]
    rw [isSpace_of_isDigit hc]
    exact Bool.false_ne_true
  have hhead : (putNat n ++ rest).head? = some c := by rw [hds]; rfl
  have hminus : ¬ some c = some '-' := fun h => ne_of_isDigit hc rfl (Option.some.inj h)
  have hplus : ¬ some c = some '+' := fun h => ne_of_isDigit hc rfl (Option.some.inj h)
  obtain ⟨ht, hdr⟩ := takeWhile_digits (fun c hc => isDigit_of_mem_putNat (n := n) hc) hr
  rw [extract]
  simp only [hspace, hhead, hminus, hplus, or_self, if_false, ht, hdr]
  rw [if_neg (putNat_ne_nil n), putNat, ofDigitChars_ten_toDigits]

theorem extract_putNat_nil (n : ℕ) : extract (putNat n) = (some (n : ℤ), []) := by
  have hr : NoDigit [] := fun c hc => nomatch hc
  have h := extract_putNat n hr
  rw [append_nil] at h
  exact h

-- ── Finding

def find (pat : List Char) : List Char → Option ℕ
  | [] => if pat = [] then some 0 else none
  | c :: cs => if pat.isPrefixOf (c :: cs) then some 0 else (find pat cs).map (· + 1)

theorem find_append {p : Char} {pat front : List Char} (hf : p ∉ front) (rest : List Char) :
    find (p :: pat) (front ++ (p :: pat ++ rest)) = some front.length := by
  induction front with
  | nil =>
    have hpre : (p :: pat).isPrefixOf (p :: pat ++ rest) :=
      isPrefixOf_iff_prefix.mpr (prefix_append _ _)
    exact if_pos hpre
  | cons c front ih =>
    obtain ⟨hc, hf⟩ := not_or.mp (mt mem_cons.mpr hf)
    have hpre : ¬ (p :: pat).isPrefixOf (c :: (front ++ (p :: pat ++ rest))) := by
      rw [List.isPrefixOf_iff_prefix, cons_prefix_cons]
      exact fun h => hc h.1
    rw [cons_append, find, if_neg hpre, ih hf]
    rfl

theorem find_step {cs : List Char} (h : ¬ pat <+: c :: cs) :
    find pat (c :: cs) = (find pat cs).map (· + 1) := by
  rw [find, if_neg (mt isPrefixOf_iff_prefix.mp h)]

/-- A pattern with the character `q` does not begin before a text that has no `q` where the
    pattern would need one. -/
theorem find_skip (pre : List Char) (q : Char) (post front : List Char) (hf : q ∉ front)
    (hr : q ∉ rest.take pre.length) :
    find (pre ++ q :: post) (front ++ rest) =
      (find (pre ++ q :: post) rest).map (· + front.length) := by
  induction front with
  | nil => simp
  | cons c front ih =>
    have hpre : ¬ pre ++ q :: post <+: c :: (front ++ rest) := by
      intro h
      obtain ⟨hmem, hlt⟩ : q ∈ (c :: (front ++ rest)).take (pre.length + 1) ∧
          pre.length < (c :: (front ++ rest)).length := by
        obtain ⟨tail, htail⟩ := h
        rw [← htail, append_assoc, take_length_add_append]
        simp
      rw [← cons_append, take_append] at hmem
      rcases mem_append.mp hmem with hmem | hmem
      · exact hf (mem_of_mem_take hmem)
      · refine hr (take_subset_take_left rest ?_ hmem)
        rw [length_cons]
        omega
    have hrest := ih fun hmem => hf (mem_cons_of_mem c hmem)
    rw [cons_append, find_step hpre, hrest, Option.map_map]
    refine congrArg (Option.map · _) (funext fun i => ?_)
    show i + front.length + 1 = i + (front.length + 1)
    omega

theorem find_here (pat rest : List Char) : find pat (pat ++ rest) = some 0 := by
  have hpre : pat.isPrefixOf (pat ++ rest) := isPrefixOf_iff_prefix.mpr (prefix_append _ _)
  cases hs : pat ++ rest with
  | nil =>
    rw [append_eq_nil_iff.mp hs |>.1]
    rfl
  | cons c cs =>
    rw [find, if_pos (hs ▸ hpre)]

theorem find_found (q : Char) (hq : q ∈ pat) {front : List Char} (hf : q ∉ front) (rest : List Char)
    :
    find pat (front ++ (pat ++ rest)) = some front.length := by
  obtain ⟨pre, post, rfl, hpre⟩ := eq_append_cons_of_mem hq
  rw [find_skip pre q post front hf, find_here, Option.map_some, zero_add]
  rw [append_assoc, take_left]
  exact hpre

theorem find_none (q : Char) (hq : q ∈ pat) {s : List Char} (h : q ∉ s) : find pat s = none := by
  obtain ⟨pre, post, rfl⟩ := append_of_mem hq
  have hskip := find_skip pre q post s h (take_nil ▸ not_mem_nil)
  rw [append_nil] at hskip
  rw [hskip, find, if_neg (by simp)]
  rfl

-- ── Numbers, read back

theorem extract_space (ss : List Char) : extract (' ' :: ss) = extract ss := rfl

theorem extract_putInt (i : ℤ) (hr : NoDigit rest) :
    extract (putInt i ++ rest) = (some i, rest) := by
  by_cases hi : i < 0
  · obtain ⟨ht, hdr⟩ := takeWhile_digits (fun c hc => isDigit_of_mem_putNat (n := i.natAbs) hc) hr
    rw [putInt, if_pos hi, extract]
    have hspace : ('-' :: putNat i.natAbs ++ rest).dropWhile isSpace =
        '-' :: (putNat i.natAbs ++ rest) := rfl
    simp only [hspace, head?_cons, tail_cons, true_or, if_true, ht, hdr]
    rw [if_neg (putNat_ne_nil _), putNat, ofDigitChars_ten_toDigits]
    refine Prod.ext (congrArg some ?_) rfl
    omega
  · rw [putInt, if_neg hi, extract_putNat _ hr]
    exact Prod.ext (congrArg some (by omega)) rfl

theorem notMem_putNat (hc : c.isDigit = false) (n : ℕ) : c ∉ putNat n := fun h =>
  absurd (hc.symm.trans (isDigit_of_mem_putNat h)) Bool.false_ne_true

-- ── Parts of a text

def findEnd (pat : List Char) (k : ℕ) (s : List Char) : ℕ :=
  match find pat s with
  | some i => i + k
  | none => k - 1

/-- `last - next` as a length: where it wraps around, or `last` is `npos`, it is longer than
    any text. -/
def lengthTo (last : Option ℕ) (next : ℕ) : Option ℕ :=
  last.bind fun l => if next ≤ l then some (l - next) else none

/-- `s.substr(pos, len)`, up to the end without `len`; behind the end of the text it throws. -/
def substr (s : List Char) (pos : ℕ) (len : Option ℕ) : Option (List Char) :=
  if pos ≤ s.length then some ((len.map fun n => (s.drop pos).take n).getD (s.drop pos)) else none

theorem substr_between {x m y : List Char} {next : ℕ} {last : Option ℕ} (hn : next = x.length)
    (hl : last = some (x.length + m.length)) :
    substr (x ++ (m ++ y)) next (lengthTo last next) = some m := by
  subst hn hl
  have hle : x.length ≤ (x ++ (m ++ y)).length := by
    rw [length_append]
    exact le_add_right _ _
  rw [substr, if_pos hle, lengthTo, Option.bind_some, if_pos (le_add_right _ _)]
  simp

theorem substr_rest {x y : List Char} {next : ℕ} (hn : next = x.length) :
    substr (x ++ y) next none = some y := by
  subst hn
  have hle : x.length ≤ (x ++ y).length := by
    rw [length_append]
    exact le_add_right _ _
  rw [substr, if_pos hle]
  simp

theorem substr_long {x y : List Char} {next n : ℕ} (hn : next = x.length) (hlong : y.length ≤ n) :
    substr (x ++ y) next (some n) = some y := by
  subst hn
  have hle : x.length ≤ (x ++ y).length := by
    rw [length_append]
    exact le_add_right _ _
  rw [substr, if_pos hle]
  simp [hlong]

theorem findEnd_eq {pat s : List Char} {i k : ℕ} (h : find pat s = some i) :
    findEnd pat k s = i + k := by
  rw [findEnd, h]

theorem substr_found {pat1 pat2 x m y s : List Char} {k : ℕ}
    (hs : s = x ++ (pat1 ++ (m ++ (pat2 ++ y)))) (hk : pat1.length = k) (q1 q2 : Char)
    (hq1 : q1 ∈ pat1) (h1 : q1 ∉ x) (hq2 : q2 ∈ pat2) (h2 : q2 ∉ x ++ (pat1 ++ m)) :
    substr s (findEnd pat1 k s) (lengthTo (find pat2 s) (findEnd pat1 k s)) = some m := by
  have hassoc : s = x ++ pat1 ++ (m ++ (pat2 ++ y)) := by rw [hs, append_assoc]
  have hfind1 : find pat1 s = some x.length := by
    rw [hs]
    exact find_found q1 hq1 h1 _
  have hfind2 : find pat2 s = some ((x ++ pat1).length + m.length) := by
    have hend : s = (x ++ (pat1 ++ m)) ++ (pat2 ++ y) := by
      rw [hs]
      simp only [append_assoc]
    rw [hend, find_found q2 hq2 h2]
    simp only [length_append, add_assoc]
  have hnext : findEnd pat1 k s = (x ++ pat1).length := by
    rw [findEnd_eq hfind1, length_append, hk]
  rw [hfind2, hnext, hassoc]
  exact substr_between rfl rfl

theorem substr_behind {pat x y s : List Char} {k : ℕ} (hs : s = x ++ (pat ++ y))
    (hk : pat.length = k) (q : Char) (hq : q ∈ pat) (hx : q ∉ x) :
    substr s (findEnd pat k s) none = some y := by
  have h : find pat s = some x.length := by
    rw [hs]
    exact find_found q hq hx y
  have hnext : findEnd pat k s = (x ++ pat).length := by
    rw [findEnd_eq h, length_append, hk]
  rw [hnext, hs, ← append_assoc]
  exact substr_rest rfl

-- ── Numbers in a row

/-- `while (getline(ss, point, delim))`: a last piece need not be ended. -/
def getlinesAt (delim : Char) : List Char → List (List Char)
  | [] => []
  | c :: cs =>
    if c = delim then [] :: getlinesAt delim cs
    else
      match getlinesAt delim cs with
      | [] => [[c]]
      | l :: ls => (c :: l) :: ls

theorem getlinesAt_append {delim : Char} {l : List Char} (hl : delim ∉ l) (cs : List Char) :
    getlinesAt delim (l ++ delim :: cs) = l :: getlinesAt delim cs := by
  induction l with
  | nil => exact if_pos rfl
  | cons c l ih =>
    obtain ⟨hc, hl⟩ := not_or.mp (mt mem_cons.mpr hl)
    rw [cons_append, getlinesAt, if_neg (Ne.symm hc), ih hl]

/-- Every number with a space behind it. -/
def putNats (ns : List ℕ) : List Char := ns.flatMap fun n => putNat n ++ [' ']

theorem getlinesAt_putNats (ns : List ℕ) : getlinesAt ' ' (putNats ns) = ns.map putNat := by
  induction ns with
  | nil => rfl
  | cons n ns ih =>
    have hcons : putNats (n :: ns) = putNat n ++ ' ' :: putNats ns := by
      rw [putNats, flatMap_cons, append_assoc]
      rfl
    rw [hcons, getlinesAt_append (notMem_putNat rfl n), ih, map_cons]

theorem notMem_putNats (hc : c.isDigit = false) (hspace : c ≠ ' ') (ns : List ℕ) :
    c ∉ putNats ns := by
  intro h
  obtain ⟨n, -, hmem⟩ := mem_flatMap.mp h
  rcases mem_append.mp hmem with hmem | hmem
  · exact notMem_putNat hc n hmem
  · exact hspace (mem_singleton.mp hmem)

end SvfText
