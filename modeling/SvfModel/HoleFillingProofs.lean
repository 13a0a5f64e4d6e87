import SvfModel.LightAnalysisProofs
import SvfModel.SubstituteProofs

/-!
# The source editor: holes

A template has numbered holes, `$` and a number. `setHoleFilling` goes through the lines and puts a
name for every `$n` that it finds; it goes on behind the name. That is a substitution for every
occurrence of the text `$n`, and ends the last line (`setHoleFilling_eq`).

What it should do is `fillHole`: an occurrence with a digit behind it is another hole. The two are
the same exactly if there is no such occurrence, or nothing changes (`setHoleFilling_exact_iff`).

Fillings of two holes commute on every template exactly if one of them changes nothing, or neither
name makes the other's hole: alone, side by side with itself, or behind the beginning of such a
hole (`setHoleFilling_comm_iff`). The two together are **`setHoleFilling_lawful_iff`**.
-/

namespace SvfSyn

open SvfText List Option Nat

-- ── The source

def placeholder (holeNumber : ℕ) : Line := '$' :: putNat holeNumber

def findFrom (pat line : Line) (pos : ℕ) : Option ℕ :=
  if pos ≤ line.length then (find pat (line.drop pos)).map (· + pos) else none

def replaceLoop (placeholder varName : Line) : ℕ → Line → Option ℕ → Option Line
  | _, currentLine, none => some currentLine
  | 0, _, some _ => none
  | fuel + 1, currentLine, some startPos =>
    let currentLine := currentLine.take startPos ++ varName ++
      currentLine.drop (startPos + placeholder.length)
    replaceLoop placeholder varName fuel currentLine
      (findFrom placeholder currentLine (startPos + varName.length))

/-- Step 5 for one line. A line has not more occurrences than letters. -/
def replaceLine (placeholder varName currentLine : Line) : Option Line :=
  replaceLoop placeholder varName currentLine.length currentLine (find placeholder currentLine)

def setHoleFilling (holeNumber : ℕ) (varName : Line) (context : ReadWriteContext) :
    Option ReadWriteContext :=
  ((getlines context.workText).mapM (replaceLine (placeholder holeNumber) varName)).map
    fun lines => { context with workText := putlines lines }

-- ── What it should do

def endsNumber (rest : List Char) : Bool := rest.head?.all fun c => !c.isDigit

def fillHole (holeNumber : ℕ) (varName : Line) (text : List Char) : List Char :=
  substitute endsNumber (placeholder holeNumber) varName 0 text

def NoLonger (holeNumber : ℕ) (text : List Char) : Prop :=
  Accepted endsNumber (placeholder holeNumber) text

def Ended (text : List Char) : Prop := text = [] ∨ text.getLast? = some '\n'

-- ── The loop

variable {n m : ℕ} {x y : Line}

theorem placeholder_ne_nil (n : ℕ) : placeholder n ≠ [] := cons_ne_nil _ _

variable {pat : Line} {rest : List Char} {s : List Char}

theorem dollar_notMem (n : ℕ) : '$' ∉ putNat n := notMem_putNat rfl n

theorem find_substituteAll (hpat : pat ≠ []) (s : Line) :
    (find pat s = none ∧ substituteAll pat x s = s) ∨
    ∃ a b, find pat s = some a.length ∧ s = a ++ (pat ++ b) ∧
      substituteAll pat x s = a ++ (x ++ substituteAll pat x b) := by
  induction s using pattern_induction hpat with
  | nil => exact .inl ⟨if_neg hpat, rfl⟩
  | hole rest ih => exact .inr ⟨[], rest, find_here pat rest, rfl, substitute_hole hpat rfl⟩
  | keep c s hpre ih =>
    rw [find_step hpre, substituteAll, substitute_keep_away hpre]
    rcases ih with ⟨hnone, hs⟩ | ⟨a, b, hsome, hs, hsub⟩
    · exact .inl ⟨by rw [hnone]; rfl, congrArg (c :: ·) hs⟩
    · refine .inr ⟨c :: a, b, by rw [hsome]; rfl, congrArg (c :: ·) hs, ?_⟩
      exact congrArg (c :: ·) hsub

theorem replaceLoop_eq (hpat : pat ≠ []) (fuel : ℕ) : ∀ front s : Line, s.length ≤ fuel →
      replaceLoop pat x fuel (front ++ s) (findFrom pat (front ++ s) front.length) =
        some (front ++ substituteAll pat x s) := by
  induction fuel with
  | zero =>
    intro front s hs
    obtain rfl := length_eq_zero_iff.mp (le_zero.mp hs)
    have hnone : findFrom pat (front ++ []) front.length = none := by
      rw [findFrom, drop_left, find, if_neg hpat, map_none, ite_self]
    rw [hnone, replaceLoop, substituteAll, substitute_nil]
  | succ fuel ih =>
    intro front s hs
    have hle : front.length ≤ (front ++ s).length := by
      rw [length_append]
      exact le_add_right _ _
    rw [findFrom, if_pos hle, drop_left]
    rcases find_substituteAll (x := x) hpat s with ⟨hnone, hsub⟩ | ⟨a, b, hsome, rfl, hsub⟩
    · rw [hnone, map_none, replaceLoop, hsub]
    · have hpos := length_pos_iff.mpr hpat
      have hb : b.length ≤ fuel := by
        rw [length_append, length_append] at hs
        omega
      have htake : (front ++ (a ++ (pat ++ b))).take (a.length + front.length) = front ++ a := by
        rw [← append_assoc, add_comm, ← length_append, take_left]
      have hdrop : (front ++ (a ++ (pat ++ b))).drop (a.length + front.length + pat.length) =
          b := by
        rw [← append_assoc, ← append_assoc]
        refine drop_left' ?_
        rw [length_append, length_append]
        omega
      have hpos' : a.length + front.length + x.length = (front ++ a ++ x).length := by
        rw [length_append, length_append]
        omega
      rw [hsome, map_some, replaceLoop, htake, hdrop, hpos', ih (front ++ a ++ x) b hb, hsub]
      simp only [append_assoc]

theorem replaceLine_eq (hpat : pat ≠ []) (line : Line) :
    replaceLine pat x line = some (substituteAll pat x line) := by
  have h := replaceLoop_eq (x := x) hpat line.length [] line le_rfl
  have hfind : findFrom pat line 0 = find pat line := by simp [findFrom]
  rw [nil_append, length_nil, hfind] at h
  exact h

-- ── Lines

/-- The line break that is written after a last line that has none. -/
def lastBreak (text : List Char) : List Char :=
  if text = [] ∨ text.getLast? = some '\n' then [] else ['\n']

theorem putlines_map_getlines {f : Line → Line} (hnil : f [] = [])
    (hbreak : ∀ l s, f (l ++ '\n' :: s) = f l ++ '\n' :: f s) (text : List Char) :
    putlines ((getlines text).map f) = f text ++ lastBreak text := by
  induction hlen : text.length using Nat.strong_induction_on generalizing text with
  | h len ih =>
    subst hlen
    by_cases hmem : '\n' ∈ text
    · obtain ⟨l, s, rfl, hl⟩ := eq_append_cons_of_mem hmem
      have hlt : s.length < (l ++ '\n' :: s).length := by
        rw [length_append, length_cons]
        omega
      have hlast : lastBreak (l ++ '\n' :: s) = lastBreak s := by
        cases s with
        | nil => simp [lastBreak]
        | cons c s => simp [lastBreak]
      rw [getlines_append_newline l hl, map_cons, putlines_cons, ih _ hlt s rfl, hbreak,
        hlast, append_assoc]
      rfl
    · cases text with
      | nil => rw [getlines, hnil]; rfl
      | cons c s =>
        have hlast : lastBreak (c :: s) = ['\n'] := by
          refine if_neg (not_or.mpr ⟨cons_ne_nil c s, fun hl => hmem ?_⟩)
          exact mem_of_getLast? hl
        rw [getlines_unended (cons_ne_nil c s) hmem, hlast]
        exact append_nil _

theorem newline_notMem_placeholder (n : ℕ) : '\n' ∉ placeholder n := by
  rw [placeholder, mem_cons, not_or]
  exact ⟨by decide, notMem_putNat rfl n⟩

theorem substituteAll_newline (hpat : pat ≠ []) (hbreak : '\n' ∉ pat) (l s : Line) :
    substituteAll pat x (l ++ '\n' :: s) =
      substituteAll pat x l ++ '\n' :: substituteAll pat x s := by
  have hhead (s : Line) : ¬ pat <+: '\n' :: s := by
    intro h
    obtain ⟨c, ds, rfl⟩ := exists_cons_of_ne_nil hpat
    exact hbreak ((cons_prefix_cons.mp h).1 ▸ mem_cons_self)
  induction l using pattern_induction hpat with
  | nil => exact substitute_keep_away (hhead s)
  | hole rest ih =>
    rw [append_assoc, substituteAll, substitute_hole hpat rfl, substituteAll,
      substitute_hole hpat rfl, append_assoc]
    exact congrArg (x ++ ·) ih
  | keep c l hpre ih =>
    have hpre' : ¬ pat <+: c :: (l ++ '\n' :: s) := by
      intro h
      rw [← cons_append] at h
      rcases prefix_append_cases h with h | ⟨t, hne, ht, h⟩
      · exact hpre h
      · obtain ⟨d, t, rfl⟩ := exists_cons_of_ne_nil hne
        obtain ⟨rfl, -⟩ := cons_prefix_cons.mp h
        exact hbreak (ht ▸ mem_append_right _ mem_cons_self)
    rw [cons_append, substituteAll, substitute_keep_away hpre', substituteAll,
      substitute_keep_away hpre]
    exact congrArg (c :: ·) ih

/-- **Specification of `setHoleFilling`**: every `$n` is replaced, and the last line is ended. -/
theorem setHoleFilling_eq (n : ℕ) (x : Line) (context : ReadWriteContext) :
    setHoleFilling n x context = some { context with
      workText := substituteAll (placeholder n) x context.workText ++
        lastBreak context.workText } := by
  have hlines (lines : List Line) : lines.mapM (replaceLine (placeholder n) x) =
      some (lines.map (substituteAll (placeholder n) x)) := by
    induction lines with
    | nil => rfl
    | cons l lines ih =>
      rw [mapM_cons, replaceLine_eq (placeholder_ne_nil n), ih]
      rfl
  have htext := putlines_map_getlines (f := substituteAll (placeholder n) x) rfl
    (substituteAll_newline (placeholder_ne_nil n) (newline_notMem_placeholder n)) context.workText
  rw [setHoleFilling, hlines, map_some, htext]

-- ── Where it fills the holes

theorem lastBreak_eq_nil {text : List Char} : lastBreak text = [] ↔ Ended text := by
  by_cases h : Ended text
  · exact iff_of_true (if_pos h) h
  · have hbreak : lastBreak text = ['\n'] := if_neg h
    rw [hbreak]
    exact iff_of_false (cons_ne_nil _ _) h

/-- It fills exactly the holes with this number if the last line is ended, and if no number of a
    hole merely begins with this one or the hole is filled with itself. -/
theorem setHoleFilling_exact_iff {context : ReadWriteContext} : setHoleFilling n x context =
        some { context with workText := fillHole n x context.workText } ↔
      Ended context.workText ∧ (x = placeholder n ∨ NoLonger n context.workText) := by
  have hiff : substituteAll (placeholder n) x context.workText =
      substitute endsNumber (placeholder n) x 0 context.workText ↔
        x = placeholder n ∨ Accepted endsNumber (placeholder n) context.workText :=
    substituteAll_eq_iff (dollar_notMem n)
  rw [setHoleFilling_eq, some_inj, ReadWriteContext.mk.injEq, eq_self, and_true, fillHole]
  constructor
  · intro heq
    -- line breaks are counted: the code has one more where it ends the last line
    obtain ⟨k, hk⟩ := count_substituteAll endsNumber x (dollar_notMem n) context.workText
    have hbreak : lastBreak context.workText = [] := by
      have hcount := congrArg (List.count '\n') heq
      have hpat : (placeholder n).count '\n' = 0 := count_eq_zero.mpr (newline_notMem_placeholder n)
      have hn := hk '\n'
      rw [← placeholder, hpat, mul_zero, add_zero] at hn
      rw [count_append, hn] at hcount
      rw [lastBreak] at hcount ⊢
      split_ifs at hcount ⊢ with hended
      · rfl
      · rw [count_singleton_self] at hcount
        omega
    rw [hbreak, append_nil] at heq
    exact ⟨lastBreak_eq_nil.mp hbreak, hiff.mp heq⟩
  · rintro ⟨hended, hx⟩
    rw [lastBreak_eq_nil.mpr hended, append_nil]
    exact hiff.mpr hx

-- ── Fillings of two holes

/-- The two fillings, one after the other, in both orders. -/
def Commute (n m : ℕ) (x y : Line) (context : ReadWriteContext) : Prop :=
  (setHoleFilling n x context).bind (setHoleFilling m y) =
    (setHoleFilling m y context).bind (setHoleFilling n x)

/-- `x`, side by side with itself and behind the beginning of a hole `m`, makes a hole `m`. The
    beginning must not be filled itself. -/
def Makes (n : ℕ) (x : Line) (m : ℕ) : Prop :=
  ∃ u k, u <+: placeholder m ∧ u ≠ placeholder m ∧ ¬ placeholder n <+: u ∧
    placeholder m <:+: u ++ (List.replicate k x).flatten

abbrev fill (n : ℕ) (x : Line) (s : List Char) : List Char := substituteAll (placeholder n) x s

theorem fill_self (n : ℕ) (s : List Char) : fill n (placeholder n) s = s :=
  substitute_self (placeholder_ne_nil n) s

theorem placeholder_inj (h : placeholder n = placeholder m) : n = m := by
  have hdigits := congrArg (fun ds => Nat.ofDigitChars 10 ds 0) (List.cons.inj h).2
  simpa [putNat, ofDigitChars_ten_toDigits] using hdigits

theorem eq_nil_of_endsNumber {t s : List Char} (ht : ∀ c ∈ t, c.isDigit) (hpre : t <+: s)
    (hs : endsNumber s) : t = [] := by
  cases t with
  | nil => rfl
  | cons c t =>
    obtain ⟨s, rfl⟩ := hpre
    have hdigit : (!c.isDigit) := hs
    rw [ht c mem_cons_self] at hdigit
    cases hdigit

theorem digits_of_placeholder {b t : List Char} (hb : b ≠ []) (h : placeholder m = b ++ t) :
    ∀ c ∈ t, c.isDigit := by
  obtain ⟨c, b, rfl⟩ := exists_cons_of_ne_nil hb
  have hdigits : putNat m = b ++ t := (List.cons.inj h).2
  exact fun c hc => isDigit_of_mem_putNat (n := m) (hdigits ▸ mem_append_right b hc)

/-- In a beginning of a hole that is not a hole `m`, and whose number ends, no hole `m` begins. -/
theorem not_prefix_word {w s : List Char} {j : ℕ} (hw : w <+: placeholder j)
    (hm : ¬ placeholder m <+: w) (hs : endsNumber s) :
    ∀ b, b ≠ [] → b <:+ w → ¬ placeholder m <+: b ++ s := by
  intro b hb hsuf hpre
  obtain ⟨c, w, rfl⟩ : ∃ c w', w = c :: w' := by
    refine exists_cons_of_ne_nil fun hnil => hb ?_
    rwa [hnil, suffix_nil] at hsuf
  obtain ⟨-, hw⟩ := cons_prefix_cons.mp hw
  rcases suffix_cons_iff.mp hsuf with rfl | hsuf
  · rcases prefix_append_cases hpre with hpre | ⟨t, ht, heq, hpre⟩
    · exact hm hpre
    · exact ht (eq_nil_of_endsNumber (digits_of_placeholder hb heq) hpre hs)
  · exact not_prefix_of_notMem (fun hmem => dollar_notMem j (hw.subset hmem)) b hb hsuf hpre

theorem endsNumber_hole (n : ℕ) (s : List Char) : endsNumber (placeholder n ++ s) := rfl

theorem not_prefix_hole (hnm : n ≠ m) (h : NoLonger m (placeholder n ++ rest)) :
    ¬ placeholder m <+: placeholder n := by
  rintro ⟨w, hw⟩
  have hne : w ≠ [] := by
    rintro rfl
    rw [append_nil] at hw
    exact hnm (placeholder_inj hw).symm
  have hends := h (w ++ rest) (by rw [← hw, append_assoc])
  exact hne (eq_nil_of_endsNumber (digits_of_placeholder (placeholder_ne_nil m) hw.symm)
    (prefix_append w rest) hends)

-- ── What a filling makes

/-- Digits with which a filled text begins, where no number was, are those of fillings side by
    side. -/
theorem prefix_copies : ∀ {v : List Char}, (∀ c ∈ v, c.isDigit) →
    NoLonger n s → endsNumber s → v <+: fill n x s → ∃ k, v <+: (List.replicate k x).flatten := by
  induction s using pattern_induction (placeholder_ne_nil n) with
  | nil =>
    intro v hv hlong hends hpre
    exact ⟨0, hpre⟩
  | hole rest ih =>
    intro v hv hlong hends hpre
    obtain ⟨hrest, hlong⟩ := (accepted_hole (dollar_notMem n)).mp hlong
    rw [fill, substituteAll, substitute_hole (placeholder_ne_nil n) rfl] at hpre
    rcases prefix_append_cases hpre with hx | ⟨t, -, rfl, ht⟩
    · exact ⟨1, by simpa using hx⟩
    · obtain ⟨k, hk⟩ := ih (fun c hc => hv c (mem_append_right x hc)) hlong hrest ht
      refine ⟨k + 1, ?_⟩
      rw [replicate_succ, flatten_cons]
      exact (prefix_append_right_inj x).mpr hk
  | keep c s hpre' ih =>
    intro v hv hlong hends hpre
    rw [fill, substituteAll, substitute_keep_away hpre'] at hpre
    have hends' : endsNumber (c :: fill n x s) := hends
    exact ⟨0, (eq_nil_of_endsNumber hv hpre hends') ▸ nil_prefix⟩

theorem prefix_fill : ∀ {v : List Char}, (∀ c ∈ v, c.isDigit) → NoLonger n s → v <+: fill n x s →
      v <+: s ∨ ∃ a t k, v = a ++ t ∧ t ≠ [] ∧ a <+: s ∧ t <+: (List.replicate k x).flatten := by
  induction s using pattern_induction (placeholder_ne_nil n) with
  | nil => exact fun _ _ hpre => .inl hpre
  | hole rest ih =>
    intro v hv hlong hpre
    by_cases hnil : v = []
    · exact .inl (hnil ▸ nil_prefix)
    · obtain ⟨k, hk⟩ := prefix_copies hv hlong (endsNumber_hole n rest) hpre
      exact .inr ⟨[], v, k, rfl, hnil, nil_prefix, hk⟩
  | keep c s hpre' ih =>
    intro v hv hlong hpre
    rw [fill, substituteAll, substitute_keep_away hpre'] at hpre
    cases v with
    | nil => exact .inl nil_prefix
    | cons d v =>
      obtain ⟨rfl, htail⟩ := cons_prefix_cons.mp hpre
      rcases ih (forall_mem_cons.mp hv).2
        ((accepted_cons hpre').mp hlong) htail with hs | ⟨a, t, k, rfl, ht, ha, hk⟩
      · exact .inl (cons_prefix_cons.mpr ⟨rfl, hs⟩)
      · exact .inr ⟨d :: a, t, k, rfl, ht, cons_prefix_cons.mpr ⟨rfl, ha⟩, hk⟩

/-- At a letter of the text no hole `m` is made. -/
theorem not_prefix_keep {c : Char} (hn : ¬ placeholder n <+: c :: s)
    (hm : ¬ placeholder m <+: c :: s) (hlong : NoLonger n (c :: s)) (hmakes : ¬ Makes n x m) :
    ¬ placeholder m <+: c :: fill n x s := by
  intro hpre
  obtain ⟨rfl, htail⟩ := cons_prefix_cons.mp hpre
  rcases prefix_fill (fun c hc => isDigit_of_mem_putNat (n := m) hc)
    ((accepted_cons hn).mp hlong) htail with hs | ⟨a, t, k, hat, ht, ha, hk⟩
  · exact hm (cons_prefix_cons.mpr ⟨rfl, hs⟩)
  · have hu : placeholder m = '$' :: a ++ t := congrArg ('$' :: ·) hat
    refine hmakes ⟨'$' :: a, k, ⟨t, hu.symm⟩, fun heq => ht ?_, fun hpre => hn ?_, ?_⟩
    · rw [← heq] at hu
      exact (self_eq_append_right.mp hu)
    · exact hpre.trans (cons_prefix_cons.mpr ⟨rfl, ha⟩)
    · rw [hu]
      exact ((prefix_append_right_inj ('$' :: a)).mpr hk).isInfix

/-- In a filling no hole `m` is made. -/
theorem not_prefix_filling (hlong : NoLonger n (placeholder n ++ rest)) (hmakes : ¬ Makes n x m) :
    ∀ b, b ≠ [] → b <:+ x → ¬ placeholder m <+: b ++ fill n x rest := by
  intro b hb hsuf hpre
  obtain ⟨hrest, hlong⟩ := (accepted_hole (dollar_notMem n)).mp hlong
  have hnil : ¬ placeholder n <+: [] := fun h => placeholder_ne_nil n (prefix_nil.mp h)
  have hmake (k : ℕ) (h : placeholder m <:+: (List.replicate k x).flatten) : Makes n x m :=
    ⟨[], k, nil_prefix, (placeholder_ne_nil m).symm, hnil, h⟩
  rcases prefix_append_cases hpre with hpre | ⟨t, ht, heq, hpre⟩
  · refine hmakes (hmake 1 ?_)
    rw [replicate_one, flatten_singleton]
    exact hpre.isInfix.trans hsuf.isInfix
  · obtain ⟨k, hk⟩ := prefix_copies (digits_of_placeholder hb heq) hlong hrest hpre
    refine hmakes (hmake (k + 1) ?_)
    have hinfix : b ++ t <:+: b ++ (List.replicate k x).flatten :=
      ((prefix_append_right_inj b).mpr hk).isInfix
    rw [replicate_succ, flatten_cons, heq]
    obtain ⟨front, rfl⟩ := hsuf
    rw [append_assoc]
    exact hinfix.trans (suffix_append _ _).isInfix

-- ── Both orders

theorem fill_hole (hnm : n ≠ m) (hn : NoLonger n (placeholder n ++ rest))
    (hm : NoLonger m (placeholder n ++ rest)) (hmakes : ¬ Makes n x m) :
    fill m y (fill n x (placeholder n ++ rest)) = x ++ fill m y (fill n x rest) ∧
      fill n x (fill m y (placeholder n ++ rest)) = x ++ fill n x (fill m y rest) := by
  have hpre := not_prefix_hole hnm hm
  obtain ⟨hrest, -⟩ := (accepted_hole (dollar_notMem n)).mp hn
  constructor
  · rw [fill, fill, substituteAll, substituteAll, substitute_hole (placeholder_ne_nil n) rfl]
    exact substitute_behind (not_prefix_filling hn hmakes)
  · rw [fill, fill, substituteAll, substituteAll,
      substitute_behind (not_prefix_word (prefix_refl _) hpre hrest)]
    exact substitute_hole (placeholder_ne_nil n) rfl

/-- Where a hole with this number begins with another hole, there is none in a text whose numbers
    end. -/
theorem not_infix_of_prefix (hnm : n ≠ m) (hm : NoLonger m s)
    (hpre : placeholder m <+: placeholder n) : ¬ placeholder n <:+: s := by
  rintro ⟨front, rest, rfl⟩
  rw [append_assoc] at hm
  exact not_prefix_hole hnm (hm.of_suffix (suffix_append _ _)) hpre

theorem fill_keep (hnm : n ≠ m) {c : Char} (hn : ¬ placeholder n <+: c :: s)
    (hm : ¬ placeholder m <+: c :: s) (hlong : NoLonger n (c :: s)) (hlong' : NoLonger m (c :: s))
    (hmakes : ¬ placeholder m <+: placeholder n → ¬ Makes n x m) :
    fill m y (fill n x (c :: s)) = c :: fill m y (fill n x s) := by
  have hkeep : ¬ placeholder m <+: c :: fill n x s := by
    by_cases hpre : placeholder m <+: placeholder n
    · have hno := not_infix_of_prefix hnm ((accepted_cons hm).mp hlong') hpre
      have hsame : fill n x s = s := (substituteAll_eq_self_iff (dollar_notMem n)).mpr (.inr hno)
      rwa [hsame]
    · exact not_prefix_keep hn hm hlong (hmakes hpre)
  rw [fill, fill, substituteAll, substituteAll, substitute_keep_away hn]
  exact substitute_keep_away hkeep

theorem fill_comm (hnm : n ≠ m) (hx : ¬ placeholder m <+: placeholder n → ¬ Makes n x m)
    (hy : ¬ placeholder n <+: placeholder m → ¬ Makes m y n) (s : List Char) :
    NoLonger n s → NoLonger m s → fill m y (fill n x s) = fill n x (fill m y s) := by
  induction hlen : s.length using Nat.strong_induction_on generalizing s with
  | h len ih =>
    subst hlen
    intro hn hm
    have hshort (j : ℕ) (rest : List Char) : rest.length < (placeholder j ++ rest).length := by
      rw [length_append, placeholder, length_cons]
      omega
    by_cases hpn : placeholder n <+: s
    · obtain ⟨rest, rfl⟩ := hpn
      obtain ⟨h1, h2⟩ := fill_hole (x := x) (y := y) hnm hn hm (hx (not_prefix_hole hnm hm))
      have hrest := ih _ (hshort n rest) rest rfl (hn.of_suffix (suffix_append _ _))
        (hm.of_suffix (suffix_append _ _))
      rw [h1, h2, hrest]
    · by_cases hpm : placeholder m <+: s
      · obtain ⟨rest, rfl⟩ := hpm
        obtain ⟨h1, h2⟩ := fill_hole (x := y) (y := x) hnm.symm hm hn
          (hy (not_prefix_hole hnm.symm hn))
        have hrest := ih _ (hshort m rest) rest rfl (hn.of_suffix (suffix_append _ _))
          (hm.of_suffix (suffix_append _ _))
        rw [h1, h2, hrest]
      · cases s with
        | nil => rfl
        | cons c s =>
          have hrest := ih _ (lt_succ_self _) s rfl ((accepted_cons hpn).mp hn)
            ((accepted_cons hpm).mp hm)
          rw [fill_keep hnm hpn hpm hn hm hx, fill_keep hnm.symm hpm hpn hm hn hy, hrest]

def holes (n k : ℕ) : List Char := (List.replicate k (placeholder n)).flatten ++ ['\n']

theorem holes_succ (n k : ℕ) : holes n (k + 1) = placeholder n ++ holes n k := by
  rw [holes, replicate_succ, flatten_cons, append_assoc]
  rfl

theorem endsNumber_holes (n k : ℕ) : endsNumber (holes n k) := by
  cases k with
  | zero => rfl
  | succ k =>
    rw [holes_succ]
    exact endsNumber_hole n _

theorem not_prefix_newline (n : ℕ) : ¬ placeholder n <+: ['\n'] := fun h =>
  absurd (cons_prefix_cons.mp h).1 (by decide)

theorem fill_holes (k : ℕ) : fill n x (holes n k) = (List.replicate k x).flatten ++ ['\n'] := by
  induction k with
  | zero => exact substitute_keep_away (not_prefix_newline n)
  | succ k ih =>
    rw [holes_succ, replicate_succ, flatten_cons, append_assoc, ← ih]
    exact substitute_hole (placeholder_ne_nil n) rfl

theorem noLonger_newline (n : ℕ) : NoLonger n ['\n'] := by
  intro rest hrest
  have hpre : placeholder n ++ rest = ['\n'] := by
    rcases suffix_cons_iff.mp hrest with heq | hsuf
    · exact heq
    · exact absurd (append_eq_nil_iff.mp (suffix_nil.mp hsuf)).1 (placeholder_ne_nil n)
  exact absurd ⟨rest, hpre⟩ (not_prefix_newline n)

theorem noLonger_holes (k : ℕ) : NoLonger n (holes n k) := by
  induction k with
  | zero => exact noLonger_newline n
  | succ k ih =>
    rw [holes_succ]
    exact (accepted_hole (dollar_notMem n)).mpr ⟨endsNumber_holes n k, ih⟩

theorem other_holes (hpre : ¬ placeholder m <+: placeholder n) (k : ℕ) :
    NoLonger m (holes n k) ∧ fill m y (holes n k) = holes n k := by
  induction k with
  | zero =>
    exact ⟨noLonger_newline m, substitute_keep_away (not_prefix_newline m)⟩
  | succ k ih =>
    have hno := not_prefix_word (prefix_refl (placeholder n)) hpre (endsNumber_holes n k)
    rw [holes_succ]
    refine ⟨(accepted_behind hno).mpr ih.1, ?_⟩
    rw [fill, substituteAll, substitute_behind hno]
    exact congrArg (placeholder n ++ ·) ih.2

/-- A filling that makes another hole: a line of such holes behind the beginning of the other is
    filled differently in the two orders. -/
theorem exists_not_comm (hpre : ¬ placeholder m <+: placeholder n) (hmakes : Makes n x m)
    (hy : y ≠ placeholder m) :
    ∃ s, Ended s ∧ NoLonger n s ∧ NoLonger m s ∧ fill m y (fill n x s) ≠ fill n x (fill m y s) := by
  obtain ⟨u, k, hu, hne, hnu, hin⟩ := hmakes
  have hmu : ¬ placeholder m <+: u := fun h => hne (hu.eq_of_length_le h.length_le)
  have hends := endsNumber_holes n k
  have hn := not_prefix_word hu hnu hends
  have hm := not_prefix_word hu hmu hends
  obtain ⟨hlong, hother⟩ := other_holes (y := y) hpre k
  have hfn : fill n x (u ++ holes n k) = u ++ ((List.replicate k x).flatten ++ ['\n']) := by
    rw [fill, substituteAll, substitute_behind hn]
    exact congrArg (u ++ ·) (fill_holes k)
  have hfm : fill m y (u ++ holes n k) = u ++ holes n k := by
    rw [fill, substituteAll, substitute_behind hm]
    exact congrArg (u ++ ·) hother
  refine ⟨u ++ holes n k, .inr ?_, (accepted_behind hn).mpr (noLonger_holes k),
    (accepted_behind hm).mpr hlong, ?_⟩
  · rw [holes, ← append_assoc, getLast?_concat]
  · rw [hfm, hfn]
    intro heq
    rcases (substituteAll_eq_self_iff (dollar_notMem m)).mp heq with h | h
    · exact hy h
    · refine h (hin.trans ?_)
      rw [← append_assoc]
      exact (prefix_append _ _).isInfix

-- ── Whole files

theorem lastBreak_of_ended (h : Ended s) : lastBreak s = [] := lastBreak_eq_nil.mpr h

theorem ended_append_lastBreak (s : List Char) : Ended (s ++ lastBreak s) := by
  by_cases h : Ended s
  · rwa [lastBreak_of_ended h, append_nil]
  · have hbreak : lastBreak s = ['\n'] := if_neg h
    rw [hbreak]
    exact .inr getLast?_concat

theorem fill_append_newline (n : ℕ) (x s : Line) : fill n x (s ++ ['\n']) = fill n x s ++ ['\n'] :=
  substituteAll_newline (placeholder_ne_nil n) (newline_notMem_placeholder n) s []

theorem Ended.fill (h : Ended s) : Ended (fill n x s) := by
  rcases h with rfl | hlast
  · exact .inl rfl
  · obtain ⟨front, rfl⟩ := getLast?_eq_some_iff.mp hlast
    rw [fill_append_newline]
    exact .inr getLast?_concat

theorem setHoleFilling_twice (n m : ℕ) (x y : Line) (context : ReadWriteContext) :
    (setHoleFilling n x context).bind (setHoleFilling m y) = some { context with
      workText := fill m y (fill n x (context.workText ++ lastBreak context.workText)) } := by
  have hbreak : fill n x context.workText ++ lastBreak context.workText =
      fill n x (context.workText ++ lastBreak context.workText) := by
    by_cases h : Ended context.workText
    · rw [lastBreak_of_ended h, append_nil, append_nil]
    · have hb : lastBreak context.workText = ['\n'] := if_neg h
      rw [hb, fill_append_newline]
  have hended := (ended_append_lastBreak context.workText).fill (n := n) (x := x)
  rw [setHoleFilling_eq, bind_some, setHoleFilling_eq]
  dsimp only
  rw [hbreak, lastBreak_of_ended hended, append_nil]

theorem NoLonger.append_lastBreak (h : NoLonger n s) : NoLonger n (s ++ lastBreak s) := by
  by_cases hs : Ended s
  · rwa [lastBreak_of_ended hs, append_nil]
  · have hb : lastBreak s = ['\n'] := if_neg hs
    rw [hb]
    clear hb hs
    induction s using pattern_induction (placeholder_ne_nil n) with
    | nil => exact noLonger_newline n
    | hole rest ih =>
      obtain ⟨hrest, h⟩ := (accepted_hole (dollar_notMem n)).mp h
      rw [append_assoc]
      refine (accepted_hole (dollar_notMem n)).mpr ⟨?_, ih h⟩
      cases rest with
      | nil => rfl
      | cons c rest => exact hrest
    | keep c s hpre ih =>
      have hpre' : ¬ placeholder n <+: c :: (s ++ ['\n']) := by
        intro hp
        rcases prefix_append_cases (a := c :: s) hp with hp | ⟨t, ht, heq, hp⟩
        · exact hpre hp
        · have hnil := eq_nil_of_endsNumber (digits_of_placeholder (cons_ne_nil c s) heq) hp rfl
          exact ht hnil
      exact (accepted_cons hpre').mpr (ih ((accepted_cons hpre).mp h))

/-- The fillings of two holes commute on every template whose numbers end, exactly if one of them
    changes nothing or none makes the other's hole. -/
theorem setHoleFilling_comm_iff (hnm : n ≠ m) :
    (∀ context : ReadWriteContext, NoLonger n context.workText → NoLonger m context.workText →
      Commute n m x y context) ↔
    x = placeholder n ∨ y = placeholder m ∨ (¬ placeholder m <+: placeholder n → ¬ Makes n x m) ∧
      (¬ placeholder n <+: placeholder m → ¬ Makes m y n) := by
  constructor
  · intro h
    have hcomm (s : List Char) (hended : Ended s) (hn : NoLonger n s) (hm : NoLonger m s) :
        fill m y (fill n x s) = fill n x (fill m y s) := by
      have hc := h ⟨s, []⟩ hn hm
      rw [Commute, setHoleFilling_twice, setHoleFilling_twice, some_inj,
        ReadWriteContext.mk.injEq, lastBreak_of_ended hended, append_nil] at hc
      exact hc.1
    by_cases hx : x = placeholder n
    · exact .inl hx
    by_cases hy : y = placeholder m
    · exact .inr (.inl hy)
    refine .inr (.inr ⟨fun hpre hmakes => ?_, fun hpre hmakes => ?_⟩)
    · obtain ⟨s, hended, hn, hm, hne⟩ := exists_not_comm hpre hmakes hy
      exact hne (hcomm s hended hn hm)
    · obtain ⟨s, hended, hm, hn, hne⟩ := exists_not_comm hpre hmakes hx
      exact hne (hcomm s hended hn hm).symm
  · intro h context hn hm
    rw [Commute, setHoleFilling_twice, setHoleFilling_twice]
    refine congrArg (fun t => some { context with workText := t }) ?_
    rcases h with rfl | rfl | ⟨hx, hy⟩
    · rw [fill_self, fill_self]
    · rw [fill_self, fill_self]
    · exact fill_comm hnm hx hy _ hn.append_lastBreak hm.append_lastBreak

/-- **Hole filling is a simultaneous substitution** exactly so far: a filling is exact on ended
    templates without a longer number, and two fillings commute if none makes the other's hole. -/
theorem setHoleFilling_lawful_iff (n m : ℕ) (x y : Line) (context : ReadWriteContext) :
    (setHoleFilling n x context =
        some { context with workText := fillHole n x context.workText } ↔
      Ended context.workText ∧ (x = placeholder n ∨ NoLonger n context.workText)) ∧
    (n ≠ m → ((∀ context : ReadWriteContext, NoLonger n context.workText →
          NoLonger m context.workText → Commute n m x y context) ↔
        x = placeholder n ∨ y = placeholder m ∨
          (¬ placeholder m <+: placeholder n → ¬ Makes n x m) ∧
          (¬ placeholder n <+: placeholder m → ¬ Makes m y n))) :=
  ⟨setHoleFilling_exact_iff, setHoleFilling_comm_iff⟩

/-- Hole 1 is filled in `$12`, and `$2` in `$1` is the other hole afterwards. -/
theorem setHoleFilling_not_lawful :
    (setHoleFilling 1 ['a'] ⟨['$', '1', '2', '\n'], []⟩).map ReadWriteContext.workText =
        some ['a', '2', '\n'] ∧
      fillHole 1 ['a'] ['$', '1', '2', '\n'] = ['$', '1', '2', '\n'] ∧
      ¬ Commute 1 2 ['$', '2'] ['b'] ⟨['$', '1', '\n'], []⟩ := by
  refine ⟨by decide, by decide, fun h => ?_⟩
  have htext := congrArg (Option.map ReadWriteContext.workText) h
  cases htext

end SvfSyn
