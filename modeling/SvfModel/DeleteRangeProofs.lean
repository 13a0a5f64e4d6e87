import SvfModel.HoleFillingProofs

/-!
# The source editor: deleting a range

A range is given in lines of the original file and in columns, of which the last is behind the
range. `deleteCodeRange` keeps the lines and empties them. What it should do is `removeRange`, at
the places where the two lines are after all that has been inserted before them (`position`).

The code counts the snippets behind the start line as if they were before it, cuts the end of
the start line off even if the range ends there, and takes the end column for the last one of the
range. `deleteCodeRange_removes_iff` says of every run of edits and deletions when the next deletion
is right all the same.
-/

namespace SvfSyn

open SvfLoop SvfText List Option
open Function (update update_of_ne update_self)

-- ── The source

structure Range where
  startLine : ℤ
  startColumn : ℤ
  endLine : ℤ
  endColumn : ℤ
  deriving DecidableEq

/-- What the loop makes of line `i`. To begin behind the end of a line throws; a negative column
    is behind it. -/
def cutLine (range : Range) (adjusted_start_line adjusted_end_line i : ℤ) (line : Line) :
    Option Line :=
  if i = adjusted_start_line ∧ range.startColumn > 1 then
    some (line.take (range.startColumn - 1).toNat)
  else if i = adjusted_end_line ∧ range.endColumn < line.length then
    if 0 ≤ range.endColumn then some (line.drop range.endColumn.toNat) else none
  else some []

def deleteLoop (range : Range) (adjusted_start_line adjusted_end_line : ℤ) :
    ℕ → ℤ → List Line → Option (List Line)
  | 0, _, lines => some lines
  | rounds + 1, i, lines =>
    if 1 ≤ i then
      lines[(i - 1).toNat]?.bind fun line =>
        (cutLine range adjusted_start_line adjusted_end_line i line).bind fun line =>
          deleteLoop range adjusted_start_line adjusted_end_line rounds (i + 1)
            (lines.set (i - 1).toNat line)
    else none

def deleteCodeRange (context : ReadWriteContext) (range : Range) : Option ReadWriteContext :=
  let adjusted_start_line := range.startLine +
    total (· ≤ range.startLine) context.lineOffsetMap
  let adjusted_end_line := range.endLine + total (· < range.endLine) context.lineOffsetMap
  let lines := getlines context.workText
  if adjusted_start_line ≤ adjusted_end_line ∧ adjusted_start_line ≤ lines.length ∧
      adjusted_end_line ≤ lines.length then
    (deleteLoop range adjusted_start_line adjusted_end_line
      (adjusted_end_line - adjusted_start_line + 1).toNat adjusted_start_line lines).map
        fun lines => { context with workText := putlines lines }
  else some { context with workText := putlines lines }

/-- What the editor is asked to do. -/
inductive Op where
  | edit (e : Edit)
  | deleteCodeRange (range : Range)
  deriving DecidableEq

def step (context : ReadWriteContext) : Op → Option ReadWriteContext
  | .edit e => some (edit context e)
  | .deleteCodeRange range => deleteCodeRange context range

-- ── What it should do

def removedText (range : Range) (s e k : ℕ) (line : Line) : Line :=
  if s ≤ k ∧ k ≤ e then
    (if k = s then line.take (range.startColumn - 1).toNat else []) ++
      (if k = e then line.drop (range.endColumn - 1).toNat else [])
  else line

def removeRange (range : Range) (s e : ℕ) (lines : List Line) : List Line :=
  lines.mapIdx (removedText range s e)

def insertsBefore (n : ℤ) : Op → Bool
  | .edit (.addNewCodeSnippetAfter targetLine _) => targetLine < n
  | .edit (.addNewCodeSnippetBefore targetLine _) => targetLine ≤ n
  | .edit (.replace _ _) => false
  | .deleteCodeRange _ => false

/-- Where original line `n` is in the file. -/
def position (history : List Op) (n : ℤ) : ℕ := (n - 1).toNat + history.countP (insertsBefore n)

section

variable (context : ReadWriteContext)

def Removes (range : Range) (s e : ℕ) : Prop :=
  deleteCodeRange context range = some { context with
    workText :=
      let text := putlines (removeRange range s e (getlines context.workText))
      if context.workText.getLast? = some '\n' then text else text.dropLast }

-- ── The condition

def lineIndex (n : ℤ) : ℕ :=
  (n + total (· < n) context.lineOffsetMap - 1).toNat

def lineAt (n : ℤ) : Line :=
  ((getlines context.workText)[lineIndex context n]?).getD []

def snippetsAfter (n : ℤ) : List Line :=
  ((getlines context.workText).drop (lineIndex context n + 1)).take
    (total (· = n) context.lineOffsetMap).toNat

end

/-- The range begins and ends in lines of the original file, at columns that these have. -/
def Range.Valid (L : ℕ) (context : ReadWriteContext) (range : Range) : Prop :=
  (1 ≤ range.startLine ∧ range.startLine ≤ range.endLine ∧ range.endLine ≤ L) ∧
  (1 ≤ range.startColumn ∧
    range.startColumn ≤ (lineAt context range.startLine).length + 1) ∧
  (1 ≤ range.endColumn ∧ range.endColumn ≤ (lineAt context range.endLine).length + 1) ∧
  (range.startLine = range.endLine → range.startColumn ≤ range.endColumn)

/-- The range ends behind the last character of its last line. -/
def Range.ToEnd (context : ReadWriteContext) (range : Range) : Prop :=
  range.endColumn = (lineAt context range.endLine).length + 1

/-- Where the code removes the range. -/
def Range.Removable (context : ReadWriteContext) (range : Range) : Prop :=
  context.workText.getLast? = some '\n' ∧
    if snippetsAfter context range.startLine = [] then range.ToEnd context
    else if range.startLine = range.endLine then range.startColumn = range.endColumn
    else range.ToEnd context ∧
      range.startColumn = (lineAt context range.startLine).length + 1 ∧
      (∀ snippet ∈ (snippetsAfter context range.startLine).dropLast, snippet = []) ∧
      (range.startColumn = 1 ∨ (snippetsAfter context range.startLine).getLast? = some [])

instance (L : ℕ) (context : ReadWriteContext) (range : Range) :
    Decidable (range.Valid L context) := inferInstanceAs (Decidable (_ ∧ _ ∧ _ ∧ (_ → _)))

def Op.Fits (L : ℕ) (context : ReadWriteContext) : Op → Prop
  | .edit e => e.Fits L context
  | .deleteCodeRange range => range.Valid L context

instance (L : ℕ) (context : ReadWriteContext) : ∀ op : Op, Decidable (op.Fits L context)
  | .edit e => inferInstanceAs (Decidable (e.Fits L context))
  | .deleteCodeRange range => inferInstanceAs (Decidable (range.Valid L context))

-- ── The loop

def cutText (range : Range) (s e k : ℕ) (line : Line) : Line :=
  if k = s ∧ range.startColumn > 1 then line.take (range.startColumn - 1).toNat
  else if k = e ∧ range.endColumn < line.length then line.drop range.endColumn.toNat
  else []

variable {lines : List Line} {s d e : ℕ} {line : Line}

theorem cutLine_eq {range : Range} (h : 0 ≤ range.endColumn) (s e k : ℕ) (line : Line) :
    cutLine range (s + 1) (e + 1) (k + 1) line = some (cutText range s e k line) := by
  have hs : ((k : ℤ) + 1 = s + 1) ↔ k = s := by omega
  have he : ((k : ℤ) + 1 = e + 1) ↔ k = e := by omega
  rw [cutLine, cutText]
  simp only [hs, he, if_pos h]
  split_ifs <;> rfl

theorem mapIdx_eq_iff {f g : ℕ → Line → Line} :
    lines.mapIdx f = lines.mapIdx g ↔ ∀ k line, lines[k]? = some line → f k line = g k line := by
  constructor
  · intro h k line hline
    have hk := congrArg (·[k]?) h
    simp only [getElem?_mapIdx, hline, map_some, some_inj] at hk
    exact hk
  · intro h
    refine ext_getElem? fun k => ?_
    rw [getElem?_mapIdx, getElem?_mapIdx]
    exact map_congr fun line hline => h k line hline

theorem mapIdx_eq_self {f : ℕ → Line → Line} (h : ∀ k line, lines[k]? = some line → f k line = line)
    : lines.mapIdx f = lines := by
  have hid : lines.mapIdx (fun _ line => line) = lines := by
    refine ext_getElem? fun k => ?_
    rw [getElem?_mapIdx]
    cases lines[k]? <;> rfl
  exact (mapIdx_eq_iff.mpr h).trans hid

theorem deleteLoop_eq {range : Range} (h : 0 ≤ range.endColumn) (s e : ℕ) (rounds : ℕ) :
    ∀ (j : ℕ) (lines : List Line), j + rounds ≤ lines.length →
      deleteLoop range (s + 1) (e + 1) rounds (j + 1) lines = some (lines.mapIdx fun k line =>
          if j ≤ k ∧ k < j + rounds then cutText range s e k line else line) := by
  induction rounds with
  | zero =>
    intro j lines hlen
    rw [deleteLoop, mapIdx_eq_self]
    exact fun k line _ => if_neg (by omega)
  | succ rounds ih =>
    intro j lines hlen
    have hj : j < lines.length := by omega
    have hidx : ((j : ℤ) + 1 - 1).toNat = j := by omega
    have hih := ih (j + 1) (lines.set j (cutText range s e j lines[j])) (by rw [length_set]; omega)
    rw [Nat.cast_add_one] at hih
    rw [deleteLoop, if_pos (by omega), hidx, getElem?_eq_getElem hj, bind_some,
      cutLine_eq h, bind_some, hih, some_inj]
    refine ext_getElem? fun k => ?_
    rw [getElem?_mapIdx, getElem?_mapIdx, getElem?_set]
    by_cases hk : j = k
    · subst hk
      rw [if_pos rfl, if_pos hj, map_some, getElem?_eq_getElem hj, map_some,
        if_neg (by omega), if_pos (by omega)]
    · rw [if_neg hk]
      refine map_congr fun line hline => ?_
      by_cases hin : j + 1 ≤ k ∧ k < j + 1 + rounds
      · rw [if_pos hin, if_pos (by omega)]
      · rw [if_neg hin, if_neg (by omega)]

-- ── Where the lines are

variable {L : ℕ} {context : ReadWriteContext} {a : Layout} {range : Range}

theorem inserted_succ_right (gaps : ℕ → List Line) (g : ℕ) :
    inserted gaps 0 (g + 1) = inserted gaps 0 g + (gaps g).length := by
  rw [inserted, inserted, range_succ, map_append, sum_append]
  simp

theorem Represents.lineIndex_eq (h : Represents L context a) {n : ℕ} (hn : 1 ≤ n) :
    lineIndex context n = n - 1 + inserted a.gaps 0 n := by
  rw [lineIndex, h.total_lt]
  omega

structure Places (context : ReadWriteContext) (range : Range) (s d e : ℕ) : Prop where
  startIdx : lineIndex context range.startLine = s
  endIdx : lineIndex context range.endLine = e
  start : range.startLine + total (· ≤ range.startLine) context.lineOffsetMap = (s + d : ℕ) + 1
  stop : range.endLine + total (· < range.endLine) context.lineOffsetMap = e + 1
  count : (total (· = range.startLine) context.lineOffsetMap).toNat = d
  one : range.startLine = range.endLine → s = e
  many : range.startLine ≠ range.endLine → s + d < e
  last : e < (getlines context.workText).length
  fits : s + d < (getlines context.workText).length

theorem Represents.places (h : Represents L context a) (hvalid : range.Valid L context) :
    ∃ s d e, Places context range s d e := by
  obtain ⟨⟨hpos, hle, hlast⟩, -⟩ := hvalid
  obtain ⟨n, hn⟩ := Int.eq_ofNat_of_zero_le (by omega : 0 ≤ range.startLine)
  obtain ⟨m, hm⟩ := Int.eq_ofNat_of_zero_le (by omega : 0 ≤ range.endLine)
  rw [hn] at hpos hle
  rw [hm] at hle hlast
  have hnm : n ≤ m := by omega
  have hlen : (getlines context.workText).length = L + inserted a.gaps 0 (L + 1) := by
    rw [h.text, Layout.file, length_fileFrom, h.length]
  have hmono : inserted a.gaps 0 m ≤ inserted a.gaps 0 L := inserted_mono _ 0 (by omega)
  have hmono' : inserted a.gaps 0 (n + 1) ≤ inserted a.gaps 0 (L + 1) :=
    inserted_mono _ 0 (by omega)
  have hgap : total (· ≤ (n : ℤ)) context.lineOffsetMap = inserted a.gaps 0 (n + 1) := by
    rw [← h.total_lt]
    refine congrArg (total · _) (funext fun k => decide_eq_decide.mpr ?_)
    rw [Nat.cast_succ]
    exact Int.lt_add_one_iff.symm
  have hsucc := inserted_succ_right a.gaps n
  have hsucc' := inserted_succ_right a.gaps L
  refine ⟨n - 1 + inserted a.gaps 0 n, (a.gaps n).length, m - 1 + inserted a.gaps 0 m, ?_⟩
  constructor
  case startIdx => rw [hn, h.lineIndex_eq (by omega)]
  case endIdx => rw [hm, h.lineIndex_eq (by omega)]
  case start =>
    rw [hn, hgap]
    omega
  case stop =>
    rw [hm, h.total_lt]
    omega
  case count =>
    rw [hn, h.gaps]
    omega
  case one =>
    intro heq
    obtain rfl : n = m := by omega
    rfl
  case many =>
    intro hne
    have hlt : inserted a.gaps 0 (n + 1) ≤ inserted a.gaps 0 m := inserted_mono _ 0 (by omega)
    omega
  case last => omega
  case fits => omega

/-- **Specification of `deleteCodeRange`**: it cuts the lines from the last snippet behind the
    start line on. -/
theorem Places.deleteCodeRange_eq (h : Places context range s d e) (hcol : 0 ≤ range.endColumn) :
    deleteCodeRange context range = some { context with
      workText := putlines ((getlines context.workText).mapIdx fun k line =>
        if s + d ≤ k ∧ k ≤ e then cutText range (s + d) e k line else line) } := by
  rw [deleteCodeRange]
  simp only [h.start, h.stop]
  have hfits := h.fits
  have hlast := h.last
  by_cases hle : s + d ≤ e
  · have hrounds : ((e : ℤ) + 1 - ((s + d : ℕ) + 1) + 1).toNat = e + 1 - (s + d) := by omega
    rw [if_pos (by omega), hrounds, deleteLoop_eq hcol _ _ _ _ _ (by omega), map_some]
    have hrange (k : ℕ) : (s + d ≤ k ∧ k < s + d + (e + 1 - (s + d))) ↔ s + d ≤ k ∧ k ≤ e := by
      omega
    simp only [hrange]
  · rw [if_neg (by omega), mapIdx_eq_self]
    exact fun k line _ => if_neg (by omega)

-- ── Texts and lines

theorem newline_notMem_cutText {s e k : ℕ} (h : '\n' ∉ line) : '\n' ∉ cutText range s e k line := by
  rw [cutText]
  split_ifs
  · exact fun hmem => h (mem_of_mem_take hmem)
  · exact fun hmem => h (mem_of_mem_drop hmem)
  · exact not_mem_nil

theorem newline_notMem_mapIdx {f : ℕ → Line → Line} (h : ∀ line ∈ lines, '\n' ∉ line)
    (hf : ∀ k line, '\n' ∉ line → '\n' ∉ f k line) :
    ∀ line ∈ lines.mapIdx f, '\n' ∉ line := by
  intro line hline
  obtain ⟨k, hk, rfl⟩ := mem_mapIdx.mp hline
  exact hf k _ (h _ (getElem_mem hk))

theorem count_putlines (h : ∀ line ∈ lines, '\n' ∉ line) :
    (putlines lines).count '\n' = lines.length := by
  induction lines with
  | nil => rfl
  | cons line lines ih =>
    rw [putlines_cons, count_append, count_cons_self, count_eq_zero.mpr (h line mem_cons_self),
      ih (forall_mem_cons.mp h).2, Nat.zero_add,
      length_cons]

section

variable {lines lines' : List Line} (h : ∀ line ∈ lines, '\n' ∉ line)
  (h' : ∀ line ∈ lines', '\n' ∉ line)
include h h'

theorem putlines_inj (heq : putlines lines = putlines lines') :
    lines = lines' := by
  rw [← getlines_putlines lines h, heq, getlines_putlines lines' h']

theorem putlines_ne_dropLast (hlen : lines.length = lines'.length) (hne : lines' ≠ []) :
    putlines lines ≠ (putlines lines').dropLast := by
  intro heq
  obtain ⟨front, last, rfl⟩ := (eq_nil_or_concat' lines').resolve_left hne
  have hlast : putlines (front ++ [last]) = putlines front ++ last ++ ['\n'] := by
    rw [putlines_append, append_assoc]
    exact congrArg (putlines front ++ ·) (append_nil _)
  have hcount := count_putlines h
  have hcount' := count_putlines h'
  rw [hlast, count_append, count_singleton_self] at hcount'
  rw [heq, hlast, dropLast_concat] at hcount
  omega

end

theorem newline_notMem_removedText {s e k : ℕ} (h : '\n' ∉ line) :
    '\n' ∉ removedText range s e k line := by
  have htake (n : ℕ) : '\n' ∉ line.take n := fun hmem => h (mem_of_mem_take hmem)
  have hdrop (n : ℕ) : '\n' ∉ line.drop n := fun hmem => h (mem_of_mem_drop hmem)
  rw [removedText]
  split_ifs <;> simp [htake, hdrop, h]

theorem Places.removes_iff (h : Places context range s d e) (hcol : 0 ≤ range.endColumn) :
    Removes context range s e ↔ context.workText.getLast? = some '\n' ∧
      ∀ k line, (getlines context.workText)[k]? = some line →
        (if s + d ≤ k ∧ k ≤ e then cutText range (s + d) e k line else line) =
          removedText range s e k line := by
  have hclean := newline_notMem_getlines context.workText
  have hcut := newline_notMem_mapIdx hclean
    (f := fun k line => if s + d ≤ k ∧ k ≤ e then cutText range (s + d) e k line else line)
    (fun k line hline => by
      split_ifs
      · exact newline_notMem_cutText hline
      · exact hline)
  have hremove := newline_notMem_mapIdx hclean (f := removedText range s e)
    (fun k line hline => newline_notMem_removedText hline)
  have hspec : removeRange range s e (getlines context.workText) =
      (getlines context.workText).mapIdx (removedText range s e) := rfl
  have hne : (getlines context.workText).mapIdx (removedText range s e) ≠ [] := by
    intro hnil
    have hlen := congrArg List.length hnil
    rw [length_mapIdx, length_nil] at hlen
    have := h.last
    omega
  rw [Removes, h.deleteCodeRange_eq hcol, some_inj, ReadWriteContext.mk.injEq, eq_self,
    and_true, hspec, ← mapIdx_eq_iff]
  dsimp only
  split_ifs with hended
  · exact ⟨fun heq => ⟨hended, putlines_inj hcut hremove heq⟩, fun heq => congrArg putlines heq.2⟩
  · refine iff_of_false (putlines_ne_dropLast hcut hremove ?_ hne) fun heq => hended heq.1
    rw [length_mapIdx, length_mapIdx]

-- ── Line by line

abbrev codeText (range : Range) (s d e k : ℕ) (line : Line) : Line :=
  if s + d ≤ k ∧ k ≤ e then cutText range (s + d) e k line else line

theorem drop_eq_nil_of_column {c : ℤ} (hc : c ≤ line.length + 1) (h : line.drop (c - 1).toNat = [])
    (hpos : 1 ≤ c) : c = line.length + 1 := by
  have := drop_eq_nil_iff.mp h
  omega

theorem endLine_iff {e : ℕ} (hcol : 1 ≤ range.endColumn ∧ range.endColumn ≤ line.length + 1) :
    (if e = e ∧ range.endColumn < line.length then line.drop range.endColumn.toNat else []) =
      line.drop (range.endColumn - 1).toNat ↔ range.endColumn = line.length + 1 := by
  by_cases hin : range.endColumn < line.length
  · rw [if_pos ⟨rfl, hin⟩]
    refine iff_of_false (fun heq => ?_) (by omega)
    have hlen := congrArg List.length heq
    rw [length_drop, length_drop] at hlen
    omega
  · rw [if_neg fun h => hin h.2]
    refine ⟨fun heq => drop_eq_nil_of_column hcol.2 heq.symm hcol.1, fun heq => ?_⟩
    exact (drop_eq_nil_of_le (by omega)).symm

theorem endText_iff (hse : s + d < e)
    (hcol : 1 ≤ range.endColumn ∧ range.endColumn ≤ line.length + 1) :
    codeText range s d e e line = removedText range s e e line ↔
      range.endColumn = line.length + 1 := by
  have hne : e ≠ s + d := by omega
  have hne' : e ≠ s := by omega
  rw [codeText, removedText, if_pos (by omega), if_pos (by omega), cutText,
    if_neg (fun h => hne h.1), if_neg hne', if_pos rfl, nil_append]
  exact endLine_iff hcol

theorem oneText_iff {s : ℕ} (hstart : 1 ≤ range.startColumn)
    (hcol : 1 ≤ range.endColumn ∧ range.endColumn ≤ line.length + 1) :
    codeText range s 0 s s line = removedText range s s s line ↔
      range.endColumn = line.length + 1 := by
  rw [codeText, removedText, if_pos (by omega), if_pos (by omega), cutText, if_pos rfl, if_pos rfl,
    Nat.add_zero]
  by_cases hs : range.startColumn > 1
  · rw [if_pos ⟨rfl, hs⟩, self_eq_append_right]
    refine ⟨fun heq => drop_eq_nil_of_column hcol.2 heq hcol.1, fun heq => ?_⟩
    exact drop_eq_nil_of_le (by omega)
  · have hzero : (range.startColumn - 1).toNat = 0 := by omega
    rw [if_neg fun h => hs h.2, hzero, take_zero, nil_append]
    exact endLine_iff hcol

theorem startText {s e : ℕ} (hse : s < e) (hstart : 1 ≤ range.startColumn) (line : Line)
    (hend : ¬ (s = e ∧ range.endColumn < line.length)) :
    codeText range s 0 e s line = removedText range s e s line := by
  rw [codeText, removedText, if_pos (by omega), if_pos (by omega), cutText, Nat.add_zero,
    if_pos rfl, if_neg hse.ne, append_nil, if_neg hend]
  by_cases hs : range.startColumn > 1
  · rw [if_pos ⟨rfl, hs⟩]
  · have hzero : (range.startColumn - 1).toNat = 0 := by omega
    rw [if_neg fun h => hs h.2, hzero, take_zero]

theorem betweenText {s d e k : ℕ} (hs : s + d < k) (he : k < e) (line : Line) :
    codeText range s d e k line = removedText range s e k line := by
  rw [codeText, removedText, if_pos (by omega), if_pos (by omega), cutText,
    if_neg (by omega), if_neg (by omega), if_neg (by omega), if_neg (by omega), append_nil]

theorem outsideText {s d e k : ℕ} (h : k < s ∨ e < k) (line : Line) :
    codeText range s d e k line = removedText range s e k line := by
  rw [codeText, removedText, if_neg (by omega), if_neg (by omega)]

theorem allText_iff_none {s e : ℕ} (hse : s ≤ e) (hline : lines[e]? = some line)
    (hstart : 1 ≤ range.startColumn)
    (hcol : 1 ≤ range.endColumn ∧ range.endColumn ≤ line.length + 1) :
    (∀ k line, lines[k]? = some line → codeText range s 0 e k line = removedText range s e k line) ↔
    range.endColumn = line.length + 1 := by
  rcases hse.lt_or_eq with hlt | rfl
  · constructor
    · exact fun h => (endText_iff hlt hcol).mp (h e line hline)
    · intro heq k line' hline'
      rcases lt_trichotomy k s with hks | rfl | hks
      · exact outsideText (.inl hks) line'
      · exact startText hlt hstart line' (by omega)
      · rcases lt_trichotomy k e with hke | rfl | hke
        · exact betweenText hks hke line'
        · cases hline.symm.trans hline'
          exact (endText_iff hlt hcol).mpr heq
        · exact outsideText (.inr hke) line'
  · constructor
    · exact fun h => (oneText_iff hstart hcol).mp (h s line hline)
    · intro heq k line' hline'
      rcases lt_trichotomy k s with hks | rfl | hks
      · exact outsideText (.inl hks) line'
      · cases hline.symm.trans hline'
        exact (oneText_iff hstart hcol).mpr heq
      · exact outsideText (.inr hks) line'

theorem allText_iff_one {s d : ℕ} (hd : 0 < d) (hline : lines[s]? = some line)
    (hcol : 1 ≤ range.startColumn ∧ range.startColumn ≤ range.endColumn ∧
      range.endColumn ≤ line.length + 1) :
    (∀ k line, lines[k]? = some line → codeText range s d s k line = removedText range s s k line) ↔
    range.startColumn = range.endColumn := by
  have hone : codeText range s d s s line = removedText range s s s line ↔
      range.startColumn = range.endColumn := by
    rw [codeText, removedText, if_neg (by omega), if_pos (by omega), if_pos rfl, if_pos rfl]
    constructor
    · intro heq
      have hlen := congrArg List.length heq
      rw [length_append, length_take, length_drop] at hlen
      omega
    · intro heq
      rw [heq, take_append_drop]
  constructor
  · exact fun h => hone.mp (h s line hline)
  · intro heq k line' hline'
    rcases lt_trichotomy k s with hks | rfl | hks
    · exact outsideText (.inl hks) line'
    · cases hline.symm.trans hline'
      exact hone.mpr heq
    · exact outsideText (.inr hks) line'

theorem allText_iff_many (hd : 0 < d) (hse : s + d < e) {first last : Line}
    (hfirst : lines[s]? = some first) (hlast : lines[e]? = some last)
    (hstart : 1 ≤ range.startColumn ∧ range.startColumn ≤ first.length + 1)
    (hcol : 1 ≤ range.endColumn ∧ range.endColumn ≤ last.length + 1) :
    (∀ k line, lines[k]? = some line → codeText range s d e k line = removedText range s e k line) ↔
    range.endColumn = last.length + 1 ∧ range.startColumn = first.length + 1 ∧
      (∀ k, s < k → k < s + d → ∀ line, lines[k]? = some line → line = []) ∧
      (range.startColumn = 1 ∨ ∀ line, lines[s + d]? = some line → line = []) := by
  have hfirst' : codeText range s d e s first = removedText range s e s first ↔
      range.startColumn = first.length + 1 := by
    rw [codeText, removedText, if_neg (by omega), if_pos (by omega), if_pos rfl,
      if_neg (by omega), append_nil]
    constructor
    · intro heq
      have hlen := congrArg List.length heq
      rw [length_take] at hlen
      omega
    · intro heq
      exact (take_of_length_le (by omega)).symm
  have hsnippet {k : ℕ} (hk : s < k ∧ k < s + d) (line : Line) :
      codeText range s d e k line = removedText range s e k line ↔ line = [] := by
    rw [codeText, removedText, if_neg (by omega), if_pos (by omega), if_neg (by omega),
      if_neg (by omega), append_nil]
  have hcut (line : Line) : codeText range s d e (s + d) line = removedText range s e (s + d) line ↔
        range.startColumn = 1 ∨ line = [] := by
    rw [codeText, removedText, if_pos (by omega), if_pos (by omega), if_neg (by omega),
      if_neg (by omega), append_nil, cutText]
    by_cases hs : range.startColumn > 1
    · rw [if_pos ⟨rfl, hs⟩, take_eq_nil_iff]
      exact or_congr_left (iff_of_false (by omega) (by omega))
    · rw [if_neg fun h => hs h.2, if_neg (by omega)]
      exact iff_of_true rfl (.inl (by omega))
  constructor
  · intro h
    refine ⟨(endText_iff hse hcol).mp (h e last hlast), hfirst'.mp (h s first hfirst),
      fun k hk hkd line hline => (hsnippet ⟨hk, hkd⟩ line).mp (h k line hline), ?_⟩
    by_contra hno
    obtain ⟨hone, hline⟩ := not_or.mp hno
    exact hline fun line hl => ((hcut line).mp (h _ line hl)).resolve_left hone
  · rintro ⟨hend, hone, hbetween, hlastSnippet⟩ k line hline
    rcases lt_trichotomy k s with hks | rfl | hks
    · exact outsideText (.inl hks) line
    · cases hfirst.symm.trans hline
      exact hfirst'.mpr hone
    · rcases lt_trichotomy k (s + d) with hkd | rfl | hkd
      · exact (hsnippet ⟨hks, hkd⟩ line).mpr (hbetween k hks hkd line hline)
      · exact (hcut line).mpr (hlastSnippet.imp_right fun h => h line hline)
      · rcases lt_trichotomy k e with hke | rfl | hke
        · exact betweenText hkd hke line
        · cases hlast.symm.trans hline
          exact (endText_iff hse hcol).mpr hend
        · exact outsideText (.inr hke) line

-- ── One deletion

section

variable (h : Places context range s d e)
include h

theorem Places.lineAt_start :
    (getlines context.workText)[s]? = some (lineAt context range.startLine) := by
  have hfits := h.fits
  rw [lineAt, h.startIdx, getElem?_eq_getElem (by omega)]
  rfl

theorem Places.lineAt_end :
    (getlines context.workText)[e]? = some (lineAt context range.endLine) := by
  rw [lineAt, h.endIdx, getElem?_eq_getElem h.last]
  rfl

theorem Places.snippetsAfter_eq : (snippetsAfter context range.startLine).length = d ∧
    ∀ i, i < d → (snippetsAfter context range.startLine)[i]? =
      (getlines context.workText)[s + 1 + i]? := by
  have hfits := h.fits
  rw [snippetsAfter, h.count, h.startIdx]
  refine ⟨?_, fun i hi => ?_⟩
  · rw [length_take, length_drop]
    omega
  · rw [getElem?_take_of_lt hi, getElem?_drop]

theorem Places.dropLast_iff :
    (∀ snippet ∈ (snippetsAfter context range.startLine).dropLast, snippet = []) ↔
      ∀ k, s < k → k < s + d → ∀ line, (getlines context.workText)[k]? = some line → line = [] := by
  obtain ⟨hlen, hget⟩ := h.snippetsAfter_eq
  constructor
  · intro hall k hs hd line hline
    refine hall line (mem_iff_getElem?.mpr ⟨k - (s + 1), ?_⟩)
    rw [getElem?_dropLast, if_pos (by omega), hget _ (by omega), ← hline]
    exact congrArg (_[·]?) (by omega)
  · intro hall snippet hmem
    obtain ⟨i, hi⟩ := mem_iff_getElem?.mp hmem
    rw [getElem?_dropLast] at hi
    obtain ⟨hlt, hi⟩ := ite_none_right_eq_some.mp hi
    rw [hget i (by omega)] at hi
    exact hall (s + 1 + i) (by omega) (by omega) snippet hi

theorem Places.getLast_iff (hd : 0 < d) :
    (snippetsAfter context range.startLine).getLast? = some [] ↔
      ∀ line, (getlines context.workText)[s + d]? = some line → line = [] := by
  obtain ⟨hlen, hget⟩ := h.snippetsAfter_eq
  have hidx : s + 1 + (d - 1) = s + d := by omega
  rw [getLast?_eq_getElem?, hlen, hget _ (by omega), hidx, getElem?_eq_getElem h.fits]
  constructor
  · intro heq line hline
    exact mem_unique hline heq
  · intro hall
    exact congrArg some (hall _ rfl)

/-- **A deletion is right** exactly where the range is removable. -/
theorem Places.removes_iff_removable (hvalid : range.Valid L context) :
    Removes context range s e ↔ range.Removable context := by
  obtain ⟨⟨-, hle, -⟩, hstart, hend, hone⟩ := hvalid
  obtain ⟨hlen, -⟩ := h.snippetsAfter_eq
  rw [h.removes_iff (by omega), Range.Removable]
  refine and_congr_right fun _ => ?_
  by_cases hd : d = 0
  · subst hd
    have hse : s ≤ e := by
      by_cases heq : range.startLine = range.endLine
      · exact (h.one heq).le
      · exact (h.many heq).le
    rw [if_pos (length_eq_zero_iff.mp hlen), Range.ToEnd]
    exact allText_iff_none hse h.lineAt_end hstart.1 hend
  · have hpos : 0 < d := Nat.pos_of_ne_zero hd
    rw [if_neg fun hnil => hd (by rw [← hlen, hnil, length_nil])]
    by_cases heq : range.startLine = range.endLine
    · obtain rfl := h.one heq
      rw [if_pos heq]
      exact allText_iff_one hpos h.lineAt_end ⟨hstart.1, hone heq, hend.2⟩
    · rw [if_neg heq, Range.ToEnd, h.dropLast_iff, h.getLast_iff hpos]
      exact allText_iff_many hpos (h.many heq) h.lineAt_start h.lineAt_end hstart hend

end

-- ── Runs

theorem exists_fileFrom (gaps : ℕ → List Line) : ∀ (lines : List Line) (k : ℕ) (file : List Line),
    file.length = (fileFrom gaps k lines).length →
      ∃ gaps' lines', fileFrom gaps' k lines' = file ∧ lines'.length = lines.length ∧
        ∀ j, (gaps' j).length = (gaps j).length := by
  intro lines
  induction lines with
  | nil =>
    intro k file hlen
    refine ⟨update gaps k file, [], ?_, rfl, fun j => ?_⟩
    · rw [fileFrom, update_self]
    · by_cases hj : j = k
      · rw [hj, update_self, hlen, fileFrom]
      · rw [update_of_ne hj]
  | cons line lines ih =>
    intro k file hlen
    rw [fileFrom, length_append, length_cons] at hlen
    obtain ⟨first, rest, hrest⟩ : ∃ first rest, file.drop (gaps k).length = first :: rest := by
      refine exists_cons_of_ne_nil fun hnil => ?_
      have := drop_eq_nil_iff.mp hnil
      omega
    have hrestlen : rest.length = (fileFrom gaps (k + 1) lines).length := by
      have := congrArg List.length hrest
      rw [length_drop, length_cons] at this
      omega
    obtain ⟨gaps', lines', hfile, hlines, hgaps⟩ := ih (k + 1) rest hrestlen
    refine ⟨update gaps' k (file.take (gaps k).length), first :: lines', ?_, ?_, fun j => ?_⟩
    · have hcongr : fileFrom (update gaps' k (file.take (gaps k).length)) (k + 1) lines' =
          fileFrom gaps' (k + 1) lines' :=
        fileFrom_congr lines' (k + 1) fun j hj => update_of_ne (by omega) _ _
      rw [fileFrom, update_self, hcongr, hfile, ← hrest, take_append_drop]
    · rw [length_cons, length_cons, hlines]
    · by_cases hj : j = k
      · rw [hj, update_self, length_take]
        omega
      · rw [update_of_ne hj, hgaps]

theorem Represents.deleteCodeRange (h : Represents L context a) (hvalid : range.Valid L context) :
    ∃ context' a', SvfSyn.deleteCodeRange context range = some context' ∧
      Represents L context' a' ∧ ∀ j, (a'.gaps j).length = (a.gaps j).length := by
  obtain ⟨s, d, e, hplaces⟩ := h.places hvalid
  have hclean := newline_notMem_mapIdx (newline_notMem_getlines context.workText)
    (f := codeText range s d e) (fun k line hline => by
      rw [codeText]
      split_ifs
      · exact newline_notMem_cutText hline
      · exact hline)
  obtain ⟨gaps', lines', hfile, hlines, hgaps⟩ := exists_fileFrom a.gaps a.lines 0
    ((getlines context.workText).mapIdx (codeText range s d e)) (by
      rw [length_mapIdx, h.text]
      rfl)
  have hcol : 0 ≤ range.endColumn := by
    have := hvalid.2.2.1.1
    omega
  refine ⟨_, ⟨lines', gaps'⟩, hplaces.deleteCodeRange_eq hcol, ?_, hgaps⟩
  constructor
  case text => exact (getlines_putlines _ hclean).trans hfile.symm
  case sorted => exact h.sorted
  case keys => exact h.keys
  case gaps =>
    intro k
    rw [hgaps]
    exact h.gaps k
  case length => exact hlines.trans h.length

theorem inserted_congr {gaps gaps' : ℕ → List Line} (n : ℕ)
    (h : ∀ j, (gaps' j).length = (gaps j).length) : inserted gaps' 0 n = inserted gaps 0 n := by
  rw [inserted, inserted]
  exact congrArg List.sum (map_congr_left fun i _ => h _)

theorem inserted_insert (gaps : ℕ → List Line) (g : ℕ) (str : Line) (n : ℕ) :
    inserted (update gaps g (gaps g ++ [str])) 0 n =
      inserted gaps 0 n + if g < n then 1 else 0 := by
  induction n with
  | zero => rfl
  | succ n ih =>
    rw [inserted_succ_right, inserted_succ_right, ih]
    by_cases hg : n = g
    · subst hg
      rw [update_self, length_append, length_singleton, if_neg (by omega), if_pos (by omega)]
      omega
    · rw [update_of_ne hg]
      by_cases hlt : g < n
      · rw [if_pos hlt, if_pos (by omega)]
        omega
      · rw [if_neg hlt, if_neg (by omega)]
        omega

theorem inserted_edit {e : Edit} (hfit : e.Fits L context) {n : ℕ} : inserted (a.edit e).gaps 0 n =
      inserted a.gaps 0 n + if insertsBefore n (.edit e) then 1 else 0 := by
  cases e with
  | addNewCodeSnippetAfter targetLine str =>
    have hpos := hfit.1.1
    refine (inserted_insert a.gaps _ str n).trans (congrArg _ (if_congr ?_ rfl rfl))
    rw [insertsBefore, decide_eq_true_iff]
    omega
  | addNewCodeSnippetBefore targetLine str =>
    have hpos := hfit.1.1
    refine (inserted_insert a.gaps _ str n).trans (congrArg _ (if_congr ?_ rfl rfl))
    rw [insertsBefore, decide_eq_true_iff]
    omega
  | replace targetLine str => rfl

/-- **Run lemma**: the map counts what the history has inserted, whatever has been deleted. -/
theorem run_represents (text : List Char) (history : List Op)
    (hfits : FoldMeets (fun c op => op.Fits (getlines text).length c) step (open_file text)
      history) :
    ∃ context a, history.foldlM step (open_file text) = some context ∧
      Represents (getlines text).length context a ∧
      ∀ n : ℕ, 1 ≤ n → inserted a.gaps 0 n = history.countP (insertsBefore n) := by
  obtain ⟨context, hrun, a, hrep, hcount⟩ := foldlM_meets (f := step)
    (P := fun c op => op.Fits (getlines text).length c)
    (I := fun l c => ∃ a, Represents (getlines text).length c a ∧ ∀ n : ℕ, 1 ≤ n →
      inserted a.gaps 0 n + l.countP (insertsBefore n) = history.countP (insertsBefore n))
    (by
      rintro op l c ⟨a, hrep, hcount⟩ hfit
      cases op with
      | edit e =>
        refine ⟨edit c e, rfl, a.edit e, edit_represents hrep hfit, fun n hn => ?_⟩
        rw [inserted_edit hfit, ← hcount n hn, countP_cons]
        omega
      | deleteCodeRange range =>
        obtain ⟨c', a', hc', hrep', hgaps⟩ := hrep.deleteCodeRange hfit
        refine ⟨c', hc', a', hrep', fun n hn => ?_⟩
        rw [inserted_congr n hgaps, ← hcount n hn, countP_cons]
        rfl)
    history (open_file text) ⟨_, represents_open text, fun n _ => by
      have hzero : inserted (fun _ => ([] : List Line)) 0 n = 0 := by simp [inserted]
      rw [hzero, Nat.zero_add]⟩ hfits
  exact ⟨context, a, hrun, hrep, fun n hn => by rw [← hcount n hn]; rfl⟩

/-- **Range deletion is exact** after a history exactly where the range is removable; the number
    and the places of the lines are as the history and the map say. -/
theorem deleteCodeRange_removes_iff (text : List Char) (history : List Op)
    (hfits : FoldMeets (fun c op => op.Fits (getlines text).length c) step (open_file text)
      history) :
    ∃ context, history.foldlM step (open_file text) = some context ∧
      (getlines context.workText).length = position history ((getlines text).length + 1) ∧
      (∀ n : ℤ, 1 ≤ n → lineIndex context n = position history n) ∧
      ∀ range : Range, range.Valid (getlines text).length context →
        (Removes context range (position history range.startLine)
            (position history range.endLine) ↔ range.Removable context) := by
  obtain ⟨context, a, hrun, hrep, hcount⟩ := run_represents text history hfits
  have hposition (n : ℤ) (hn : 1 ≤ n) : lineIndex context n = position history n := by
    obtain ⟨n, rfl⟩ := Int.eq_ofNat_of_zero_le (by omega : 0 ≤ n)
    rw [hrep.lineIndex_eq (by omega), hcount n (by omega), position]
    omega
  refine ⟨context, hrun, ?_, hposition, fun range hvalid => ?_⟩
  · have hlen : (getlines context.workText).length =
        (getlines text).length + inserted a.gaps 0 ((getlines text).length + 1) := by
      rw [hrep.text, Layout.file, length_fileFrom, hrep.length]
    rw [hlen, hcount _ (by omega), position]
    push_cast
    omega
  · obtain ⟨s, d, e, hplaces⟩ := hrep.places hvalid
    have hs := hplaces.startIdx
    have he := hplaces.endIdx
    obtain ⟨⟨hpos, hle, -⟩, -⟩ := id hvalid
    rw [hposition _ hpos] at hs
    rw [hposition _ (by omega)] at he
    rw [hs, he]
    exact hplaces.removes_iff_removable hvalid

/-- The theorem at a file of three lines with a snippet after the first: from the second column of
    the second line up to the end of the third. -/
theorem deleteCodeRange_removes_threeLines :
    ∃ context, [.edit (.addNewCodeSnippetAfter 1 ['x'])].foldlM step
        (open_file ['a', '\n', 'b', 'c', '\n', 'd', '\n']) = some context ∧
      Removes context ⟨2, 2, 3, 2⟩ 2 3 := by
  obtain ⟨context, hrun, -, -, hiff⟩ := deleteCodeRange_removes_iff
    ['a', '\n', 'b', 'c', '\n', 'd', '\n'] [.edit (.addNewCodeSnippetAfter 1 ['x'])] (by decide)
  obtain rfl : context = ⟨['a', '\n', 'x', '\n', 'b', 'c', '\n', 'd', '\n'], [(1, 1)]⟩ :=
    mem_unique hrun rfl
  refine ⟨_, hrun, (hiff ⟨2, 2, 3, 2⟩ (by decide)).mpr ⟨by decide, ?_⟩⟩
  rw [if_pos (by decide), Range.ToEnd]
  decide

/-- Of three characters the first is to be deleted, and the second goes too; then the second, and
    the third goes too. -/
theorem deleteCodeRange_removes_more :
    (deleteCodeRange (open_file ['a', 'b', 'c', '\n']) ⟨1, 1, 1, 2⟩).map
        ReadWriteContext.workText = some ['c', '\n'] ∧
      ¬ Removes (open_file ['a', 'b', 'c', '\n']) ⟨1, 1, 1, 2⟩ 0 0 ∧
      (deleteCodeRange (open_file ['a', 'b', 'c', '\n']) ⟨1, 2, 1, 3⟩).map
        ReadWriteContext.workText = some ['a', '\n'] ∧
      ¬ Removes (open_file ['a', 'b', 'c', '\n']) ⟨1, 2, 1, 3⟩ 0 0 := by
  refine ⟨by decide, fun h => ?_, by decide, fun h => ?_⟩
  · cases congrArg (Option.map ReadWriteContext.workText) h
  · cases congrArg (Option.map ReadWriteContext.workText) h

end SvfSyn
