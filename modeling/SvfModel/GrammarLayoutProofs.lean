import SvfModel.GrammarBuilderProofs
import SvfModel.TextProofs

/-!
# Grammar files and their white space

`GrammarBuilder::parseProductionsString` trims the lines of a grammar file, takes the start
symbol from the second and the terminals from the fourth, puts all lines one behind the other
and keeps what stands behind `Productions:`. `loadWordProductions` cuts this at each `;`, and
`build` cuts a production at `->` and its right-hand side at each blank.

A `Layout` is a file with the tokens of a grammar. `Tidy` says where its white space has to be
for the parser to read these tokens, and no others: no line is blank, the headers and what
belongs to them stand on lines of their own, and between two symbols that are read in a row
there is one blank when the lines are trimmed. Trimming leaves as much white space behind a line
as there was in front of it.
-/

namespace SvfGrammarBuilder

open SvfCFGrammar SvfCFGNormalizer SvfText List Option

-- ── The parser

/-- `stripSpace`: what `\s*(\S*)\s*` has in its group, the first word. -/
def stripSpace (s : List Char) : List Char := (s.dropWhile isSpace).takeWhile fun c => !isSpace c

/-- `substr(find_first_not_of(WHITESPACE), find_last_not_of(WHITESPACE) + 1)`: the second number
    is a length. On a blank line the first is `npos`, and `substr` throws. -/
def trimLine (lineString : List Char) : Option (List Char) :=
  let first := (lineString.takeWhile isSpace).length
  let last := lineString.length - (lineString.reverse.takeWhile isSpace).length
  if first = lineString.length then none else some ((lineString.drop first).take last)

/-- The strings that the loop over the lines fills. -/
structure Scan where
  startString : List Char
  symbolString : List Char
  lines : List Char

def scanLines : Scan → ℕ → List Line → Option Scan
  | s, _, [] => some s
  | s, lineNum, lineString :: rest =>
    (trimLine lineString).bind fun trimmed =>
      scanLines
        { startString := if lineNum = 1 then stripSpace lineString else s.startString
          symbolString := if lineNum = 3 then trimmed else s.symbolString
          lines := s.lines ++ trimmed } (lineNum + 1) rest

def behind (key : List Char) : List Char → List (List Char)
  | [] => []
  | c :: cs =>
    if key.isPrefixOf (c :: cs) then (c :: cs).drop key.length :: behind key cs
    else behind key cs

/-- What `.` matches. -/
def isDot (c : Char) : Bool := c != '\n' && c != '\r'

/-- The third group of `Start:([\s\S]*)Terminal:(.*)Productions:([\s\S]*)`: at the first `Start:`
    where there is a match, the last `Terminal:` and behind it the last `Productions:`. -/
def matchProductions (lines : List Char) : Option (List Char) :=
  (behind "Start:".toList lines).findSome? fun s =>
    (behind "Terminal:".toList s).reverse.findSome? fun t =>
      ((behind "Productions:".toList t).filter fun p =>
        (t.take (t.length - p.length - "Productions:".toList.length)).all isDot).getLast?

/-- The words of the line of symbols: it is cut at each blank, and all but the last are stripped. -/
def symbolWords (symbolString : List Char) : List (List Char) :=
  (symbolString.splitOn ' ').dropLast.map stripSpace ++ (symbolString.splitOn ' ').getLast?.toList

def loadWordProductions (lines : List Char) : List (List Char) := (lines.splitOn ';').dropLast

/-- The words that `build` inserts for a production, the left-hand side first; `none` without an
    arrow. -/
def productionWords (wordProd : List Char) : Option (List (List Char)) :=
  (find "->".toList wordProd).map fun pos =>
    stripSpace (wordProd.take pos) ::
      (((wordProd.drop (pos + 2)).dropWhile isSpace).takeWhile isDot).splitOn ' '

structure FileWords where
  symbols : List (List Char)
  start : List Char
  productions : List (List (List Char))

def readWords (text : List Char) : Option FileWords :=
  (scanLines ⟨[], [], []⟩ 0 (getlines text)).map fun s =>
    { symbols := symbolWords s.symbolString
      start := s.startString
      productions := (loadWordProductions ((matchProductions s.lines).getD s.lines)).filterMap
        productionWords }

/-- The body of the loop over the productions. -/
def insertProduction (g : GrammarBase) (words : List (List Char)) : Option GrammarBase :=
  (insertSymbols g words).bind fun r =>
    r.1.head?.map fun RHSSymbol =>
      { r.2 with
        rawProductions := r.2.rawProductions.insertProd RHSSymbol.2 (r.1.map Prod.snd) }

def insertProductions : GrammarBase → List (List (List Char)) → Option GrammarBase
  | g, [] => some g
  | g, p :: ps => (insertProduction g p).bind fun g => insertProductions g ps

def FileWords.build (w : FileWords) : Option (Symbol × GrammarBase) :=
  (insertSymbols newGrammar w.symbols).bind fun r =>
    (insertSymbol r.2 w.start).bind fun s =>
      (insertTerminalKind s.2 "epsilon").bind fun e =>
        (insertProductions e.2 w.productions).map fun g => (s.1, g)

def buildFile (text : List Char) : Option (Symbol × GrammarBase) :=
  (readWords text).bind FileWords.build

-- ── Files

/-- What a grammar file says. -/
structure GrammarTokens where
  start : List Char
  terminals : List (List Char)
  productions : List (List Char × List (List Char))

def IsWord (w : List Char) : Prop := w ≠ [] ∧ ∀ c ∈ w, isSpace c = false

namespace GrammarTokens

def tokens (G : GrammarTokens) : List (List Char) :=
  "Start:".toList :: G.start :: "Terminal:".toList :: (G.terminals ++ "Productions:".toList ::
    G.productions.flatMap fun p => p.1 :: "->".toList :: (p.2 ++ [[';']]))

/-- What is to be inserted. -/
def words (G : GrammarTokens) : FileWords := ⟨G.terminals, G.start, G.productions.map fun p => p.1 :: p.2⟩

/-- The symbols are words, without the sign that ends a production and, on a left-hand side, the
    arrow. -/
structure WellFormed (G : GrammarTokens) : Prop where
  start : IsWord G.start
  terminals : ∀ w ∈ G.terminals, IsWord w
  heads : ∀ p ∈ G.productions, IsWord p.1 ∧ ';' ∉ p.1 ∧ find "->".toList p.1 = none
  bodies : ∀ p ∈ G.productions, ∀ w ∈ p.2, IsWord w ∧ ';' ∉ w

end GrammarTokens

/-- A token, and the white space behind it on its line. -/
abbrev Piece := List Char × List Char

def spell (pieces : List Piece) : List Char := pieces.flatMap fun p => p.1 ++ p.2

structure FileLine where
  indent : List Char
  pieces : List Piece

namespace FileLine

def text (l : FileLine) : Line := l.indent ++ spell l.pieces

def tokens (l : FileLine) : List (List Char) := l.pieces.map Prod.fst

/-- What trimming leaves of the line: behind the last token at most as much as in front of the
    first. -/
def kept (l : FileLine) : List Piece :=
  l.pieces.dropLast ++ l.pieces.getLast?.toList.map fun p => (p.1, p.2.take l.indent.length)

end FileLine

structure GrammarFile where
  lines : List FileLine
  ended : Bool

def joinLines : List Line → List Char
  | [] => []
  | [l] => l
  | l :: ls => l ++ '\n' :: joinLines ls

def GrammarFile.text (f : GrammarFile) : List Char :=
  joinLines (f.lines.map FileLine.text) ++ if f.ended then ['\n'] else []

/-- White space that does not end the line. -/
def IsGap (s : List Char) : Prop := ∀ c ∈ s, isSpace c = true ∧ c ≠ '\n'

/-- The file has the tokens of the grammar, with any white space between them, and some between
    two words. -/
structure Layout (G : GrammarTokens) (f : GrammarFile) : Prop where
  tokens : f.lines.flatMap FileLine.tokens = G.tokens
  gaps : ∀ l ∈ f.lines, IsGap l.indent ∧ ∀ p ∈ l.pieces, IsGap p.2
  apart : ∀ l ∈ f.lines, l.pieces.IsChain fun p q => p.2 = [] →
    p.1 ∈ ["->".toList, [';']] ∨ q.1 ∈ ["->".toList, [';']]

/-- One blank, perhaps with other white space around it: the words of the line of symbols are
    stripped, but for the last one. -/
def TidySymbols : List Piece → Prop
  | [] => False
  | [p] => p.2 = []
  | p :: q :: ps => p.2.count ' ' = 1 ∧ '\r' ∉ p.2 ∧ (ps = [] → p.2.getLast? = some ' ') ∧
      TidySymbols (q :: ps)

/-- One blank, and none behind the last symbol. -/
def TidyBody : List Piece → Prop
  | [] => False
  | [p] => ∀ c, p.2.head? = some c → c = '\r'
  | p :: ps => p.2 = [' '] ∧ TidyBody ps

/-- A production in the trimmed text. -/
structure ProductionPieces where
  head : Piece
  arrow : List Char
  body : List Piece
  semicolon : List Char

def ProductionPieces.pieces (b : ProductionPieces) : List Piece :=
  b.head :: ("->".toList, b.arrow) :: (b.body ++ [([';'], b.semicolon)])

def ProductionPieces.words (b : ProductionPieces) : List Char × List (List Char) :=
  (b.head.1, b.body.map Prod.fst)

/-- Where the white space has to be. -/
structure Tidy (G : GrammarTokens) (f : GrammarFile) : Prop where
  nonblank : ∀ l ∈ f.lines, l.pieces ≠ []
  spaced : ∃ l₀ l₁ l₂ l₃ ls, f.lines = l₀ :: l₁ :: l₂ :: l₃ :: ls ∧
    l₀.tokens = ["Start:".toList] ∧ l₁.tokens = [G.start] ∧ l₂.tokens = ["Terminal:".toList] ∧
    (∀ p ∈ l₂.kept, '\r' ∉ p.2) ∧ l₃.tokens = G.terminals ∧ TidySymbols l₃.kept ∧
    ∃ (k : List Char) (bodies : List ProductionPieces),
      ls.flatMap FileLine.kept =
        ("Productions:".toList, k) :: bodies.flatMap ProductionPieces.pieces ∧
      bodies.map ProductionPieces.words = G.productions ∧ ∀ b ∈ bodies, TidyBody b.body
  once : (behind "Productions:".toList (spell (f.lines.flatMap FileLine.kept))).length = 1

-- ── Words in a text

theorem spell_cons (p : Piece) (ps : List Piece) : spell (p :: ps) = p.1 ++ (p.2 ++ spell ps) := by
  rw [spell, flatMap_cons, append_assoc]
  rfl

theorem spell_append (ps qs : List Piece) : spell (ps ++ qs) = spell ps ++ spell qs :=
  flatMap_append

theorem notMem_of_space {c : Char} (hc : isSpace c = false) {gap : List Char}
    (h : ∀ x ∈ gap, isSpace x) : c ∉ gap := fun hmem =>
  absurd (hc.symm.trans (h c hmem)) Bool.false_ne_true

namespace IsWord

variable {w : List Char}

section

variable (h : IsWord w)
include h

theorem notMem {c : Char} (hc : isSpace c) : c ∉ w := fun hmem =>
  absurd ((h.2 c hmem).symm.trans hc) Bool.false_ne_true

theorem head : ∃ c cs, w = c :: cs ∧ isSpace c = false := by
  obtain ⟨c, cs, rfl⟩ := exists_cons_of_ne_nil h.1
  exact ⟨c, cs, rfl, h.2 c mem_cons_self⟩

theorem last : ∃ c cs, w = cs ++ [c] ∧ isSpace c = false := by
  rcases eq_nil_or_concat w with he | ⟨cs, c, he⟩
  · exact absurd he h.1
  · rw [concat_eq_append] at he
    exact ⟨c, cs, he, h.2 c (he ▸ mem_append_right cs mem_cons_self)⟩

theorem isDot : ∀ c ∈ w, SvfGrammarBuilder.isDot c := by
  intro c hc
  have hn : c ≠ '\n' := fun he => h.notMem rfl (he ▸ hc)
  have hr : c ≠ '\r' := fun he => h.notMem rfl (he ▸ hc)
  rw [SvfGrammarBuilder.isDot, bne_iff_ne.mpr hn, bne_iff_ne.mpr hr]
  rfl

theorem strip {front back : List Char} (hf : ∀ c ∈ front, isSpace c)
    (hb : ∀ c ∈ back, isSpace c) : stripSpace (front ++ (w ++ back)) = w := by
  obtain ⟨c, cs, hw, hc⟩ := h.head
  have hdrop : (w ++ back).dropWhile isSpace = w ++ back := by
    rw [hw, cons_append, dropWhile_cons_of_neg (Bool.eq_false_iff.mp hc)]
  have hback : (back.takeWhile fun c => !isSpace c) = [] := by
    cases back with
    | nil => rfl
    | cons d ds => exact takeWhile_cons_of_neg (by simp [hb d mem_cons_self])
  rw [stripSpace, dropWhile_append_of_pos hf, hdrop,
    takeWhile_append_of_pos (fun c hc => by simp [h.2 c hc]), hback, append_nil]

end

end IsWord

theorem trimLine_append {front core back : List Char} (hf : ∀ c ∈ front, isSpace c)
    (hb : ∀ c ∈ back, isSpace c) (hhead : ∃ c cs, core = c :: cs ∧ isSpace c = false)
    (hlast : ∃ c cs, core = cs ++ [c] ∧ isSpace c = false) :
    trimLine (front ++ (core ++ back)) = some (core ++ back.take front.length) := by
  have hfirst : (front ++ (core ++ back)).takeWhile isSpace = front := by
    obtain ⟨c, cs, rfl, hc⟩ := hhead
    rw [takeWhile_append_of_pos hf, cons_append,
      takeWhile_cons_of_neg (Bool.eq_false_iff.mp hc), append_nil]
  have hend : (front ++ (core ++ back)).reverse.takeWhile isSpace = back.reverse := by
    obtain ⟨c, cs, rfl, hc⟩ := hlast
    have hb' : ∀ c ∈ back.reverse, isSpace c := fun c hc => hb c (mem_reverse.mp hc)
    simp only [reverse_append, append_assoc, reverse_singleton]
    rw [takeWhile_append_of_pos hb', singleton_append,
      takeWhile_cons_of_neg (Bool.eq_false_iff.mp hc), append_nil]
  have hpos : 0 < core.length := by
    obtain ⟨c, cs, rfl, -⟩ := hhead
    exact Nat.succ_pos _
  have hlen : (front ++ (core ++ back)).length = core.length + front.length + back.length := by
    simp only [length_append]
    omega
  rw [trimLine]
  simp only [hfirst, hend, length_reverse, drop_left]
  rw [hlen, if_neg (by omega), Nat.add_sub_cancel, take_length_add_append]

theorem getlines_joinLines {ls : List Line} (hne : ls ≠ []) (h : ∀ l ∈ ls, l ≠ [] ∧ '\n' ∉ l)
    (ended : Bool) : getlines (joinLines ls ++ if ended then ['\n'] else []) = ls := by
  induction ls with
  | nil => exact absurd rfl hne
  | cons l ls ih =>
    obtain ⟨hl, hn⟩ := h l mem_cons_self
    cases ls with
    | nil =>
      cases ended with
      | true => exact getlines_append_newline l hn []
      | false => exact (congrArg getlines (append_nil l)).trans (getlines_unended hl hn)
    | cons l' ls =>
      rw [joinLines, append_assoc, cons_append, getlines_append_newline l hn,
        ih (cons_ne_nil l' ls) fun x hx => h x (mem_cons_of_mem l hx)]
      exact cons_ne_nil l' ls

-- ── Lines

/-- The tokens of the pieces are words, and what is behind them is white space. -/
def Proper (ps : List Piece) : Prop := ∀ p ∈ ps, IsWord p.1 ∧ IsGap p.2

theorem IsGap.space {gap : List Char} (h : IsGap gap) : ∀ c ∈ gap, isSpace c :=
  fun c hc => (h c hc).1

theorem Proper.tail {p : Piece} {ps : List Piece} (h : Proper (p :: ps)) : Proper ps :=
  (forall_mem_cons.mp h).2

theorem Proper.left {ps qs : List Piece} (h : Proper (ps ++ qs)) : Proper ps :=
  fun q hq => h q (mem_append_left qs hq)

theorem Proper.right {ps qs : List Piece} (h : Proper (ps ++ qs)) : Proper qs :=
  fun q hq => h q (mem_append_right ps hq)

theorem newline_notMem_spell {ps : List Piece} (h : Proper ps) : '\n' ∉ spell ps := by
  intro hmem
  obtain ⟨p, hp, hc⟩ := mem_flatMap.mp hmem
  rcases mem_append.mp hc with hc | hc
  · exact (h p hp).1.notMem rfl hc
  · exact ((h p hp).2 _ hc).2 rfl

namespace FileLine

variable {l : FileLine}

theorem tokens_kept (l : FileLine) : l.kept.map Prod.fst = l.tokens := by
  rcases eq_nil_or_concat l.pieces with he | ⟨init, p, he⟩
  · rw [kept, tokens, he]
    rfl
  · rw [kept, tokens, he]
    simp

theorem proper_kept (h : Proper l.pieces) : Proper l.kept := by
  intro p hp
  rcases mem_append.mp hp with hp | hp
  · exact h p (mem_of_mem_dropLast hp)
  · obtain ⟨q, hq, rfl⟩ := mem_map.mp hp
    obtain ⟨hw, hg⟩ := h q (mem_of_getLast? (mem_toList.mp hq))
    exact ⟨hw, fun c hc => hg c (mem_of_mem_take hc)⟩

/-- **Trimming.** -/
theorem trimLine_text (hne : l.pieces ≠ []) (hi : IsGap l.indent) (h : Proper l.pieces) :
    trimLine l.text = some (spell l.kept) := by
  rcases eq_nil_or_concat l.pieces with he | ⟨init, p, he⟩
  · exact absurd he hne
  · have htext : l.text = l.indent ++ ((spell init ++ p.1) ++ p.2) := by
      rw [text, he, concat_eq_append, spell_append, spell_cons]
      simp [spell]
    have hkept : spell l.kept = (spell init ++ p.1) ++ p.2.take l.indent.length := by
      rw [kept, he]
      simp [spell]
    rw [he, concat_eq_append] at h
    obtain ⟨hp, hg⟩ := h p (mem_append_right init mem_cons_self)
    rw [htext, hkept]
    refine trimLine_append hi.space hg.space ?_ ?_
    · cases init with
      | nil => exact hp.head
      | cons q init =>
        obtain ⟨c, cs, hq, hc⟩ := (h q mem_cons_self).1.head
        rw [spell_cons, hq]
        exact ⟨c, _, rfl, hc⟩
    · obtain ⟨c, cs, hq, hc⟩ := hp.last
      exact ⟨c, spell init ++ cs, by rw [hq, append_assoc], hc⟩

theorem text_ne_nil (hne : l.pieces ≠ []) (h : Proper l.pieces) : l.text ≠ [] := by
  obtain ⟨p, ps, he⟩ := exists_cons_of_ne_nil hne
  have hp := (h p (he ▸ mem_cons_self)).1.1
  rw [text, he, spell_cons]
  simp [hp]

theorem newline_notMem_text (hi : IsGap l.indent) (h : Proper l.pieces) : '\n' ∉ l.text := by
  intro hmem
  rcases mem_append.mp hmem with hmem | hmem
  · exact (hi _ hmem).2 rfl
  · exact newline_notMem_spell h hmem

end FileLine

theorem scanLines_rest {ls : List FileLine}
    (h : ∀ l ∈ ls, trimLine l.text = some (spell l.kept)) : ∀ (s : Scan) {n : ℕ}, 3 < n →
      scanLines s n (ls.map FileLine.text) =
        some { s with lines := s.lines ++ spell (ls.flatMap FileLine.kept) } := by
  induction ls with
  | nil =>
    intro s n _
    show some s = some { s with lines := s.lines ++ [] }
    rw [append_nil]
  | cons l ls ih =>
    intro s n hn
    rw [map_cons, scanLines, h l mem_cons_self, bind_some, if_neg (by omega), if_neg (by omega),
      ih (forall_mem_cons.mp h).2 _ (by omega), flatMap_cons, spell_append,
      append_assoc]

theorem scanLines_file {l0 l1 l2 l3 : FileLine} {ls : List FileLine}
    (h : ∀ l ∈ l0 :: l1 :: l2 :: l3 :: ls, trimLine l.text = some (spell l.kept)) :
    scanLines ⟨[], [], []⟩ 0 ((l0 :: l1 :: l2 :: l3 :: ls).map FileLine.text) =
      some ⟨stripSpace l1.text, spell l3.kept,
        spell ((l0 :: l1 :: l2 :: l3 :: ls).flatMap FileLine.kept)⟩ := by
  have hrest : ∀ l ∈ ls, trimLine l.text = some (spell l.kept) := fun l hl => h l (by simp [hl])
  have h0 := h l0 (by simp)
  have h1 := h l1 (by simp)
  have h2 := h l2 (by simp)
  have h3 := h l3 (by simp)
  simp only [map_cons, scanLines, h0, h1, h2, h3, bind_some]
  rw [scanLines_rest hrest _ (by omega)]
  simp only [flatMap_cons, spell_append, append_assoc, nil_append]
  rfl

-- ── The line of symbols

variable {gap : List Char} {G : GrammarTokens} {g g' : GrammarBase}

theorem symbolWords_cons {x : List Char} (hx : ' ' ∉ x) (s : List Char) :
    symbolWords (x ++ ' ' :: s) = stripSpace x :: symbolWords s := by
  rw [symbolWords, splitOn_append_cons_self_of_not_mem hx,
    dropLast_cons_of_ne_nil (splitOn_ne_nil ' ' s), map_cons, cons_append]
  obtain ⟨y, ys, hs⟩ := exists_cons_of_ne_nil (splitOn_ne_nil ' ' s)
  rw [symbolWords, hs, getLast?_cons_cons]

theorem cut_of_count (h : gap.count ' ' = 1) :
    ∃ g1 g2, gap = g1 ++ ' ' :: g2 ∧ ' ' ∉ g1 ∧ ' ' ∉ g2 := by
  have hmem : ' ' ∈ gap := count_pos_iff.mp (h ▸ Nat.one_pos)
  obtain ⟨g1, g2, rfl, h1⟩ := eq_append_cons_of_mem hmem
  refine ⟨g1, g2, rfl, h1, count_eq_zero.mp ?_⟩
  rw [count_append, count_cons_self] at h
  omega

/-- **The terminals.** White space in front of a word is what was left of a gap behind its
    blank, and there is none in front of the last word. -/
theorem symbolWords_spell : ∀ (ps : List Piece), TidySymbols ps → Proper ps →
    ∀ front : List Char, (∀ c ∈ front, isSpace c) → ' ' ∉ front →
      (ps.length = 1 → front = []) → symbolWords (front ++ spell ps) = ps.map Prod.fst := by
  intro ps
  induction ps with
  | nil => exact fun h => absurd h id
  | cons p ps ih =>
    intro h hp front hf hblank hlast
    obtain ⟨hw, hg⟩ := hp p mem_cons_self
    cases ps with
    | nil =>
      have hgap : p.2 = [] := h
      have htext : front ++ spell [p] = p.1 := by
        rw [hlast rfl, spell_cons, hgap]
        exact append_nil p.1
      rw [htext, symbolWords, splitOn_eq_singleton (hw.notMem rfl)]
      rfl
    | cons q ps =>
      obtain ⟨hcount, -, hend, htidy⟩ := h
      obtain ⟨g1, g2, hcut, h1, h2⟩ := cut_of_count hcount
      have hs : ∀ c ∈ g1 ++ ' ' :: g2, isSpace c := hcut ▸ hg.space
      have hx : ' ' ∉ front ++ (p.1 ++ g1) := by
        simp only [mem_append, not_or]
        exact ⟨hblank, hw.notMem rfl, h1⟩
      have htext : front ++ spell (p :: q :: ps) =
          (front ++ (p.1 ++ g1)) ++ ' ' :: (g2 ++ spell (q :: ps)) := by
        rw [spell_cons, hcut]
        simp only [append_assoc, cons_append]
      rw [htext, symbolWords_cons hx, hw.strip hf fun c hc => hs c (mem_append_left _ hc),
        ih htidy hp.tail g2 (fun c hc => hs c (by simp [hc])) h2 ?_]
      · rfl
      · intro hone
        have hnil : ps = [] := length_eq_zero_iff.mp (Nat.succ.inj hone)
        by_contra hne
        have hlast : g2.getLast? = some ' ' := by
          have := hend hnil
          rwa [hcut, getLast?_append_of_ne_nil _ (cons_ne_nil ' ' g2),
            getLast?_cons_of_ne_nil hne] at this
        exact h2 (mem_of_getLast? hlast)

-- ── The sections

theorem mem_behind {key : List Char} (hk : key ≠ []) {s r : List Char} :
    r ∈ behind key s ↔ ∃ p, s = p ++ (key ++ r) := by
  induction s with
  | nil =>
    refine ⟨nofun, fun ⟨p, h⟩ => ?_⟩
    exact absurd (append_eq_nil_iff.mp (append_eq_nil_iff.mp h.symm).2).1 hk
  | cons c cs ih =>
    have hbehind : r ∈ behind key (c :: cs) ↔ c :: cs = key ++ r ∨ r ∈ behind key cs := by
      rw [behind]
      split_ifs with hpre
      · obtain ⟨t, ht⟩ := isPrefixOf_iff_prefix.mp hpre
        rw [mem_cons, ← ht, drop_left, append_cancel_left_eq, eq_comm]
      · refine (or_iff_right fun he => hpre ?_).symm
        exact isPrefixOf_iff_prefix.mpr ⟨r, he.symm⟩
    rw [hbehind, ih]
    constructor
    · rintro (he | ⟨p, rfl⟩)
      · exact ⟨[], he⟩
      · exact ⟨c :: p, rfl⟩
    · rintro ⟨_ | ⟨d, p⟩, he⟩
      · exact .inl he
      · obtain ⟨-, he⟩ := List.cons.inj he
        exact .inr ⟨p, he⟩

/-- **The third group** is what is behind `Productions:`, if this stands in the text once and the
    other two headers in front of it. -/
theorem matchProductions_eq {lines a s b t m x : List Char}
    (hs : lines = a ++ ("Start:".toList ++ s)) (ht : s = b ++ ("Terminal:".toList ++ t))
    (hm : t = m ++ ("Productions:".toList ++ x)) (hdot : ∀ c ∈ m, isDot c)
    (honce : (behind "Productions:".toList lines).length = 1) : matchProductions lines = some x := by
  subst hs
  have hkey : ∀ key ∈ ["Start:".toList, "Terminal:".toList, "Productions:".toList], key ≠ [] := by
    decide
  have hmem : ∀ y, (∃ p, a ++ ("Start:".toList ++ s) = p ++ ("Productions:".toList ++ y)) →
      y = x := by
    intro y hy
    obtain ⟨z, hz⟩ := length_eq_one_iff.mp honce
    have hx : x ∈ [z] := by
      rw [← hz, mem_behind (hkey _ (by simp))]
      exact ⟨a ++ ("Start:".toList ++ (b ++ ("Terminal:".toList ++ m))), by simp [ht, hm]⟩
    have hy : y ∈ [z] := by
      rw [← hz, mem_behind (hkey _ (by simp))]
      exact hy
    rw [mem_singleton.mp hx, mem_singleton.mp hy]
  cases hres : matchProductions (a ++ ("Start:".toList ++ s)) with
  | some y =>
    obtain ⟨s', hs', hres⟩ := exists_of_findSome?_eq_some hres
    obtain ⟨t', ht', hres⟩ := exists_of_findSome?_eq_some hres
    have hy := mem_of_mem_filter (mem_of_getLast? hres)
    obtain ⟨p, hp⟩ := (mem_behind (hkey _ (by simp))).mp hs'
    obtain ⟨q, hq⟩ := (mem_behind (hkey _ (by simp))).mp (mem_reverse.mp ht')
    obtain ⟨r, hr⟩ := (mem_behind (hkey _ (by simp))).mp hy
    refine congrArg some (hmem y ⟨p ++ ("Start:".toList ++ (q ++ ("Terminal:".toList ++ r))), ?_⟩)
    rw [hp, hq, hr]
    simp only [append_assoc]
  | none =>
    have hs' := findSome?_eq_none_iff.mp hres s ((mem_behind (hkey _ (by simp))).mpr ⟨a, rfl⟩)
    have ht' := findSome?_eq_none_iff.mp hs' t
      (mem_reverse.mpr ((mem_behind (hkey _ (by simp))).mpr ⟨b, ht⟩))
    have hx : x ∈ (behind "Productions:".toList t).filter fun p =>
        (t.take (t.length - p.length - "Productions:".toList.length)).all isDot := by
      refine mem_filter.mpr ⟨(mem_behind (hkey _ (by simp))).mpr ⟨m, hm⟩, ?_⟩
      have hlen : t.length - x.length - "Productions:".toList.length = m.length := by
        rw [hm, length_append, length_append]
        omega
      rw [hlen, hm, take_left]
      exact all_eq_true.mpr hdot
    rw [getLast?_eq_none_iff.mp ht'] at hx
    cases hx

-- ── The productions

theorem find_arrow {w gap : List Char} (hw : find "->".toList w = none)
    (hg : ∀ c ∈ gap, isSpace c) (rest : List Char) :
    find "->".toList (w ++ (gap ++ ("->".toList ++ rest))) = some (w ++ gap).length := by
  have hgap : '>' ∉ gap := notMem_of_space rfl hg
  rw [show "->".toList = ['-', '>'] from rfl] at hw ⊢
  induction w with
  | nil => exact find_found '>' (by decide) hgap rest
  | cons c w ih =>
    have hpre : ¬ ['-', '>'] <+: c :: w := by
      intro h
      rw [find, if_pos (List.isPrefixOf_iff_prefix.mpr h)] at hw
      cases hw
    have hnext : ¬ ['-', '>'] <+: c :: (w ++ (gap ++ (['-', '>'] ++ rest))) := by
      intro h
      obtain ⟨rfl, htail⟩ := cons_prefix_cons.mp h
      cases w with
      | cons d w =>
        obtain ⟨rfl, -⟩ := cons_prefix_cons.mp htail
        exact hpre ⟨w, rfl⟩
      | nil =>
        cases gap with
        | cons d gap =>
          obtain ⟨rfl, -⟩ := cons_prefix_cons.mp htail
          exact hgap mem_cons_self
        | nil => exact absurd (cons_prefix_cons.mp htail).1 (by decide)
    rw [find_step hpre, map_eq_none_iff] at hw
    rw [cons_append, find_step hnext, ih hw]
    rfl

theorem takeWhile_isDot {w : List Char} (hw : ∀ c ∈ w, isDot c)
    (hg : ∀ c, gap.head? = some c → c = '\r') : (w ++ gap).takeWhile isDot = w := by
  rw [takeWhile_append_of_pos hw]
  cases gap with
  | nil => exact append_nil w
  | cons c gap =>
    rw [hg c rfl, takeWhile_cons_of_neg (by decide), append_nil]

theorem bodyWords_spell : ∀ (ps : List Piece), TidyBody ps → Proper ps →
    ((spell ps).takeWhile isDot).splitOn ' ' = ps.map Prod.fst := by
  intro ps
  induction ps with
  | nil => exact fun h => absurd h id
  | cons p ps ih =>
    intro h hp
    obtain ⟨hw, -⟩ := hp p mem_cons_self
    cases ps with
    | nil =>
      have htext : spell [p] = p.1 ++ p.2 := by simp [spell]
      rw [htext, takeWhile_isDot hw.isDot h, splitOn_eq_singleton (hw.notMem rfl)]
      rfl
    | cons q ps =>
      obtain ⟨hgap, htidy⟩ := h
      have htext : spell (p :: q :: ps) = p.1 ++ ' ' :: spell (q :: ps) := by
        rw [spell_cons, hgap]
        rfl
      rw [htext, takeWhile_append_of_pos hw.isDot, takeWhile_cons_of_pos (by decide),
        splitOn_append_cons_self_of_not_mem (hw.notMem rfl), ih htidy hp.tail]
      rfl

theorem productionWords_spell {b : ProductionPieces} (hb : TidyBody b.body) (hp : Proper b.pieces)
    (harrow : find "->".toList b.head.1 = none) {front : List Char}
    (hf : ∀ c ∈ front, isSpace c) :
    productionWords (front ++ (b.head.1 ++ (b.head.2 ++ ("->".toList ++ (b.arrow ++ spell b.body))))) =
      some (b.head.1 :: b.body.map Prod.fst) := by
  obtain ⟨hhead, hgap⟩ := hp b.head mem_cons_self
  have hbody : Proper b.body := hp.tail.tail.left
  have hskip : ∀ rest, find "->".toList (front ++ rest) =
      (find "->".toList rest).map (· + front.length) := fun rest =>
    find_skip [] '-' ['>'] front (notMem_of_space rfl hf) not_mem_nil
  have hpos : find "->".toList
      (front ++ (b.head.1 ++ (b.head.2 ++ ("->".toList ++ (b.arrow ++ spell b.body))))) =
        some (front ++ (b.head.1 ++ b.head.2)).length := by
    rw [hskip, find_arrow harrow hgap.space, map_some, Nat.add_comm, ← length_append]
  have htext : front ++ (b.head.1 ++ (b.head.2 ++ ("->".toList ++ (b.arrow ++ spell b.body)))) =
      (front ++ (b.head.1 ++ b.head.2)) ++ ("->".toList ++ (b.arrow ++ spell b.body)) := by
    simp only [append_assoc]
  have hdrop : (b.arrow ++ spell b.body).dropWhile isSpace = spell b.body := by
    rw [dropWhile_append_of_pos (hp.tail _ mem_cons_self).2.space]
    cases hps : b.body with
    | nil => rfl
    | cons p ps =>
      obtain ⟨c, cs, hw, hc⟩ := (hbody p (hps ▸ mem_cons_self)).1.head
      rw [spell_cons, hw, cons_append, dropWhile_cons_of_neg (Bool.eq_false_iff.mp hc)]
  rw [productionWords, hpos, map_some, htext, take_left, hhead.strip hf hgap.space,
    drop_length_add_append]
  show some (_ :: List.splitOn ' ' (List.takeWhile isDot
    ((b.arrow ++ spell b.body).dropWhile isSpace))) = _
  rw [hdrop, bodyWords_spell _ hb hbody]

/-- **The productions**, one after the other; in front of the first is what is left behind the
    header. -/
theorem productions_spell : ∀ (bodies : List ProductionPieces),
    (∀ b ∈ bodies, TidyBody b.body ∧ Proper b.pieces ∧ find "->".toList b.head.1 = none ∧
      ';' ∉ b.head.1 ∧ ∀ p ∈ b.body, ';' ∉ p.1) →
    ∀ front : List Char, (∀ c ∈ front, isSpace c) →
      (loadWordProductions (front ++ spell (bodies.flatMap ProductionPieces.pieces))).filterMap
        productionWords = bodies.map fun b => b.head.1 :: b.body.map Prod.fst := by
  intro bodies
  induction bodies with
  | nil =>
    intro _ front hf
    have hfront : front ++ spell ([].flatMap ProductionPieces.pieces) = front := append_nil front
    rw [hfront, loadWordProductions, splitOn_eq_singleton (notMem_of_space rfl hf)]
    rfl
  | cons b bodies ih =>
    intro h front hf
    obtain ⟨hb, hp, harrow, hhead, hwords⟩ := h b mem_cons_self
    have hspace : ∀ p ∈ b.pieces, ';' ∉ p.2 := fun p hp' => notMem_of_space rfl (hp p hp').2.space
    have hbody : ';' ∉ spell b.body := by
      intro hmem
      obtain ⟨p, hp', hc⟩ := mem_flatMap.mp hmem
      rcases mem_append.mp hc with hc | hc
      · exact hwords p hp' hc
      · exact hspace p (by simp [ProductionPieces.pieces, hp']) hc
    have hx : ';' ∉ front ++
        (b.head.1 ++ (b.head.2 ++ ("->".toList ++ (b.arrow ++ spell b.body)))) := by
      have harr : ';' ∉ "->".toList := by decide
      have hga := hspace b.head mem_cons_self
      have hgb := hspace ("->".toList, b.arrow) (mem_cons_of_mem _ mem_cons_self)
      simp only [mem_append, not_or]
      exact ⟨notMem_of_space rfl hf, hhead, hga, harr, hgb, hbody⟩
    have htext : front ++ spell ((b :: bodies).flatMap ProductionPieces.pieces) =
        (front ++ (b.head.1 ++ (b.head.2 ++ ("->".toList ++ (b.arrow ++ spell b.body))))) ++
          ';' :: (b.semicolon ++ spell (bodies.flatMap ProductionPieces.pieces)) := by
      rw [flatMap_cons, spell_append, ProductionPieces.pieces, spell_cons, spell_cons, spell_append]
      simp [spell]
    have hlast : Proper [([';'], b.semicolon)] := hp.tail.tail.right
    have hih := ih (forall_mem_cons.mp h).2 b.semicolon (hlast _ mem_cons_self).2.space
    rw [loadWordProductions] at hih ⊢
    rw [htext, splitOn_append_cons_self_of_not_mem hx, dropLast_cons_of_ne_nil (splitOn_ne_nil _ _),
      filterMap_cons_some (productionWords_spell hb hp harrow hf), hih]
    rfl

-- ── A whole file

theorem GrammarTokens.WellFormed.isWord (h : G.WellFormed) : ∀ w ∈ G.tokens, IsWord w := by
  have hkey : ∀ w ∈ ["Start:".toList, "Terminal:".toList, "Productions:".toList, "->".toList, [';']],
      w ≠ [] ∧ ∀ c ∈ w, isSpace c = false := by simp [isSpace]
  intro w hw
  simp only [tokens, mem_cons, mem_append, mem_flatMap, not_mem_nil, or_false] at hw
  rcases hw with rfl | rfl | rfl | hw | rfl | ⟨p, hp, rfl | rfl | hw | rfl⟩
  · exact hkey _ (by simp)
  · exact h.start
  · exact hkey _ (by simp)
  · exact h.terminals w hw
  · exact hkey _ (by simp)
  · exact (h.heads p hp).1
  · exact hkey _ (by simp)
  · exact (h.bodies p hp w hw).1
  · exact hkey _ (by simp)

theorem FileLine.kept_single {l : FileLine} {w : List Char} (h : l.tokens = [w]) :
    ∃ k, l.kept = [(w, k)] := by
  rw [← l.tokens_kept] at h
  obtain ⟨p, hp, rfl⟩ := map_eq_singleton_iff.mp h
  exact ⟨p.2, hp⟩

theorem TidySymbols.noReturn : ∀ {ps : List Piece}, TidySymbols ps → ∀ p ∈ ps, '\r' ∉ p.2
  | [], h, _, _ => absurd h id
  | [p], h, q, hq => by
      rw [mem_singleton.mp hq, show p.2 = [] from h]
      exact not_mem_nil
  | p :: q :: ps, h, x, hx => by
      rcases mem_cons.mp hx with rfl | hx
      · exact h.2.1
      · exact TidySymbols.noReturn h.2.2.2 x hx

/-- Words and white space without a carriage return are matched by `.*`. -/
theorem isDot_spell {ps : List Piece} (h : Proper ps) (hr : ∀ p ∈ ps, '\r' ∉ p.2) :
    ∀ c ∈ spell ps, isDot c := by
  intro c hc
  obtain ⟨p, hp, hc⟩ := mem_flatMap.mp hc
  rcases mem_append.mp hc with hc | hc
  · exact (h p hp).1.isDot c hc
  · have hne : c ≠ '\r' := fun he => hr p hp (he ▸ hc)
    rw [isDot, bne_iff_ne.mpr ((h p hp).2 c hc).2, bne_iff_ne.mpr hne]
    rfl

/-- **A tidy file is read as the tokens it has.** -/
theorem readWords_layout {f : GrammarFile} (hG : G.WellFormed) (hL : Layout G f) (hT : Tidy G f)
    : readWords f.text = some G.words := by
  obtain ⟨l0, l1, l2, l3, ls, hlines, h0, h1, h2, hcr, h3, hsym, k, bodies, hkept, hwords,
    hbodies⟩ := hT.spaced
  have hproper : ∀ l ∈ f.lines, Proper l.pieces := by
    intro l hl p hp
    refine ⟨hG.isWord p.1 ?_, (hL.gaps l hl).2 p hp⟩
    rw [← hL.tokens]
    exact mem_flatMap.mpr ⟨l, hl, mem_map_of_mem hp⟩
  have htrim : ∀ l ∈ f.lines, trimLine l.text = some (spell l.kept) := fun l hl =>
    FileLine.trimLine_text (hT.nonblank l hl) (hL.gaps l hl).1 (hproper l hl)
  have hget : getlines f.text = f.lines.map FileLine.text := by
    refine getlines_joinLines (by simp [hlines]) ?_ f.ended
    intro t ht
    obtain ⟨l, hl, rfl⟩ := mem_map.mp ht
    exact ⟨FileLine.text_ne_nil (hT.nonblank l hl) (hproper l hl),
      FileLine.newline_notMem_text (hL.gaps l hl).1 (hproper l hl)⟩
  obtain ⟨k0, hk0⟩ := FileLine.kept_single h0
  obtain ⟨k1, hk1⟩ := FileLine.kept_single h1
  obtain ⟨k2, hk2⟩ := FileLine.kept_single h2
  have honce := hT.once
  rw [hlines] at htrim hget hproper honce
  have hp1 := hproper l1 (by simp)
  have hp2 := FileLine.proper_kept (hproper l2 (by simp))
  have hp3 := FileLine.proper_kept (hproper l3 (by simp))
  have hps : Proper (ls.flatMap FileLine.kept) := by
    intro p hp
    obtain ⟨l, hl, hp⟩ := mem_flatMap.mp hp
    exact FileLine.proper_kept (hproper l (by simp [hl])) p hp
  -- the second line
  have hstart : stripSpace l1.text = G.start := by
    obtain ⟨p, hp, hfst⟩ := map_eq_singleton_iff.mp h1
    obtain ⟨hw, hg⟩ := hp1 p (hp ▸ mem_cons_self)
    have htext : l1.text = l1.indent ++ (p.1 ++ p.2) := by simp [FileLine.text, hp, spell]
    rw [htext, hw.strip (hL.gaps l1 (by simp [hlines])).1.space hg.space, hfst]
  -- the fourth
  have hsymbols : symbolWords (spell l3.kept) = G.terminals :=
    (symbolWords_spell _ hsym hp3 [] nofun not_mem_nil fun _ => rfl).trans (l3.tokens_kept.trans h3)
  have hmatch : matchProductions (spell ((l0 :: l1 :: l2 :: l3 :: ls).flatMap FileLine.kept)) =
        some (k ++ spell (bodies.flatMap ProductionPieces.pieces)) := by
    refine matchProductions_eq (a := []) (b := k0 ++ (G.start ++ k1))
      (m := spell (l2.kept.map fun p => ([], p.2)) ++ spell l3.kept) ?_ rfl rfl ?_ honce
    · simp [hk0, hk1, hk2, hkept, spell]
    · intro c hc
      rcases mem_append.mp hc with hc | hc
      · have hgap : c ∈ spell l2.kept := by
          rw [hk2] at hc ⊢
          simp only [spell, map_cons, map_nil, flatMap_cons, flatMap_nil,
            nil_append, append_nil] at hc ⊢
          exact mem_append_right _ hc
        exact isDot_spell hp2 hcr c hgap
      · exact isDot_spell hp3 hsym.noReturn c hc
  -- the rest
  have hprods : (loadWordProductions (k ++ spell (bodies.flatMap ProductionPieces.pieces))).filterMap
      productionWords = G.productions.map fun p => p.1 :: p.2 := by
    rw [hkept] at hps
    rw [productions_spell bodies ?_ k (hps _ List.mem_cons_self).2.space, ← hwords, List.map_map]
    · rfl
    · intro b hb
      have hmem : b.words ∈ G.productions := hwords ▸ mem_map_of_mem hb
      obtain ⟨-, hsemi, harrow⟩ := hG.heads _ hmem
      refine ⟨hbodies b hb, ?_, harrow, hsemi, ?_⟩
      · exact fun p hp => hps p (mem_cons_of_mem _ (mem_flatMap.mpr ⟨b, hb, hp⟩))
      · exact fun p hp => (hG.bodies _ hmem p.1 (mem_map_of_mem hp)).2
  rw [readWords, hget, scanLines_file htrim, map_some]
  dsimp only
  rw [hsymbols, hstart, hmatch, getD_some, hprods]
  rfl

-- ── The productions of the grammar

/-- The names keep their numbers, and no production is touched. -/
def Extends (g g' : GrammarBase) : Prop :=
  (∀ table, entries g table ⊆ entries g' table) ∧ g'.rawProductions = g.rawProductions

theorem Extends.trans {g g' g'' : GrammarBase} (h : Extends g g') (h' : Extends g' g'') :
    Extends g g'' :=
  ⟨fun table _ hx => h'.1 table (h.1 table hx), h'.2.trans h.2⟩

theorem insertKind_extends {table : Table} {key : String} {k : ℕ}
    (h : insertKind g table key = some (k, g')) : Extends g g' := by
  rw [insertKind] at h
  split at h
  · obtain ⟨-, rfl⟩ := Prod.mk.inj (some.inj h)
    refine ⟨fun t x hx => (mem_entries_enter g _ t x.1 x.2).mpr (.inr hx), ?_⟩
    cases table <;> rfl
  · obtain ⟨_, _, he⟩ := map_eq_some_iff.mp h
    obtain ⟨-, rfl⟩ := Prod.mk.inj he
    exact ⟨fun _ => .refl _, rfl⟩

theorem insertSymbol_extends {s : List Char} {sym : Symbol} (h : insertSymbol g s = some (sym, g'))
    : Extends g g' := by
  rw [insertSymbol] at h
  split_ifs at h
  · rw [insertEBNFSigns_eq] at h
    obtain ⟨⟨k, g''⟩, hk, he⟩ := map_eq_some_iff.mp h
    obtain ⟨-, rfl⟩ := Prod.mk.inj he
    exact insertKind_extends hk
  · obtain ⟨⟨k, g''⟩, hk, h⟩ := bind_eq_some_iff.mp h
    obtain ⟨_, _, he⟩ := map_eq_some_iff.mp h
    obtain ⟨-, rfl⟩ := Prod.mk.inj he
    exact insertKind_extends ((insertNonterminalKind_eq _).symm.trans hk)
  · obtain ⟨⟨k, g''⟩, hk, h⟩ := bind_eq_some_iff.mp h
    obtain ⟨_, _, he⟩ := map_eq_some_iff.mp h
    obtain ⟨-, rfl⟩ := Prod.mk.inj he
    exact insertKind_extends ((insertTerminalKind_eq _).symm.trans hk)

theorem insertSymbols_extends : ∀ (strs : List (List Char)) {g g' : GrammarBase}
    {r : List (List Char × Symbol)}, insertSymbols g strs = some (r, g') → Extends g g' := by
  intro strs
  induction strs with
  | nil =>
    intro g g' r h
    obtain ⟨-, rfl⟩ := Prod.mk.inj (some.inj h)
    exact ⟨fun _ => .refl _, rfl⟩
  | cons s strs ih =>
    intro g g' r h
    obtain ⟨⟨sym, g1⟩, hs, h⟩ := bind_eq_some_iff.mp h
    obtain ⟨⟨r', g2⟩, hrest, he⟩ := map_eq_some_iff.mp h
    obtain ⟨-, rfl⟩ := Prod.mk.inj he
    exact (insertSymbol_extends hs).trans (ih hrest)

/-- The symbols of the production were given to tokens of the text, with names and numbers that
    are in the grammar. -/
def FromTokens (G : GrammarTokens) (g : GrammarBase) (prod : Production) : Prop :=
  ∃ strs g₁ r g₂, (∀ s ∈ strs, s ∈ G.tokens) ∧ insertSymbols g₁ strs = some (r, g₂) ∧
    prod = r.map Prod.snd ∧ ∀ table, entries g₂ table ⊆ entries g table

/-- No production has a symbol that is not in the text. -/
def OnlyTokens (G : GrammarTokens) (g : GrammarBase) : Prop :=
  ∀ X, ∀ p ∈ g.rawProductions.get X, FromTokens G g p

theorem OnlyTokens.insertProduction {words : List (List Char)} (h : OnlyTokens G g)
    (hwords : ∀ s ∈ words, s ∈ G.tokens) (hs : insertProduction g words = some g')
    : OnlyTokens G g' := by
  obtain ⟨⟨r, g2⟩, hr, hs⟩ := bind_eq_some_iff.mp hs
  obtain ⟨lhs, -, rfl⟩ := map_eq_some_iff.mp hs
  have hext := insertSymbols_extends _ hr
  have htables : ∀ table, entries { g2 with
      rawProductions := g2.rawProductions.insertProd lhs.2 (r.map Prod.snd) } table =
        entries g2 table := fun table => by cases table <;> rfl
  intro X p hp
  rcases (SvfCFGrammar.ProductionMap.mem_get_insertProd _ _ _ X p).mp hp with ⟨-, rfl⟩ | hp
  · exact ⟨words, g, r, g2, hwords, hr, rfl, fun table => (htables table).symm ▸ .refl _⟩
  · rw [hext.2] at hp
    obtain ⟨strs, g3, r', g4, hstrs, hins, hprod, hsub⟩ := h X p hp
    refine ⟨strs, g3, r', g4, hstrs, hins, hprod, fun table => ?_⟩
    rw [htables]
    exact fun x hx => hext.1 table (hsub table hx)

theorem OnlyTokens.insertProductions : ∀ (ps : List (List (List Char))),
    (∀ p ∈ ps, ∀ s ∈ p, s ∈ G.tokens) → ∀ {g g' : GrammarBase}, OnlyTokens G g →
      insertProductions g ps = some g' → OnlyTokens G g' := by
  intro ps
  induction ps with
  | nil =>
    intro _ g g' h hs
    exact some.inj hs ▸ h
  | cons p ps ih =>
    intro hps g g' h hs
    obtain ⟨g1, h1, hs⟩ := bind_eq_some_iff.mp hs
    exact ih (forall_mem_cons.mp hps).2 (h.insertProduction (hps p mem_cons_self) h1) hs

theorem onlyTokens_build {sym : Symbol} {g : GrammarBase} (h : G.words.build = some (sym, g))
    : OnlyTokens G g := by
  obtain ⟨⟨r, g1⟩, h1, h⟩ := bind_eq_some_iff.mp h
  obtain ⟨⟨s, g2⟩, h2, h⟩ := bind_eq_some_iff.mp h
  obtain ⟨⟨k, g3⟩, h3, h⟩ := bind_eq_some_iff.mp h
  obtain ⟨g4, h4, he⟩ := map_eq_some_iff.mp h
  obtain ⟨-, rfl⟩ := Prod.mk.inj he
  have hkind : insertKind g2 .terminal "epsilon" = some (k, g3) := h3
  have hext := ((insertSymbols_extends _ h1).trans (insertSymbol_extends h2)).trans
    (insertKind_extends hkind)
  refine OnlyTokens.insertProductions _ ?_ ?_ h4
  · intro p hp s hs
    obtain ⟨q, hq, rfl⟩ := mem_map.mp hp
    have hmem : s = q.1 ∨ s ∈ q.2 := mem_cons.mp hs
    simp only [GrammarTokens.tokens, mem_cons, mem_append, mem_flatMap]
    refine .inr (.inr (.inr (.inr (.inr ⟨q, hq, ?_⟩))))
    exact hmem.imp_right fun h => .inr (.inl h)
  · intro X p hp
    rw [hext.2] at hp
    cases hp

/-- **White space does not matter** between two tidy files with the same tokens, and no symbol
    gets into a production that is not in the text. -/
theorem buildFile_layout {G : GrammarTokens} (hG : G.WellFormed) {f₁ f₂ : GrammarFile}
    (h₁ : Layout G f₁) (h₂ : Layout G f₂) (t₁ : Tidy G f₁) (t₂ : Tidy G f₂) :
    buildFile f₁.text = buildFile f₂.text ∧
      ∀ sym g, buildFile f₁.text = some (sym, g) → OnlyTokens G g := by
  have hb₁ : buildFile f₁.text = G.words.build := by
    rw [buildFile, readWords_layout hG h₁ t₁, bind_some]
  have hb₂ : buildFile f₂.text = G.words.build := by
    rw [buildFile, readWords_layout hG h₂ t₂, bind_some]
  refine ⟨hb₁.trans hb₂.symm, fun sym g h => ?_⟩
  exact onlyTokens_build (hb₁.symm.trans h)

-- ── Two files

def twice : GrammarTokens := ⟨['V'], [['a']], [(['V'], [['a'], ['a']])]⟩

/-- Its file with the given white space between the two `a`. -/
def twiceFile (gap : List Char) (ended : Bool) : GrammarFile where
  lines := [⟨[], [("Start:".toList, [])]⟩, ⟨[' '], [(['V'], [])]⟩, ⟨[], [("Terminal:".toList, [])]⟩,
    ⟨[' '], [(['a'], [])]⟩, ⟨[], [("Productions:".toList, [])]⟩,
    ⟨[' '], [(['V'], [' ']), ("->".toList, [' ']), (['a'], gap), (['a'], []), ([';'], [])]⟩]
  ended := ended

theorem wellFormed_twice : twice.WellFormed := by
  have ha : IsWord ['a'] := ⟨cons_ne_nil _ _, fun c hc => mem_singleton.mp hc ▸ rfl⟩
  have hV : IsWord ['V'] := ⟨cons_ne_nil _ _, fun c hc => mem_singleton.mp hc ▸ rfl⟩
  constructor <;> simp only [twice, forall_mem_cons, not_mem_nil, false_implies,
    implies_true, and_true]
  case start => exact hV
  case terminals => exact ha
  case heads => exact ⟨hV, by decide, rfl⟩
  case bodies => exact ⟨⟨ha, by decide⟩, ha, by decide⟩

theorem layout_twice (hne : gap ≠ []) (hg : IsGap gap) (ended : Bool) :
    Layout twice (twiceFile gap ended) := by
  have hnil : IsGap [] := nofun
  have hblank : IsGap [' '] := fun c hc => mem_singleton.mp hc ▸ ⟨rfl, by decide⟩
  constructor
  case tokens => rfl
  case gaps =>
    simp only [twiceFile, forall_mem_cons, not_mem_nil, false_implies, implies_true, and_true]
    exact ⟨⟨hnil, hnil⟩, ⟨hblank, hnil⟩, ⟨hnil, hnil⟩, ⟨hblank, hnil⟩, ⟨hnil, hnil⟩, hblank, hblank,
      hblank, hg, hnil, hnil⟩
  case apart => simp [twiceFile, hne]

theorem tidy_twice (ended : Bool) : Tidy twice (twiceFile [' '] ended) := by
  constructor
  case nonblank => simp [twiceFile]
  case spaced =>
    refine ⟨_, _, _, _, _, rfl, rfl, rfl, rfl, by decide, rfl, rfl, [],
      [⟨(['V'], [' ']), [' '], [(['a'], [' ']), (['a'], [])], []⟩], rfl, rfl, ?_⟩
    simp [TidyBody]
  case once => rfl

theorem buildFile_layout_twice :
    buildFile (twiceFile [' '] true).text = buildFile (twiceFile [' '] false).text ∧
      ∀ sym g, buildFile (twiceFile [' '] true).text = some (sym, g) → OnlyTokens twice g := by
  have hgap : IsGap [' '] := fun c hc => mem_singleton.mp hc ▸ ⟨rfl, by decide⟩
  exact buildFile_layout wellFormed_twice (layout_twice (cons_ne_nil _ _) hgap true)
    (layout_twice (cons_ne_nil _ _) hgap false) (tidy_twice true) (tidy_twice false)

/-- A second blank between the two gives the production an empty symbol. -/
theorem buildFile_not_layout : ¬ ∀ (G : GrammarTokens) (f₁ f₂ : GrammarFile), G.WellFormed →
    Layout G f₁ → Layout G f₂ → buildFile f₁.text = buildFile f₂.text ∧
      ∀ sym g, buildFile f₁.text = some (sym, g) → OnlyTokens G g := by
  intro h
  have hgap : ∀ n, IsGap (List.replicate n ' ') := fun n c hc =>
    eq_of_mem_replicate hc ▸ ⟨rfl, by decide⟩
  have heq := (h twice _ _ wellFormed_twice (layout_twice (by decide) (hgap 1) true)
    (layout_twice (by decide) (hgap 2) true)).1
  have hlen := congrArg (Option.map fun r => (r.2.rawProductions.get r.1).map List.length) heq
  have h₁ : (buildFile (twiceFile (List.replicate 1 ' ') true).text).map
      (fun r => (r.2.rawProductions.get r.1).map List.length) = some [3] := by
    decide +kernel
  have h₂ : (buildFile (twiceFile (List.replicate 2 ' ') true).text).map
      (fun r => (r.2.rawProductions.get r.1).map List.length) = some [4] := by
    decide +kernel
  rw [h₁, h₂] at hlen
  cases hlen

end SvfGrammarBuilder
