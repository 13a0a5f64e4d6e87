import SvfModel.CFGNormalizerProofs

/-!
# The symbols of a grammar text

`GrammarBuilder` inserts the words of a text one after the other: a single sign, a name in
upper case (a nonterminal) or any other name (a terminal), each with what is written behind
its last underscore as attribute. A new name gets the next kind, whichever table it is for,
and the kind is cut to eight bits of the symbol. `symToStrDump` goes back.

The heart is `Numbered`: the tables of the grammar are the list of the names met so far, each
at the position that is its kind. An insertion appends at most one name to the list, so a
kind that was given stays the name's, and a symbol is read back by looking its eight bits up
in the list.
-/

namespace SvfGrammarBuilder

open SvfCFGrammar SvfCFGNormalizer List Nat

-- ── the insertions

def insertTerminalKind (g : GrammarBase) (kindStr : String) : Option (ℕ × GrammarBase) :=
  match g.terminals.lookup kindStr with
  | none => some (g.totalKind,
      { g with terminals := (kindStr, g.totalKind) :: g.terminals,
               totalKind := g.totalKind + 1 })
  | some _ => (g.strToKind kindStr).map fun kind => (kind, g)

def insertTerminalSymbol (g : GrammarBase) (symbolStr : List Char) :
    Option (Symbol × GrammarBase) :=
  (insertTerminalKind g (String.ofList (extractKindStrFromSymbolStr symbolStr))).bind fun r =>
    (Symbol.withAttribute r.1 (extractAttributeStrFromSymbolStr symbolStr)).map fun sym => (sym, r.2)

def insertEBNFSigns (g : GrammarBase) (symbolStr : List Char) : Option (Symbol × GrammarBase) :=
  match g.ebnfSigns.lookup (String.ofList symbolStr) with
  | none => some (Symbol.ofU32 g.totalKind,
      { g with ebnfSigns := (String.ofList symbolStr, g.totalKind) :: g.ebnfSigns,
               totalKind := g.totalKind + 1 })
  | some _ => (g.strToKind (String.ofList symbolStr)).map fun kind => (Symbol.ofU32 kind, g)

/-- A string of one character that is no letter. -/
def isSign (symbolStr : List Char) : Bool :=
  match symbolStr with
  | [c] => !c.isAlpha
  | _ => false

def startsUpper (symbolStr : List Char) : Bool := symbolStr.head?.any Char.isUpper

def insertSymbol (g : GrammarBase) (symbolStr : List Char) : Option (Symbol × GrammarBase) :=
  if isSign symbolStr then insertEBNFSigns g symbolStr
  else if startsUpper symbolStr then insertNonTerminalSymbol g symbolStr
  else insertTerminalSymbol g symbolStr

def insertSymbols : GrammarBase → List (List Char) →
    Option (List (List Char × Symbol) × GrammarBase)
  | g, [] => some ([], g)
  | g, symbolStr :: strs =>
    (insertSymbol g symbolStr).bind fun r =>
      (insertSymbols r.2 strs).map fun q => ((symbolStr, r.1) :: q.1, q.2)

/-- `key` with `_` and the attribute behind it, if there is one. -/
def attributed (key : String) (attri : Fin 65536) : List Char :=
  if attri ≠ noAttri then key.toList ++ '_' :: Nat.toDigits 10 attri else key.toList

def symToStrDump (g : GrammarBase) (sym : Symbol) : List Char :=
  match g.terminals.find? fun i => i.2 = sym.kind.val with
  | some i => attributed i.1 sym.attri
  | none =>
    match g.nonterminals.find? fun ni => ni.2 = sym.kind.val with
    | some ni => attributed ni.1 sym.attri
    | none => []

def newGrammar : GrammarBase where
  terminals := []
  nonterminals := []
  ebnfSigns := []
  rawProductions := []
  totalKind := 0

/-- A grammar text, its lines cut into words: the line of the symbols, the start symbol and
    the words of the productions. -/
structure GrammarText where
  symbols : List (List Char)
  start : List Char
  words : List (List Char)

namespace GrammarText

def strings (t : GrammarText) : List (List Char) := t.symbols ++ t.start :: t.words

def build (t : GrammarText) : Option (List (List Char × Symbol) × GrammarBase) :=
  (insertSymbols newGrammar (t.symbols ++ [t.start])).bind fun r =>
    (insertTerminalKind r.2 "epsilon").bind fun e =>
      (insertSymbols e.2 t.words).map fun q => (r.1 ++ q.1, q.2)

/-- The text loads, different strings have different symbols, and every symbol is dumped as
    the string it was made from. -/
def Faithful (t : GrammarText) : Prop :=
  ∃ r g, t.build = some (r, g) ∧ (∀ p ∈ r, ∀ q ∈ r, p.1 ≠ q.1 → p.2 ≠ q.2) ∧
    ∀ p ∈ r, symToStrDump g p.2 = p.1

end GrammarText

-- ── names and their numbers

/-- The table a name is kept in. -/
inductive Table where
  | terminal
  | nonterminal
  | sign
deriving DecidableEq

def nameOf (symbolStr : List Char) : Table × String :=
  if isSign symbolStr then (.sign, String.ofList symbolStr)
  else if startsUpper symbolStr then
    (.nonterminal, String.ofList (extractKindStrFromSymbolStr symbolStr))
  else (.terminal, String.ofList (extractKindStrFromSymbolStr symbolStr))

def record (names : List (Table × String)) (name : Table × String) : List (Table × String) :=
  if name ∈ names then names else names ++ [name]

/-- No single sign, and a name without an underscore or a name with `_n` behind it, where `n` is
    a number from `1` to `65535` without leading zeros. -/
def Written (s : List Char) : Prop :=
  isSign s = false ∧ ('_' ∉ s ∨
    ∃ (name : List Char) (n : ℕ), 0 < n ∧ n < 65536 ∧ s = name ++ '_' :: Nat.toDigits 10 n)

namespace GrammarText

def names (t : GrammarText) : List (Table × String) :=
  (t.symbols.map nameOf ++ nameOf t.start :: (.terminal, "epsilon") :: t.words.map nameOf).foldl
    record []

/-- Each string is written so that it can be told from its name and its attribute. -/
def Canonical (t : GrammarText) : Prop := ∀ s ∈ t.strings, Written s

def Small (t : GrammarText) : Prop := ∀ s ∈ t.strings, t.names.idxOf (nameOf s) < 256

end GrammarText

-- ── how a string is cut at its last underscore

theorem extract_of_notMem {s : List Char} (h : '_' ∉ s) :
    extractKindStrFromSymbolStr s = s ∧ extractAttributeStrFromSymbolStr s = [] := by
  have hall : s.reverse.takeWhile (· ≠ '_') = s.reverse := by
    refine takeWhile_eq_self_iff.mpr fun c hc => decide_eq_true ?_
    rintro rfl
    exact h (mem_reverse.mp hc)
  rw [extractKindStrFromSymbolStr, extractAttributeStrFromSymbolStr]
  simp only [hall, length_reverse, if_true]
  exact ⟨trivial, trivial⟩

theorem extract_append (key : List Char) {attributeStr : List Char} (h : '_' ∉ attributeStr) :
    extractKindStrFromSymbolStr (key ++ '_' :: attributeStr) = key ∧
      extractAttributeStrFromSymbolStr (key ++ '_' :: attributeStr) = attributeStr := by
  have hall : ∀ c ∈ attributeStr.reverse, decide (c ≠ '_') := by
    intro c hc
    refine decide_eq_true ?_
    rintro rfl
    exact h (mem_reverse.mp hc)
  have hafter : (key ++ '_' :: attributeStr).reverse.takeWhile (· ≠ '_') =
      attributeStr.reverse := by
    rw [reverse_append, reverse_cons, append_assoc, takeWhile_append_of_pos hall]
    simp
  have hne : ¬ attributeStr.reverse.length = (key ++ '_' :: attributeStr).length := by
    simp only [length_reverse, length_append, length_cons]
    omega
  have hcut : (key ++ '_' :: attributeStr).length - attributeStr.reverse.length - 1 =
      key.length := by
    simp only [length_reverse, length_append, length_cons]
    omega
  rw [extractKindStrFromSymbolStr, extractAttributeStrFromSymbolStr]
  simp only [hafter, if_neg hne, hcut, take_left, reverse_reverse]
  exact ⟨trivial, trivial⟩

theorem extract_cases (s : List Char) :
    ('_' ∉ s ∧ extractKindStrFromSymbolStr s = s ∧ extractAttributeStrFromSymbolStr s = []) ∨
      s = extractKindStrFromSymbolStr s ++ '_' :: extractAttributeStrFromSymbolStr s := by
  by_cases hs : '_' ∈ s
  · refine .inr ?_
    obtain ⟨l, r, hlr, hl⟩ := eq_append_cons_of_mem (mem_reverse.mpr hs)
    have heq : s = r.reverse ++ '_' :: l.reverse := by
      rw [← reverse_reverse s, hlr, reverse_append, reverse_cons, append_assoc]
      rfl
    obtain ⟨hk, ha⟩ := extract_append r.reverse fun h => hl (mem_reverse.mp h)
    rw [heq, hk, ha]
  · exact .inl ⟨hs, extract_of_notMem hs⟩

theorem startsUpper_kindStr {s : List Char} :
    startsUpper (extractKindStrFromSymbolStr s) = startsUpper s := by
  rcases extract_cases s with ⟨-, hk, -⟩ | heq
  · rw [hk]
  · cases hk : extractKindStrFromSymbolStr s with
    | nil =>
      rw [hk, nil_append] at heq
      rw [heq]
      rfl
    | cons c cs =>
      rw [hk, cons_append] at heq
      rw [heq]
      rfl

theorem withAttribute_toDigits (kind : ℕ) {n : ℕ} (hn : n < 65536) :
    Symbol.withAttribute kind (Nat.toDigits 10 n) =
      some ⟨Fin.ofNat 256 kind, Fin.ofNat 65536 n, 0⟩ := by
  have hdigit : ∀ c ∈ Nat.toDigits 10 n, c.isDigit := fun c hc =>
    isDigit_of_mem_toDigits (by decide) (by decide) hc
  have hfold : (Nat.toDigits 10 n).foldl (fun n c => 10 * n + (c.toNat - '0'.toNat)) 0 = n := by
    rw [← ofDigitChars_eq_foldl]
    exact ofDigitChars_ten_toDigits
  have hstoi : stoi (Nat.toDigits 10 n) = some n := by
    rw [stoi, hfold]
    exact if_pos (by omega)
  match hd : Nat.toDigits 10 n with
  | [] => exact absurd hd toDigits_ne_nil
  | [c] =>
    have hc : c.isDigit := hdigit c (hd ▸ mem_singleton_self c)
    have halpha : ¬ c.isAlpha := by
      intro h
      simp only [Char.isAlpha, Char.isUpper, Char.isLower, Char.isDigit, Bool.or_eq_true,
        Bool.and_eq_true, decide_eq_true_eq, UInt32.le_iff_toNat_le, ge_iff_le] at h hc
      have : 'Z'.val.toNat = 90 := rfl
      have : 'A'.val.toNat = 65 := rfl
      have : 'a'.val.toNat = 97 := rfl
      have : '9'.val.toNat = 57 := rfl
      omega
    rw [hd, foldl_cons, foldl_nil, mul_zero, zero_add] at hfold
    rw [Symbol.withAttribute, if_neg halpha, if_pos hc, hfold]
  | c :: d :: ds =>
    have hall : (c :: d :: ds).all Char.isDigit := by
      rw [all_eq_true, ← hd]
      exact hdigit
    unfold Symbol.withAttribute
    dsimp only
    rw [if_pos hall, ← hd, hstoi]
    rfl

/-- Whether an attribute can be read does not depend on the kind, which is cut to its eight
    bits. -/
theorem withAttribute_kind {kind : ℕ} {attributeStr : List Char} {sym : Symbol}
    (h : Symbol.withAttribute kind attributeStr = some sym) : sym.kind = Fin.ofNat 256 kind := by
  unfold Symbol.withAttribute at h
  split at h
  · rw [← Option.some.inj h]
  · split_ifs at h
    · rw [← Option.some.inj h]
    · rw [← Option.some.inj h]
  · split_ifs at h
    obtain ⟨n, -, hn⟩ := Option.map_eq_some_iff.mp h
    rw [← hn]

-- ── the tables are the list of names

def entries (g : GrammarBase) : Table → List (String × ℕ)
  | .terminal => g.terminals
  | .nonterminal => g.nonterminals
  | .sign => g.ebnfSigns

def enter (g : GrammarBase) : Table × String → GrammarBase
  | (.terminal, key) => { g with terminals := (key, g.totalKind) :: g.terminals,
                                    totalKind := g.totalKind + 1 }
  | (.nonterminal, key) => { g with nonterminals := (key, g.totalKind) :: g.nonterminals,
                                    totalKind := g.totalKind + 1 }
  | (.sign, key) => { g with ebnfSigns := (key, g.totalKind) :: g.ebnfSigns,
                                    totalKind := g.totalKind + 1 }

def WellCased : Table × String → Prop
  | (.terminal, key) => startsUpper key.toList = false
  | (.nonterminal, key) => startsUpper key.toList = true
  | (.sign, _) => True

structure Numbered (names : List (Table × String)) (g : GrammarBase) : Prop where
  total : g.totalKind = names.length
  nodup : names.Nodup
  numbers : ∀ table key k, (key, k) ∈ entries g table ↔ names[k]? = some (table, key)
  cased : ∀ name ∈ names, WellCased name

theorem numbered_newGrammar : Numbered [] newGrammar := by
  constructor
  case total => rfl
  case nodup => exact nodup_nil
  case numbers =>
    intro table key k
    rw [getElem?_nil]
    cases table <;> exact ⟨nofun, nofun⟩
  case cased => exact nofun

theorem mem_entries_enter (g : GrammarBase) (name : Table × String) (table : Table) (key : String)
    (k : ℕ) : (key, k) ∈ entries (enter g name) table ↔
      (k = g.totalKind ∧ name = (table, key)) ∨ (key, k) ∈ entries g table := by
  obtain ⟨t, key'⟩ := name
  cases t <;> cases table <;>
    simp [entries, enter, and_comm, eq_comm]

theorem getElem?_concat {names : List (Table × String)} {name x : Table × String} {k : ℕ} :
    (names ++ [name])[k]? = some x ↔ (k = names.length ∧ name = x) ∨ names[k]? = some x := by
  rcases lt_trichotomy k names.length with hlt | heq | hgt
  · rw [getElem?_append_left hlt]
    exact ⟨.inr, fun h => h.resolve_left fun h => absurd h.1 hlt.ne⟩
  · rw [heq, getElem?_concat_length, getElem?_eq_none le_rfl]
    simp
  · have hlong : (names ++ [name]).length ≤ k := by
      rw [length_append, length_singleton]
      omega
    rw [getElem?_eq_none hlong, getElem?_eq_none hgt.le]
    simp [hgt.ne']

section Numbered

variable {name : Table × String} {table : Table} {key : String}

variable {names : List (Table × String)} {g : GrammarBase}

section

variable (h : Numbered names g)
include h

theorem Numbered.position {i j : ℕ} (hi : names[i]? = some name)
    (hj : names[j]? = some name) : i = j := by
  have hlt : i < names.length := by
    by_contra hle
    rw [getElem?_eq_none (Nat.le_of_not_lt hle)] at hi
    cases hi
  exact (getElem?_inj hlt h.nodup).mp (hi.trans hj.symm)

theorem Numbered.enter (hnew : name ∉ names) (hcased : WellCased name)
    : Numbered (names ++ [name]) (enter g name) := by
  constructor
  case total =>
    rw [length_append, length_singleton, ← h.total]
    obtain ⟨t, key⟩ := name
    cases t <;> rfl
  case nodup =>
    rw [nodup_append]
    refine ⟨h.nodup, nodup_singleton name, ?_⟩
    intro a ha b hb heq
    rw [mem_singleton] at hb
    exact hnew (hb ▸ heq ▸ ha)
  case numbers =>
    intro table key k
    rw [mem_entries_enter, getElem?_concat, h.numbers, h.total]
  case cased =>
    intro x hx
    rcases mem_append.mp hx with hx | hx
    · exact h.cased x hx
    · rw [mem_singleton.mp hx]
      exact hcased

theorem Numbered.lookup {k : ℕ} (hk : names[k]? = some (table, key))
    : (entries g table).lookup key = some k := by
  cases hl : (entries g table).lookup key with
  | none =>
    have hne := lookup_eq_none_iff.mp hl (key, k) ((h.numbers table key k).mpr hk)
    exact absurd hne (by simp)
  | some k' =>
    rw [h.position ((h.numbers table key k').mp (mem_of_lookup hl)) hk]

theorem Numbered.lookup_none : (entries g table).lookup key = none ↔ (table, key) ∉ names := by
  constructor
  · intro hl hmem
    obtain ⟨k, hk⟩ := getElem?_of_mem hmem
    rw [h.lookup hk] at hl
    cases hl
  · intro hmem
    cases hl : (entries g table).lookup key with
    | none => rfl
    | some k =>
      exact absurd (mem_of_getElem? ((h.numbers table key k).mp (mem_of_lookup hl))) hmem

/-- A name that is no sign is found under its own kind: no terminal is cased like a
    nonterminal. -/
theorem Numbered.strToKind {k : ℕ} (hk : names[k]? = some (table, key)) (hsign : table ≠ .sign) :
    g.strToKind key = some k := by
  have hl := h.lookup hk
  rw [GrammarBase.strToKind]
  cases table with
  | terminal =>
    rw [show g.terminals.lookup key = some k from hl]
    rfl
  | nonterminal =>
    have hcase := h.cased _ (mem_of_getElem? hk)
    have hnew : (.terminal, key) ∉ names := fun hmem =>
      absurd ((h.cased _ hmem).symm.trans hcase) Bool.false_ne_true
    have hnone : g.terminals.lookup key = none := h.lookup_none.mpr hnew
    rw [hnone, show g.nonterminals.lookup key = some k from hl]
    rfl
  | sign => exact absurd rfl hsign

end

-- ── what one insertion does

def insertKind (g : GrammarBase) (table : Table) (key : String) : Option (ℕ × GrammarBase) :=
  match (entries g table).lookup key with
  | none => some (g.totalKind, SvfGrammarBuilder.enter g (table, key))
  | some _ => (g.strToKind key).map fun kind => (kind, g)

theorem insertTerminalKind_eq (key : String) :
    insertTerminalKind g key = insertKind g .terminal key := rfl

theorem insertNonterminalKind_eq (key : String) :
    insertNonterminalKind g key = insertKind g .nonterminal key := rfl

theorem insertEBNFSigns_eq (s : List Char) : insertEBNFSigns g s =
      (insertKind g .sign (String.ofList s)).map fun r => (Symbol.ofU32 r.1, r.2) := by
  rw [insertKind, insertEBNFSigns]
  show _ = Option.map _ (match g.ebnfSigns.lookup (String.ofList s) with
    | none => some (g.totalKind, SvfGrammarBuilder.enter g (.sign, String.ofList s))
    | some _ => (g.strToKind (String.ofList s)).map fun kind => (kind, g))
  cases g.ebnfSigns.lookup (String.ofList s) with
  | none => rfl
  | some _ =>
    dsimp only
    rw [Option.map_map]
    rfl

/-- A kind is inserted, and it is the position of the name, if the name is no sign or a new
    one. -/
theorem Numbered.insertKind (h : Numbered names g) (hcased : WellCased name)
    : ∃ k g', SvfGrammarBuilder.insertKind g name.1 name.2 = some (k, g') ∧
      Numbered (record names name) g' ∧
      (name.1 ≠ .sign ∨ name ∉ names → (record names name)[k]? = some name) := by
  obtain ⟨table, key⟩ := name
  rw [SvfGrammarBuilder.insertKind, record]
  by_cases hmem : (table, key) ∈ names
  · obtain ⟨k, hk⟩ := getElem?_of_mem hmem
    rw [if_pos hmem, h.lookup hk]
    dsimp only
    by_cases hsign : table = .sign
    · have hfound : ∃ k', g.strToKind key = some k' := by
        rw [GrammarBase.strToKind, ← Option.isSome_iff_exists, Option.isSome_or, Option.isSome_or]
        have hl := h.lookup hk
        rw [hsign] at hl
        rw [show g.ebnfSigns.lookup key = some k from hl]
        simp
      obtain ⟨k', hk'⟩ := hfound
      rw [hk']
      exact ⟨k', g, rfl, h, fun hor => absurd hor (by simp [hsign, hsign ▸ hmem])⟩
    · rw [h.strToKind hk hsign]
      exact ⟨k, g, rfl, h, fun _ => hk⟩
  · rw [if_neg hmem, h.lookup_none.mpr hmem]
    refine ⟨_, _, rfl, h.enter hmem hcased, fun _ => ?_⟩
    exact getElem?_concat.mpr (.inl ⟨h.total, rfl⟩)

end Numbered

def symbolOf (s : List Char) (kind : ℕ) : Option Symbol :=
  if isSign s then some (Symbol.ofU32 kind)
  else Symbol.withAttribute kind (extractAttributeStrFromSymbolStr s)

theorem wellCased_nameOf (s : List Char) : WellCased (nameOf s) := by
  rw [nameOf]
  split_ifs with hsign hupper
  · trivial
  · show startsUpper (String.toList _)
    rw [String.toList_ofList, startsUpper_kindStr, hupper]
  · show startsUpper (String.toList _) = false
    rw [String.toList_ofList, startsUpper_kindStr]
    exact Bool.eq_false_iff.mpr hupper

theorem nameOf_sign {s : List Char} : (nameOf s).1 = .sign ↔ isSign s := by
  rw [nameOf]
  split_ifs with hsign hupper
  · exact ⟨fun _ => hsign, fun _ => rfl⟩
  · exact ⟨fun h => (nomatch h), fun h => absurd h hsign⟩
  · exact ⟨fun h => (nomatch h), fun h => absurd h hsign⟩

/-- **One insertion**: the name of the string is recorded, and the symbol is made from its
    kind. -/
theorem insertSymbol_spec {names : List (Table × String)} {g : GrammarBase} (h : Numbered names g)
    (s : List Char) : ∃ k g', insertSymbol g s = (symbolOf s k).map (fun sym => (sym, g')) ∧
      Numbered (record names (nameOf s)) g' ∧
      (isSign s = false ∨ nameOf s ∉ names → (record names (nameOf s))[k]? = some (nameOf s)) := by
  obtain ⟨k, g', hins, hnum, hk⟩ := h.insertKind (wellCased_nameOf s)
  refine ⟨k, g', ?_, hnum, fun hor => hk (hor.imp_left fun hs he => ?_)⟩
  · rw [insertSymbol, symbolOf]
    rw [nameOf] at hins
    split_ifs at hins with hsign hupper
    · rw [if_pos hsign, if_pos hsign, insertEBNFSigns_eq, hins]
      rfl
    · rw [if_neg hsign, if_pos hupper, if_neg hsign, insertNonTerminalSymbol,
        insertNonterminalKind_eq, hins]
      rfl
    · rw [if_neg hsign, if_neg hupper, if_neg hsign, insertTerminalSymbol,
        insertTerminalKind_eq, hins]
      rfl
  · rw [nameOf_sign] at he
    cases hs.symm.trans he

-- ── a whole text

theorem prefix_record (names : List (Table × String)) (name : Table × String) :
    names <+: record names name := by
  rw [record]
  split_ifs
  · exact prefix_rfl
  · exact prefix_append names [name]

theorem mem_record {names : List (Table × String)} {name x : Table × String} :
    x ∈ record names name ↔ x ∈ names ∨ x = name := by
  rw [record]
  split_ifs with h
  · exact ⟨.inl, fun hx => hx.elim id fun he => he ▸ h⟩
  · rw [mem_append, mem_singleton]

theorem prefix_foldl_record (l names : List (Table × String)) : names <+: l.foldl record names := by
  induction l generalizing names with
  | nil => exact prefix_rfl
  | cons name l ih => exact (prefix_record names name).trans (ih _)

theorem mem_foldl_record {l names : List (Table × String)} {x : Table × String} :
    x ∈ l.foldl record names ↔ x ∈ names ∨ x ∈ l := by
  induction l generalizing names with
  | nil => simp
  | cons name l ih =>
    rw [foldl_cons, ih, mem_record, mem_cons]
    tauto

theorem getElem?_prefix {names names' : List (Table × String)} (h : names <+: names') {k : ℕ}
    {x : Table × String} (hk : names[k]? = some x) : names'[k]? = some x := by
  obtain ⟨t, rfl⟩ := h
  obtain ⟨hlt, -⟩ := List.getElem?_eq_some_iff.mp hk
  rw [List.getElem?_append_left hlt]
  exact hk

def Given (names : List (Table × String)) (s : List Char) (sym : Symbol) : Prop :=
  ∃ k, names[k]? = some (nameOf s) ∧ symbolOf s k = some sym

theorem Given.mono {names names' : List (Table × String)} (h : names <+: names') {s : List Char}
    {sym : Symbol} (hg : Given names s sym) : Given names' s sym := by
  obtain ⟨k, hk, hsym⟩ := hg
  exact ⟨k, getElem?_prefix h hk, hsym⟩

theorem eq_of_nameOf_sign {s s' : List Char} (hs : isSign s) (h : nameOf s' = nameOf s) :
    s' = s := by
  have hs' : isSign s' := by rw [← nameOf_sign, h, nameOf_sign, hs]
  rw [nameOf, nameOf, if_pos hs, if_pos hs'] at h
  exact String.ofList_injective (Prod.mk.inj h).2

/-- What the insertion of some strings leaves: the names are recorded, a string that is no sign
    has the symbol of its name, and so has a sign where it is new. -/
structure Inserted (names : List (Table × String)) (strs : List (List Char))
    (names' : List (Table × String)) (r : List (List Char × Symbol)) : Prop where
  only : ∀ p ∈ r, p.1 ∈ strs ∧ (isSign p.1 = false → Given names' p.1 p.2)
  given : ∀ s ∈ strs, isSign s = false ∨ nameOf s ∉ names → ∃ sym, (s, sym) ∈ r ∧
    Given names' s sym

/-- **The run**: what `insertSymbol` does to one string, for all of them. -/
theorem insertSymbols_spec (strs : List (List Char)) : ∀ {names : List (Table × String)}
    {g : GrammarBase}, Numbered names g → ∀ {r g'}, insertSymbols g strs = some (r, g') →
      Numbered ((strs.map nameOf).foldl record names) g' ∧
        Inserted names strs ((strs.map nameOf).foldl record names) r := by
  induction strs with
  | nil =>
    intro names g h r g' hrun
    rw [insertSymbols] at hrun
    cases hrun
    refine ⟨h, ?_, ?_⟩
    · exact nofun
    · exact nofun
  | cons s strs ih =>
    intro names g h r g' hrun
    obtain ⟨k, g1, hins, hnum, hk⟩ := insertSymbol_spec h s
    rw [insertSymbols, hins] at hrun
    obtain ⟨⟨sym, g2⟩, hsym, hrun⟩ := Option.bind_eq_some_iff.mp hrun
    obtain ⟨sym', hsym', he⟩ := Option.map_eq_some_iff.mp hsym
    obtain ⟨rfl, rfl⟩ := Prod.mk.inj he
    obtain ⟨⟨r', g3⟩, hrest, he⟩ := Option.map_eq_some_iff.mp hrun
    obtain ⟨rfl, rfl⟩ := Prod.mk.inj he
    obtain ⟨hnum', hins'⟩ := ih hnum hrest
    have hhead : isSign s = false ∨ nameOf s ∉ names →
        Given (((s :: strs).map nameOf).foldl record names) s sym' := fun hor =>
      ⟨k, getElem?_prefix (prefix_foldl_record (strs.map nameOf) _) (hk hor), hsym'⟩
    refine ⟨hnum', ?_, ?_⟩
    · intro p hp
      rcases mem_cons.mp hp with rfl | hp
      · exact ⟨mem_cons_self, fun hs => hhead (.inl hs)⟩
      · exact ⟨mem_cons_of_mem _ (hins'.only p hp).1, (hins'.only p hp).2⟩
    · intro x hx hor
      by_cases hxs : x = s
      · subst hxs
        exact ⟨sym', mem_cons_self, hhead hor⟩
      · have hx' : x ∈ strs := (mem_cons.mp hx).resolve_left hxs
        -- a sign is new behind another string as well
        have hor' : isSign x = false ∨ nameOf x ∉ record names (nameOf s) := by
          rcases Bool.eq_false_or_eq_true (isSign x) with hs | hs
          · refine .inr fun hmem => ?_
            rcases mem_record.mp hmem with hmem | he
            · exact hor.elim (fun hf => absurd (hf.symm.trans hs) Bool.false_ne_true)
                fun hn => hn hmem
            · exact hxs (eq_of_nameOf_sign hs he.symm).symm
          · exact .inl hs
        obtain ⟨sym, hmem, hgiven⟩ := hins'.given x hx' hor'
        exact ⟨sym, mem_cons_of_mem _ hmem, hgiven⟩

theorem insertSymbols_isSome (strs : List (List Char))
    (hall : ∀ s ∈ strs, ∀ k, (symbolOf s k).isSome) : ∀ {names : List (Table × String)}
    {g : GrammarBase}, Numbered names g → ∃ r g', insertSymbols g strs = some (r, g') := by
  induction strs with
  | nil => exact fun _ => ⟨_, _, rfl⟩
  | cons s strs ih =>
    intro names g h
    obtain ⟨k, g1, hins, hnum, -⟩ := insertSymbol_spec h s
    obtain ⟨sym, hsym⟩ := Option.isSome_iff_exists.mp (hall s mem_cons_self k)
    obtain ⟨r, g', hrest⟩ := ih (forall_mem_cons.mp hall).2 hnum
    refine ⟨(s, sym) :: r, g', ?_⟩
    rw [insertSymbols, hins, hsym]
    show Option.map _ (insertSymbols g1 strs) = _
    rw [hrest]
    rfl

theorem wellCased_epsilon : WellCased (.terminal, "epsilon") := by
  show startsUpper "epsilon".toList = false
  decide

theorem insertTerminalKind_epsilon {names : List (Table × String)} {g : GrammarBase}
    (h : Numbered names g) : ∃ k g', insertTerminalKind g "epsilon" = some (k, g') ∧
      Numbered (record names (.terminal, "epsilon")) g' := by
  obtain ⟨k, g', hins, hnum, -⟩ := h.insertKind wellCased_epsilon
  exact ⟨k, g', hins, hnum⟩

namespace GrammarText

variable {t : GrammarText}

theorem names_eq : t.names = (t.words.map nameOf).foldl record
    (record (((t.symbols ++ [t.start]).map nameOf).foldl record []) (.terminal, "epsilon")) := by
  rw [names, foldl_append, foldl_cons, foldl_cons, map_append, foldl_append]
  rfl

/-- **What a text that loads leaves**: its names in the tables, and for each string a symbol
    made from the position of its name. -/
theorem build_spec {r : List (List Char × Symbol)} {g : GrammarBase}
    (h : t.build = some (r, g)) : Numbered t.names g ∧
      (∀ p ∈ r, p.1 ∈ t.strings ∧ (isSign p.1 = false → Given t.names p.1 p.2)) ∧
      ∀ s ∈ t.strings, ∃ sym, (s, sym) ∈ r ∧ Given t.names s sym := by
  obtain ⟨⟨r1, g1⟩, h1, h⟩ := Option.bind_eq_some_iff.mp h
  obtain ⟨⟨e, g2⟩, h2, h⟩ := Option.bind_eq_some_iff.mp h
  obtain ⟨⟨r2, g3⟩, h3, he⟩ := Option.map_eq_some_iff.mp h
  cases he
  obtain ⟨hnum1, hins1⟩ := insertSymbols_spec _ numbered_newGrammar h1
  obtain ⟨e', g2', he, hnum2⟩ := insertTerminalKind_epsilon hnum1
  obtain ⟨-, rfl⟩ := Prod.mk.inj (Option.mem_unique h2 he)
  obtain ⟨hnum3, hins3⟩ := insertSymbols_spec _ hnum2 h3
  rw [← names_eq] at hnum3 hins3
  have hpre : ((t.symbols ++ [t.start]).map nameOf).foldl record [] <+: t.names := by
    rw [names_eq]
    exact (prefix_record _ _).trans (prefix_foldl_record _ _)
  have hmem : ∀ s, s ∈ t.strings ↔ s ∈ t.symbols ++ [t.start] ∨ s ∈ t.words := by
    intro s
    rw [strings]
    simp [or_assoc]
  refine ⟨hnum3, ?_, ?_⟩
  · intro p hp
    rcases mem_append.mp hp with hp | hp
    · obtain ⟨hs, hg⟩ := hins1.only p hp
      exact ⟨(hmem _).mpr (.inl hs), fun hsign => (hg hsign).mono hpre⟩
    · obtain ⟨hs, hg⟩ := hins3.only p hp
      exact ⟨(hmem _).mpr (.inr hs), hg⟩
  · intro s hs
    by_cases hfirst : s ∈ t.symbols ++ [t.start]
    · obtain ⟨sym, hsym, hg⟩ := hins1.given s hfirst (.inr not_mem_nil)
      exact ⟨sym, mem_append_left _ hsym, hg.mono hpre⟩
    · have hwords := ((hmem s).mp hs).resolve_left hfirst
      -- a sign among the words that was not met before is new there
      have hor : isSign s = false ∨ nameOf s ∉
          record (((t.symbols ++ [t.start]).map nameOf).foldl record [])
            (.terminal, "epsilon") := by
        rcases Bool.eq_false_or_eq_true (isSign s) with hsign | hsign
        · refine .inr fun hold => ?_
          rcases mem_record.mp hold with hold | heps
          · rcases mem_foldl_record.mp hold with hold | hold
            · cases hold
            · obtain ⟨s', hs', he⟩ := mem_map.mp hold
              exact hfirst (eq_of_nameOf_sign hsign he ▸ hs')
          · have := nameOf_sign.mpr hsign
            rw [heps] at this
            cases this
        · exact .inl hsign
      obtain ⟨sym, hsym, hg⟩ := hins3.given s hwords hor
      exact ⟨sym, mem_append_right _ hsym, hg⟩

theorem build_isSome (h : ∀ s ∈ t.strings, ∀ k, (symbolOf s k).isSome) :
    ∃ r g, t.build = some (r, g) := by
  have hfirst : ∀ s ∈ t.symbols ++ [t.start], ∀ k, (symbolOf s k).isSome := by
    intro s hs
    refine h s ?_
    rw [strings]
    rcases mem_append.mp hs with hs | hs
    · exact mem_append_left _ hs
    · rw [mem_singleton.mp hs]
      exact mem_append_right _ mem_cons_self
  have hrest : ∀ s ∈ t.words, ∀ k, (symbolOf s k).isSome := fun s hs =>
    h s (mem_append_right _ (mem_cons_of_mem _ hs))
  obtain ⟨r1, g1, h1⟩ := insertSymbols_isSome _ hfirst numbered_newGrammar
  obtain ⟨k, g2, h2, hnum2⟩ := insertTerminalKind_epsilon
    (insertSymbols_spec _ numbered_newGrammar h1).1
  obtain ⟨r2, g3, h3⟩ := insertSymbols_isSome _ hrest hnum2
  refine ⟨r1 ++ r2, g3, ?_⟩
  rw [build, h1, Option.bind_some, h2, Option.bind_some, h3]
  rfl

end GrammarText

-- ── reading a symbol back

def spelled (names : List (Table × String)) (kind : ℕ) : Option String :=
  match names[kind]? with
  | some (.terminal, key) => some key
  | some (.nonterminal, key) => some key
  | _ => none

theorem symToStrDump_eq {names : List (Table × String)} {g : GrammarBase} (h : Numbered names g)
    (sym : Symbol) : symToStrDump g sym =
      ((spelled names sym.kind).map fun key => attributed key sym.attri).getD [] := by
  have hfind : ∀ table i, (entries g table).find? (fun i => i.2 = sym.kind.val) = some i →
      names[sym.kind.val]? = some (table, i.1) := by
    intro table i hi
    have hfound := find?_some hi
    have hk : i.2 = sym.kind.val := of_decide_eq_true hfound
    rw [← hk]
    exact (h.numbers table i.1 i.2).mp (mem_of_find?_eq_some hi)
  have hnone : ∀ table, (entries g table).find? (fun i => i.2 = sym.kind.val) = none →
      ∀ key, names[sym.kind.val]? ≠ some (table, key) := by
    intro table hf key hk
    have := find?_eq_none.mp hf (key, sym.kind.val) ((h.numbers table key _).mpr hk)
    exact this (decide_eq_true rfl)
  rw [symToStrDump, spelled]
  cases ht : g.terminals.find? (fun i => i.2 = sym.kind.val) with
  | some i =>
    rw [hfind .terminal i ht]
    rfl
  | none =>
    cases hn : g.nonterminals.find? (fun i => i.2 = sym.kind.val) with
    | some i =>
      rw [hfind .nonterminal i hn]
      rfl
    | none =>
      have h1 := hnone .terminal ht
      have h2 := hnone .nonterminal hn
      dsimp only
      split
      · exact absurd ‹_› (h1 _)
      · exact absurd ‹_› (h2 _)
      · rfl

theorem spelled_nameOf {names : List (Table × String)} {s : List Char} {k : ℕ}
    (hs : isSign s = false) (hk : names[k]? = some (nameOf s)) :
    spelled names k = some (String.ofList (extractKindStrFromSymbolStr s)) := by
  rw [spelled, hk, nameOf, if_neg (Bool.eq_false_iff.mp hs)]
  split_ifs <;> rfl

theorem written_of_attributed {s : List Char} (hs : isSign s = false) {attri : Fin 65536}
    (h : attributed (String.ofList (extractKindStrFromSymbolStr s)) attri = s) : Written s := by
  refine ⟨hs, ?_⟩
  rw [attributed, String.toList_ofList] at h
  split_ifs at h with ha
  · exact .inr ⟨_, attri.val, pos_of_ne_zero fun h0 => ha (Fin.ext h0), attri.isLt, h.symm⟩
  · rcases extract_cases s with ⟨hno, -⟩ | heq
    · exact .inl hno
    · have hlen := congrArg List.length heq
      rw [h, length_append, length_cons] at hlen
      omega

theorem Written.symbolOf {s : List Char} (h : Written s) (k : ℕ) : ∃ attri,
    SvfGrammarBuilder.symbolOf s k = some ⟨Fin.ofNat 256 k, attri, 0⟩ ∧
      ∀ key : String, attributed key attri = s ↔
        key = String.ofList (extractKindStrFromSymbolStr s) := by
  obtain ⟨hs, hno | ⟨name, n, hpos, hlt, rfl⟩⟩ := h
  · obtain ⟨hk, ha⟩ := extract_of_notMem hno
    refine ⟨0, ?_, fun key => ?_⟩
    · rw [SvfGrammarBuilder.symbolOf, if_neg (Bool.eq_false_iff.mp hs), ha]
      rfl
    · rw [hk, attributed, if_neg (not_not_intro rfl), ← String.toList_inj, String.toList_ofList]
  · have hno : '_' ∉ Nat.toDigits 10 n := underscore_not_in_toDigits
    obtain ⟨hk, ha⟩ := extract_append name hno
    have hval : (Fin.ofNat 65536 n).val = n := mod_eq_of_lt hlt
    refine ⟨Fin.ofNat 65536 n, ?_, fun key => ?_⟩
    · rw [SvfGrammarBuilder.symbolOf, if_neg (Bool.eq_false_iff.mp hs), ha]
      exact withAttribute_toDigits k hlt
    · have hne : Fin.ofNat 65536 n ≠ 0 := fun h0 => hpos.ne' (hval.symm.trans (congrArg Fin.val h0))
      rw [hk, attributed, if_pos hne, hval, append_left_inj, ← String.toList_inj,
        String.toList_ofList]

namespace GrammarText

variable {t : GrammarText} {r : List (List Char × Symbol)} {g : GrammarBase}

theorem idxOf_eq (h : Numbered t.names g) {name : Table × String} {k : ℕ}
    (hk : t.names[k]? = some name) : t.names.idxOf name = k :=
  h.position (getElem?_idxOf (mem_of_getElem? hk)) hk

theorem kind_of_given {s : List Char} {sym : Symbol} (hs : isSign s = false) {k : ℕ}
    (hsym : symbolOf s k = some sym) : sym.kind.val = k % 256 := by
  rw [symbolOf, if_neg (Bool.eq_false_iff.mp hs)] at hsym
  rw [withAttribute_kind hsym]
  rfl

/-- **Enough**: canonical strings of the first 256 names are read back. -/
theorem faithful_of_canonical (hcan : t.Canonical) (hsmall : t.Small) : t.Faithful := by
  have hload : ∀ s ∈ t.strings, ∀ k, (symbolOf s k).isSome := by
    intro s hs k
    obtain ⟨attri, h, -⟩ := (hcan s hs).symbolOf k
    rw [h]
    rfl
  obtain ⟨r, g, hbuild⟩ := build_isSome hload
  obtain ⟨hnum, honly, -⟩ := build_spec hbuild
  have hdump : ∀ p ∈ r, symToStrDump g p.2 = p.1 := by
    intro p hp
    obtain ⟨hmem, hgiven⟩ := honly p hp
    have hw := hcan p.1 hmem
    obtain ⟨k, hk, hsym⟩ := hgiven hw.1
    have hlt : k < 256 := idxOf_eq hnum hk ▸ hsmall p.1 hmem
    have hkind : p.2.kind.val = k := (kind_of_given hw.1 hsym).trans (mod_eq_of_lt hlt)
    obtain ⟨attri, hattri, hkey⟩ := hw.symbolOf k
    rw [symToStrDump_eq hnum, hkind, spelled_nameOf hw.1 hk, Option.mem_unique hsym hattri]
    exact (hkey _).mpr rfl
  refine ⟨r, g, hbuild, ?_, hdump⟩
  intro p hp q hq hne heq
  exact hne ((hdump p hp).symm.trans ((congrArg (symToStrDump g) heq).trans (hdump q hq)))

theorem canonical_of_faithful (h : t.Faithful) (hsmall : t.Small) : t.Canonical := by
  obtain ⟨r, g, hbuild, -, hdump⟩ := h
  obtain ⟨hnum, -, hgiven⟩ := build_spec hbuild
  intro s hs
  obtain ⟨sym, hp, k, hk, hsym⟩ := hgiven s hs
  have hlt : k < 256 := idxOf_eq hnum hk ▸ hsmall s hs
  have hback := hdump _ hp
  rw [symToStrDump_eq hnum] at hback
  rcases Bool.eq_false_or_eq_true (isSign s) with hsign | hsign
  · -- no name is read back for a sign
    rw [symbolOf, if_pos hsign] at hsym
    have hkind : sym.kind.val = k := by
      rw [← Option.some.inj hsym]
      exact mod_eq_of_lt hlt
    have htable := nameOf_sign.mpr hsign
    have hspelled : spelled t.names k = none := by
      rw [spelled, hk]
      split
      · rename_i heq
        rw [Option.some.inj heq] at htable
        cases htable
      · rename_i heq
        rw [Option.some.inj heq] at htable
        cases htable
      · rfl
    rw [hkind, hspelled] at hback
    have hnil : s = [] := hback.symm
    rw [hnil] at hsign
    cases hsign
  · have hkind : sym.kind.val = k := (kind_of_given hsign hsym).trans (mod_eq_of_lt hlt)
    rw [hkind, spelled_nameOf hsign hk] at hback
    exact written_of_attributed hsign hback

theorem table_ne_sign (hcan : t.Canonical) {name : Table × String} (h : name ∈ t.names) :
    name.1 ≠ .sign := by
  intro hsign
  rw [names] at h
  have hmem := (mem_foldl_record.mp h).resolve_left not_mem_nil
  have hstring : ∀ s, s ∈ t.strings → nameOf s ≠ name := by
    rintro s hs rfl
    exact absurd (nameOf_sign.mp hsign) (Bool.eq_false_iff.mp (hcan s hs).1)
  rw [strings] at hstring
  rcases mem_append.mp hmem with hmem | hmem
  · obtain ⟨s, hs, he⟩ := mem_map.mp hmem
    exact hstring s (mem_append_left _ hs) he
  · rcases mem_cons.mp hmem with he | hmem
    · exact hstring t.start (mem_append_right _ mem_cons_self) he.symm
    · rcases mem_cons.mp hmem with he | hmem
      · rw [he] at hsign
        cases hsign
      · obtain ⟨s, hs, he⟩ := mem_map.mp hmem
        exact hstring s (mem_append_right _ (mem_cons_of_mem _ hs)) he

theorem eq_of_cased {a b : Table × String} (ha : WellCased a) (hb : WellCased b)
    (hsa : a.1 ≠ .sign) (hsb : b.1 ≠ .sign) (h : a.2 = b.2) : a = b := by
  obtain ⟨ta, ka⟩ := a
  obtain ⟨tb, kb⟩ := b
  have hk : ka = kb := h
  subst hk
  cases ta <;> cases tb
  case terminal.nonterminal => cases ha.symm.trans hb
  case nonterminal.terminal => cases hb.symm.trans ha
  all_goals first | rfl | exact absurd rfl hsa | exact absurd rfl hsb

/-- Canonical strings are read back only if their names are among the first 256: another name is
    spelled another way. -/
theorem small_of_faithful (h : t.Faithful) (hcan : t.Canonical) : t.Small := by
  obtain ⟨r, g, hbuild, -, hdump⟩ := h
  obtain ⟨hnum, -, hgiven⟩ := build_spec hbuild
  intro s hs
  obtain ⟨sym, hp, k, hk, hsym⟩ := hgiven s hs
  have hw := hcan s hs
  rw [idxOf_eq hnum hk]
  obtain ⟨attri, hattri, hkey⟩ := hw.symbolOf k
  have hback := hdump _ hp
  rw [symToStrDump_eq hnum, kind_of_given hw.1 hsym, Option.mem_unique hsym hattri] at hback
  obtain ⟨hlt, -⟩ := List.getElem?_eq_some_iff.mp hk
  have hmod : k % 256 < t.names.length := (mod_le k 256).trans_lt hlt
  obtain ⟨⟨table, key⟩, hx⟩ : ∃ x, t.names[k % 256]? = some x := ⟨_, getElem?_eq_getElem hmod⟩
  have htable := table_ne_sign hcan (mem_of_getElem? hx)
  have hspelled : spelled t.names (k % 256) = some key := by
    rw [spelled, hx]
    cases table with
    | terminal => rfl
    | nonterminal => rfl
    | sign => exact absurd rfl htable
  rw [hspelled] at hback
  have hname : (table, key) = nameOf s := by
    refine eq_of_cased (hnum.cased _ (mem_of_getElem? hx)) (wellCased_nameOf s) htable ?_ ?_
    · exact fun he => absurd (nameOf_sign.mp he) (Bool.eq_false_iff.mp hw.1)
    · rw [nameOf, if_neg (Bool.eq_false_iff.mp hw.1), (hkey key).mp hback]
      split_ifs <;> rfl
  have hpos : k % 256 = k := hnum.position (hname ▸ hx) hk
  rw [← hpos]
  exact mod_lt k (by decide)

/-- **Symbols stay distinct and are read back** where the strings are canonical and their names
    are among the first 256; where one of the two fails alone, they are not. -/
theorem faithful_iff (t : GrammarText) : (t.Canonical ∧ t.Small → t.Faithful) ∧
    (t.Faithful → (t.Canonical ↔ t.Small)) := by
  refine ⟨fun h => faithful_of_canonical h.1 h.2, fun h => ?_⟩
  exact ⟨small_of_faithful h, canonical_of_faithful h⟩

/-- The comment says that `F_` is a kind as a whole; it is cut to the kind `F`. -/
theorem not_faithful_underscore : ¬ Faithful ⟨[['F'], ['F', '_']], ['F'], [['F'], ['F', '_']]⟩ := by
  rintro ⟨r, g, hbuild, hdistinct, -⟩
  have hrun : build ⟨[['F'], ['F', '_']], ['F'], [['F'], ['F', '_']]⟩ = some
      ([(['F'], ⟨0, 0, 0⟩), (['F', '_'], ⟨0, 0, 0⟩), (['F'], ⟨0, 0, 0⟩), (['F'], ⟨0, 0, 0⟩),
        (['F', '_'], ⟨0, 0, 0⟩)],
        ⟨[("epsilon", 1)], [("F", 0)], [], [], 2⟩) := rfl
  cases Option.mem_unique hbuild hrun
  exact hdistinct (['F'], ⟨0, 0, 0⟩) mem_cons_self (['F', '_'], ⟨0, 0, 0⟩)
    (mem_cons_of_mem _ mem_cons_self) (by decide) rfl

end GrammarText

end SvfGrammarBuilder
