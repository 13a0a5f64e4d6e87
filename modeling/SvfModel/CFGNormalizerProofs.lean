import SvfModel.LoopProofs
import SvfModel.CfgProofs
import SvfModel.CFGrammarProofs

/-!
# Binarising a grammar

`ebnf_bin()` cuts every right-hand side of three or more symbols: the first symbol stays,
the suffix behind it gets a head of its own, and the suffix is cut on. A suffix that some
production already has is not named again: `check_head` looks for a head that carries it,
among the productions made so far and then among those of the grammar.

The heart is `Folded`: what a cut does to the productions, said once for a new head and for a
head that is found again. It keeps every production derivable, and it keeps the language as
long as the head has no other production. The loop does not check this, and it does not go
on cutting when it finds the head of an inner suffix; `RuleOk` says that neither happens.
-/

namespace SvfCFGNormalizer

open SvfLoop SvfCfg SvfCFGrammar List Option Nat
open ProductionMap (get_cons mem_get_insertProd)

-- ── the maps

/-- `m[sym]`, changed in place; the entry is made if there is none. -/
def alter (f : Productions → Productions) : ProductionMap → Symbol → ProductionMap
  | [], sym => [(sym, f [])]
  | (key, ps) :: m, sym =>
    if sym = key then (key, f ps) :: m else (key, ps) :: alter f m sym

theorem get_alter (f : Productions → Productions) (m : ProductionMap) (key sym : Symbol) :
    (alter f m key).get sym = if sym = key then f (m.get sym) else m.get sym := by
  induction m with
  | nil =>
    rw [alter, get_cons]
    by_cases h : sym = key
    · rw [if_pos h, if_pos h]
      rfl
    · rw [if_neg h, if_neg h]
  | cons q m ih =>
    obtain ⟨k, ps⟩ := q
    rw [alter]
    by_cases hk : key = k
    · subst hk
      rw [if_pos rfl, get_cons, get_cons]
      by_cases h : sym = key
      · rw [if_pos h, if_pos h, if_pos h]
      · rw [if_neg h, if_neg h, if_neg h]
    · rw [if_neg hk, get_cons, get_cons, ih]
      by_cases h : sym = k
      · rw [if_pos h, if_pos h, if_neg fun he => hk (he.symm.trans h)]
      · rw [if_neg h, if_neg h]

section

variable (m : ProductionMap)

def eraseProd (sym : Symbol) (prod : Production) : ProductionMap :=
  alter (fun ps => ps.filter (· ≠ prod)) m sym

theorem mem_get_eraseProd (key : Symbol) (prod : Production) (sym : Symbol) (p : Production) :
    p ∈ (eraseProd m key prod).get sym ↔ p ∈ m.get sym ∧ ¬ (sym = key ∧ p = prod) := by
  rw [eraseProd, get_alter]
  by_cases h : sym = key
  · rw [if_pos h, mem_filter, decide_eq_true_iff]
    simp [h]
  · rw [if_neg h]
    simp [h]

def clear (sym : Symbol) : ProductionMap := alter (fun _ => []) m sym

theorem mem_get_clear (key sym : Symbol) (p : Production) :
    p ∈ (clear m key).get sym ↔ p ∈ m.get sym ∧ sym ≠ key := by
  rw [clear, get_alter]
  by_cases h : sym = key
  · rw [if_pos h]
    simp [h]
  · rw [if_neg h]
    simp [h]

def keys : List Symbol := m.map Prod.fst

end

theorem mem_keys {m : ProductionMap} {sym : Symbol} {p : Production} (h : p ∈ m.get sym) :
    ∃ q ∈ m, q.1 = sym ∧ m.get sym = q.2 := by
  induction m with
  | nil => cases h
  | cons q m ih =>
    obtain ⟨k, ps⟩ := q
    rw [get_cons] at h ⊢
    by_cases hk : sym = k
    · rw [if_pos hk]
      exact ⟨(k, ps), mem_cons_self, hk.symm, rfl⟩
    · rw [if_neg hk] at h ⊢
      obtain ⟨q, hq, heq, hget⟩ := ih h
      exact ⟨q, mem_cons_of_mem _ hq, heq, hget⟩

/-- `Symbol symbol = u32_t(-1)`: what `check_head` answers when it finds nothing. -/
def noSymbol : Symbol := Symbol.ofU32 (2 ^ 32 - 1)

def check_head (grammar : ProductionMap) (rule : Production) : Symbol :=
  ((keys grammar).find? fun X => decide (rule ∈ grammar.get X)).getD noSymbol

theorem mem_of_check_head {m : ProductionMap} {rule : Production}
    (h : check_head m rule ≠ noSymbol) : rule ∈ m.get (check_head m rule) := by
  rw [check_head] at h ⊢
  cases hfind : (keys m).find? fun X => decide (rule ∈ m.get X) with
  | none =>
    rw [hfind] at h
    exact absurd rfl h
  | some X =>
    have := find?_some hfind
    exact of_decide_eq_true this

-- ── the symbol tables

def insertNonterminalKind (g : GrammarBase) (kindStr : String) : Option (ℕ × GrammarBase) :=
  match g.nonterminals.lookup kindStr with
  | none => some (g.totalKind,
      { g with nonterminals := (kindStr, g.totalKind) :: g.nonterminals,
               totalKind := g.totalKind + 1 })
  | some _ => (g.strToKind kindStr).map fun kind => (kind, g)

def insertNonTerminalSymbol (g : GrammarBase) (symbolStr : List Char) :
    Option (Symbol × GrammarBase) :=
  (insertNonterminalKind g (String.ofList (extractKindStrFromSymbolStr symbolStr))).bind fun r =>
    (Symbol.withAttribute r.1 (extractAttributeStrFromSymbolStr symbolStr)).map fun sym => (sym, r.2)

theorem mem_of_lookup {l : List (String × ℕ)} {name : String} {kind : ℕ}
    (h : l.lookup name = some kind) : (name, kind) ∈ l := by
  induction l with
  | nil => cases h
  | cons q l ih =>
    obtain ⟨k, v⟩ := q
    rw [lookup_cons] at h
    by_cases hk : name = k
    · rw [beq_iff_eq.mpr hk] at h
      rw [hk, ← some.inj h]
      exact mem_cons_self
    · rw [beq_eq_false_iff_ne.mpr hk] at h
      exact mem_cons_of_mem _ (ih h)

def IsTerminal (g : GrammarBase) (X : Symbol) : Prop :=
  ∃ p ∈ g.terminals, X.kind.val = p.2 % 256

def IsNonterminal (g : GrammarBase) (X : Symbol) : Prop :=
  ∃ p ∈ g.nonterminals, X.kind.val = p.2 % 256

instance instDecidableIsTerminal (g : GrammarBase) (X : Symbol) : Decidable (IsTerminal g X) :=
  inferInstanceAs (Decidable (∃ p ∈ g.terminals, X.kind.val = p.2 % 256))

instance instDecidableIsNonterminal (g : GrammarBase) (X : Symbol) :
    Decidable (IsNonterminal g X) :=
  inferInstanceAs (Decidable (∃ p ∈ g.nonterminals, X.kind.val = p.2 % 256))

def Fresh (g : GrammarBase) (X : Symbol) : Prop :=
  ∀ p ∈ g.terminals ++ g.nonterminals, X.kind.val ≠ p.2 % 256

instance instDecidableFresh (g : GrammarBase) (X : Symbol) : Decidable (Fresh g X) :=
  inferInstanceAs (Decidable (∀ p ∈ g.terminals ++ g.nonterminals, X.kind.val ≠ p.2 % 256))

theorem Fresh.not_terminal {g : GrammarBase} {X : Symbol} (h : Fresh g X) : ¬ IsTerminal g X := by
  rintro ⟨p, hp, hX⟩
  exact h p (mem_append_left _ hp) hX

theorem Fresh.not_nonterminal {g : GrammarBase} {X : Symbol} (h : Fresh g X) :
    ¬ IsNonterminal g X := by
  rintro ⟨p, hp, hX⟩
  exact h p (mem_append_right _ hp) hX

/-- A variable attribute is none or a letter, as `strToSymbol` reads it. -/
def Lettered (X : Symbol) : Prop :=
  X.variableAttri.val = 0 ∨ (Char.ofNat X.variableAttri).isAlpha = true

instance instDecidableLettered (X : Symbol) : Decidable (Lettered X) :=
  inferInstanceAs (Decidable (X.variableAttri.val = 0 ∨ (Char.ofNat X.variableAttri).isAlpha = true))

-- ── ebnf_bin

structure Binariser extends GrammarBase where
  newTerminalSubscript : ℕ
  new_grammar : ProductionMap

namespace Binariser

def variableAttributeSet (long_run : Production) : List (Fin 256) :=
  ((long_run.map Symbol.variableAttri).filter (·.val ≠ 0)).dedup

def tempStr (num : ℕ) (long_run : Production) : List Char :=
  'X' :: Nat.toDigits 10 num ++
    match variableAttributeSet long_run with
    | [v] => ['_', Char.ofNat v]
    | _ => []

def newSymbol (s : Binariser) (long_run : Production) : Option (Symbol × Binariser) :=
  (insertNonTerminalSymbol s.toGrammarBase (tempStr s.newTerminalSubscript long_run)).map fun r =>
    (r.1, { s with toGrammarBase := r.2, newTerminalSubscript := s.newTerminalSubscript + 1 })

def findHead (s : Binariser) (long_run : Production) : Symbol :=
  if check_head s.new_grammar long_run = noSymbol then check_head s.rawProductions long_run
  else check_head s.new_grammar long_run

/-- The end of an iteration: `X → first long_run` becomes `X → first tempSym` and
    `tempSym → long_run`, among the new productions. -/
def cut (s : Binariser) (X first : Symbol) (long_run : Production) (tempSym : Symbol) : Binariser :=
  { s with new_grammar :=
      (ProductionMap.insertProd (eraseProd s.new_grammar X (first :: long_run)) X
        [first, tempSym]).insertProd tempSym long_run }

/-- The loop that cuts a run. When it finds the head of what is left, it goes on there and
    leaves the production it came from as it is. `none` where it erases the end of a set. -/
def splitRun : Binariser → Symbol → Production → Option Binariser
  | s, _, [] => some s
  | s, X, first :: long_run =>
    if long_run.length < 2 then some s
    else if s.findHead long_run ≠ noSymbol then splitRun s (s.findHead long_run) long_run
    else
      (s.newSymbol long_run).bind fun r =>
        if first :: long_run ∈ r.2.new_grammar.get X then
          splitRun (r.2.cut X first long_run r.1) r.1 long_run
        else none

def nameRun (s : Binariser) (head first : Symbol) (long_run : Production) (X : Symbol) : Binariser :=
  { s with rawProductions := s.rawProductions.insertProd head [first, X],
           new_grammar := ProductionMap.insertProd (clear s.new_grammar X) X long_run }

def eraseRule (s : Binariser) (head : Symbol) (rule : Production) : Binariser :=
  { s with rawProductions := eraseProd s.rawProductions head rule }

def binRule (head : Symbol) (s : Binariser) : Production → Option Binariser
  | first :: second :: third :: rest =>
    let long_run := second :: third :: rest
    if first :: long_run ∈ s.rawProductions.get head then
      let t := s.eraseRule head (first :: long_run)
      if t.findHead long_run ≠ noSymbol then
        splitRun (t.nameRun head first long_run (t.findHead long_run)) (t.findHead long_run) long_run
      else
        (t.newSymbol long_run).bind fun r =>
          splitRun (r.2.nameRun head first long_run r.1) r.1 long_run
    else none
  | _ => some s

/-- The body of the loop over the heads. -/
def binHead (s : Binariser) (head : Symbol) : Option Binariser :=
  (s.rawProductions.get head).foldlM (binRule head) s

def mergeInto (new_grammar m : ProductionMap) : ProductionMap :=
  (keys new_grammar).foldl
    (fun m X => (new_grammar.get X).foldl (fun m p => m.insertProd X p) m) m

/-- The end of `ebnf_bin`: the new productions join the others. -/
def merge (s : Binariser) : Binariser :=
  { s with rawProductions := mergeInto s.new_grammar s.rawProductions }

def removeFirst (ps : Productions) : Productions :=
  ps.foldl (fun acc rule => (acc.filter (· ≠ rule)).insert rule.tail) ps

def removeFirstSymbol (m : ProductionMap) : ProductionMap := m.map fun q => (q.1, removeFirst q.2)

/-- What `ebnf_bin` begins to cut. -/
def start (grammar : GrammarBase) (newTerminalSubscript : ℕ) : Binariser :=
  { grammar with
    rawProductions := removeFirstSymbol grammar.rawProductions
    newTerminalSubscript := newTerminalSubscript
    new_grammar := [] }

def ebnf_bin (grammar : GrammarBase) (newTerminalSubscript : ℕ) : Option Binariser :=
  let s := start grammar newTerminalSubscript
  ((keys s.rawProductions).foldlM binHead s).map merge

/-- `insertToCFLGrammar` for every production, the head put back before it. -/
def normalize (s : Binariser) : Option CFGrammar :=
  CFGrammar.insertAll s.toGrammarBase
    ((keys s.rawProductions).flatMap fun X => (s.rawProductions.get X).map fun p => X :: p)

end Binariser

-- ── new symbols

/-- `t` has a name that `s` did not have; nothing else changed. -/
structure Added (s s' : Binariser) (t : Symbol) : Prop where
  raw : s'.rawProductions = s.rawProductions
  new : s'.new_grammar = s.new_grammar
  terminals : s'.terminals = s.terminals
  nonterminals : ∀ p ∈ s.nonterminals, p ∈ s'.nonterminals
  nonterminal : IsNonterminal s'.toGrammarBase t
  only : ∀ p ∈ s'.nonterminals, p ∈ s.nonterminals ∨ t.kind.val = p.2 % 256

theorem attributeStr_tempStr (num : ℕ) {long_run : Production} (h : ∀ X ∈ long_run, Lettered X) :
    extractAttributeStrFromSymbolStr (Binariser.tempStr num long_run) = [] ∨ ∃ c : Char, c.isAlpha ∧
        extractAttributeStrFromSymbolStr (Binariser.tempStr num long_run) = [c] := by
  have hplain : extractAttributeStrFromSymbolStr ('X' :: Nat.toDigits 10 num) = [] := by
    have hall : ∀ c ∈ ('X' :: Nat.toDigits 10 num).reverse, decide (c ≠ '_') := by
      intro c hc
      rw [decide_eq_true_iff]
      rcases mem_cons.mp (mem_reverse.mp hc) with rfl | hc
      · decide
      · exact fun heq => underscore_not_in_toDigits (heq ▸ hc)
    rw [extractAttributeStrFromSymbolStr, takeWhile_eq_self_iff.mpr hall,
      length_reverse, if_pos rfl]
  rw [Binariser.tempStr]
  split
  case h_1 v hv =>
    have hmem : v ∈ Binariser.variableAttributeSet long_run := by
      rw [hv]
      exact mem_cons_self
    rw [Binariser.variableAttributeSet, mem_dedup, mem_filter] at hmem
    obtain ⟨hmem, hne⟩ := hmem
    obtain ⟨X, hX, rfl⟩ := mem_map.mp hmem
    have hletter : (Char.ofNat X.variableAttri).isAlpha :=
      (h X hX).resolve_left (of_decide_eq_true hne)
    refine .inr ⟨Char.ofNat X.variableAttri, hletter, ?_⟩
    have hc : Char.ofNat X.variableAttri ≠ '_' := by
      intro heq
      rw [heq] at hletter
      cases hletter
    rw [extractAttributeStrFromSymbolStr]
    simp [hc]
  case h_2 =>
    rw [append_nil]
    exact .inl hplain

theorem newSymbol_of {s : Binariser} {long_run : Production} {kind : ℕ} {g' : GrammarBase}
    {t : Symbol}
    (hkind : insertNonterminalKind s.toGrammarBase (String.ofList (extractKindStrFromSymbolStr
      (Binariser.tempStr s.newTerminalSubscript long_run))) = some (kind, g'))
    (ht : Symbol.withAttribute kind (extractAttributeStrFromSymbolStr
      (Binariser.tempStr s.newTerminalSubscript long_run)) = some t) :
    s.newSymbol long_run = some (t,
      { s with toGrammarBase := g', newTerminalSubscript := s.newTerminalSubscript + 1 }) := by
  rw [Binariser.newSymbol, insertNonTerminalSymbol, hkind, bind_some, ht]
  rfl

theorem newSymbol_spec (s : Binariser) {long_run : Production} (h : ∀ X ∈ long_run, Lettered X) :
    ∃ t s', s.newSymbol long_run = some (t, s') ∧ (Fresh s.toGrammarBase t → Added s s' t) := by
  have hsymbol : ∀ kind : ℕ, ∃ sym : Symbol, sym.kind.val = kind % 256 ∧
      Symbol.withAttribute kind (extractAttributeStrFromSymbolStr
        (Binariser.tempStr s.newTerminalSubscript long_run)) = some sym := by
    intro kind
    rcases attributeStr_tempStr s.newTerminalSubscript h with hnone | ⟨c, hc, hone⟩
    · rw [hnone]
      exact ⟨_, rfl, rfl⟩
    · rw [hone, Symbol.withAttribute, if_pos hc]
      exact ⟨_, rfl, rfl⟩
  let name := String.ofList (extractKindStrFromSymbolStr
    (Binariser.tempStr s.newTerminalSubscript long_run))
  cases hlookup : s.nonterminals.lookup name with
  | none =>
    obtain ⟨t, hkind, ht⟩ := hsymbol s.totalKind
    have hnew : insertNonterminalKind s.toGrammarBase name = some (s.totalKind,
        { s.toGrammarBase with
          nonterminals := (name, s.totalKind) :: s.nonterminals
          totalKind := s.totalKind + 1 }) := by
      rw [insertNonterminalKind, hlookup]
    refine ⟨t, _, newSymbol_of hnew ht, fun _ => ?_⟩
    · constructor
      case raw => rfl
      case new => rfl
      case terminals => rfl
      case nonterminals => exact fun p hp => mem_cons_of_mem _ hp
      case nonterminal => exact ⟨(name, s.totalKind), mem_cons_self, hkind⟩
      case only =>
        intro p hp
        rcases mem_cons.mp hp with rfl | hp
        · exact .inr hkind
        · exact .inl hp
  | some k =>
    -- the name is in use: so is the kind
    have hkind : ∃ kind, s.strToKind name = some kind ∧
        ∃ p ∈ s.terminals ++ s.nonterminals, p.2 = kind := by
      cases hterminal : s.terminals.lookup name with
      | some kind =>
        refine ⟨kind, ?_, (name, kind), ?_, rfl⟩
        · rw [GrammarBase.strToKind, hterminal]
          rfl
        · exact mem_append_left _ (mem_of_lookup hterminal)
      | none =>
        refine ⟨k, ?_, (name, k), ?_, rfl⟩
        · rw [GrammarBase.strToKind, hterminal, hlookup]
          rfl
        · exact mem_append_right _ (mem_of_lookup hlookup)
    obtain ⟨kind, hstr, p, hp, rfl⟩ := hkind
    obtain ⟨t, hkind, ht⟩ := hsymbol p.2
    have hold : insertNonterminalKind s.toGrammarBase name = some (p.2, s.toGrammarBase) := by
      rw [insertNonterminalKind, hlookup]
      exact map_eq_some_iff.mpr ⟨p.2, hstr, rfl⟩
    exact ⟨t, _, newSymbol_of hold ht, fun hfresh => absurd hkind (hfresh p hp)⟩

-- ── what the productions mean

/-- The right-hand side that `p` stands for: the epsilon symbol alone is the empty one. -/
def body (eps : Symbol) (p : Production) : List Symbol := if p = [eps] then [] else p

theorem body_of_length {eps : Symbol} {p : Production} (h : 2 ≤ p.length) : body eps p = p := by
  refine if_neg fun heq => ?_
  rw [heq, length_singleton] at h
  exact absurd h (by decide)

theorem mem_of_mem_body {eps X : Symbol} {p : Production} (h : X ∈ body eps p) : X ∈ p := by
  rw [body] at h
  by_cases heq : p = [eps]
  · rw [if_pos heq] at h
    cases h
  · rw [if_neg heq] at h
    exact h

/-- The grammar of some productions, as a relation. -/
def RuleOf (eps : Symbol) (P : Symbol → Production → Prop) (X : Symbol) (rhs : List Symbol) : Prop :=
  ∃ p, P X p ∧ rhs = body eps p

theorem RuleOf.of_length {eps : Symbol} {P : Symbol → Production → Prop} {X : Symbol}
    {p : Production} (hp : P X p) (h : 2 ≤ p.length) : RuleOf eps P X p :=
  ⟨p, hp, (body_of_length h).symm⟩

/-- What a cut does to the productions: `A → f T` is now `A → f X` with `X → T`, and `X` had
    no other production before. -/
structure Folded (P P' : Symbol → Production → Prop) (A f X : Symbol) (T : Production) : Prop where
  sub : ∀ Y p, P' Y p → P Y p ∨ (Y = A ∧ p = [f, X]) ∨ (Y = X ∧ p = T)
  kept : ∀ Y p, P Y p → P' Y p ∨ (Y = A ∧ p = f :: T)
  old : P A (f :: T)
  named : P' A [f, X]
  suffix : P' X T
  sole : ∀ p, P X p → p = T
  length : 2 ≤ T.length

section Folded

variable {P P' : Symbol → Production → Prop} {A f X eps : Symbol} {T : Production}

section

variable (h : Folded P P' A f X T)
include h

theorem Folded.length_old : 2 ≤ (f :: T).length :=
  h.length.trans (le_succ _)

theorem Folded.derivable {Y : Symbol} {rhs : List Symbol}
    (hY : RuleOf eps P Y rhs) : Yields (RuleOf eps P') [Y] rhs := by
  obtain ⟨p, hp, rfl⟩ := hY
  rcases h.kept Y p hp with hp | ⟨rfl, rfl⟩
  · exact Yields.single ⟨p, hp, rfl⟩
  · rw [body_of_length h.length_old]
    have hnamed : Yields (RuleOf eps P') [Y] ([f] ++ [X]) :=
      Yields.single (RuleOf.of_length h.named (le_refl 2))
    have hsuffix : Yields (RuleOf eps P') [X] T :=
      Yields.single (RuleOf.of_length h.suffix h.length)
    exact hnamed.trans ((Yields.refl [f]).append hsuffix)

/-- A cut adds nothing to the language: where `X` is new it occurs nowhere else, and where it
    is not, it stood for the suffix before. -/
theorem Folded.language {α w : List Symbol} (hw : X ∉ w)
    (hX : P X T ∨ (∀ Y p, P Y p → Y ≠ X ∧ X ∉ p) ∧ X ∉ α)
    (hyields : Yields (RuleOf eps P') α w) : Yields (RuleOf eps P) α w := by
  let Q : Symbol → Production → Prop := fun Y p => P Y p ∨ (Y = X ∧ p = T)
  have hQ : Yields (RuleOf eps Q) α w := by
    refine Yields.unname (f := f) (X := X) (T := T) ?_ ?_ hyields hw
    · rintro Y rhs ⟨p, hp, rfl⟩
      rcases h.sub Y p hp with hp | ⟨rfl, rfl⟩ | hp
      · exact .inl ⟨p, .inl hp, rfl⟩
      · refine .inr ⟨body_of_length (le_refl 2), ?_⟩
        exact RuleOf.of_length (.inl h.old) h.length_old
      · exact .inl ⟨p, .inr hp, rfl⟩
    · rintro rhs ⟨p, hp | ⟨-, rfl⟩, rfl⟩
      · rw [h.sole p hp, body_of_length h.length]
      · exact body_of_length h.length
  rcases hX with hX | ⟨hX, hα⟩
  · refine hQ.of_rules fun Y rhs hY => Yields.single ?_
    obtain ⟨p, hp | ⟨rfl, rfl⟩, rfl⟩ := hY
    · exact ⟨p, hp, rfl⟩
    · exact ⟨p, hX, rfl⟩
  · refine Yields.unreached ?_ hQ hα
    rintro Y rhs ⟨p, hp | ⟨rfl, -⟩, rfl⟩ hne
    · exact ⟨⟨p, hp, rfl⟩, fun hmem => (hX Y p hp).2 (mem_of_mem_body hmem)⟩
    · exact absurd rfl hne

end

end Folded

-- ── the grammar that comes in

/-- A grammar of plain productions as the parser leaves it: a production begins with its
    head, heads are nonterminals, every other symbol is a terminal or a nonterminal and no
    symbol is both, and `epsilon` is a terminal. -/
structure PlainGrammar extends GrammarBase where
  newTerminalSubscript : ℕ
  epsilon : ℕ
  epsilon_eq : terminals.lookup "epsilon" = some epsilon
  head_first : ∀ q ∈ rawProductions, ∀ p ∈ q.2, ∃ rhs, p = q.1 :: rhs
  prods_nodup : ∀ q ∈ rawProductions, q.2.Nodup
  head_nonterminal : ∀ q ∈ rawProductions, IsNonterminal toGrammarBase q.1
  symbols : ∀ q ∈ rawProductions, ∀ p ∈ q.2, ∀ X ∈ p,
    IsTerminal toGrammarBase X ∨ IsNonterminal toGrammarBase X
  lettered : ∀ q ∈ rawProductions, ∀ p ∈ q.2, ∀ X ∈ p, Lettered X
  disjoint : ∀ a ∈ terminals, ∀ b ∈ nonterminals, a.2 % 256 ≠ b.2 % 256

namespace PlainGrammar

variable (g : PlainGrammar)

/-- The symbol that `insertToCFLGrammar` looks for. -/
def eps : Symbol := Symbol.ofU32 g.epsilon

/-- `X → rhs` is a production of the grammar. -/
def Rule : Symbol → List Symbol → Prop := RuleOf g.eps fun X p => X :: p ∈ g.rawProductions.get X

end PlainGrammar

-- ── the invariant

namespace Binariser

def HasProd (s : Binariser) (X : Symbol) (p : Production) : Prop :=
  p ∈ s.rawProductions.get X ∨ p ∈ s.new_grammar.get X

/-- What `ebnf_bin` has at any time is a grammar for the same language: it still has every
    production, cut or whole, and what it generates from the symbols that came in is what
    they generated. -/
structure Inv (g : PlainGrammar) (s : Binariser) : Prop where
  terminals : s.terminals = g.terminals
  nonterminals : ∀ p ∈ g.nonterminals, p ∈ s.nonterminals
  disjoint : ∀ a ∈ s.terminals, ∀ b ∈ s.nonterminals, a.2 % 256 ≠ b.2 % 256
  head : ∀ X p, s.HasProd X p → IsNonterminal s.toGrammarBase X
  symbols : ∀ X p, s.HasProd X p → ∀ Y ∈ p,
    IsTerminal s.toGrammarBase Y ∨ IsNonterminal s.toGrammarBase Y
  raw : ∀ X p, p ∈ s.rawProductions.get X → X :: p ∈ g.rawProductions.get X ∨ p.length = 2
  nodup : ∀ X, (s.rawProductions.get X).Nodup
  derivable : ∀ X rhs, g.Rule X rhs → Yields (RuleOf g.eps s.HasProd) [X] rhs
  language : ∀ α w : List Symbol,
    (∀ X ∈ α, IsTerminal g.toGrammarBase X ∨ IsNonterminal g.toGrammarBase X) →
    (∀ X ∈ w, IsTerminal g.toGrammarBase X) →
    Yields (RuleOf g.eps s.HasProd) α w → Yields g.Rule α w

variable {g : PlainGrammar} {s s' : Binariser} {A f X : Symbol} {T : Production}

theorem not_terminal_and_nonterminal
    (h : ∀ a ∈ s.terminals, ∀ b ∈ s.nonterminals, a.2 % 256 ≠ b.2 % 256)
    {Y : Symbol} (ht : IsTerminal s.toGrammarBase Y) : ¬ IsNonterminal s.toGrammarBase Y := by
  rintro ⟨b, hb, hY⟩
  obtain ⟨a, ha, hY'⟩ := ht
  exact h a ha b hb (hY'.symm.trans hY)

/-- **The step lemma**: a cut whose suffix has one meaning keeps the invariant. -/
theorem Inv.folded (h : Inv g s) (hF : Folded s.HasProd s'.HasProd A f X T)
    (hterminals : s'.terminals = s.terminals)
    (hnonterminals : ∀ p ∈ s.nonterminals, p ∈ s'.nonterminals)
    (hdisjoint : ∀ a ∈ s'.terminals, ∀ b ∈ s'.nonterminals, a.2 % 256 ≠ b.2 % 256)
    (hX : IsNonterminal s'.toGrammarBase X)
    (hraw : ∀ Y p, p ∈ s'.rawProductions.get Y → p ∈ s.rawProductions.get Y ∨ p.length = 2)
    (hnodup : ∀ Y, (s'.rawProductions.get Y).Nodup)
    (hsuffix : s.HasProd X T ∨ Fresh s.toGrammarBase X) : Inv g s' := by
  have hterminal : ∀ Y, IsTerminal s'.toGrammarBase Y ↔ IsTerminal s.toGrammarBase Y := by
    intro Y
    rw [IsTerminal, IsTerminal, hterminals]
  have hnonterminal : ∀ Y, IsNonterminal s.toGrammarBase Y → IsNonterminal s'.toGrammarBase Y := by
    rintro Y ⟨p, hp, hY⟩
    exact ⟨p, hnonterminals p hp, hY⟩
  have hknown : ∀ Y, IsTerminal s.toGrammarBase Y ∨ IsNonterminal s.toGrammarBase Y →
      IsTerminal s'.toGrammarBase Y ∨ IsNonterminal s'.toGrammarBase Y := fun Y hY =>
    hY.imp (hterminal Y).mpr (hnonterminal Y)
  constructor
  case terminals => exact hterminals.trans h.terminals
  case nonterminals => exact fun p hp => hnonterminals p (h.nonterminals p hp)
  case disjoint => exact hdisjoint
  case head =>
    intro Y p hp
    rcases hF.sub Y p hp with hp | ⟨rfl, -⟩ | ⟨rfl, -⟩
    · exact hnonterminal Y (h.head Y p hp)
    · exact hnonterminal Y (h.head Y _ hF.old)
    · exact hX
  case symbols =>
    intro Y p hp Z hZ
    rcases hF.sub Y p hp with hp | ⟨rfl, rfl⟩ | ⟨rfl, rfl⟩
    · exact hknown Z (h.symbols Y p hp Z hZ)
    · rcases mem_cons.mp hZ with rfl | hZ
      · exact hknown Z (h.symbols Y _ hF.old Z mem_cons_self)
      · rw [mem_singleton.mp hZ]
        exact .inr hX
    · exact hknown Z (h.symbols A _ hF.old Z (mem_cons_of_mem f hZ))
  case raw =>
    intro Y p hp
    rcases hraw Y p hp with hp | hp
    · exact h.raw Y p hp
    · exact .inr hp
  case nodup => exact hnodup
  case derivable =>
    intro Y rhs hY
    exact (h.derivable Y rhs hY).of_rules fun Z rhs hZ => hF.derivable hZ
  case language =>
    intro α w hα hw hyields
    have hXw : X ∉ w := by
      intro hmem
      have hXt : IsTerminal s'.toGrammarBase X := by
        obtain ⟨p, hp, hkind⟩ := hw X hmem
        exact ⟨p, by rw [hterminals, h.terminals]; exact hp, hkind⟩
      exact not_terminal_and_nonterminal hdisjoint hXt hX
    refine h.language α w hα hw (hF.language hXw ?_ hyields)
    refine hsuffix.imp_right fun hfresh => ?_
    have hneither : ¬ (IsTerminal s.toGrammarBase X ∨ IsNonterminal s.toGrammarBase X) :=
      not_or.mpr ⟨hfresh.not_terminal, hfresh.not_nonterminal⟩
    refine ⟨fun Y p hp => ⟨?_, ?_⟩, ?_⟩
    · rintro rfl
      exact hfresh.not_nonterminal (h.head Y p hp)
    · exact fun hmem => hneither (h.symbols Y p hp X hmem)
    · intro hmem
      refine hneither ((hα X hmem).imp ?_ ?_)
      · rintro ⟨p, hp, hkind⟩
        exact ⟨p, by rw [h.terminals]; exact hp, hkind⟩
      · rintro ⟨p, hp, hkind⟩
        exact ⟨p, h.nonterminals p hp, hkind⟩

theorem disjoint_of_added {t : Symbol} (h : Added s s' t) (hfresh : Fresh s.toGrammarBase t)
    (hdisjoint : ∀ a ∈ s.terminals, ∀ b ∈ s.nonterminals, a.2 % 256 ≠ b.2 % 256) :
    ∀ a ∈ s'.terminals, ∀ b ∈ s'.nonterminals, a.2 % 256 ≠ b.2 % 256 := by
  intro a ha b hb heq
  rw [h.terminals] at ha
  rcases h.only b hb with hb | hb
  · exact hdisjoint a ha b hb heq
  · exact hfresh a (mem_append_left _ ha) (hb.trans heq.symm)

-- ── cutting a run

def SplitOk : Binariser → Symbol → Production → Prop
  | _, _, [] => True
  | s, X, first :: long_run =>
    2 ≤ long_run.length → s.findHead long_run = noSymbol ∧
      ∀ r ∈ s.newSymbol long_run, Fresh s.toGrammarBase r.1 ∧
        SplitOk (r.2.cut X first long_run r.1) r.1 long_run

instance instDecidableSplitOk : ∀ run s X, Decidable (SplitOk s X run)
  | [], _, _ => isTrue trivial
  | first :: long_run, s, X =>
    have := fun r : Symbol × Binariser =>
      instDecidableSplitOk long_run (r.2.cut X first long_run r.1) r.1
    inferInstanceAs (Decidable (2 ≤ long_run.length → s.findHead long_run = noSymbol ∧
      ∀ r ∈ s.newSymbol long_run, Fresh s.toGrammarBase r.1 ∧
        SplitOk (r.2.cut X first long_run r.1) r.1 long_run))

theorem hasProd_cut (s : Binariser) (X first t : Symbol) (long_run : Production) (Y : Symbol)
    (p : Production) : (s.cut X first long_run t).HasProd Y p ↔
      p ∈ s.rawProductions.get Y ∨ (Y = t ∧ p = long_run) ∨ (Y = X ∧ p = [first, t]) ∨
        (p ∈ s.new_grammar.get Y ∧ ¬ (Y = X ∧ p = first :: long_run)) := by
  rw [HasProd, cut, mem_get_insertProd, mem_get_insertProd, mem_get_eraseProd]

theorem Inv.cut (h : Inv g s) {first t : Symbol} {long_run : Production}
    (hmem : first :: long_run ∈ s.new_grammar.get X) (hlen : 2 ≤ long_run.length)
    (hadded : Added s s' t) (hfresh : Fresh s.toGrammarBase t) :
    Inv g (s'.cut X first long_run t) := by
  have hsole : ∀ p, ¬ s.HasProd t p := fun p hp => hfresh.not_nonterminal (h.head t p hp)
  have hF : Folded s.HasProd (s'.cut X first long_run t).HasProd X first t long_run := by
    constructor
    case sub =>
      intro Y p hp
      rw [hasProd_cut, hadded.raw, hadded.new] at hp
      rcases hp with hp | hp | hp | ⟨hp, -⟩
      · exact .inl (.inl hp)
      · exact .inr (.inr hp)
      · exact .inr (.inl hp)
      · exact .inl (.inr hp)
    case kept =>
      intro Y p hp
      by_cases heq : Y = X ∧ p = first :: long_run
      · exact .inr heq
      · left
        rw [hasProd_cut, hadded.raw, hadded.new]
        exact hp.imp_right fun hp => .inr (.inr ⟨hp, heq⟩)
    case old => exact .inr hmem
    case named => exact (hasProd_cut _ _ _ _ _ _ _).mpr (.inr (.inr (.inl ⟨rfl, rfl⟩)))
    case suffix => exact (hasProd_cut _ _ _ _ _ _ _).mpr (.inr (.inl ⟨rfl, rfl⟩))
    case sole => exact fun p hp => absurd hp (hsole p)
    case length => exact hlen
  have hdisjoint := disjoint_of_added hadded hfresh h.disjoint
  refine h.folded hF hadded.terminals hadded.nonterminals hdisjoint hadded.nonterminal ?_ ?_
    (.inr hfresh)
  · intro Y p hp
    rw [Binariser.cut, hadded.raw] at hp
    exact .inl hp
  · intro Y
    rw [Binariser.cut, hadded.raw]
    exact h.nodup Y

/-- **A run is cut to the end.** Of the new productions only `X → run` may be longer than two
    symbols before, and none is after. -/
theorem splitRun_spec : ∀ (run : Production) (s : Binariser) (X : Symbol), Inv g s →
    run ∈ s.new_grammar.get X →
    (∀ Y p, p ∈ s.new_grammar.get Y → p.length = 2 ∨ (Y = X ∧ p = run)) →
    2 ≤ run.length → (∀ Y ∈ run, Lettered Y) → SplitOk s X run →
    ∃ t, splitRun s X run = some t ∧ Inv g t ∧ t.rawProductions = s.rawProductions ∧
      ∀ Y p, p ∈ t.new_grammar.get Y → p.length = 2 := by
  intro run
  induction run with
  | nil =>
    intro s X _ _ _ hlen
    cases hlen
  | cons first long_run ih =>
    intro s X h hmem hnew hlen hletters hok
    rw [splitRun]
    by_cases hshort : long_run.length < 2
    · rw [if_pos hshort]
      refine ⟨s, rfl, h, rfl, fun Y p hp => ?_⟩
      rcases hnew Y p hp with hp | ⟨-, rfl⟩
      · exact hp
      · rw [length_cons] at hlen ⊢
        omega
    · rw [SplitOk] at hok
      obtain ⟨hfind, hok⟩ := hok (not_lt.mp hshort)
      have hletters : ∀ Y ∈ long_run, Lettered Y := fun Y hY =>
        hletters Y (mem_cons_of_mem first hY)
      obtain ⟨t, s', hsym, hadded⟩ := newSymbol_spec s hletters
      obtain ⟨hfresh, hok⟩ := hok (t, s') hsym
      have hadded := hadded hfresh
      have hmem' : first :: long_run ∈ s'.new_grammar.get X := by
        rw [hadded.new]
        exact hmem
      rw [if_neg hshort, if_neg (not_not_intro hfind), hsym, bind_some, if_pos hmem']
      have hinv := h.cut hmem (not_lt.mp hshort) hadded hfresh
      have hget : ∀ Y p, p ∈ (s'.cut X first long_run t).new_grammar.get Y ↔
          (Y = t ∧ p = long_run) ∨ (Y = X ∧ p = [first, t]) ∨
            (p ∈ s.new_grammar.get Y ∧ ¬ (Y = X ∧ p = first :: long_run)) := by
        intro Y p
        rw [Binariser.cut, mem_get_insertProd, mem_get_insertProd, mem_get_eraseProd, hadded.new]
      obtain ⟨u, hu, hinv, hraw, hnew⟩ := ih (s'.cut X first long_run t) t hinv
        ((hget t long_run).mpr (.inl ⟨rfl, rfl⟩))
        (by
          intro Y p hp
          rcases (hget Y p).mp hp with hp | ⟨-, rfl⟩ | ⟨hp, hne⟩
          · exact .inr hp
          · exact .inl rfl
          · exact .inl ((hnew Y p hp).resolve_right hne))
        (not_lt.mp hshort) hletters hok
      exact ⟨u, hu, hinv, hraw.trans hadded.raw, hnew⟩

-- ── naming a suffix

/-- What the suffix of `head → first long_run` needs in `s`, where `t` is `s` without the
    production: the head found for it has no other production, or else a new symbol is made;
    and no inner suffix has a head. -/
def SuffixOk (s t : Binariser) (head first : Symbol) (long_run : Production) : Prop :=
  (t.findHead long_run ≠ noSymbol →
    (∀ p ∈ s.rawProductions.get (t.findHead long_run) ++ s.new_grammar.get (t.findHead long_run),
      p = long_run) ∧
    SplitOk (t.nameRun head first long_run (t.findHead long_run)) (t.findHead long_run) long_run) ∧
  (t.findHead long_run = noSymbol → ∀ r ∈ t.newSymbol long_run, Fresh t.toGrammarBase r.1 ∧
    SplitOk (r.2.nameRun head first long_run r.1) r.1 long_run)

instance instDecidableSuffixOk (s t : Binariser) (head first : Symbol) (long_run : Production) :
    Decidable (SuffixOk s t head first long_run) :=
  inferInstanceAs (Decidable ((t.findHead long_run ≠ noSymbol →
    (∀ p ∈ s.rawProductions.get (t.findHead long_run) ++ s.new_grammar.get (t.findHead long_run),
      p = long_run) ∧
    SplitOk (t.nameRun head first long_run (t.findHead long_run)) (t.findHead long_run) long_run) ∧
  (t.findHead long_run = noSymbol → ∀ r ∈ t.newSymbol long_run, Fresh t.toGrammarBase r.1 ∧
    SplitOk (r.2.nameRun head first long_run r.1) r.1 long_run)))

/-- **Where `ebnf_bin` is right about a production.** -/
def RuleOk (head : Symbol) (s : Binariser) : Production → Prop
  | first :: second :: third :: rest =>
    SuffixOk s (s.eraseRule head (first :: second :: third :: rest)) head first
      (second :: third :: rest)
  | _ => True

instance instDecidableRuleOk (head : Symbol) (s : Binariser) : ∀ rule, Decidable (RuleOk head s rule)
  | [] => isTrue trivial
  | [_] => isTrue trivial
  | [_, _] => isTrue trivial
  | first :: second :: third :: rest =>
    inferInstanceAs (Decidable (SuffixOk s (s.eraseRule head (first :: second :: third :: rest))
      head first (second :: third :: rest)))

/-- The grammar without `head → first long_run`, where a new symbol may have a name already. -/
structure Erased (s u : Binariser) (head : Symbol) (rule : Production) : Prop where
  raw : u.rawProductions = eraseProd s.rawProductions head rule
  new : u.new_grammar = s.new_grammar
  terminals : u.terminals = s.terminals
  nonterminals : ∀ p ∈ s.nonterminals, p ∈ u.nonterminals
  disjoint : ∀ a ∈ u.terminals, ∀ b ∈ u.nonterminals, a.2 % 256 ≠ b.2 % 256

variable {u : Binariser} {head first : Symbol} {long_run : Production}

section

variable (hu : Erased s u head (first :: long_run))
include hu

theorem mem_raw_nameRun (Y : Symbol) (p : Production) :
    p ∈ (u.nameRun head first long_run X).rawProductions.get Y ↔ (Y = head ∧ p = [first, X]) ∨
      (p ∈ s.rawProductions.get Y ∧ ¬ (Y = head ∧ p = first :: long_run)) := by
  rw [nameRun, mem_get_insertProd, hu.raw, mem_get_eraseProd]

theorem mem_new_nameRun (Y : Symbol) (p : Production) :
    p ∈ (u.nameRun head first long_run X).new_grammar.get Y ↔ (Y = X ∧ p = long_run) ∨
      (p ∈ s.new_grammar.get Y ∧ Y ≠ X) := by
  rw [nameRun, mem_get_insertProd, mem_get_clear, hu.new]

theorem folded_nameRun
    (hmem : first :: long_run ∈ s.rawProductions.get head) (hlen : 2 ≤ long_run.length)
    (hsole : ∀ p, s.HasProd X p → p = long_run) :
    Folded s.HasProd (u.nameRun head first long_run X).HasProd head first X long_run := by
  constructor
  case sub =>
    rintro Y p (hp | hp)
    · rcases (mem_raw_nameRun hu Y p).mp hp with hp | ⟨hp, -⟩
      · exact .inr (.inl hp)
      · exact .inl (.inl hp)
    · rcases (mem_new_nameRun hu Y p).mp hp with hp | ⟨hp, -⟩
      · exact .inr (.inr hp)
      · exact .inl (.inr hp)
  case kept =>
    intro Y p hp
    by_cases heq : Y = head ∧ p = first :: long_run
    · exact .inr heq
    · left
      by_cases hY : Y = X
      · -- whatever the name stood for, it was the suffix
        subst hY
        exact .inr ((mem_new_nameRun hu Y p).mpr (.inl ⟨rfl, hsole p hp⟩))
      · rcases hp with hp | hp
        · exact .inl ((mem_raw_nameRun hu Y p).mpr (.inr ⟨hp, heq⟩))
        · exact .inr ((mem_new_nameRun hu Y p).mpr (.inr ⟨hp, hY⟩))
  case old => exact .inl hmem
  case named => exact .inl ((mem_raw_nameRun hu head _).mpr (.inl ⟨rfl, rfl⟩))
  case suffix => exact .inr ((mem_new_nameRun hu X _).mpr (.inl ⟨rfl, rfl⟩))
  case sole => exact hsole
  case length => exact hlen

end

theorem insertProd_eq_alter (m : ProductionMap) (X : Symbol) (p : Production) :
    m.insertProd X p = alter (fun ps => ps.insert p) m X := by
  induction m with
  | nil => rfl
  | cons q m ih =>
    rw [ProductionMap.insertProd, alter, ih]

theorem nodup_nameRun (hu : Erased s u head (first :: long_run))
    (h : ∀ Y, (s.rawProductions.get Y).Nodup) (Y : Symbol) :
    ((u.nameRun head first long_run X).rawProductions.get Y).Nodup := by
  rw [nameRun, hu.raw, insertProd_eq_alter, get_alter, eraseProd, get_alter]
  by_cases hY : Y = head
  · rw [if_pos hY, if_pos hY]
    exact ((h Y).filter _).insert
  · rw [if_neg hY, if_neg hY]
    exact h Y

/-- No new production has more than two symbols. -/
def Short (s : Binariser) : Prop := ∀ Y p, p ∈ s.new_grammar.get Y → p.length = 2

/-- Of the productions of the grammar `rule` has gone if it was long, and nothing that came is
    long. -/
structure Replaced (s t : Binariser) (head : Symbol) (rule : Production) : Prop where
  sub : ∀ Y p, p ∈ t.rawProductions.get Y → p.length = 2 ∨
    (p ∈ s.rawProductions.get Y ∧ (3 ≤ p.length → ¬ (Y = head ∧ p = rule)))
  kept : ∀ Y p, p ∈ s.rawProductions.get Y → p ∈ t.rawProductions.get Y ∨ (Y = head ∧ p = rule)

theorem Inv.nameRun (h : Inv g s) (hnew : s.Short)
    (hmem : first :: long_run ∈ s.rawProductions.get head) (hlen : 2 ≤ long_run.length)
    (hletters : ∀ Y ∈ long_run, Lettered Y) (hu : Erased s u head (first :: long_run))
    (hX : IsNonterminal u.toGrammarBase X) (hsole : ∀ p, s.HasProd X p → p = long_run)
    (hsuffix : s.HasProd X long_run ∨ Fresh s.toGrammarBase X)
    (hok : SplitOk (u.nameRun head first long_run X) X long_run) :
    ∃ t, splitRun (u.nameRun head first long_run X) X long_run = some t ∧ Inv g t ∧ t.Short ∧
      Replaced s t head (first :: long_run) := by
  have hinv : Inv g (u.nameRun head first long_run X) := by
    refine h.folded (folded_nameRun hu hmem hlen hsole) hu.terminals hu.nonterminals hu.disjoint
      hX ?_ (nodup_nameRun hu h.nodup) hsuffix
    intro Y p hp
    rcases (mem_raw_nameRun hu Y p).mp hp with ⟨-, rfl⟩ | ⟨hp, -⟩
    · exact .inr rfl
    · exact .inl hp
  obtain ⟨t, ht, hinv, hraw, hshort⟩ := splitRun_spec long_run _ X hinv
    ((mem_new_nameRun hu X long_run).mpr (.inl ⟨rfl, rfl⟩))
    (by
      intro Y p hp
      rcases (mem_new_nameRun hu Y p).mp hp with hp | ⟨hp, -⟩
      · exact .inr hp
      · exact .inl (hnew Y p hp))
    hlen hletters hok
  refine ⟨t, ht, hinv, hshort, ?_⟩
  constructor
  case sub =>
    intro Y p hp
    rw [hraw] at hp
    rcases (mem_raw_nameRun hu Y p).mp hp with ⟨-, rfl⟩ | ⟨hp, hne⟩
    · exact .inl rfl
    · exact .inr ⟨hp, fun _ => hne⟩
  case kept =>
    intro Y p hp
    by_cases heq : Y = head ∧ p = first :: long_run
    · exact .inr heq
    · rw [hraw]
      exact .inl ((mem_raw_nameRun hu Y p).mpr (.inr ⟨hp, heq⟩))

theorem hasProd_findHead {s : Binariser} {rule : Production} (h : s.findHead rule ≠ noSymbol) :
    s.HasProd (s.findHead rule) rule := by
  rw [findHead] at h ⊢
  by_cases hnew : check_head s.new_grammar rule = noSymbol
  · rw [if_pos hnew] at h ⊢
    exact .inl (mem_of_check_head h)
  · rw [if_neg hnew]
    exact .inr (mem_of_check_head hnew)

theorem binRule_short {rule : Production} (h : rule.length < 3) : binRule head s rule = some s := by
  match rule, h with
  | [], _ => rfl
  | [_], _ => rfl
  | [_, _], _ => rfl

/-- **One production**: it is cut to the end, and of the others none goes. -/
theorem binRule_spec {rule : Production} (h : Inv g s) (hnew : s.Short)
    (hmem : rule ∈ s.rawProductions.get head) (hok : RuleOk head s rule)
    (hletters : 3 ≤ rule.length → ∀ Y ∈ rule, Lettered Y) :
    ∃ t, binRule head s rule = some t ∧ Inv g t ∧ t.Short ∧ Replaced s t head rule := by
  by_cases hlen : rule.length < 3
  · refine ⟨s, binRule_short hlen, h, hnew, fun Y p hp => .inr ⟨hp, ?_⟩, fun Y p hp => .inl hp⟩
    rintro hp ⟨-, rfl⟩
    exact absurd hp (not_le.mpr hlen)
  · obtain ⟨first, second, third, rest, rfl⟩ : ∃ first second third rest,
        rule = first :: second :: third :: rest := by
      match rule, hlen with
      | a :: b :: c :: l, _ => exact ⟨a, b, c, l, rfl⟩
      | [], hlen => exact absurd (by decide) hlen
      | [a], hlen => exact absurd (Nat.lt_of_sub_eq_succ rfl) hlen
      | [a, b], hlen => exact absurd (Nat.lt_of_sub_eq_succ rfl) hlen
    have hletters : ∀ Y ∈ second :: third :: rest, Lettered Y := fun Y hY =>
      hletters (le_add_left 3 _) Y (mem_cons_of_mem first hY)
    have hlen : 2 ≤ (second :: third :: rest).length := le_add_left 2 _
    have herased : Erased s (s.eraseRule head (first :: second :: third :: rest)) head
        (first :: second :: third :: rest) :=
      ⟨rfl, rfl, rfl, fun _ hp => hp, h.disjoint⟩
    rw [RuleOk, SuffixOk] at hok
    rw [binRule, if_pos hmem]
    by_cases hfind : (s.eraseRule head (first :: second :: third :: rest)).findHead
        (second :: third :: rest) = noSymbol
    · -- the suffix gets a new head
      obtain ⟨X, u, hsym, hadded⟩ :=
        newSymbol_spec (s.eraseRule head (first :: second :: third :: rest)) hletters
      obtain ⟨hfresh, hok⟩ := hok.2 hfind (X, u) hsym
      have hadded := hadded hfresh
      have hu : Erased s u head (first :: second :: third :: rest) :=
        ⟨hadded.raw, hadded.new, hadded.terminals, hadded.nonterminals,
          disjoint_of_added hadded hfresh h.disjoint⟩
      rw [if_neg (not_not_intro hfind), hsym, bind_some]
      exact h.nameRun hnew hmem hlen hletters hu hadded.nonterminal
        (fun p hp => absurd (h.head X p hp) (Fresh.not_nonterminal hfresh)) (.inr hfresh) hok
    · -- the head that was found stands for nothing but the suffix
      obtain ⟨hsole, hok⟩ := hok.1 hfind
      have hsuffix : s.HasProd ((s.eraseRule head (first :: second :: third :: rest)).findHead
          (second :: third :: rest)) (second :: third :: rest) := by
        refine (hasProd_findHead hfind).imp_left fun hraw => ?_
        exact ((mem_get_eraseProd _ _ _ _ _).mp hraw).1
      rw [if_pos hfind]
      exact h.nameRun hnew hmem hlen hletters herased (h.head _ _ hsuffix)
        (fun p hp => hsole p (mem_append.mpr hp)) (.inl hsuffix) hok

-- ── all the productions

theorem lettered_of_raw (h : Inv g s) {rule : Production}
    (hmem : rule ∈ s.rawProductions.get head) (hlen : 3 ≤ rule.length) :
    ∀ Y ∈ rule, Lettered Y := by
  intro Y hY
  rcases h.raw head rule hmem with hmem | htwo
  · obtain ⟨q, hq, -, hget⟩ := mem_keys hmem
    exact g.lettered q hq _ (hget ▸ hmem) Y (mem_cons_of_mem head hY)
  · omega

/-- **The productions of one head**: afterwards none of them is long, and the long ones of
    other heads are those of before. -/
theorem binHead_spec (h : Inv g s) (hnew : s.Short)
    (hok : FoldMeets (RuleOk head) (binRule head) s (s.rawProductions.get head)) :
    ∃ t, binHead s head = some t ∧ Inv g t ∧ t.Short ∧
      ∀ Y p, p ∈ t.rawProductions.get Y → p.length ≤ 2 ∨ (p ∈ s.rawProductions.get Y ∧ Y ≠ head) := by
  let I : Productions → Binariser → Prop := fun todo t =>
    Inv g t ∧ t.Short ∧ todo.Nodup ∧ (∀ p ∈ todo, p ∈ t.rawProductions.get head) ∧
      ∀ Y p, p ∈ t.rawProductions.get Y → p.length ≤ 2 ∨
        (p ∈ s.rawProductions.get Y ∧ (Y = head → p ∈ todo))
  have hstep : ∀ rule todo t, I (rule :: todo) t → RuleOk head t rule →
      ∃ u, binRule head t rule = some u ∧ I todo u := by
    rintro rule todo t ⟨hinv, hshort, hnodup, htodo, hraw⟩ hrule
    have hmem := htodo rule mem_cons_self
    obtain ⟨u, hu, hinv', hshort', hreplaced⟩ :=
      binRule_spec hinv hshort hmem hrule (lettered_of_raw hinv hmem)
    refine ⟨u, hu, hinv', hshort', hnodup.of_cons, fun p hp => ?_, fun Y p hp => ?_⟩
    · refine (hreplaced.kept head p (htodo p (mem_cons_of_mem rule hp))).resolve_right ?_
      rintro ⟨-, rfl⟩
      exact (nodup_cons.mp hnodup).1 hp
    · rcases hreplaced.sub Y p hp with hp | ⟨hp, hne⟩
      · exact .inl hp.le
      · rcases hraw Y p hp with hp | ⟨hp, hin⟩
        · exact .inl hp
        · by_cases hlen : p.length ≤ 2
          · exact .inl hlen
          · refine .inr ⟨hp, fun hY => ?_⟩
            refine (mem_cons.mp (hin hY)).resolve_left fun heq => ?_
            exact hne (not_le.mp hlen) ⟨hY, heq⟩
  obtain ⟨t, ht, hinv, hshort, -, -, hraw⟩ := foldlM_meets hstep _ s
    ⟨h, hnew, h.nodup head, fun _ hp => hp, fun Y p hp => .inr ⟨hp, fun hY => hY ▸ hp⟩⟩ hok
  refine ⟨t, ht, hinv, hshort, fun Y p hp => ?_⟩
  refine (hraw Y p hp).imp_right fun hp => ⟨hp.1, fun hY => ?_⟩
  cases hp.2 hY

/-- **The productions of all heads**: afterwards none is long. -/
theorem foldlM_binHead_spec (h : Inv g s) (hnew : s.Short)
    (hok : FoldMeets (fun s head => FoldMeets (RuleOk head) (binRule head) s
      (s.rawProductions.get head)) binHead s (keys s.rawProductions)) :
    ∃ t, (keys s.rawProductions).foldlM binHead s = some t ∧ Inv g t ∧ t.Short ∧
      ∀ Y p, p ∈ t.rawProductions.get Y → p.length ≤ 2 := by
  let I : List Symbol → Binariser → Prop := fun todo t =>
    Inv g t ∧ t.Short ∧ ∀ Y p, p ∈ t.rawProductions.get Y → p.length ≤ 2 ∨ Y ∈ todo
  have hstep : ∀ head todo t, I (head :: todo) t →
      FoldMeets (RuleOk head) (binRule head) t (t.rawProductions.get head) →
      ∃ u, binHead t head = some u ∧ I todo u := by
    rintro head todo t ⟨hinv, hshort, hraw⟩ hmeets
    obtain ⟨u, hu, hinv', hshort', hraw'⟩ := binHead_spec hinv hshort hmeets
    refine ⟨u, hu, hinv', hshort', fun Y p hp => ?_⟩
    rcases hraw' Y p hp with hp | ⟨hp, hne⟩
    · exact .inl hp
    · exact (hraw Y p hp).imp_right fun hY => (mem_cons.mp hY).resolve_left hne
  have hkeys : ∀ Y p, p ∈ s.rawProductions.get Y → p.length ≤ 2 ∨ Y ∈ keys s.rawProductions := by
    intro Y p hp
    obtain ⟨q, hq, rfl, -⟩ := mem_keys hp
    exact .inr (mem_map_of_mem hq)
  obtain ⟨t, ht, hinv, hshort, hraw⟩ := foldlM_meets hstep _ s ⟨h, hnew, hkeys⟩ hok
  exact ⟨t, ht, hinv, hshort, fun Y p hp => (hraw Y p hp).resolve_right not_mem_nil⟩

-- ── the beginning and the end

theorem mem_removeFirst {ps : Productions} (hnodup : ps.Nodup)
    (hfirst : ps.Pairwise fun p r => p.tail ≠ r) (x : Production) :
    x ∈ removeFirst ps ↔ ∃ p ∈ ps, x = p.tail := by
  have hfold : ∀ (post pre acc : Productions), (pre ++ post).Nodup →
      (pre ++ post).Pairwise (fun p r => p.tail ≠ r) →
      (∀ y, y ∈ acc ↔ (∃ p ∈ pre, y = p.tail) ∨ y ∈ post) →
      (x ∈ post.foldl (fun acc rule => (acc.filter (· ≠ rule)).insert rule.tail) acc ↔
        ∃ p ∈ pre ++ post, x = p.tail) := by
    intro post
    induction post with
    | nil =>
      intro pre acc _ _ hacc
      rw [foldl_nil, hacc, append_nil]
      exact or_iff_left not_mem_nil
    | cons rule post ih =>
      intro pre acc hnodup hpair hacc
      have heq : pre ++ rule :: post = (pre ++ [rule]) ++ post :=
        (append_assoc pre [rule] post).symm
      rw [foldl_cons, heq]
      refine ih (pre ++ [rule]) _ (heq ▸ hnodup) (heq ▸ hpair) fun y => ?_
      have hpre : ∀ p ∈ pre, p.tail ≠ rule := fun p hp =>
        (pairwise_append.mp hpair).2.2 p hp rule mem_cons_self
      have hpost : rule ∉ post := (nodup_cons.mp (nodup_append.mp hnodup).2.1).1
      rw [mem_insert_iff, mem_filter, decide_eq_true_iff, hacc]
      constructor
      · rintro (rfl | ⟨⟨p, hp, rfl⟩ | hy, hne⟩)
        · exact .inl ⟨rule, mem_append_right pre mem_cons_self, rfl⟩
        · exact .inl ⟨p, mem_append_left _ hp, rfl⟩
        · exact .inr ((mem_cons.mp hy).resolve_left hne)
      · rintro (⟨p, hp, rfl⟩ | hy)
        · rcases mem_append.mp hp with hp | hp
          · exact .inr ⟨.inl ⟨p, hp, rfl⟩, hpre p hp⟩
          · rw [mem_singleton.mp hp]
            exact .inl rfl
        · exact .inr ⟨.inr (mem_cons_of_mem rule hy), fun heq => hpost (heq ▸ hy)⟩
  exact hfold ps [] ps hnodup hfirst fun y => by simp

theorem nodup_removeFirst (ps : Productions) (h : ps.Nodup) : (removeFirst ps).Nodup := by
  have hfold : ∀ (post acc : Productions), acc.Nodup →
      (post.foldl (fun acc rule => (acc.filter (· ≠ rule)).insert rule.tail) acc).Nodup := by
    intro post
    induction post with
    | nil => exact fun _ hacc => hacc
    | cons rule post ih =>
      intro acc hacc
      exact ih _ (hacc.filter _).insert
  exact hfold ps ps h

theorem get_removeFirstSymbol (m : ProductionMap) (X : Symbol) :
    ProductionMap.get (removeFirstSymbol m) X = removeFirst (m.get X) := by
  induction m with
  | nil => rfl
  | cons q m ih =>
    obtain ⟨key, ps⟩ := q
    rw [removeFirstSymbol, map_cons, get_cons, get_cons]
    by_cases h : X = key
    · rw [if_pos h, if_pos h]
    · rw [if_neg h, if_neg h]
      exact ih

theorem mem_mergeInto (new_grammar m : ProductionMap) (X : Symbol) (p : Production) :
    p ∈ (mergeInto new_grammar m).get X ↔ p ∈ m.get X ∨ p ∈ new_grammar.get X := by
  have hinner : ∀ (Y : Symbol) (ps : Productions) (m : ProductionMap),
      p ∈ (ps.foldl (fun m p => m.insertProd Y p) m).get X ↔ p ∈ m.get X ∨ (X = Y ∧ p ∈ ps) := by
    intro Y ps
    induction ps with
    | nil =>
      intro m
      simp
    | cons q ps ih =>
      intro m
      rw [foldl_cons, ih, mem_get_insertProd, mem_cons]
      tauto
  have houter : ∀ (Ys : List Symbol) (m : ProductionMap),
      p ∈ (Ys.foldl (fun m Y => (new_grammar.get Y).foldl (fun m p => m.insertProd Y p) m) m).get X ↔
        p ∈ m.get X ∨ (X ∈ Ys ∧ p ∈ new_grammar.get X) := by
    intro Ys
    induction Ys with
    | nil =>
      intro m
      simp
    | cons Y Ys ih =>
      intro m
      rw [foldl_cons, ih, hinner, mem_cons]
      constructor
      · rintro ((h | ⟨rfl, h⟩) | ⟨hX, h⟩)
        · exact .inl h
        · exact .inr ⟨.inl rfl, h⟩
        · exact .inr ⟨.inr hX, h⟩
      · rintro (h | ⟨rfl | hX, h⟩)
        · exact .inl (.inl h)
        · exact .inl (.inr ⟨rfl, h⟩)
        · exact .inr ⟨hX, h⟩
  rw [mergeInto, houter]
  refine or_congr_right (and_iff_right_of_imp fun h => ?_)
  obtain ⟨q, hq, rfl, -⟩ := mem_keys h
  exact mem_map_of_mem hq

end Binariser

-- ── inserting the productions

/-- `insertToCFLGrammar` adds one production if it has one or two symbols on the right. -/
theorem insertToCFLGrammar_rule {c : CFGrammar} {e : ℕ} (he : c.strToKind "epsilon" = some e)
    {X : Symbol} (hX : X ≠ Symbol.ofU32 e) {p : Production} (hp : p ≠ []) (hlen : p.length ≤ 2) :
    ∃ c', c.insertToCFLGrammar (X :: p) = some c' ∧ c'.toGrammarBase = c.toGrammarBase ∧
      ∀ A rhs, c'.Rule A rhs ↔ c.Rule A rhs ∨ (A = X ∧ rhs = body (Symbol.ofU32 e) p) := by
  match p, hp, hlen with
  | [Y], _, _ =>
    by_cases hY : Y = Symbol.ofU32 e
    · subst hY
      have hmem : Symbol.ofU32 e ∈ [X, Symbol.ofU32 e] := mem_cons_of_mem _ mem_cons_self
      obtain ⟨c', hc', hbase, heps, hsingle, hfirst⟩ : ∃ c', c.insertToCFLGrammar
          [X, Symbol.ofU32 e] = some c' ∧ c'.toGrammarBase = c.toGrammarBase ∧
          c'.epsilonProds = c.epsilonProds.insert [X, Symbol.ofU32 e] ∧
          c'.singleRHSToProds = c.singleRHSToProds ∧
          c'.firstRHSToProds = c.firstRHSToProds := by
        rw [CFGrammar.insertToCFLGrammar, he, map_some, if_pos hmem]
        exact ⟨_, rfl, rfl, rfl, rfl, rfl⟩
      refine ⟨c', hc', hbase, fun A rhs => ?_⟩
      rw [body, if_pos rfl]
      simp only [CFGrammar.Rule, CFGrammar.getEpsilonProds, CFGrammar.getProdsFromSingleRHS,
        CFGrammar.getProdsFromFirstRHS, heps, hsingle, hfirst, mem_insert_iff]
      constructor
      · rintro (⟨rfl, q, rfl | hq, rfl⟩ | h)
        · exact .inr ⟨rfl, rfl⟩
        · exact .inl (.inl ⟨rfl, q, hq, rfl⟩)
        · exact .inl (.inr h)
      · rintro ((⟨rfl, q, hq, rfl⟩ | h) | ⟨rfl, rfl⟩)
        · exact .inl ⟨rfl, q, .inr hq, rfl⟩
        · exact .inr h
        · exact .inl ⟨rfl, _, .inl rfl, rfl⟩
    · have hmem : Symbol.ofU32 e ∉ [X, Y] := by
        intro h
        rcases mem_cons.mp h with h | h
        · exact hX h.symm
        · exact hY (mem_singleton.mp h).symm
      obtain ⟨c', hc', hbase, heps, hsingle, hfirst⟩ : ∃ c', c.insertToCFLGrammar [X, Y] = some c' ∧
          c'.toGrammarBase = c.toGrammarBase ∧ c'.epsilonProds = c.epsilonProds ∧
          c'.singleRHSToProds = c.singleRHSToProds.insertProd Y [X, Y] ∧
          c'.firstRHSToProds = c.firstRHSToProds := by
        rw [CFGrammar.insertToCFLGrammar, he, map_some, if_neg hmem]
        exact ⟨_, rfl, rfl, rfl, rfl, rfl⟩
      refine ⟨c', hc', hbase, fun A rhs => ?_⟩
      have hbody : body (Symbol.ofU32 e) [Y] = [Y] := if_neg fun heq => hY (singleton_inj.mp heq)
      rw [hbody]
      simp only [CFGrammar.Rule, CFGrammar.getEpsilonProds, CFGrammar.getProdsFromSingleRHS,
        CFGrammar.getProdsFromFirstRHS, heps, hsingle, hfirst, mem_get_insertProd]
      constructor
      · rintro (h | ⟨Z, rfl, ⟨rfl, hq⟩ | h⟩ | h)
        · exact .inl (.inl h)
        · exact .inr ⟨(List.cons.inj hq).1, rfl⟩
        · exact .inl (.inr (.inl ⟨Z, rfl, h⟩))
        · exact .inl (.inr (.inr h))
      · rintro ((h | ⟨Z, rfl, h⟩ | h) | ⟨rfl, rfl⟩)
        · exact .inl h
        · exact .inr (.inl ⟨Z, rfl, .inr h⟩)
        · exact .inr (.inr h)
        · exact .inr (.inl ⟨Y, rfl, .inl ⟨rfl, rfl⟩⟩)
  | [Y, Z], _, _ =>
    obtain ⟨c', hc', hbase, heps, hsingle, hfirst⟩ : ∃ c', c.insertToCFLGrammar [X, Y, Z] = some c' ∧
        c'.toGrammarBase = c.toGrammarBase ∧ c'.epsilonProds = c.epsilonProds ∧
        c'.singleRHSToProds = c.singleRHSToProds ∧
        c'.firstRHSToProds = c.firstRHSToProds.insertProd Y [X, Y, Z] :=
      ⟨_, rfl, rfl, rfl, rfl, rfl⟩
    refine ⟨c', hc', hbase, fun A rhs => ?_⟩
    rw [body_of_length (p := [Y, Z]) (le_refl 2)]
    simp only [CFGrammar.Rule, CFGrammar.getEpsilonProds, CFGrammar.getProdsFromSingleRHS,
      CFGrammar.getProdsFromFirstRHS, heps, hsingle, hfirst, mem_get_insertProd]
    constructor
    · rintro (h | h | ⟨Y', Z', rfl, ⟨rfl, hq⟩ | h⟩)
      · exact .inl (.inl h)
      · exact .inl (.inr (.inl h))
      · exact .inr (List.cons.inj hq)
      · exact .inl (.inr (.inr ⟨Y', Z', rfl, h⟩))
    · rintro ((h | h | ⟨Y', Z', rfl, h⟩) | ⟨rfl, rfl⟩)
      · exact .inl h
      · exact .inr (.inl h)
      · exact .inr (.inr ⟨Y', Z', rfl, .inr h⟩)
      · exact .inr (.inr ⟨Y, Z, rfl, .inl ⟨rfl, rfl⟩⟩)

theorem foldlM_insertToCFLGrammar {e : ℕ} : ∀ (prods : Productions) (c : CFGrammar),
    c.strToKind "epsilon" = some e →
    (∀ q ∈ prods, ∃ X p, q = X :: p ∧ X ≠ Symbol.ofU32 e ∧ p ≠ [] ∧ p.length ≤ 2) →
    ∃ c', prods.foldlM CFGrammar.insertToCFLGrammar c = some c' ∧ ∀ A rhs, c'.Rule A rhs ↔
      c.Rule A rhs ∨ RuleOf (Symbol.ofU32 e) (fun A p => A :: p ∈ prods) A rhs := by
  intro prods
  induction prods with
  | nil =>
    intro c _ _
    refine ⟨c, rfl, fun A rhs => ?_⟩
    rw [or_iff_left]
    rintro ⟨p, hp, -⟩
    exact not_mem_nil hp
  | cons q prods ih =>
    intro c he hprods
    obtain ⟨X, p, rfl, hX, hp, hlen⟩ := hprods q mem_cons_self
    obtain ⟨c1, hc1, hbase, hrule1⟩ := insertToCFLGrammar_rule he hX hp hlen
    obtain ⟨c2, hc2, hrule2⟩ := ih c1 (hbase ▸ he) (forall_mem_cons.mp hprods).2
    refine ⟨c2, ?_, fun A rhs => ?_⟩
    · rw [foldlM_cons, hc1]
      exact hc2
    · rw [hrule2, hrule1]
      constructor
      · rintro ((h | ⟨rfl, rfl⟩) | ⟨p', hp', rfl⟩)
        · exact .inl h
        · exact .inr ⟨p, mem_cons_self, rfl⟩
        · exact .inr ⟨p', mem_cons_of_mem _ hp', rfl⟩
      · rintro (h | ⟨p', hp', rfl⟩)
        · exact .inl (.inl h)
        · rcases mem_cons.mp hp' with heq | hp'
          · cases heq
            exact .inl (.inr ⟨rfl, rfl⟩)
          · exact .inr ⟨p', hp', rfl⟩

/-- The grammar that `normalize` fills has the productions of the binarised one. -/
theorem Binariser.normalize_spec {s : Binariser} {e : ℕ} (he : s.strToKind "epsilon" = some e)
    (hprods : ∀ X p, p ∈ s.rawProductions.get X → X ≠ Symbol.ofU32 e ∧ p ≠ [] ∧ p.length ≤ 2) :
    ∃ c, s.normalize = some c ∧ ∀ A rhs, c.Rule A rhs ↔
      RuleOf (Symbol.ofU32 e) (fun A p => p ∈ s.rawProductions.get A) A rhs := by
  have hmem : ∀ A p, A :: p ∈ (keys s.rawProductions).flatMap
      (fun X => (s.rawProductions.get X).map fun p => X :: p) ↔ p ∈ s.rawProductions.get A := by
    intro A p
    rw [mem_flatMap]
    constructor
    · rintro ⟨X, -, h⟩
      obtain ⟨p', hp', heq⟩ := mem_map.mp h
      cases heq
      exact hp'
    · intro h
      obtain ⟨q, hq, rfl, -⟩ := mem_keys h
      exact ⟨_, mem_map_of_mem hq, mem_map_of_mem h⟩
  obtain ⟨c, hc, hrule⟩ := foldlM_insertToCFLGrammar ((keys s.rawProductions).flatMap
      fun X => (s.rawProductions.get X).map fun p => X :: p) (CFGrammar.ofBase s.toGrammarBase) he
    (by
      intro q hq
      obtain ⟨X, -, hq⟩ := mem_flatMap.mp hq
      obtain ⟨p, hp, rfl⟩ := mem_map.mp hq
      exact ⟨X, p, rfl, hprods X p hp⟩)
  refine ⟨c, hc, fun A rhs => ?_⟩
  rw [hrule, or_iff_right]
  · constructor
    · rintro ⟨p, hp, rfl⟩
      exact ⟨p, (hmem A p).mp hp, rfl⟩
    · rintro ⟨p, hp, rfl⟩
      exact ⟨p, (hmem A p).mpr hp, rfl⟩
  · rintro (⟨-, p, hp, -⟩ | ⟨Y, -, hp⟩ | ⟨Y, Z, -, hp⟩)
    · exact not_mem_nil hp
    · exact not_mem_nil hp
    · exact not_mem_nil hp

-- ── the language

namespace PlainGrammar

variable (g : PlainGrammar)

/-- What binarisation is for: the result has productions of at most two symbols and is inserted
    whole, every production that came in is derivable, and every nonterminal that came in
    generates the same strings of terminals. -/
def Binarises : Prop :=
  ∃ s c, Binariser.ebnf_bin g.toGrammarBase g.newTerminalSubscript = some s ∧
    s.normalize = some c ∧
    (∀ X p, p ∈ s.rawProductions.get X → p.length ≤ 2) ∧
    (∀ X rhs, c.Rule X rhs ↔ RuleOf g.eps (fun X p => p ∈ s.rawProductions.get X) X rhs) ∧
    (∀ X rhs, g.Rule X rhs → Derives c.Rule [X] rhs) ∧
    ∀ X, IsNonterminal g.toGrammarBase X → ∀ w, (∀ Y ∈ w, IsTerminal g.toGrammarBase Y) →
      (Derives g.Rule [X] w ↔ Derives c.Rule [X] w)

/-- Where the cuts are right: no right-hand side is empty, no production of a head is the rest
    of one that is read before it, and every production is cut in a state that suits it. -/
structure Cuttable : Prop where
  two_le : ∀ q ∈ g.rawProductions, ∀ p ∈ q.2, 2 ≤ p.length
  firsts : ∀ q ∈ g.rawProductions, q.2.Pairwise fun p r => p.tail ≠ r
  rules : FoldMeets (fun s head => FoldMeets (Binariser.RuleOk head) (Binariser.binRule head) s
      (s.rawProductions.get head)) Binariser.binHead
    (Binariser.start g.toGrammarBase g.newTerminalSubscript)
    (keys (Binariser.start g.toGrammarBase g.newTerminalSubscript).rawProductions)

variable {g}

/-- What `ebnf_bin` begins with is the grammar that came in. -/
theorem Cuttable.start (h : g.Cuttable) (X : Symbol) (p : Production) :
    p ∈ (Binariser.start g.toGrammarBase g.newTerminalSubscript).rawProductions.get X ↔
      X :: p ∈ g.rawProductions.get X := by
  rw [Binariser.start, Binariser.get_removeFirstSymbol]
  by_cases hempty : g.rawProductions.get X = []
  · rw [hempty]
    exact ⟨nofun, nofun⟩
  · obtain ⟨r, hr⟩ := exists_mem_of_ne_nil _ hempty
    obtain ⟨q, hq, rfl, hget⟩ := mem_keys hr
    rw [Binariser.mem_removeFirst (hget ▸ g.prods_nodup q hq) (hget ▸ h.firsts q hq)]
    constructor
    · rintro ⟨p', hp', rfl⟩
      obtain ⟨rhs, rfl⟩ := g.head_first q hq p' (hget ▸ hp')
      exact hp'
    · exact fun hp => ⟨_, hp, rfl⟩

theorem Cuttable.inv (h : g.Cuttable) :
    Binariser.Inv g (Binariser.start g.toGrammarBase g.newTerminalSubscript) := by
  have hprod : ∀ X p, (Binariser.start g.toGrammarBase g.newTerminalSubscript).HasProd X p ↔
      X :: p ∈ g.rawProductions.get X := fun X p =>
    (or_iff_left not_mem_nil).trans (h.start X p)
  have hrule : ∀ X rhs, RuleOf g.eps
      (Binariser.start g.toGrammarBase g.newTerminalSubscript).HasProd X rhs ↔ g.Rule X rhs := by
    intro X rhs
    constructor
    · rintro ⟨p, hp, rfl⟩
      exact ⟨p, (hprod X p).mp hp, rfl⟩
    · rintro ⟨p, hp, rfl⟩
      exact ⟨p, (hprod X p).mpr hp, rfl⟩
  constructor
  case terminals => rfl
  case nonterminals => exact fun _ hp => hp
  case disjoint => exact g.disjoint
  case head =>
    intro X p hp
    obtain ⟨q, hq, rfl, -⟩ := mem_keys ((hprod X p).mp hp)
    exact g.head_nonterminal q hq
  case symbols =>
    intro X p hp Y hY
    have hmem := (hprod X p).mp hp
    obtain ⟨q, hq, -, hget⟩ := mem_keys hmem
    exact g.symbols q hq _ (hget ▸ hmem) Y (mem_cons_of_mem X hY)
  case raw => exact fun X p hp => .inl ((h.start X p).mp hp)
  case nodup =>
    intro X
    rw [Binariser.start, Binariser.get_removeFirstSymbol]
    by_cases hempty : g.rawProductions.get X = []
    · rw [hempty]
      exact nodup_nil
    · obtain ⟨r, hr⟩ := exists_mem_of_ne_nil _ hempty
      obtain ⟨q, hq, -, hget⟩ := mem_keys hr
      exact Binariser.nodup_removeFirst _ (hget ▸ g.prods_nodup q hq)
  case derivable => exact fun X rhs hX => Yields.single ((hrule X rhs).mpr hX)
  case language =>
    exact fun α w _ _ hyields =>
      hyields.of_rules fun X rhs hX => Yields.single ((hrule X rhs).mp hX)

theorem eps_terminal : IsTerminal g.toGrammarBase g.eps :=
  ⟨("epsilon", g.epsilon), mem_of_lookup g.epsilon_eq, rfl⟩

/-- **Binarisation is right** on a grammar whose cuts are. -/
theorem ebnf_bin_binarises (h : g.Cuttable) : g.Binarises := by
  have hshort : (Binariser.start g.toGrammarBase g.newTerminalSubscript).Short := nofun
  obtain ⟨t, ht, hinv, hnew, hraw⟩ := Binariser.foldlM_binHead_spec h.inv hshort h.rules
  have hmerge : ∀ X p, p ∈ t.merge.rawProductions.get X ↔ t.HasProd X p :=
    fun X p => Binariser.mem_mergeInto _ _ X p
  have hlen : ∀ X p, t.HasProd X p → p.length ≤ 2 := by
    rintro X p (hp | hp)
    · exact hraw X p hp
    · exact (hnew X p hp).le
  have hne : ∀ X p, t.HasProd X p → p ≠ [] := by
    rintro X p (hp | hp) rfl
    · rcases hinv.raw X [] hp with hmem | hmem
      · obtain ⟨q, hq, -, hget⟩ := mem_keys hmem
        have htwo := h.two_le q hq [X] (hget ▸ hmem)
        exact absurd htwo (lt_irrefl 1)
      · cases hmem
    · cases hnew X [] hp
  have heps : ∀ X p, t.HasProd X p → X ≠ g.eps := by
    rintro X p hp rfl
    have hterminal : IsTerminal t.toGrammarBase g.eps := by
      obtain ⟨p, hp, hkind⟩ := g.eps_terminal
      exact ⟨p, by rw [hinv.terminals]; exact hp, hkind⟩
    exact Binariser.not_terminal_and_nonterminal hinv.disjoint hterminal (hinv.head _ p hp)
  have hstr : t.merge.strToKind "epsilon" = some g.epsilon := by
    have hlookup : t.merge.terminals.lookup "epsilon" = some g.epsilon := by
      rw [← g.epsilon_eq, ← hinv.terminals]
      rfl
    rw [GrammarBase.strToKind, hlookup]
    rfl
  obtain ⟨c, hc, hrule⟩ := Binariser.normalize_spec hstr fun X p hp =>
    have hp := (hmerge X p).mp hp
    ⟨heps X p hp, hne X p hp, hlen X p hp⟩
  have hsame : ∀ X rhs, c.Rule X rhs ↔ RuleOf g.eps t.HasProd X rhs := by
    intro X rhs
    rw [hrule]
    constructor
    · rintro ⟨p, hp, rfl⟩
      exact ⟨p, (hmerge X p).mp hp, rfl⟩
    · rintro ⟨p, hp, rfl⟩
      exact ⟨p, (hmerge X p).mpr hp, rfl⟩
  have hkept : ∀ X rhs, g.Rule X rhs → Derives c.Rule [X] rhs := fun X rhs hX =>
    derives_iff_yields.mpr ((hinv.derivable X rhs hX).of_rules fun Y rhs hY =>
      Yields.single ((hsame Y rhs).mpr hY))
  refine ⟨t.merge, c, ?_, hc, ?_, hrule, hkept, ?_⟩
  · rw [Binariser.ebnf_bin, ht]
    rfl
  · exact fun X p hp => hlen X p ((hmerge X p).mp hp)
  · intro X hX w hw
    constructor
    · exact fun hderives => hderives.of_rules hkept
    · intro hderives
      refine derives_iff_yields.mpr (hinv.language [X] w ?_ hw ?_)
      · intro Y hY
        rw [mem_singleton.mp hY]
        exact .inr hX
      · exact (derives_iff_yields.mp hderives).of_rules fun Y rhs hY =>
          Yields.single ((hsame Y rhs).mp hY)

-- ── two grammars

def shared : PlainGrammar where
  terminals := [("epsilon", 0), ("a", 1), ("b", 2), ("c", 3), ("d", 4)]
  nonterminals := [("S", 5), ("T", 6)]
  ebnfSigns := []
  rawProductions :=
    [(Symbol.ofU32 5, [[5, 1, 2, 3].map Symbol.ofU32]),
      (Symbol.ofU32 6, [[6, 4, 2, 3].map Symbol.ofU32])]
  totalKind := 7
  newTerminalSubscript := 0
  epsilon := 0
  epsilon_eq := rfl
  head_first := by simp
  prods_nodup := by simp
  head_nonterminal := by decide
  symbols := by decide
  lettered := by decide
  disjoint := by decide

/-- The condition can be met, here with one suffix for two productions. -/
theorem shared_binarises : shared.Binarises :=
  ebnf_bin_binarises ⟨by decide, by decide, by decide +kernel⟩

def innerSuffix : PlainGrammar where
  terminals := [("epsilon", 0), ("a", 1), ("b", 2), ("c", 3), ("d", 4)]
  nonterminals := [("S", 5), ("T", 6)]
  ebnfSigns := []
  rawProductions :=
    [(Symbol.ofU32 5, [[5, 1, 2, 3, 4].map Symbol.ofU32]),
      (Symbol.ofU32 6, [[6, 3, 4].map Symbol.ofU32])]
  totalKind := 7
  newTerminalSubscript := 0
  epsilon := 0
  epsilon_eq := rfl
  head_first := by simp
  prods_nodup := by simp
  head_nonterminal := by decide
  symbols := by decide
  lettered := by decide
  disjoint := by decide

set_option synthInstance.maxSize 256 in
/-- `X0 → b c d` is not cut, so it is not inserted, and `S` generates nothing. -/
theorem innerSuffix_not_binarises : ¬ innerSuffix.Binarises := by
  rintro ⟨s, c, hs, hc, -, -, hkept, -⟩
  have hrun : ((Binariser.ebnf_bin innerSuffix.toGrammarBase 0).bind fun s =>
      s.normalize.map fun c => (c.epsilonProds, c.singleRHSToProds, c.firstRHSToProds)) =
        some ([], [], [(Symbol.ofU32 1, [[5, 1, 7].map Symbol.ofU32]),
          (Symbol.ofU32 3, [[6, 3, 4].map Symbol.ofU32])]) := by
    decide +kernel
  have hs' : Binariser.ebnf_bin innerSuffix.toGrammarBase 0 = some s := hs
  rw [hs', bind_some, hc, map_some] at hrun
  obtain ⟨heps, hrest⟩ := Prod.mk.inj (some.inj hrun)
  obtain ⟨hsingle, hfirst⟩ := Prod.mk.inj hrest
  have hrule : ∀ X rhs, c.Rule X rhs →
      (X = Symbol.ofU32 5 ∧ rhs = [1, 7].map Symbol.ofU32) ∨ X = Symbol.ofU32 6 := by
    rintro X rhs (⟨-, p, hp, -⟩ | ⟨Y, -, hp⟩ | ⟨Y, Z, rfl, hp⟩)
    · rw [CFGrammar.getEpsilonProds, heps] at hp
      cases hp
    · rw [CFGrammar.getProdsFromSingleRHS, hsingle] at hp
      cases hp
    · rw [CFGrammar.getProdsFromFirstRHS, hfirst, get_cons, get_cons] at hp
      by_cases hY : Y = Symbol.ofU32 1
      · rw [if_pos hY, mem_singleton] at hp
        exact .inl (List.cons.inj hp)
      · rw [if_neg hY] at hp
        by_cases hY : Y = Symbol.ofU32 3
        · rw [if_pos hY, mem_singleton] at hp
          exact .inr (List.cons.inj hp).1
        · rw [if_neg hY] at hp
          cases hp
  -- from `S` only `S` itself and `a X0` are derivable
  have hforms : ∀ w, Yields c.Rule [Symbol.ofU32 5] w →
      w = [Symbol.ofU32 5] ∨ w = [1, 7].map Symbol.ofU32 := by
    intro w h
    rcases h.root with h | ⟨rhs, hS, h⟩
    · exact .inl h
    · refine .inr ?_
      rcases hrule _ rhs hS with ⟨-, rfl⟩ | h6
      · refine h.stuck fun X hX rhs hrhs => ?_
        rcases hrule X rhs hrhs with ⟨rfl, -⟩ | rfl
        · exact absurd hX (by decide)
        · exact absurd hX (by decide)
      · cases h6
  have hS : innerSuffix.Rule (Symbol.ofU32 5) ([1, 2, 3, 4].map Symbol.ofU32) :=
    RuleOf.of_length (by decide) (by decide)
  rcases hforms _ (derives_iff_yields.mp (hkept _ _ hS)) with h | h
  · cases h
  · cases h

end PlainGrammar

end SvfCFGNormalizer
