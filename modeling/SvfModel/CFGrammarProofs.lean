import Mathlib

/-!
# Context-free grammars as the solvers read them

A symbol is a kind with an attribute and a variable attribute, packed in 8, 16 and 8 bits.
A production is a vector of symbols whose element `0` is the left-hand side. `GrammarBase`
has the symbol tables and the raw productions; `CFGrammar` adds the four indexes the
reachability solvers look productions up in, and carries what `insertToCFLGrammar`
guarantees about them: every production sits under the symbol it is indexed by, and a
binary production is in both of its indexes.
-/

namespace SvfCFGrammar

structure Symbol where
  kind : Fin 256
  attri : Fin 65536
  variableAttri : Fin 256
deriving DecidableEq

instance instInhabitedSymbol : Inhabited Symbol := ⟨⟨0, 0, 0⟩⟩

instance instFiniteSymbol : Finite Symbol :=
  Finite.of_injective (fun s : Symbol => (s.kind, s.attri, s.variableAttri)) fun a b h => by
    cases a
    cases b
    simp only [Prod.mk.injEq] at h
    obtain ⟨rfl, rfl, rfl⟩ := h
    rfl

/-- `Symbol(const u32_t& num)`: the number's bits, field by field. -/
def Symbol.ofU32 (num : Nat) : Symbol where
  kind := Fin.ofNat 256 num
  attri := Fin.ofNat 65536 (num / 2 ^ 8)
  variableAttri := Fin.ofNat 256 (num / 2 ^ 24)

/-- The attribute of a symbol that has none. -/
abbrev noAttri : Fin 65536 := 0

/-- The variable of a symbol that has none. -/
abbrev noVariable : Fin 256 := 0

/-- An attribute, cut at its 16 bits. -/
abbrev attriOf (attri : Nat) : Fin 65536 := Fin.ofNat 65536 attri

/-- `std::vector<Symbol>`, the left-hand side first. -/
abbrev Production := List Symbol

/-- `Productions`: a set, as a list without repetitions. -/
abbrev Productions := List Production

abbrev ProductionMap := List (Symbol × Productions)

namespace ProductionMap

/-- What `find` gives to iterate over. -/
def get (m : ProductionMap) (sym : Symbol) : Productions := (m.lookup sym).getD []

def insertProd : ProductionMap → Symbol → Production → ProductionMap
  | [], sym, prod => [(sym, [prod])]
  | (key, ps) :: m, sym, prod =>
    if sym = key then (key, ps.insert prod) :: m else (key, ps) :: insertProd m sym prod

theorem get_cons (key : Symbol) (ps : Productions) (m : ProductionMap) (sym : Symbol) :
    get ((key, ps) :: m) sym = if sym = key then ps else get m sym := by
  rw [get, List.lookup_cons]
  by_cases h : sym = key
  · rw [if_pos h, beq_iff_eq.mpr h]
    rfl
  · rw [if_neg h, beq_eq_false_iff_ne.mpr h]
    rfl

theorem mem_get_insertProd (m : ProductionMap) (key : Symbol) (prod : Production)
    (sym : Symbol) (p : Production) :
    p ∈ get (insertProd m key prod) sym ↔ (sym = key ∧ p = prod) ∨ p ∈ get m sym := by
  induction m with
  | nil =>
    rw [insertProd, get_cons]
    by_cases h : sym = key
    · rw [if_pos h, List.mem_singleton]
      simp [h, get]
    · rw [if_neg h]
      simp [h, get]
  | cons q m ih =>
    obtain ⟨k, ps⟩ := q
    rw [insertProd]
    by_cases hk : key = k
    · subst hk
      rw [if_pos rfl, get_cons, get_cons]
      by_cases h : sym = key
      · rw [if_pos h, if_pos h, List.mem_insert_iff]
        simp [h]
      · rw [if_neg h, if_neg h]
        simp [h]
    · rw [if_neg hk, get_cons, get_cons]
      by_cases h : sym = k
      · rw [if_pos h, if_pos h]
        have hne : sym ≠ key := fun he => hk (he.symm.trans h)
        simp [hne]
      · rw [if_neg h, if_neg h]
        exact ih

end ProductionMap

-- ── the symbol tables

/-- `GrammarBase`: the tables from names to kinds, the raw productions and the next free
    kind. -/
structure GrammarBase where
  terminals : List (String × Nat)
  nonterminals : List (String × Nat)
  ebnfSigns : List (String × Nat)
  rawProductions : ProductionMap
  totalKind : Nat

def extractKindStrFromSymbolStr (symbolStr : List Char) : List Char :=
  let after := symbolStr.reverse.takeWhile (· ≠ '_')
  if after.length = symbolStr.length then symbolStr
  else symbolStr.take (symbolStr.length - after.length - 1)

def extractAttributeStrFromSymbolStr (symbolStr : List Char) : List Char :=
  let after := symbolStr.reverse.takeWhile (· ≠ '_')
  if after.length = symbolStr.length then [] else after.reverse

def stoi (digits : List Char) : Option Nat :=
  let n := digits.foldl (fun n c => 10 * n + (c.toNat - '0'.toNat)) 0
  if n < 2 ^ 31 then some n else none

/-- A symbol of a kind with the attribute that was written after the underscore: none, one
    letter, or a number. `none` where the grammar fails to load. -/
def Symbol.withAttribute (kind : Nat) (attributeStr : List Char) : Option Symbol :=
  match attributeStr with
  | [] => some ⟨Fin.ofNat 256 kind, 0, 0⟩
  | [c] =>
    if c.isAlpha then some ⟨Fin.ofNat 256 kind, 0, Fin.ofNat 256 c.toNat⟩
    else if c.isDigit then some ⟨Fin.ofNat 256 kind, Fin.ofNat 65536 (c.toNat - '0'.toNat), 0⟩
    else none
  | cs =>
    if cs.all Char.isDigit then
      (stoi cs).map fun n => ⟨Fin.ofNat 256 kind, Fin.ofNat 65536 n, 0⟩
    else none

/-- `strToKind`; `none` where the source aborts. -/
def GrammarBase.strToKind (g : GrammarBase) (str : String) : Option Nat :=
  (g.terminals.lookup str).or ((g.nonterminals.lookup str).or (g.ebnfSigns.lookup str))

def GrammarBase.strToSymbol (g : GrammarBase) (str : String) : Option Symbol :=
  (g.strToKind (String.ofList (extractKindStrFromSymbolStr str.toList))).bind fun kind =>
    Symbol.withAttribute kind (extractAttributeStrFromSymbolStr str.toList)

-- ── the normalised grammar

structure CFGrammar extends GrammarBase where
  epsilonProds : Productions
  singleRHSToProds : ProductionMap
  firstRHSToProds : ProductionMap
  secondRHSToProds : ProductionMap
  single_form : ∀ (Y : Symbol) (p : Production),
    p ∈ singleRHSToProds.get Y → ∃ X, p = [X, Y]
  first_form : ∀ (Y : Symbol) (p : Production),
    p ∈ firstRHSToProds.get Y → ∃ X Z, p = [X, Y, Z] ∧ p ∈ secondRHSToProds.get Z
  second_form : ∀ (Z : Symbol) (p : Production),
    p ∈ secondRHSToProds.get Z → ∃ X Y, p = [X, Y, Z] ∧ p ∈ firstRHSToProds.get Y

namespace CFGrammar

variable (grammar : CFGrammar)

def hasProdsFromSingleRHS (sym : Symbol) : Bool := (grammar.singleRHSToProds.lookup sym).isSome

def hasProdsFromFirstRHS (sym : Symbol) : Bool := (grammar.firstRHSToProds.lookup sym).isSome

def hasProdsFromSecondRHS (sym : Symbol) : Bool := (grammar.secondRHSToProds.lookup sym).isSome

def getEpsilonProds : Productions := grammar.epsilonProds

def getProdsFromSingleRHS (sym : Symbol) : Productions := grammar.singleRHSToProds.get sym

def getProdsFromFirstRHS (sym : Symbol) : Productions := grammar.firstRHSToProds.get sym

def getProdsFromSecondRHS (sym : Symbol) : Productions := grammar.secondRHSToProds.get sym

/-- `prod.at(0)`; productions of the indexes have it. -/
def getLHSSymbol (prod : Production) : Symbol := prod.getD 0 default

def getFirstRHSSymbol (prod : Production) : Symbol := prod.getD 1 default

def getSecondRHSSymbol (prod : Production) : Symbol := prod.getD 2 default

/-- A grammar with the given tables and no production yet. -/
def ofBase (base : GrammarBase) : CFGrammar where
  toGrammarBase := base
  epsilonProds := []
  singleRHSToProds := []
  firstRHSToProds := []
  secondRHSToProds := []
  single_form := fun _ _ h => absurd h List.not_mem_nil
  first_form := fun _ _ h => absurd h List.not_mem_nil
  second_form := fun _ _ h => absurd h List.not_mem_nil

/-- `insertToCFLGrammar`: by the length of the production, and by whether the epsilon symbol
    is in it. Longer and shorter productions are not inserted. `none` where the grammar has
    no symbol named `epsilon`. -/
def insertToCFLGrammar (prod : Production) : Option CFGrammar :=
  match prod with
  | [X, Y] =>
    (grammar.strToKind "epsilon").map fun epsilon =>
      if Symbol.ofU32 epsilon ∈ [X, Y] then
        { grammar with epsilonProds := grammar.epsilonProds.insert [X, Y] }
      else
        { grammar with
          singleRHSToProds := grammar.singleRHSToProds.insertProd Y [X, Y]
          single_form := by
            intro Y' p hp
            rcases (ProductionMap.mem_get_insertProd _ _ _ _ _).mp hp with ⟨rfl, rfl⟩ | hp
            · exact ⟨X, rfl⟩
            · exact grammar.single_form Y' p hp }
  | [X, Y, Z] =>
    some
      { grammar with
        firstRHSToProds := grammar.firstRHSToProds.insertProd Y [X, Y, Z]
        secondRHSToProds := grammar.secondRHSToProds.insertProd Z [X, Y, Z]
        first_form := by
          intro Y' p hp
          rcases (ProductionMap.mem_get_insertProd _ _ _ _ _).mp hp with ⟨rfl, rfl⟩ | hp
          · exact ⟨X, Z, rfl, (ProductionMap.mem_get_insertProd _ _ _ _ _).mpr (Or.inl ⟨rfl, rfl⟩)⟩
          · obtain ⟨X', Z', rfl, hp'⟩ := grammar.first_form Y' p hp
            exact ⟨X', Z', rfl, (ProductionMap.mem_get_insertProd _ _ _ _ _).mpr (Or.inr hp')⟩
        second_form := by
          intro Z' p hp
          rcases (ProductionMap.mem_get_insertProd _ _ _ _ _).mp hp with ⟨rfl, rfl⟩ | hp
          · exact ⟨X, Y, rfl, (ProductionMap.mem_get_insertProd _ _ _ _ _).mpr (Or.inl ⟨rfl, rfl⟩)⟩
          · obtain ⟨X', Y', rfl, hp'⟩ := grammar.second_form Z' p hp
            exact ⟨X', Y', rfl, (ProductionMap.mem_get_insertProd _ _ _ _ _).mpr (Or.inr hp')⟩ }
  | _ => some grammar

def insertAll (base : GrammarBase) (prods : Productions) : Option CFGrammar :=
  prods.foldlM insertToCFLGrammar (ofBase base)

-- ── what the grammar means

/-- `X → rhs` is a production; the `ε`-productions have the empty right-hand side. -/
def Rule (X : Symbol) (rhs : List Symbol) : Prop :=
  (rhs = [] ∧ ∃ p ∈ grammar.getEpsilonProds, getLHSSymbol p = X) ∨
  (∃ Y, rhs = [Y] ∧ [X, Y] ∈ grammar.getProdsFromSingleRHS Y) ∨
  (∃ Y Z, rhs = [Y, Z] ∧ [X, Y, Z] ∈ grammar.getProdsFromFirstRHS Y)

variable {grammar} {X Y Z : Symbol}

theorem rule_nil : grammar.Rule X [] ↔ ∃ p ∈ grammar.getEpsilonProds, getLHSSymbol p = X := by
  constructor
  · rintro (⟨-, h⟩ | ⟨_, h, -⟩ | ⟨_, _, h, -⟩)
    · exact h
    · cases h
    · cases h
  · intro h
    exact .inl ⟨rfl, h⟩

theorem rule_single : grammar.Rule X [Y] ↔
    ∃ p ∈ grammar.getProdsFromSingleRHS Y, getLHSSymbol p = X := by
  constructor
  · rintro (⟨h, -⟩ | ⟨Y', h, hp⟩ | ⟨_, _, h, -⟩)
    · cases h
    · rw [(List.cons.inj h).1]
      exact ⟨_, hp, rfl⟩
    · cases h
  · rintro ⟨p, hp, hX⟩
    obtain ⟨X', rfl⟩ := grammar.single_form Y p hp
    subst hX
    exact .inr (.inl ⟨Y, rfl, hp⟩)

theorem rule_first : grammar.Rule X [Y, Z] ↔
    ∃ p ∈ grammar.getProdsFromFirstRHS Y, getLHSSymbol p = X ∧ getSecondRHSSymbol p = Z := by
  constructor
  · rintro (⟨h, -⟩ | ⟨_, h, -⟩ | ⟨Y', Z', h, hp⟩)
    · cases h
    · cases h
    · obtain ⟨hY, hZ⟩ := List.cons.inj h
      rw [hY, (List.cons.inj hZ).1]
      exact ⟨_, hp, rfl, rfl⟩
  · rintro ⟨p, hp, hX, hZ⟩
    obtain ⟨X', Z', rfl, -⟩ := grammar.first_form Y p hp
    subst hX hZ
    exact .inr (.inr ⟨Y, Z', rfl, hp⟩)

theorem rule_second : grammar.Rule X [Y, Z] ↔
    ∃ p ∈ grammar.getProdsFromSecondRHS Z, getLHSSymbol p = X ∧ getFirstRHSSymbol p = Y := by
  rw [rule_first]
  constructor
  · rintro ⟨p, hp, hX, hZ⟩
    obtain ⟨X', Z', rfl, hp'⟩ := grammar.first_form Y p hp
    subst hX hZ
    exact ⟨_, hp', rfl, rfl⟩
  · rintro ⟨p, hp, hX, hY⟩
    obtain ⟨X', Y', rfl, hp'⟩ := grammar.second_form Z p hp
    subst hX hY
    exact ⟨_, hp', rfl, rfl⟩

theorem rule_length {rhs : List Symbol} (h : grammar.Rule X rhs) : rhs.length ≤ 2 := by
  rcases h with ⟨rfl, -⟩ | ⟨Y, rfl, -⟩ | ⟨Y, Z, rfl, -⟩
  · exact Nat.zero_le 2
  · exact Nat.le_succ 1
  · exact Nat.le_refl 2

/-- The guard before a lookup changes nothing: without an entry there is nothing to
    iterate over. -/
theorem foldl_guard {σ : Type} (m : ProductionMap) (sym : Symbol) (f : σ → Production → σ)
    (s : σ) : (if (m.lookup sym).isSome then (m.get sym).foldl f s else s) =
      (m.get sym).foldl f s := by
  rw [ProductionMap.get]
  cases h : m.lookup sym with
  | none => rfl
  | some ps => rfl

end CFGrammar

end SvfCFGrammar
