import SvfModel.CFGrammarProofs
import SvfModel.LoopProofs
import SvfModel.WorkListProofs

/-!
# Filling in the variable attributes of a production

`getFilledProductions` takes the first variable attribute of a production, writes each
attribute at all its occurrences and puts what still has variables back into the worklist.

The heart is `fills_eq`: to fill a production in all ways is to fill its first variable in
all ways and then the rest. So the productions that are done and the fillings of those that
wait are one set from the first round to the last, and `weight` counts the rounds that are
left.
-/

namespace SvfFilledProductions

open SvfCFGrammar SvfLoop SvfWorkList List

/-- The attributes of all kinds, as `fillAttribute` collects them. -/
def nodeSetOf (kindToAttrsMap : List (ℕ × List ℕ)) : List ℕ :=
  kindToAttrsMap.foldl (fun nodeSet pair => pair.2.foldl (fun nodeSet attri => nodeSet.insert attri)
    nodeSet) []

def currentVariableAttribute (prod : Production) : Fin 256 :=
  prod.foldl (fun cur symbol => if cur = noVariable then symbol.variableAttri else cur) noVariable

/-- An attribute at all occurrences of a variable; the symbol has 16 bits for it. -/
def fillingProduction (v : Fin 256) (attri : ℕ) (prod : Production) : Production :=
  prod.map fun symbol =>
    if symbol.variableAttri = v then
      { symbol with attri := attriOf attri, variableAttri := noVariable }
    else symbol

def continueToFill (prod : Production) : Bool := prod.any fun symbol => symbol.variableAttri ≠ noVariable

/-- The worklist and `normalProds`. -/
abbrev State := FIFOWorkList Production × Productions

/-- The round of one attribute. -/
def fillOne (currentProduction : Production) (v : Fin 256) (s : State) (attri : ℕ) : State :=
  let filled := fillingProduction v attri currentProduction
  if continueToFill filled then ((s.1.push filled).2, s.2) else (s.1, s.2.insert filled)

/-- The round of one production. -/
def fillStep (nodeSet : List ℕ) (s : State) : Option State :=
  s.1.pop.map fun r =>
    let v := currentVariableAttribute r.1
    if v = noVariable then (r.2, s.2.insert r.1) else nodeSet.foldl (fillOne r.1 v) (r.2, s.2)

def getFilledProductions (fuel : ℕ) (prod : Production) (nodeSet : List ℕ) : Option Productions :=
  (whileM (fun s : State => !s.1.isEmpty) (fillStep nodeSet) fuel
    ((FIFOWorkList.empty.push prod).2, [])).map Prod.snd

-- ── what it is for

/-- `σ` chooses an attribute for each variable. -/
def Choice (nodeSet : List ℕ) (prod : Production) (σ : Fin 256 → ℕ) : Prop :=
  ∀ symbol ∈ prod, symbol.variableAttri ≠ noVariable → σ symbol.variableAttri ∈ nodeSet

def Substituted (σ : Fin 256 → ℕ) (prod filled : Production) : Prop :=
  List.Forall₂ (fun symbol symbol' => symbol'.kind = symbol.kind ∧ symbol'.variableAttri = noVariable ∧
    symbol'.attri.val = if symbol.variableAttri = noVariable then symbol.attri.val
      else σ symbol.variableAttri) prod filled

/-- The productions are those that some choice gives, each once, and each choice gives one. -/
structure Expands (nodeSet : List ℕ) (prod : Production) (normalProds : Productions) : Prop where
  nodup : normalProds.Nodup
  sound : ∀ filled ∈ normalProds, ∃ σ, Choice nodeSet prod σ ∧ Substituted σ prod filled
  complete : ∀ σ, Choice nodeSet prod σ → ∃ filled ∈ normalProds, Substituted σ prod filled

-- ── filling as the code does it

/-- All variables at once, in the 16 bits of the symbols. -/
def fillAll (σ : Fin 256 → ℕ) (prod : Production) : Production :=
  prod.map fun symbol =>
    if symbol.variableAttri = noVariable then symbol
    else { symbol with attri := attriOf (σ symbol.variableAttri), variableAttri := noVariable }

def Fills (nodeSet : List ℕ) (prod : Production) : Set Production :=
  {filled | ∃ σ, Choice nodeSet prod σ ∧ filled = fillAll σ prod}

theorem foldl_variable_of_ne {v : Fin 256} (hv : v ≠ noVariable) (prod : Production) :
    prod.foldl (fun cur symbol => if cur = noVariable then symbol.variableAttri else cur) v = v := by
  induction prod with
  | nil => rfl
  | cons symbol prod ih => rw [foldl_cons, if_neg hv, ih]

variable {prod : Production}

theorem currentVariableAttribute_spec (prod : Production) :
    (currentVariableAttribute prod = noVariable → ∀ symbol ∈ prod, symbol.variableAttri = noVariable) ∧
      (currentVariableAttribute prod ≠ noVariable →
        ∃ symbol ∈ prod, symbol.variableAttri = currentVariableAttribute prod) := by
  induction prod with
  | nil =>
    refine ⟨nofun, fun h => absurd rfl h⟩
  | cons symbol prod ih =>
    by_cases hv : symbol.variableAttri = noVariable
    · have heq : currentVariableAttribute (symbol :: prod) = currentVariableAttribute prod := by
        rw [currentVariableAttribute, foldl_cons, if_pos rfl, hv]
        rfl
      rw [heq]
      refine ⟨fun h x hx => ?_, fun h => ?_⟩
      · rcases List.mem_cons.mp hx with rfl | hx
        · exact hv
        · exact ih.1 h x hx
      · obtain ⟨x, hx, he⟩ := ih.2 h
        exact ⟨x, mem_cons_of_mem _ hx, he⟩
    · have heq : currentVariableAttribute (symbol :: prod) = symbol.variableAttri := by
        rw [currentVariableAttribute, foldl_cons, if_pos rfl, foldl_variable_of_ne hv]
      rw [heq]
      exact ⟨fun h => absurd h hv, fun _ => ⟨symbol, mem_cons_self, rfl⟩⟩

theorem continueToFill_eq_false :
    continueToFill prod = false ↔ ∀ symbol ∈ prod, symbol.variableAttri = noVariable := by
  rw [continueToFill, any_eq_false]
  simp

theorem fills_of_filled (nodeSet : List ℕ) (h : ∀ symbol ∈ prod, symbol.variableAttri = noVariable)
    : Fills nodeSet prod = {prod} := by
  have hall : ∀ σ, fillAll σ prod = prod := by
    intro σ
    rw [fillAll]
    calc prod.map _ = prod.map id := map_congr_left fun symbol hs => if_pos (h symbol hs)
      _ = prod := map_id prod
  ext filled
  rw [Set.mem_singleton_iff]
  constructor
  · rintro ⟨σ, -, rfl⟩
    exact hall σ
  · rintro rfl
    exact ⟨fun _ => 0, fun symbol hs hv => absurd (h symbol hs) hv, (hall _).symm⟩

theorem fillAll_fillingProduction {σ : Fin 256 → ℕ} {v : Fin 256} (hv : v ≠ noVariable) (prod : Production) :
    fillAll σ (fillingProduction v (σ v) prod) = fillAll σ prod := by
  rw [fillAll, fillingProduction, fillAll, map_map]
  refine map_congr_left fun symbol _ => ?_
  rw [Function.comp_apply]
  by_cases hs : symbol.variableAttri = v
  · rw [if_pos hs, if_pos rfl, if_neg (hs ▸ hv), hs]
  · rw [if_neg hs]

theorem fillAll_congr {σ τ : Fin 256 → ℕ}
    (h : ∀ symbol ∈ prod, symbol.variableAttri ≠ noVariable → σ symbol.variableAttri = τ symbol.variableAttri)
    :
    fillAll σ prod = fillAll τ prod := by
  refine map_congr_left fun symbol hs => ?_
  by_cases hv : symbol.variableAttri = noVariable
  · rw [if_pos hv, if_pos hv]
  · rw [if_neg hv, if_neg hv, h symbol hs hv]

theorem mem_fillingProduction {v : Fin 256} {a : ℕ} {symbol : Symbol}
    (h : symbol ∈ fillingProduction v a prod) (hv : symbol.variableAttri ≠ noVariable) :
    symbol ∈ prod ∧ symbol.variableAttri ≠ v := by
  rw [fillingProduction] at h
  obtain ⟨x, hx, rfl⟩ := List.mem_map.mp h
  by_cases hxv : x.variableAttri = v
  · rw [if_pos hxv] at hv
    exact absurd rfl hv
  · rw [if_neg hxv]
    exact ⟨hx, hxv⟩

/-- **One variable at a time**: the fillings of a production are those of the productions in
    which one of its variables has been filled. -/
theorem fills_eq (nodeSet : List ℕ) {v : Fin 256} (hv : v ≠ noVariable)
    (hmem : ∃ symbol ∈ prod, symbol.variableAttri = v) (filled : Production) :
    filled ∈ Fills nodeSet prod ↔
      ∃ a ∈ nodeSet, filled ∈ Fills nodeSet (fillingProduction v a prod) := by
  constructor
  · rintro ⟨σ, hσ, rfl⟩
    obtain ⟨symbol, hs, rfl⟩ := hmem
    refine ⟨σ symbol.variableAttri, hσ symbol hs hv, σ, ?_, (fillAll_fillingProduction hv prod).symm⟩
    exact fun x hx hxv => hσ x (mem_fillingProduction hx hxv).1 hxv
  · rintro ⟨a, ha, σ, hσ, rfl⟩
    -- the choice for the rest, with `a` for `v`
    let τ : Fin 256 → ℕ := fun x => if x = v then a else σ x
    have hτv : τ v = a := if_pos rfl
    refine ⟨τ, ?_, ?_⟩
    · intro x hx hxv
      by_cases hxv' : x.variableAttri = v
      · rw [hxv', hτv]
        exact ha
      · have hin : x ∈ fillingProduction v a prod := by
          refine List.mem_map.mpr ⟨x, hx, if_neg hxv'⟩
        show (if x.variableAttri = v then a else σ x.variableAttri) ∈ nodeSet
        rw [if_neg hxv']
        exact hσ x hin hxv
    · rw [← fillAll_fillingProduction hv prod, hτv]
      refine fillAll_congr fun x hx hxv => ?_
      exact (if_neg (mem_fillingProduction hx hxv).2).symm

-- ── the worklist

/-- What is done, and the fillings of what waits. -/
def Left (nodeSet : List ℕ) (s : State) : Set Production :=
  {filled | filled ∈ s.2 ∨ ∃ p ∈ s.1.den, filled ∈ Fills nodeSet p}

def unfilled (prod : Production) : Finset (Fin 256) :=
  (prod.map Symbol.variableAttri).toFinset.erase noVariable

/-- How many rounds a production is good for, and all those that wait. -/
def rounds (nodeSet : List ℕ) (prod : Production) : ℕ :=
  (nodeSet.length + 1) ^ (unfilled prod).card

def weight (nodeSet : List ℕ) (s : State) : ℕ := (s.1.dataList.map (rounds nodeSet)).sum

theorem mem_unfilled {v : Fin 256} :
    v ∈ unfilled prod ↔ v ≠ noVariable ∧ ∃ symbol ∈ prod, symbol.variableAttri = v := by
  rw [unfilled, Finset.mem_erase, mem_toFinset, mem_map]

theorem card_unfilled_fillingProduction {v : Fin 256} (h : v ∈ unfilled prod) (a : ℕ) :
    (unfilled (fillingProduction v a prod)).card < (unfilled prod).card := by
  refine Finset.card_lt_card ((Finset.ssubset_iff_of_subset ?_).mpr ⟨v, h, ?_⟩)
  · intro x hx
    obtain ⟨hne, symbol, hs, rfl⟩ := mem_unfilled.mp hx
    exact mem_unfilled.mpr ⟨hne, symbol, (mem_fillingProduction hs hne).1, rfl⟩
  · intro hx
    obtain ⟨hne, symbol, hs, rfl⟩ := mem_unfilled.mp hx
    exact (mem_fillingProduction hs hne).2 rfl

theorem weight_push (nodeSet : List ℕ) (w : FIFOWorkList Production) (p : Production)
    (ps qs : Productions) :
    weight nodeSet ((w.push p).2, ps) ≤ weight nodeSet (w, qs) + rounds nodeSet p := by
  show ((w.push p).2.dataList.map _).sum ≤ (w.dataList.map _).sum + _
  by_cases h : p ∈ w.dataList
  · have hfind : w.find p := decide_eq_true ((w.agree p).mpr h)
    have hpush : (w.push p).2 = w := by rw [FIFOWorkList.push, dif_pos hfind]
    rw [hpush]
    exact Nat.le_add_right _ _
  · rw [FIFOWorkList.dataList_push h, map_append, sum_append, map_singleton, sum_singleton]

section fillOne

variable {nodeSet : List ℕ} {p : Production} {v : Fin 256} {s : State}

theorem left_fillOne (a : ℕ) (filled : Production) : filled ∈ Left nodeSet (fillOne p v s a) ↔
    filled ∈ Left nodeSet s ∨ filled ∈ Fills nodeSet (fillingProduction v a p) := by
  rw [fillOne]
  by_cases h : continueToFill (fillingProduction v a p)
  · rw [if_pos h]
    show (filled ∈ s.2 ∨ ∃ q ∈ (s.1.push _).2.den, _) ↔ (filled ∈ s.2 ∨ ∃ q ∈ s.1.den, _) ∨ _
    rw [FIFOWorkList.den_push]
    simp only [Set.mem_insert_iff, exists_eq_or_imp]
    exact (or_congr_right or_comm).trans or_assoc.symm
  · rw [if_neg h, fills_of_filled nodeSet (continueToFill_eq_false.mp (Bool.eq_false_iff.mpr h))]
    show (filled ∈ s.2.insert _ ∨ ∃ q ∈ s.1.den, _) ↔ (filled ∈ s.2 ∨ ∃ q ∈ s.1.den, _) ∨ _
    rw [mem_insert_iff, Set.mem_singleton_iff]
    exact or_assoc.trans or_comm

theorem nodup_fillOne (a : ℕ) (h : s.2.Nodup) : (fillOne p v s a).2.Nodup := by
  rw [fillOne]
  split_ifs
  · exact h
  · exact h.insert

theorem weight_fillOne (nodeSet : List ℕ) (a : ℕ) : weight nodeSet (fillOne p v s a) ≤
    weight nodeSet s + rounds nodeSet (fillingProduction v a p) := by
  rw [fillOne]
  split_ifs
  · exact weight_push nodeSet s.1 _ s.2 s.2
  · exact Nat.le_add_right _ _

theorem foldl_fillOne (nodeSet : List ℕ) (hv : v ∈ unfilled p) (l : List ℕ) : ∀ s : State, s.2.Nodup →
    (l.foldl (fillOne p v) s).2.Nodup ∧
    (∀ filled, filled ∈ Left nodeSet (l.foldl (fillOne p v) s) ↔ filled ∈ Left nodeSet s ∨
      ∃ a ∈ l, filled ∈ Fills nodeSet (fillingProduction v a p)) ∧
    weight nodeSet (l.foldl (fillOne p v) s) ≤
      weight nodeSet s + l.length * (nodeSet.length + 1) ^ ((unfilled p).card - 1) := by
  induction l with
  | nil =>
    refine fun s hs => ⟨hs, fun filled => ?_, Nat.le_add_right _ _⟩
    simp
  | cons a l ih =>
    intro s hs
    obtain ⟨hnd, hleft, hweight⟩ := ih (fillOne p v s a) (nodup_fillOne a hs)
    rw [foldl_cons]
    refine ⟨hnd, fun filled => ?_, ?_⟩
    · rw [hleft, left_fillOne]
      simp only [mem_cons, exists_eq_or_imp]
      tauto
    · have hone := weight_fillOne nodeSet (p := p) (v := v) (s := s) a
      have hcard := card_unfilled_fillingProduction hv a
      have hrounds : rounds nodeSet (fillingProduction v a p) ≤
          (nodeSet.length + 1) ^ ((unfilled p).card - 1) :=
        Nat.pow_le_pow_right (by omega) (by omega)
      rw [length_cons, Nat.succ_mul]
      omega

end fillOne

/-- **One round** keeps the set of fillings and takes from the rounds that are left. -/
theorem fillStep_spec (nodeSet : List ℕ) {s : State} (hnd : s.2.Nodup)
    (hc : (!s.1.isEmpty)) : ∃ s', fillStep nodeSet s = some s' ∧
      (s'.2.Nodup ∧ ∀ filled, filled ∈ Left nodeSet s' ↔ filled ∈ Left nodeSet s) ∧
      weight nodeSet s' < weight nodeSet s := by
  obtain ⟨p, w, hpop, hmem, hden⟩ := FIFOWorkList.pop_spec (Bool.not_eq_true' _ ▸ hc)
  have hlist : weight nodeSet s = rounds nodeSet p + weight nodeSet (w, s.2) := by
    rw [weight, FIFOWorkList.dataList_pop hpop, map_cons, sum_cons]
    rfl
  have hsplit : ∀ filled, filled ∈ Left nodeSet s ↔
      filled ∈ Left nodeSet (w, s.2) ∨ filled ∈ Fills nodeSet p := by
    intro filled
    show (filled ∈ s.2 ∨ ∃ q ∈ s.1.den, _) ↔ (filled ∈ s.2 ∨ ∃ q ∈ w.den, _) ∨ _
    have hor : ∀ q, q ∈ s.1.den ↔ q ∈ w.den ∨ q = p := by
      intro q
      rw [hden, Set.mem_sdiff, Set.mem_singleton_iff]
      by_cases hq : q = p
      · simp [hq, hmem]
      · simp [hq]
    simp only [hor, or_and_right, exists_or, exists_eq_left]
    exact or_assoc.symm
  rw [fillStep, hpop]
  refine ⟨_, rfl, ?_⟩
  dsimp only
  have hpos : 0 < rounds nodeSet p := Nat.pow_pos (Nat.succ_pos _)
  by_cases hv : currentVariableAttribute p = 0
  · rw [if_pos hv]
    refine ⟨⟨hnd.insert, fun filled => ?_⟩, ?_⟩
    · rw [hsplit, fills_of_filled nodeSet ((currentVariableAttribute_spec p).1 hv)]
      show (filled ∈ s.2.insert p ∨ ∃ q ∈ w.den, _) ↔ (filled ∈ s.2 ∨ ∃ q ∈ w.den, _) ∨ _
      rw [mem_insert_iff, Set.mem_singleton_iff]
      exact or_assoc.trans or_comm
    · rw [hlist]
      show weight nodeSet (w, s.2) < _
      omega
  · rw [if_neg hv]
    have hfound := (currentVariableAttribute_spec p).2 hv
    have hvar : currentVariableAttribute p ∈ unfilled p := mem_unfilled.mpr ⟨hv, hfound⟩
    obtain ⟨hnd', hleft, hweight⟩ := foldl_fillOne nodeSet hvar nodeSet (w, s.2) hnd
    refine ⟨⟨hnd', fun filled => ?_⟩, ?_⟩
    · rw [hleft, hsplit, fills_eq nodeSet hv hfound]
    · have hcard : 0 < (unfilled p).card := Finset.card_pos.mpr ⟨_, hvar⟩
      have hrounds : rounds nodeSet p =
          (nodeSet.length + 1) ^ ((unfilled p).card - 1) * (nodeSet.length + 1) := by
        rw [rounds, ← Nat.pow_succ, Nat.succ_eq_add_one, Nat.sub_add_cancel hcard]
      have hpow : 0 < (nodeSet.length + 1) ^ ((unfilled p).card - 1) := Nat.pow_pos (Nat.succ_pos _)
      rw [Nat.mul_succ, Nat.mul_comm] at hrounds
      omega

/-- **The run** ends, with the fillings of the production, each once. -/
theorem getFilledProductions_fills (prod : Production) (nodeSet : List ℕ) :
    ∃ normalProds, Stops (fun fuel => getFilledProductions fuel prod nodeSet) normalProds ∧
      normalProds.Nodup ∧ ∀ filled, filled ∈ normalProds ↔ filled ∈ Fills nodeSet prod := by
  have hstart : ∀ filled, filled ∈ Left nodeSet ((FIFOWorkList.empty.push prod).2, []) ↔
      filled ∈ Fills nodeSet prod := by
    intro filled
    show (filled ∈ [] ∨ ∃ q ∈ (FIFOWorkList.empty.push prod).2.den, _) ↔ _
    rw [FIFOWorkList.den_singleton]
    simp
  obtain ⟨t, hstops, ⟨hnd, hleft⟩, hend⟩ := whileM_total (I := fun s : State => s.2.Nodup ∧
      ∀ filled, filled ∈ Left nodeSet s ↔ filled ∈ Fills nodeSet prod)
    (fun s hs hc => by
      obtain ⟨s', hstep, ⟨hnd', hsame⟩, hlt⟩ := fillStep_spec nodeSet hs.1 hc
      exact ⟨s', hstep, ⟨hnd', fun filled => (hsame filled).trans (hs.2 filled)⟩, hlt⟩)
    ⟨nodup_nil, hstart⟩
  refine ⟨t.2, hstops.map Prod.snd, hnd, fun filled => ?_⟩
  rw [← hleft]
  show _ ↔ (filled ∈ t.2 ∨ ∃ q ∈ t.1.den, _)
  have hempty : t.1.isEmpty := by
    rw [Bool.not_eq_false'] at hend
    exact hend
  rw [FIFOWorkList.den_of_isEmpty hempty]
  simp

-- ── the choices and their productions

theorem mem_nodeSetOf (kindToAttrsMap : List (ℕ × List ℕ)) (a : ℕ) :
    a ∈ nodeSetOf kindToAttrsMap ↔ ∃ pair ∈ kindToAttrsMap, a ∈ pair.2 := by
  have hinner : ∀ (l nodeSet : List ℕ),
      a ∈ l.foldl (fun nodeSet attri => nodeSet.insert attri) nodeSet ↔ a ∈ nodeSet ∨ a ∈ l := by
    intro l
    induction l with
    | nil => simp
    | cons b l ih =>
      intro nodeSet
      rw [foldl_cons, ih, mem_insert_iff, mem_cons]
      tauto
  have houter : ∀ nodeSet : List ℕ, a ∈ kindToAttrsMap.foldl (fun nodeSet pair =>
      pair.2.foldl (fun nodeSet attri => nodeSet.insert attri) nodeSet) nodeSet ↔
        a ∈ nodeSet ∨ ∃ pair ∈ kindToAttrsMap, a ∈ pair.2 := by
    induction kindToAttrsMap with
    | nil => simp
    | cons pair pairs ih =>
      intro nodeSet
      rw [foldl_cons, ih, hinner]
      simp only [mem_cons, exists_eq_or_imp]
      exact or_assoc
  rw [nodeSetOf, houter]
  simp

theorem substituted_fillAll {σ : Fin 256 → ℕ} : ∀ {prod : Production},
    (∀ symbol ∈ prod, symbol.variableAttri ≠ noVariable → σ symbol.variableAttri < 65536) →
      Substituted σ prod (fillAll σ prod) := by
  intro prod
  induction prod with
  | nil => exact fun _ => .nil
  | cons symbol prod ih =>
    intro h
    refine .cons ?_ (ih fun x hx => h x (mem_cons_of_mem _ hx))
    dsimp only
    by_cases hv : symbol.variableAttri = noVariable
    · rw [if_pos hv, if_pos hv]
      exact ⟨rfl, hv, rfl⟩
    · rw [if_neg hv, if_neg hv]
      exact ⟨rfl, rfl, Nat.mod_eq_of_lt (h symbol mem_cons_self hv)⟩

theorem Substituted.fits {σ : Fin 256 → ℕ} : ∀ {prod filled : Production},
    Substituted σ prod filled → ∀ symbol ∈ prod, symbol.variableAttri ≠ noVariable →
      σ symbol.variableAttri < 65536 := by
  intro prod filled h
  induction h with
  | nil => exact nofun
  | cons hhead _ ih =>
    intro symbol hs hv
    rcases List.mem_cons.mp hs with rfl | hs
    · have hval := hhead.2.2
      rw [if_neg hv] at hval
      rw [← hval]
      exact Fin.isLt _
    · exact ih symbol hs hv

/-- **The filled productions** are the substitutions of an attribute for each variable, if there
    is no variable or all attributes fit in the 16 bits of a symbol; otherwise not. -/
theorem getFilledProductions_expands (prod : Production) (kindToAttrsMap : List (ℕ × List ℕ)) :
    ∃ normalProds,
      Stops (fun fuel => getFilledProductions fuel prod (nodeSetOf kindToAttrsMap)) normalProds ∧
        (Expands (nodeSetOf kindToAttrsMap) prod normalProds ↔
          (∀ symbol ∈ prod, symbol.variableAttri = noVariable) ∨
            ∀ pair ∈ kindToAttrsMap, ∀ a ∈ pair.2, a < 65536) := by
  obtain ⟨normalProds, hstops, hnd, hmem⟩ :=
    getFilledProductions_fills prod (nodeSetOf kindToAttrsMap)
  refine ⟨normalProds, hstops, ?_, ?_⟩
  · intro h
    by_cases hvar : ∀ symbol ∈ prod, symbol.variableAttri = noVariable
    · exact .inl hvar
    · push Not at hvar
      obtain ⟨symbol, hs, hv⟩ := hvar
      refine .inr fun pair hpair a ha => ?_
      have hchoice : Choice (nodeSetOf kindToAttrsMap) prod fun _ => a := fun _ _ _ =>
        (mem_nodeSetOf kindToAttrsMap a).mpr ⟨pair, hpair, ha⟩
      obtain ⟨filled, -, hsub⟩ := h.complete (fun _ => a) hchoice
      exact hsub.fits symbol hs hv
  · intro h
    have hfits : ∀ σ, Choice (nodeSetOf kindToAttrsMap) prod σ →
        Substituted σ prod (fillAll σ prod) := by
      intro σ hσ
      refine substituted_fillAll fun symbol hs hv => ?_
      rcases h with hnone | hall
      · exact absurd (hnone symbol hs) hv
      · obtain ⟨pair, hpair, ha⟩ := (mem_nodeSetOf kindToAttrsMap _).mp (hσ symbol hs hv)
        exact hall pair hpair _ ha
    constructor
    case nodup => exact hnd
    case sound =>
      intro filled hf
      obtain ⟨σ, hσ, rfl⟩ := (hmem filled).mp hf
      exact ⟨σ, hσ, hfits σ hσ⟩
    case complete =>
      intro σ hσ
      exact ⟨fillAll σ prod, (hmem _).mpr ⟨σ, hσ, rfl⟩, hfits σ hσ⟩

/-- `X_i` with the attribute `65536`: the symbol is filled with `0`. -/
theorem not_expands_wide :
    Stops (fun fuel => getFilledProductions fuel [⟨1, 0, 105⟩] (nodeSetOf [(1, [65536])]))
      [[⟨1, 0, 0⟩]] ∧ ¬ Expands (nodeSetOf [(1, [65536])]) [⟨1, 0, 105⟩] [[⟨1, 0, 0⟩]] := by
  constructor
  · have hrun : whileM (fun s : State => !s.1.isEmpty) (fillStep (nodeSetOf [(1, [65536])])) 2
        ((FIFOWorkList.empty.push [⟨1, 0, 105⟩]).2, []) =
          some (FIFOWorkList.empty, [[⟨1, 0, 0⟩]]) := rfl
    exact (stops_of_whileM hrun).map Prod.snd
  · intro h
    have hmem : 65536 ∈ nodeSetOf [(1, [65536])] := mem_cons_self
    obtain ⟨filled, -, hsub⟩ := h.complete (fun _ => 65536) fun _ _ _ => hmem
    exact absurd (hsub.fits ⟨1, 0, 105⟩ mem_cons_self (by decide)) (by decide)

end SvfFilledProductions
