import Mathlib

/-!
# Branch conditions

A condition is a z3 expression over the branch variables that have been allocated. `AND` and `OR`
simplify what they build. An expression that is too large afterwards is not kept: `AND` gives its
left operand instead and `OR` gives true, unless the expression cannot be satisfied.

The heart is that neither is ever smaller than the operation it stands for (`AND_of_eval`,
`OR_of_eval`), and that both are exact when the size limit is not reached (`eval_AND`, `eval_OR`).
-/

set_option linter.unusedSectionVars false

namespace SvfSaber

/-- A boolean expression over the branch variables `V`. -/
inductive Z3Expr (V : Type) where
  | boolVal (b : Bool)
  | boolConst (v : V)
  | not (e : Z3Expr V)
  | and (lhs rhs : Z3Expr V)
  | or (lhs rhs : Z3Expr V)
  deriving DecidableEq

namespace Z3Expr

variable {V : Type}

def eval : Z3Expr V → (V → Bool) → Bool
  | .boolVal b, _ => b
  | .boolConst v, m => m v
  | .not e, m => !(e.eval m)
  | .and lhs rhs, m => lhs.eval m && rhs.eval m
  | .or lhs rhs, m => lhs.eval m || rhs.eval m

/-- The number of subexpressions. -/
def getExprSize : Z3Expr V → ℕ
  | .boolVal _ => 1
  | .boolConst _ => 1
  | .not e => 1 + e.getExprSize
  | .and lhs rhs => 1 + lhs.getExprSize + rhs.getExprSize
  | .or lhs rhs => 1 + lhs.getExprSize + rhs.getExprSize

def getTrueCond : Z3Expr V := .boolVal true

def getFalseCond : Z3Expr V := .boolVal false

end Z3Expr

/-- What the conditions use of z3, and the option `max-z3-size`: `simplify` gives an equivalent
    expression. -/
structure Z3Context (V : Type) where
  simplify : Z3Expr V → Z3Expr V
  MaxZ3Size : ℕ
  eval_simplify : ∀ e m, (simplify e).eval m = e.eval m

namespace Z3Context

open Z3Expr

variable {V : Type} [DecidableEq V] [Fintype V] (z : Z3Context V)

/-- The solver's `check()` is not `unsat`. -/
def isSat (e : Z3Expr V) : Bool := decide (∃ m, e.eval m = true)

def isEquivalentBranchCond (lhs rhs : Z3Expr V) : Bool := decide (∀ m, lhs.eval m = rhs.eval m)

def eq (lhs rhs : Z3Expr V) : Bool := decide (z.simplify lhs = z.simplify rhs)

def tooLarge (e : Z3Expr V) : Bool := decide (getExprSize e > z.MaxZ3Size)

def NEG (e : Z3Expr V) : Z3Expr V := z.simplify (.not e)

def AND (lhs rhs : Z3Expr V) : Z3Expr V :=
  if z.eq lhs getFalseCond || z.eq rhs getFalseCond then getFalseCond
  else if z.eq lhs getTrueCond then rhs
  else if z.eq rhs getTrueCond then lhs
  else
    let expr := z.simplify (.and lhs rhs)
    if z.tooLarge expr then
      if isSat expr then lhs else getFalseCond
    else expr

def OR (lhs rhs : Z3Expr V) : Z3Expr V :=
  if z.eq lhs getTrueCond || z.eq rhs getTrueCond then getTrueCond
  else if z.eq lhs getFalseCond then rhs
  else if z.eq rhs getFalseCond then lhs
  else
    let expr := z.simplify (.or lhs rhs)
    if z.tooLarge expr then
      if isSat expr then getTrueCond else getFalseCond
    else expr

-- ── What the operations mean

variable {z} {lhs rhs : Z3Expr V} {m : V → Bool}

theorem isEquivalentBranchCond_iff :
    isEquivalentBranchCond lhs rhs ↔ ∀ m, lhs.eval m = rhs.eval m := decide_eq_true_iff

theorem eval_of_eq (h : z.eq lhs rhs) (m : V → Bool) : lhs.eval m = rhs.eval m := by
  rw [← z.eval_simplify lhs, ← z.eval_simplify rhs, of_decide_eq_true h]

theorem eval_NEG : (z.NEG lhs).eval m = !(lhs.eval m) := z.eval_simplify _ _

theorem eval_of_not_isSat (h : isSat lhs = false) (m : V → Bool) : lhs.eval m = false := by
  have hnone : ¬ ∃ m, lhs.eval m := of_decide_eq_false h
  exact Bool.eq_false_iff.mpr fun hm => hnone ⟨m, hm⟩

section

variable (z : Z3Context V)

/-- The expression that `AND` would build is not too large, or is not built. -/
def AndFits (lhs rhs : Z3Expr V) : Prop :=
  z.eq lhs getFalseCond = true ∨ z.eq rhs getFalseCond = true ∨ z.eq lhs getTrueCond = true ∨
    z.eq rhs getTrueCond = true ∨ z.tooLarge (z.simplify (.and lhs rhs)) = false

def OrFits (lhs rhs : Z3Expr V) : Prop :=
  z.eq lhs getTrueCond = true ∨ z.eq rhs getTrueCond = true ∨ z.eq lhs getFalseCond = true ∨
    z.eq rhs getFalseCond = true ∨ z.tooLarge (z.simplify (.or lhs rhs)) = false

/-- `AND` is the conjunction, or its left operand where the expression is too large. -/
theorem eval_AND_cases (lhs rhs : Z3Expr V) (m : V → Bool) :
    (z.AND lhs rhs).eval m = (lhs.eval m && rhs.eval m) ∨
      (¬ z.AndFits lhs rhs ∧ (z.AND lhs rhs).eval m = lhs.eval m) := by
  rw [AND]
  cases hlf : z.eq lhs getFalseCond with
  | true => left; rw [eval_of_eq hlf m]; simp [getFalseCond, eval]
  | false =>
  cases hrf : z.eq rhs getFalseCond with
  | true => left; rw [eval_of_eq hrf m]; simp [getFalseCond, eval]
  | false =>
  cases hlt : z.eq lhs getTrueCond with
  | true => left; rw [eval_of_eq hlt m]; simp [getTrueCond, eval]
  | false =>
  cases hrt : z.eq rhs getTrueCond with
  | true => left; rw [eval_of_eq hrt m]; simp [getTrueCond, eval]
  | false =>
  have hexpr : (z.simplify (.and lhs rhs)).eval m = (lhs.eval m && rhs.eval m) :=
    z.eval_simplify _ _
  cases hsize : z.tooLarge (z.simplify (.and lhs rhs)) with
  | false => exact .inl (by simpa [hsize] using hexpr)
  | true =>
  cases hsat : isSat (z.simplify (.and lhs rhs)) with
  | false =>
    left
    rw [← hexpr, eval_of_not_isSat hsat m]
    simp [hsize, hsat, getFalseCond, eval]
  | true =>
    right
    refine ⟨by simp [AndFits, hlf, hrf, hlt, hrt, hsize], by simp [hsize, hsat]⟩

/-- `OR` is the disjunction, or true where the expression is too large. -/
theorem eval_OR_cases (lhs rhs : Z3Expr V) (m : V → Bool) :
    (z.OR lhs rhs).eval m = (lhs.eval m || rhs.eval m) ∨
      (¬ z.OrFits lhs rhs ∧ (z.OR lhs rhs).eval m) := by
  rw [OR]
  cases hlt : z.eq lhs getTrueCond with
  | true => left; rw [eval_of_eq hlt m]; simp [getTrueCond, eval]
  | false =>
  cases hrt : z.eq rhs getTrueCond with
  | true => left; rw [eval_of_eq hrt m]; simp [getTrueCond, eval]
  | false =>
  cases hlf : z.eq lhs getFalseCond with
  | true => left; rw [eval_of_eq hlf m]; simp [getFalseCond, eval]
  | false =>
  cases hrf : z.eq rhs getFalseCond with
  | true => left; rw [eval_of_eq hrf m]; simp [getFalseCond, eval]
  | false =>
  have hexpr : (z.simplify (.or lhs rhs)).eval m = (lhs.eval m || rhs.eval m) := z.eval_simplify _ _
  cases hsize : z.tooLarge (z.simplify (.or lhs rhs)) with
  | false => exact .inl (by simpa [hsize] using hexpr)
  | true =>
  cases hsat : isSat (z.simplify (.or lhs rhs)) with
  | false =>
    left
    rw [← hexpr, eval_of_not_isSat hsat m]
    simp [hsize, hsat, getFalseCond, eval]
  | true =>
    right
    refine ⟨by simp [OrFits, hlf, hrf, hlt, hrt, hsize], ?_⟩
    simp [hsize, hsat, getTrueCond, eval]

end

theorem eval_AND (h : z.AndFits lhs rhs) : (z.AND lhs rhs).eval m = (lhs.eval m && rhs.eval m) :=
  (eval_AND_cases z lhs rhs m).resolve_right fun hc => hc.1 h

theorem eval_OR (h : z.OrFits lhs rhs) : (z.OR lhs rhs).eval m = (lhs.eval m || rhs.eval m) :=
  (eval_OR_cases z lhs rhs m).resolve_right fun hc => hc.1 h

/-- `AND` is never less than the conjunction. -/
theorem AND_of_eval (hl : lhs.eval m) (hr : rhs.eval m) : (z.AND lhs rhs).eval m := by
  rcases eval_AND_cases z lhs rhs m with h | ⟨-, h⟩
  · rw [h, hl, hr]
    rfl
  · exact h.trans hl

/-- `OR` is never less than the disjunction. -/
theorem OR_of_eval (h : lhs.eval m ∨ rhs.eval m) : (z.OR lhs rhs).eval m := by
  rcases eval_OR_cases z lhs rhs m with hor | ⟨-, hor⟩
  · rw [hor]
    exact Bool.or_eq_true_iff.mpr h
  · exact hor

end Z3Context

-- ── Two simplifiers

namespace Z3Expr

variable {V : Type}

/-- Constants are folded, and nothing else is done. -/
def foldConsts : Z3Expr V → Z3Expr V
  | .boolVal b => .boolVal b
  | .boolConst v => .boolConst v
  | .not e =>
    match e.foldConsts with
    | .boolVal b => .boolVal !b
    | e => .not e
  | .and lhs rhs =>
    match lhs.foldConsts, rhs.foldConsts with
    | .boolVal true, rhs => rhs
    | .boolVal false, _ => .boolVal false
    | lhs, .boolVal true => lhs
    | _, .boolVal false => .boolVal false
    | lhs, rhs => .and lhs rhs
  | .or lhs rhs =>
    match lhs.foldConsts, rhs.foldConsts with
    | .boolVal true, _ => .boolVal true
    | .boolVal false, rhs => rhs
    | _, .boolVal true => .boolVal true
    | lhs, .boolVal false => lhs
    | lhs, rhs => .or lhs rhs

theorem eval_foldConsts (e : Z3Expr V) (m : V → Bool) : e.foldConsts.eval m = e.eval m := by
  induction e with
  | boolVal b => rfl
  | boolConst v => rfl
  | not e ih =>
    rw [foldConsts, eval, ← ih]
    split <;> rename_i h
    · rw [h, eval, eval]
    · rw [eval]
  | and lhs rhs ihl ihr =>
    rw [foldConsts, eval, ← ihl, ← ihr]
    split <;> simp_all [eval]
  | or lhs rhs ihl ihr =>
    rw [foldConsts, eval, ← ihl, ← ihr]
    split <;> simp_all [eval]

/-- An expression of one variable is one of four. -/
def normalOne (e : Z3Expr Unit) : Z3Expr Unit :=
  match e.eval fun _ => false, e.eval fun _ => true with
  | false, false => .boolVal false
  | true, true => .boolVal true
  | false, true => .boolConst ()
  | true, false => .not (.boolConst ())

theorem eval_normalOne (e : Z3Expr Unit) (m : Unit → Bool) : (normalOne e).eval m = e.eval m := by
  have hm : m = fun _ => m () := rfl
  rw [hm]
  unfold normalOne
  cases m () <;> split <;> simp_all [eval]

theorem getExprSize_normalOne (e : Z3Expr Unit) : (normalOne e).getExprSize ≤ 2 := by
  unfold normalOne
  split <;> decide

end Z3Expr

def constContext (V : Type) (MaxZ3Size : ℕ) : Z3Context V :=
  ⟨Z3Expr.foldConsts, MaxZ3Size, Z3Expr.eval_foldConsts⟩

/-- One variable, and the size limit that is the default. -/
def oneVarContext : Z3Context Unit := ⟨Z3Expr.normalOne, 30, Z3Expr.eval_normalOne⟩

end SvfSaber
