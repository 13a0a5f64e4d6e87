import SvfModel.Z3ExprProofs

/-!
# Queries on the shared solver

One solver answers all queries of the conditions. It is a stack of scopes: `push` opens one, `add`
asserts into the innermost, `check` looks at everything asserted, and `pop` closes the innermost
scope, which is an error if none is open. `isEquivalentBranchCond` opens a scope of its own and
closes it. `isSatisfiable` closes a scope that it has not opened.

The route: `isEquivalentBranchCond_spec` and `isSatisfiable_changes` say what one query does to
any stack; with them a run of queries leaves the solver alone, and each answer is that of a fresh
solver, exactly when it asks no `isSatisfiable` (**`undisturbed_iff`**).
-/

namespace SvfSolver

inductive CheckResult where
  | unsat
  | sat
  | unknown
deriving DecidableEq

/-- What the queries use of z3: conditions, their inequality, and the answer for what is
    asserted. -/
structure Z3 (E : Type) where
  getTrueCond : E
  ne : E → E → E
  check : List E → CheckResult

/-- The assertions outside of all scopes and those of the open scopes, innermost first. -/
structure Solver (E : Type) where
  base : List E
  scopes : List (List E)
deriving DecidableEq

namespace Solver

variable {E : Type}

def fresh : Solver E := ⟨[], []⟩

def push (s : Solver E) : Solver E := { s with scopes := [] :: s.scopes }

def add (s : Solver E) (e : E) : Solver E :=
  match s.scopes with
  | [] => { s with base := s.base ++ [e] }
  | scope :: scopes => { s with scopes := (scope ++ [e]) :: scopes }

/-- `pop()`; `none` where no scope is open and z3 throws. -/
def pop (s : Solver E) : Option (Solver E) :=
  match s.scopes with
  | [] => none
  | _ :: scopes => some { s with scopes := scopes }

def assertions (s : Solver E) : List E := s.base ++ s.scopes.reverse.flatten

@[simp] theorem pop_add_push (s : Solver E) (e : E) : (s.push.add e).pop = some s := rfl

theorem assertions_add_push (s : Solver E) (e : E) :
    (s.push.add e).assertions = s.assertions ++ [e] := by
  simp [assertions, push, add]

end Solver

open Solver

variable {E : Type} (z : Z3 E)

def isEquivalentBranchCond (s : Solver E) (lhs rhs : E) : Option Bool × Solver E :=
  let s := s.push.add (z.ne lhs rhs)
  let res := z.check s.assertions
  match s.pop with
  | none => (none, s)
  | some s => (some (decide (res = .unsat)), s)

def isAllPathReachable (s : Solver E) (condition : E) : Option Bool × Solver E :=
  isEquivalentBranchCond z s condition z.getTrueCond

def isSatisfiable (s : Solver E) (condition : E) : Option Bool × Solver E :=
  let s := s.add condition
  let result := z.check s.assertions
  match s.pop with
  | none => (none, s)
  | some s => (some (decide (result = .sat ∨ result = .unknown)), s)

inductive Query (E : Type) where
  | isEquivalentBranchCond (lhs rhs : E)
  | isAllPathReachable (condition : E)
  | isSatisfiable (condition : E)

/-- A query that closes the scope it opens. -/
def Query.Balanced : Query E → Prop
  | .isEquivalentBranchCond _ _ => True
  | .isAllPathReachable _ => True
  | .isSatisfiable _ => False

def ask (s : Solver E) : Query E → Option Bool × Solver E
  | .isEquivalentBranchCond lhs rhs => isEquivalentBranchCond z s lhs rhs
  | .isAllPathReachable condition => isAllPathReachable z s condition
  | .isSatisfiable condition => isSatisfiable z s condition

def Undisturbed : Solver E → List (Query E) → Prop
  | _, [] => True
  | s, query :: queries =>
    (ask z s query).1 = (ask z fresh query).1 ∧ (ask z s query).2 = s ∧
      Undisturbed (ask z s query).2 queries

variable {z} {s : Solver E}

-- ── One query

/-- **An equivalence query** looks at what is asserted and its own condition, and leaves any stack
    as it was. -/
theorem isEquivalentBranchCond_spec (s : Solver E) (lhs rhs : E) :
    isEquivalentBranchCond z s lhs rhs =
      (some (decide (z.check (s.assertions ++ [z.ne lhs rhs]) = .unsat)), s) := by
  unfold isEquivalentBranchCond
  dsimp only
  rw [assertions_add_push, pop_add_push]

/-- **A satisfiability query** changes every stack: its condition stays asserted, or a scope that
    was open before is closed. -/
theorem isSatisfiable_changes (s : Solver E) (condition : E) :
    (isSatisfiable z s condition).2 ≠ s := by
  obtain ⟨base, scopes⟩ := s
  cases scopes with
  | nil =>
    intro h
    have hbase : base ++ [condition] = base := congrArg Solver.base h
    simp at hbase
  | cons scope scopes =>
    intro h
    have hscopes : scopes = scope :: scopes := congrArg Solver.scopes h
    exact absurd hscopes.symm (List.cons_ne_self scope scopes)

theorem ask_balanced {query : Query E} (h : query.Balanced) (s : Solver E) :
    (ask z s query).2 = s := by
  cases query with
  | isEquivalentBranchCond lhs rhs =>
    rw [ask, isEquivalentBranchCond_spec]
  | isAllPathReachable condition =>
    rw [ask, isAllPathReachable, isEquivalentBranchCond_spec]
  | isSatisfiable condition => exact absurd h id

theorem balanced_of_ask {query : Query E} (h : (ask z s query).2 = s) : query.Balanced := by
  cases query with
  | isEquivalentBranchCond lhs rhs => trivial
  | isAllPathReachable condition => trivial
  | isSatisfiable condition => exact absurd h (isSatisfiable_changes s condition)

-- ── Runs

/-- **The queries do not influence each other**, exactly when there is no satisfiability query
    among them. -/
theorem undisturbed_iff (z : Z3 E) (queries : List (Query E)) :
    Undisturbed z fresh queries ↔ ∀ query ∈ queries, query.Balanced := by
  induction queries with
  | nil => exact iff_of_true trivial nofun
  | cons query queries ih =>
    rw [List.forall_mem_cons, Undisturbed]
    constructor
    · rintro ⟨-, hstack, hrest⟩
      rw [hstack] at hrest
      exact ⟨balanced_of_ask hstack, ih.mp hrest⟩
    · rintro ⟨hquery, hrest⟩
      have hstack := ask_balanced (z := z) hquery fresh
      refine ⟨rfl, hstack, ?_⟩
      rw [hstack]
      exact ih.mpr hrest

/-- What is asserted after a run: the conditions that have been asked to be satisfiable. -/
theorem asked_base (z : Z3 E) (queries : List (Query E)) (base : List E) :
    ∃ base', queries.foldl (fun s query => (ask z s query).2) ⟨base, []⟩ = ⟨base', []⟩ ∧
      ∀ e, e ∈ base' ↔ e ∈ base ∨ .isSatisfiable e ∈ queries := by
  induction queries generalizing base with
  | nil => exact ⟨base, rfl, by simp⟩
  | cons query queries ih =>
    cases query with
    | isSatisfiable c =>
      obtain ⟨base', hrun, hmem⟩ := ih (base ++ [c])
      exact ⟨base', hrun, by simp [hmem, or_assoc]⟩
    | _ =>
      obtain ⟨base', hrun, hmem⟩ := ih base
      exact ⟨base', hrun, by simp [hmem]⟩

-- ── The conditions of the leak checker

section Conditions

variable {V : Type} [DecidableEq V] [Fintype V]

open SvfSaber

/-- A solver that decides conditions over the branch variables. -/
def boolSolver (V : Type) [DecidableEq V] [Fintype V] : Z3 (Z3Expr V) where
  getTrueCond := Z3Expr.getTrueCond
  ne lhs rhs := .or (.and lhs (.not rhs)) (.and (.not lhs) rhs)
  check es := if ∃ m, ∀ e ∈ es, e.eval m = true then .sat else .unsat

/-- A query whether a variable can be true, and then whether it is true or false the same: the
    variable is still asserted, and the answer is no longer that of a fresh solver. -/
theorem isSatisfiable_disturbs : ¬ Undisturbed (boolSolver Unit) fresh
    [.isSatisfiable (.boolConst ()), .isAllPathReachable (.boolConst ())] ∧
    (ask (boolSolver Unit) fresh (.isAllPathReachable (.boolConst ()))).1 = some false ∧
    (ask (boolSolver Unit) (ask (boolSolver Unit) fresh (.isSatisfiable (.boolConst ()))).2
      (.isAllPathReachable (.boolConst ()))).1 = some true := by
  refine ⟨fun h => absurd h.2.1 (isSatisfiable_changes _ _), ?_, ?_⟩
  · decide +kernel
  · decide +kernel

end Conditions

end SvfSolver
