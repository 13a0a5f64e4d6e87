import Mathlib

/-!
# `ContextCond`: call strings with a limit

A call string keeps the innermost call sites. When it is full, a push drops the oldest one and
marks the context as not concrete; a match on an empty string succeeds, as the call site may have
been dropped. An unbounded stack is what it stands for.

The step lemma `Follows.step` is the simulation: what the stack does, the string does, and stays
a suffix of the stack. It needs room for one call site. With a limit of 0 a push drops its own call
site and the mark is not set; so the strings refine the stack exactly where the limit is not 0 or
nothing is pushed (**`refines_iff`**).
-/

namespace SvfContextCond

open List Option

/-- The call string, last call at the back. -/
structure ContextCond where
  context : List ℕ
  concreteCxt : Bool
deriving DecidableEq

namespace ContextCond

def new : ContextCond := ⟨[], true⟩

def setNonConcreteCxt (c : ContextCond) : ContextCond := { c with concreteCxt := false }

def pushContext (maximumCxtLen : ℕ) (c : ContextCond) (ctx : ℕ) : Bool × ContextCond :=
  if c.context.length < maximumCxtLen then (true, { c with context := c.context ++ [ctx] })
  else if c.context ≠ [] then
    (false, { c.setNonConcreteCxt with context := c.context.tail ++ [ctx] })
  else (false, c)

def matchContext (c : ContextCond) (ctx : ℕ) : Bool × ContextCond :=
  if c.context = [] then (true, c)
  else if c.context.getLast? = some ctx then (true, { c with context := c.context.dropLast })
  else (false, c)

end ContextCond

inductive Op where
  | pushContext (ctx : ℕ)
  | matchContext (ctx : ℕ)
deriving DecidableEq

/-- One operation. A match that returns false is the end of the path; a push that returns false
    is not. -/
def step (maximumCxtLen : ℕ) (c : ContextCond) : Op → Option ContextCond
  | .pushContext ctx => some (c.pushContext maximumCxtLen ctx).2
  | .matchContext ctx => if (c.matchContext ctx).1 then some (c.matchContext ctx).2 else none

-- ── The unbounded stack

/-- The operations of a stack without a limit. An empty stack matches: the path may have begun
    inside of the call. -/
def stackStep (stack : List ℕ) : Op → Option (List ℕ)
  | .pushContext ctx => some (stack ++ [ctx])
  | .matchContext ctx =>
    if stack = [] then some stack
    else if stack.getLast? = some ctx then some stack.dropLast
    else none

/-- A push on a full string drops a call site: the oldest one, or its own where there is none. -/
def drops (maximumCxtLen : ℕ) (c : ContextCond) : Op → Bool
  | .pushContext _ => decide (maximumCxtLen ≤ c.context.length)
  | .matchContext _ => false

/-- A call string and whether a call site has been dropped on the way to it. -/
structure Observed where
  cond : ContextCond
  dropped : Bool

def observe (maximumCxtLen : ℕ) (o : Observed) (op : Op) : Option Observed :=
  (step maximumCxtLen o.cond op).map fun c => ⟨c, o.dropped || drops maximumCxtLen o.cond op⟩

def unbounded (ops : List Op) : Option (List ℕ) := ops.foldlM stackStep []

/-- The operations on a call string. -/
def bounded (maximumCxtLen : ℕ) (ops : List Op) : Option Observed :=
  ops.foldlM (observe maximumCxtLen) ⟨ContextCond.new, false⟩

/-- The call string follows the stack: it has the innermost call sites, all of them while the flag
    is true, and the flag is false exactly if a call site has been dropped. -/
structure Follows (o : Observed) (stack : List ℕ) : Prop where
  suffix : o.cond.context <:+ stack
  concrete : o.cond.concreteCxt = true → o.cond.context = stack
  flag : o.cond.concreteCxt = false ↔ o.dropped = true

/-- At every step of the operations that the stack gets to, so does the call string. -/
def Refines (maximumCxtLen : ℕ) (ops : List Op) : Prop :=
  ∀ front, front <+: ops → ∀ stack, unbounded front = some stack →
    ∃ o, bounded maximumCxtLen front = some o ∧ Follows o stack

-- ── The simulation

theorem unbounded_concat (ops : List Op) (op : Op) :
    unbounded (ops ++ [op]) = (unbounded ops).bind fun stack => stackStep stack op := by
  rw [unbounded, foldlM_append]
  refine congrArg _ (funext fun stack => ?_)
  rw [foldlM_cons]
  exact bind_pure _

theorem bounded_concat (k : ℕ) (ops : List Op) (op : Op) :
    bounded k (ops ++ [op]) = (bounded k ops).bind fun o => observe k o op := by
  rw [bounded, foldlM_append]
  refine congrArg _ (funext fun o => ?_)
  rw [foldlM_cons]
  exact bind_pure _

variable {k : ℕ} {o : Observed} {stack stack' : List ℕ} {ctx : ℕ}

theorem suffix_concat {context : List ℕ} (h : context <:+ stack) :
    context ++ [ctx] <:+ stack ++ [ctx] := by
  obtain ⟨older, rfl⟩ := h
  exact ⟨older, (append_assoc older context [ctx]).symm⟩

theorem Follows.push (hk : k ≠ 0) (h : Follows o stack) :
    ∃ o', observe k o (.pushContext ctx) = some o' ∧ Follows o' (stack ++ [ctx]) := by
  refine ⟨_, rfl, ?_⟩
  by_cases hroom : o.cond.context.length < k
  · have hdrops : drops k o.cond (.pushContext ctx) = false := decide_eq_false (by omega)
    rw [ContextCond.pushContext, if_pos hroom, hdrops, Bool.or_false]
    constructor
    case suffix => exact suffix_concat h.suffix
    case concrete =>
      intro hc
      show o.cond.context ++ [ctx] = stack ++ [ctx]
      rw [h.concrete hc]
    case flag => exact h.flag
  · have hdrops : drops k o.cond (.pushContext ctx) := decide_eq_true (by omega)
    have hne : o.cond.context ≠ [] := by
      intro hnil
      rw [hnil, length_nil] at hroom
      omega
    rw [ContextCond.pushContext, if_neg hroom, if_pos hne, hdrops, Bool.or_true]
    constructor
    case suffix => exact suffix_concat ((tail_suffix _).trans h.suffix)
    case concrete => exact nofun
    case flag => exact iff_of_true rfl rfl

theorem Follows.matchCtx (h : Follows o stack)
    (hstack : stackStep stack (.matchContext ctx) = some stack') :
    ∃ o', observe k o (.matchContext ctx) = some o' ∧ Follows o' stack' := by
  by_cases hnil : o.cond.context = []
  · -- what is to be matched has been dropped, or the path began inside of the call
    have hmatch : o.cond.matchContext ctx = (true, o.cond) := if_pos hnil
    refine ⟨o, ?_, ?_⟩
    · rw [observe, step, hmatch, if_pos rfl, map_some, drops, Bool.or_false]
    · constructor
      case suffix =>
        rw [hnil]
        exact nil_suffix
      case concrete =>
        intro hc
        rw [stackStep, if_pos ((h.concrete hc).symm.trans hnil)] at hstack
        rw [← some.inj hstack]
        exact h.concrete hc
      case flag => exact h.flag
  · obtain ⟨context, c, hcontext⟩ := (eq_nil_or_concat' o.cond.context).resolve_left hnil
    obtain ⟨older, holder⟩ := h.suffix
    have hsplit : stack = (older ++ context) ++ [c] := by
      rw [← holder, hcontext, append_assoc]
    rw [stackStep, if_neg (by simp [hsplit]), hsplit, getLast?_concat, dropLast_concat] at hstack
    obtain ⟨hc, hstack'⟩ := ite_none_right_eq_some.mp hstack
    obtain rfl := some.inj hc
    have hmatch : o.cond.matchContext c = (true, { o.cond with context := context }) := by
      rw [ContextCond.matchContext, if_neg hnil, hcontext, getLast?_concat, if_pos rfl,
        dropLast_concat]
    refine ⟨⟨{ o.cond with context := context }, o.dropped⟩, ?_, ?_⟩
    · rw [observe, step, hmatch, if_pos rfl, map_some, drops, Bool.or_false]
    · rw [← some.inj hstack']
      constructor
      case suffix => exact suffix_append older context
      case concrete =>
        intro hconc
        have heq := (h.concrete hconc).symm.trans hcontext
        rw [hsplit] at heq
        exact (append_inj_left' heq rfl).symm
      case flag => exact h.flag

/-- **Step lemma**: with room for one call site, the string does what the stack does. -/
theorem Follows.step (hk : k ≠ 0) (h : Follows o stack) {op : Op}
    (hstack : stackStep stack op = some stack') :
    ∃ o', observe k o op = some o' ∧ Follows o' stack' := by
  cases op with
  | pushContext ctx =>
    cases hstack
    exact h.push hk
  | matchContext ctx => exact h.matchCtx hstack

/-- **Run lemma**: the string follows the stack in every run, if the limit is not 0 or nothing is
    pushed. -/
theorem follows_of_unbounded {ops : List Op} (h : k ≠ 0 ∨ ∀ ctx, .pushContext ctx ∉ ops) :
    ∀ {stack : List ℕ}, unbounded ops = some stack →
      ∃ o, bounded k ops = some o ∧ Follows o stack := by
  induction ops using List.reverseRecOn with
  | nil =>
    intro stack hstack
    cases hstack
    exact ⟨_, rfl, ⟨suffix_refl [], fun _ => rfl, iff_of_false (by decide) (by decide)⟩⟩
  | append_singleton ops op ih =>
    intro stack' hstack
    rw [unbounded_concat] at hstack
    obtain ⟨stack, hops, hop⟩ := bind_eq_some_iff.mp hstack
    have h' : k ≠ 0 ∨ ∀ ctx, .pushContext ctx ∉ ops :=
      h.imp_right fun hno ctx hmem => hno ctx (mem_append_left _ hmem)
    obtain ⟨o, ho, hfollows⟩ := ih h' hops
    have hnext : ∃ o', observe k o op = some o' ∧ Follows o' stack' := by
      cases op with
      | pushContext ctx =>
        have hk := h.resolve_right fun hno => hno ctx (mem_append_right _ (mem_singleton_self _))
        exact hfollows.step hk hop
      | matchContext ctx => exact hfollows.matchCtx hop
    obtain ⟨o', ho', hfollows'⟩ := hnext
    exact ⟨o', by rw [bounded_concat, ho, bind_some, ho'], hfollows'⟩

-- ── No room

theorem unbounded_of_no_push {ops : List Op} (h : ∀ ctx, .pushContext ctx ∉ ops) :
    unbounded ops = some [] := by
  induction ops using List.reverseRecOn with
  | nil => rfl
  | append_singleton ops op ih =>
    rw [unbounded_concat, ih fun ctx hmem => h ctx (mem_append_left _ hmem), bind_some]
    cases op with
    | pushContext ctx =>
      exact absurd (mem_append_right _ (mem_singleton_self _)) (h ctx)
    | matchContext ctx => rfl

theorem bounded_zero {ops : List Op} {o : Observed} (h : bounded 0 ops = some o) :
    o.cond = ContextCond.new := by
  induction ops using List.reverseRecOn generalizing o with
  | nil => exact (some.inj h) ▸ rfl
  | append_singleton ops op ih =>
    rw [bounded_concat] at h
    obtain ⟨p, hp, hop⟩ := bind_eq_some_iff.mp h
    have hcond := ih hp
    rw [observe, hcond] at hop
    cases op <;> exact (some.inj hop) ▸ rfl

theorem first_push {ops : List Op} (h : .pushContext ctx ∈ ops) :
    ∃ front ctx' back, ops = front ++ .pushContext ctx' :: back ∧
      ∀ ctx, .pushContext ctx ∉ front := by
  induction ops with
  | nil => cases h
  | cons op ops ih =>
    cases op with
    | pushContext ctx' => exact ⟨[], ctx', ops, rfl, fun _ => not_mem_nil⟩
    | matchContext c =>
      have htail := (mem_cons.mp h).resolve_left nofun
      obtain ⟨front, ctx', back, rfl, hfront⟩ := ih htail
      refine ⟨.matchContext c :: front, ctx', back, rfl, fun x hx => ?_⟩
      exact hfront x ((mem_cons.mp hx).resolve_left nofun)

/-- **Bounded call strings refine the unbounded stack** exactly where the limit is not 0 or no
    call site is pushed. -/
theorem refines_iff (maximumCxtLen : ℕ) (ops : List Op) :
    Refines maximumCxtLen ops ↔ maximumCxtLen ≠ 0 ∨ ∀ ctx, .pushContext ctx ∉ ops := by
  constructor
  · intro h
    by_contra hno
    push Not at hno
    obtain ⟨rfl, ctx, hmem⟩ := hno
    obtain ⟨front, ctx', back, rfl, hfront⟩ := first_push hmem
    have hprefix : front ++ [.pushContext ctx'] <+: front ++ .pushContext ctx' :: back :=
      ⟨back, by rw [append_assoc]; rfl⟩
    have hstack : unbounded (front ++ [.pushContext ctx']) = some [ctx'] := by
      rw [unbounded_concat, unbounded_of_no_push hfront]
      rfl
    obtain ⟨o, ho, hfollows⟩ := h _ hprefix _ hstack
    have hconcrete := hfollows.concrete (by rw [bounded_zero ho]; rfl)
    rw [bounded_zero ho] at hconcrete
    cases hconcrete
  · intro h front hfront stack hstack
    refine follows_of_unbounded (h.imp_right fun hno ctx hmem => ?_) hstack
    exact hno ctx (hfront.subset hmem)

/-- With a limit of 0 the flag is still true after the call site has been dropped. -/
theorem not_refines_zero : ¬ Refines 0 [.pushContext 5] := by
  intro h
  obtain ⟨o, ho, hfollows⟩ := h [.pushContext 5] (prefix_refl _) [5] rfl
  cases ho
  cases hfollows.concrete rfl

end SvfContextCond
