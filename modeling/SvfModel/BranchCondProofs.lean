import SvfModel.Z3ExprProofs

/-!
# `allocateForBB`: the conditions of a branch

A block with several successors gets `ceil(log2 n)` fresh branch variables, and a successor the
conjunction of the variables or their negations that its index has in binary. `AND` keeps its left
operand where the expression becomes too large, and then a variable is missing.

The route: a condition is a cube (`eval_succCond`), the assignments that agree with the index where
a variable has been kept. Cubes split the assignments if and only if any two differ in a variable
that both have kept, and their sizes add up (`existsUnique_cube_iff`). So exactly one successor is
taken under every assignment if and only if that holds of the codes
(**`allocateForBB_partition_iff`**); where nothing is too large, if and only if there are as many
successors as codes.
-/

namespace SvfSaber

open List
open Finset (card_univ disjoint_left mem_inter mem_univ)

-- ── Cubes

section Cubes

variable {k n : ℕ}

/-- The assignments that agree with `a` on `K`. -/
def cube (K : Finset (Fin k)) (a : Fin k → Bool) : Finset (Fin k → Bool) :=
  Fintype.piFinset fun j => if j ∈ K then {a j} else Finset.univ

theorem mem_cube {K : Finset (Fin k)} {a x : Fin k → Bool} : x ∈ cube K a ↔ ∀ j ∈ K, x j = a j := by
  rw [cube, Fintype.mem_piFinset]
  refine forall_congr' fun j => ?_
  by_cases hj : j ∈ K
  · simp [hj]
  · simp [hj]

theorem card_cube (K : Finset (Fin k)) (a : Fin k → Bool) : (cube K a).card = 2 ^ (k - K.card) := by
  have hfactor : ∀ j, (if j ∈ K then ({a j} : Finset Bool) else Finset.univ).card =
      if j ∈ K then 1 else 2 := by
    intro j
    by_cases hj : j ∈ K
    · simp [hj]
    · simp [hj]
  rw [cube, Fintype.card_piFinset, Finset.prod_congr rfl fun j _ => hfactor j, Finset.prod_ite,
    Finset.prod_const_one, one_mul, Finset.prod_const]
  congr 1
  rw [Finset.filter_not, Finset.filter_univ_mem, ← Finset.compl_eq_univ_sdiff, Finset.card_compl,
    Fintype.card_fin]

theorem disjoint_cube_iff {K K' : Finset (Fin k)} {a a' : Fin k → Bool} :
    Disjoint (cube K a) (cube K' a') ↔ ∃ j ∈ K ∩ K', a j ≠ a' j := by
  constructor
  · intro h
    by_contra hnone
    push Not at hnone
    let x : Fin k → Bool := fun j => if j ∈ K then a j else a' j
    have hx : x ∈ cube K a := mem_cube.mpr fun j hj => if_pos hj
    refine disjoint_left.mp h hx (mem_cube.mpr fun j hj => ?_)
    show (if j ∈ K then a j else a' j) = a' j
    by_cases hK : j ∈ K
    · rw [if_pos hK, hnone j (mem_inter.mpr ⟨hK, hj⟩)]
    · rw [if_neg hK]
  · rintro ⟨j, hj, hne⟩
    obtain ⟨hK, hK'⟩ := mem_inter.mp hj
    refine disjoint_left.mpr fun x hx hx' => hne ?_
    rw [← mem_cube.mp hx j hK, mem_cube.mp hx' j hK']

/-- **Cubes that split the assignments**: they are disjoint in pairs, and their sizes add up. -/
theorem existsUnique_cube_iff (K : Fin n → Finset (Fin k)) (a : Fin n → Fin k → Bool) :
    (∀ x, ∃! i, x ∈ cube (K i) (a i)) ↔ (∀ i i', i ≠ i' → ∃ j ∈ K i ∩ K i', a i j ≠ a i' j) ∧
        ∑ i, 2 ^ (k - (K i).card) = 2 ^ k := by
  have hcard : (∀ i i', i ≠ i' → Disjoint (cube (K i) (a i)) (cube (K i') (a i'))) →
      (Finset.univ.biUnion fun i => cube (K i) (a i)).card = ∑ i, 2 ^ (k - (K i).card) := by
    intro hdis
    rw [Finset.card_biUnion fun i _ i' _ hne => hdis i i' hne]
    exact Finset.sum_congr rfl fun i _ => card_cube (K i) (a i)
  have hall : (Finset.univ : Finset (Fin k → Bool)).card = 2 ^ k := by
    rw [card_univ, Fintype.card_fun, Fintype.card_bool, Fintype.card_fin]
  simp only [← disjoint_cube_iff]
  constructor
  · intro h
    have hdis : ∀ i i', i ≠ i' → Disjoint (cube (K i) (a i)) (cube (K i') (a i')) :=
      fun i i' hne => disjoint_left.mpr fun x hx hx' => hne ((h x).unique hx hx')
    refine ⟨hdis, ?_⟩
    rw [← hcard hdis, ← hall]
    congr 1
    refine Finset.eq_univ_of_forall fun x => ?_
    obtain ⟨i, hi⟩ := (h x).exists
    exact Finset.mem_biUnion.mpr ⟨i, mem_univ i, hi⟩
  · rintro ⟨hdis, hsum⟩ x
    have huniv := Finset.eq_univ_of_card _
      ((hcard hdis).trans (hsum.trans (hall.symm.trans card_univ)))
    obtain ⟨i, -, hi⟩ := Finset.mem_biUnion.mp (huniv.symm ▸ mem_univ x)
    refine ⟨i, hi, fun i' hi' => ?_⟩
    by_contra hne
    exact disjoint_left.mp (hdis i' i hne) hi' hi

end Cubes

-- ── The allocation

namespace SaberCondAllocator

variable {B V : Type} [DecidableEq B] [DecidableEq V] [Fintype V]

/-- What the allocator keeps of a block: a condition for each position of a successor. -/
abbrev CondPosMap (V : Type) := ℕ → Option (Z3Expr V)

def getBBSuccessorPos (succs : List B) (succ : B) : Option ℕ := succs.findIdx? fun b => b = succ

/-- A variable or its negation, as the bit of the index says. -/
def bitCond (z : Z3Context V) (succ_index j : ℕ) (c : V) : Z3Expr V :=
  if succ_index.testBit j then z.NEG (.boolConst c) else .boolConst c

/-- The inner loop of `allocateForBB`, from bit `j` on. -/
def succCondFrom (z : Z3Context V) (succ_index : ℕ) : ℕ → List V → Z3Expr V → Z3Expr V
  | _, [], path_cond => path_cond
  | j, c :: condVec, path_cond =>
    succCondFrom z succ_index (j + 1) condVec (z.AND path_cond (bitCond z succ_index j c))

/-- The condition of the successor with an index. -/
def succCond (z : Z3Context V) (condVec : List V) (succ_index : ℕ) : Z3Expr V :=
  succCondFrom z succ_index 0 condVec Z3Expr.getTrueCond

def setBranchCond (succs : List B) (condPosMap : CondPosMap V) (succ : B) (cond : Z3Expr V) :
    CondPosMap V :=
  match getBBSuccessorPos succs succ with
  | none => condPosMap
  | some pos => Function.update condPosMap pos (some cond)

/-- The loop of `allocateForBB` over the successors. -/
def allocateFor (z : Z3Context V) (condVec : List V) (succs : List B) : CondPosMap V :=
  succs.zipIdx.foldl (fun condPosMap (succ, succ_index) =>
    setBranchCond succs condPosMap succ (succCond z condVec succ_index)) fun _ => none

def getBranchCond (succs : List B) (condPosMap : CondPosMap V) (succ : B) : Option (Z3Expr V) :=
  (getBBSuccessorPos succs succ).bind fun pos =>
    if succs.length = 1 then some Z3Expr.getTrueCond else condPosMap pos

def newConds (totalCondNum bit_num : ℕ) : List (Fin (totalCondNum + bit_num)) :=
  List.ofFn fun j : Fin bit_num => Fin.natAdd totalCondNum j

/-- `allocateForBB(bb)`. The number of variables is `ceil(log(n) / log(2))` for `n` successors, as
    the floating-point numbers have it. -/
def allocateForBB (ceilLog : ℕ → ℕ) (totalCondNum : ℕ) (succs : List B)
    (z : Z3Context (Fin (totalCondNum + ceilLog succs.length))) :
    CondPosMap (Fin (totalCondNum + ceilLog succs.length)) :=
  if succs.length > 1 then
    allocateFor z (newConds totalCondNum (ceilLog succs.length)) succs
  else fun _ => none

-- ── The condition of one successor

instance (z : Z3Context V) (lhs rhs : Z3Expr V) : Decidable (z.AndFits lhs rhs) :=
  inferInstanceAs (Decidable (_ ∨ _ ∨ _ ∨ _ ∨ _))

/-- Where the expression is too large but can be satisfied, `AND` is its left operand. -/
theorem AND_of_not_fits {z : Z3Context V} {lhs rhs : Z3Expr V} {m : V → Bool}
    (h : ¬ z.AndFits lhs rhs) (hl : lhs.eval m) (hr : rhs.eval m) :
    z.AND lhs rhs = lhs := by
  rw [Z3Context.AndFits, not_or, not_or, not_or, not_or] at h
  obtain ⟨hlf, hrf, hlt, hrt, hsize⟩ := h
  have hsat : Z3Context.isSat (z.simplify (.and lhs rhs)) := by
    refine decide_eq_true ⟨m, ?_⟩
    rw [z.eval_simplify, Z3Expr.eval, hl, hr]
    rfl
  rw [Z3Context.AND]
  simp only [hlf, hrf, hlt, hrt, hsize, hsat]
  simp

def keptFrom (z : Z3Context V) (succ_index : ℕ) : ℕ → List V → Z3Expr V → List ℕ
  | _, [], _ => []
  | j, c :: condVec, path_cond =>
    (if z.AndFits path_cond (bitCond z succ_index j c) then [j] else []) ++
      keptFrom z succ_index (j + 1) condVec (z.AND path_cond (bitCond z succ_index j c))

theorem eval_bitCond {z : Z3Context V} {succ_index j : ℕ} {c : V} {m : V → Bool} :
    (bitCond z succ_index j c).eval m ↔ m c = !succ_index.testBit j := by
  unfold bitCond
  cases succ_index.testBit j with
  | true =>
    rw [if_pos rfl, Z3Context.eval_NEG]
    simp [Z3Expr.eval]
  | false =>
    rw [if_neg Bool.false_ne_true]
    simp [Z3Expr.eval]

theorem le_of_mem_keptFrom {z : Z3Context V} {succ_index i : ℕ} (condVec : List V) :
    ∀ {j : ℕ} {path_cond : Z3Expr V}, i ∈ keptFrom z succ_index j condVec path_cond → j ≤ i := by
  induction condVec with
  | nil => exact nofun
  | cons c condVec ih =>
    intro j path_cond h
    rcases mem_append.mp h with h | h
    · split_ifs at h
      · rw [mem_singleton.mp h]
      · cases h
    · exact (Nat.le_succ j).trans (ih h)

/-- **The loop over the bits**: to what holds before it, the bits that are kept are added. One
    assignment satisfies all bits, so no expression is left out because it is unsatisfiable. -/
theorem eval_succCondFrom {z : Z3Context V} {succ_index : ℕ} {code : V → Bool} (condVec : List V) :
    ∀ {j : ℕ} {path_cond : Z3Expr V}, path_cond.eval code →
      (∀ i c, condVec[i]? = some c → code c = !succ_index.testBit (j + i)) → ∀ m,
      ((succCondFrom z succ_index j condVec path_cond).eval m ↔
        path_cond.eval m ∧ ∀ i c, condVec[i]? = some c →
          j + i ∈ keptFrom z succ_index j condVec path_cond →
            m c = !succ_index.testBit (j + i)) := by
  induction condVec with
  | nil =>
    intro j path_cond _ _ m
    simp [succCondFrom]
  | cons c condVec ih =>
    intro j path_cond hpath hcode m
    have hbit : (bitCond z succ_index j c).eval code := eval_bitCond.mpr (hcode 0 c rfl)
    have hpath' := Z3Context.AND_of_eval (z := z) hpath hbit
    have hcode' : ∀ i c, condVec[i]? = some c → code c = !succ_index.testBit (j + 1 + i) := by
      intro i c hc
      rw [Nat.add_assoc, Nat.add_comm 1 i]
      exact hcode (i + 1) c hc
    rw [succCondFrom, ih hpath' hcode' m]
    -- the first bit is in the condition if it is kept
    have hfirst : (z.AND path_cond (bitCond z succ_index j c)).eval m ↔ path_cond.eval m ∧
          (z.AndFits path_cond (bitCond z succ_index j c) → m c = !succ_index.testBit j) := by
      by_cases hfits : z.AndFits path_cond (bitCond z succ_index j c)
      · rw [Z3Context.eval_AND hfits, Bool.and_eq_true, eval_bitCond]
        simp [hfits]
      · rw [AND_of_not_fits hfits hpath hbit]
        simp [hfits]
    have hhead : j ∈ keptFrom z succ_index j (c :: condVec) path_cond ↔
        z.AndFits path_cond (bitCond z succ_index j c) := by
      rw [keptFrom, mem_append]
      constructor
      · rintro (h | h)
        · split_ifs at h with hfits
          · exact hfits
          · cases h
        · exact absurd (le_of_mem_keptFrom condVec h) (Nat.not_succ_le_self j)
      · intro hfits
        rw [if_pos hfits]
        exact .inl mem_cons_self
    have htail : ∀ i, j + (i + 1) ∈ keptFrom z succ_index j (c :: condVec) path_cond ↔
        j + 1 + i ∈ keptFrom z succ_index (j + 1) condVec
          (z.AND path_cond (bitCond z succ_index j c)) := by
      intro i
      rw [keptFrom, mem_append, Nat.add_assoc, Nat.add_comm 1 i]
      refine or_iff_right fun h => ?_
      split_ifs at h
      · have := mem_singleton.mp h
        omega
      · cases h
    rw [hfirst, and_assoc, and_congr_right_iff]
    intro _
    constructor
    · rintro ⟨h0, hrest⟩ i c' hc' hkept
      cases i with
      | zero =>
        rw [← Option.some.inj hc']
        exact h0 (hhead.mp hkept)
      | succ i =>
        have := hrest i c' hc' ((htail i).mp hkept)
        rwa [Nat.add_assoc, Nat.add_comm 1 i] at this
    · intro h
      refine ⟨fun hfits => h 0 c rfl (hhead.mpr hfits), fun i c' hc' hkept => ?_⟩
      rw [Nat.add_assoc, Nat.add_comm 1 i]
      exact h (i + 1) c' hc' ((htail i).mpr hkept)

section Block

variable {totalCondNum bit_num : ℕ}

def kept (z : Z3Context (Fin (totalCondNum + bit_num))) (succ_index : ℕ) : Finset (Fin bit_num) :=
  Finset.univ.filter fun j => j.val ∈
    keptFrom z succ_index 0 (newConds totalCondNum bit_num) Z3Expr.getTrueCond

def code (bit_num succ_index : ℕ) (j : Fin bit_num) : Bool := !succ_index.testBit j

/-- What the variables of the block are under an assignment. -/
def decisions (m : Fin (totalCondNum + bit_num) → Bool) (j : Fin bit_num) : Bool :=
  m (Fin.natAdd totalCondNum j)

theorem newConds_getElem? {i : ℕ} {c : Fin (totalCondNum + bit_num)} :
    (newConds totalCondNum bit_num)[i]? = some c ↔
      ∃ h : i < bit_num, Fin.natAdd totalCondNum ⟨i, h⟩ = c := by
  rw [newConds, List.getElem?_ofFn]
  by_cases h : i < bit_num
  · simp [h]
  · simp [h]

theorem exists_decisions (totalCondNum : ℕ) (x : Fin bit_num → Bool) :
    ∃ m : Fin (totalCondNum + bit_num) → Bool, decisions m = x := by
  refine ⟨Fin.addCases (motive := fun _ => Bool) (fun _ => false) x, ?_⟩
  funext j
  exact Fin.addCases_right (motive := fun _ => Bool) j

/-- **The condition of a successor** is a cube around its code. -/
theorem eval_succCond (z : Z3Context (Fin (totalCondNum + bit_num))) (succ_index : ℕ)
    (m : Fin (totalCondNum + bit_num) → Bool) :
    (succCond z (newConds totalCondNum bit_num) succ_index).eval m ↔
      decisions m ∈ cube (kept z succ_index) (code bit_num succ_index) := by
  obtain ⟨all, hall⟩ := exists_decisions totalCondNum (code bit_num succ_index)
  have hcode : ∀ i c, (newConds totalCondNum bit_num)[i]? = some c →
      all c = !succ_index.testBit (0 + i) := by
    intro i c hc
    obtain ⟨hi, rfl⟩ := newConds_getElem?.mp hc
    rw [Nat.zero_add]
    exact congrFun hall ⟨i, hi⟩
  rw [succCond, eval_succCondFrom _ rfl hcode m, mem_cube]
  simp only [Nat.zero_add]
  constructor
  · rintro ⟨-, h⟩ j hj
    exact h j.val _ (newConds_getElem?.mpr ⟨j.isLt, rfl⟩) (Finset.mem_filter.mp hj).2
  · refine fun h => ⟨rfl, fun i c hc hkept => ?_⟩
    obtain ⟨hi, rfl⟩ := newConds_getElem?.mp hc
    exact h ⟨i, hi⟩ (Finset.mem_filter.mpr ⟨mem_univ _, hkept⟩)

end Block

-- ── All successors

theorem getBBSuccessorPos_getElem {succs : List B} (hd : succs.Nodup) {i : ℕ}
    (hi : i < succs.length) : getBBSuccessorPos succs succs[i] = some i := by
  rw [getBBSuccessorPos, findIdx?_eq_some_iff_getElem]
  refine ⟨hi, decide_eq_true rfl, fun j hj h => ?_⟩
  have hsame := of_decide_eq_true h
  exact hj.ne ((hd.getElem_inj_iff).mp hsame)

theorem foldl_setBranchCond {succs : List B} (z : Z3Context V) (condVec : List V)
    (l : List (B × ℕ)) : ∀ (condPosMap : CondPosMap V) (p : ℕ),
    (∀ item ∈ l, getBBSuccessorPos succs item.1 = some item.2) →
    l.foldl (fun condPosMap (succ, succ_index) =>
      setBranchCond succs condPosMap succ (succCond z condVec succ_index)) condPosMap p =
      if p ∈ l.map Prod.snd then some (succCond z condVec p) else condPosMap p := by
  induction l with
  | nil => exact fun condPosMap p _ => (if_neg not_mem_nil).symm
  | cons item l ih =>
    intro condPosMap p h
    obtain ⟨succ, i⟩ := item
    have hpos : getBBSuccessorPos succs succ = some i := h _ mem_cons_self
    rw [foldl_cons, ih _ p fun item hmem => h item (mem_cons_of_mem _ hmem)]
    simp only [setBranchCond, hpos, map_cons, mem_cons]
    by_cases hl : p ∈ l.map Prod.snd
    · rw [if_pos hl, if_pos (.inr hl)]
    · rw [if_neg hl]
      by_cases hp : p = i
      · subst hp
        rw [Function.update_self, if_pos (.inl rfl)]
      · rw [Function.update_of_ne hp, if_neg (not_or.mpr ⟨hp, hl⟩)]

variable {ceilLog : ℕ → ℕ} {totalCondNum : ℕ} {succs : List B}

theorem getBranchCond_allocateForBB (z : Z3Context (Fin (totalCondNum + ceilLog succs.length)))
    (hd : succs.Nodup) (hn : 1 < succs.length) {i : ℕ} (hi : i < succs.length) :
    getBranchCond succs (allocateForBB ceilLog totalCondNum succs z) succs[i] =
      some (succCond z (newConds totalCondNum (ceilLog succs.length)) i) := by
  rw [getBranchCond, getBBSuccessorPos_getElem hd hi, Option.bind_some, if_neg hn.ne', allocateForBB,
    if_pos hn, allocateFor, foldl_setBranchCond, if_pos]
  · rw [mem_map]
    exact ⟨(succs[i], i), mk_mem_zipIdx_iff_getElem?.mpr (getElem?_eq_getElem hi), rfl⟩
  · rintro ⟨succ, j⟩ hmem
    obtain ⟨hj, hsucc⟩ := List.getElem?_eq_some_iff.mp (mk_mem_zipIdx_iff_getElem?.mp hmem)
    rw [← hsucc]
    exact getBBSuccessorPos_getElem hd hj

/-- Exactly one successor is taken under every assignment: the conditions exclude each other, and
    together they cover everything. -/
def Partitions (succs : List B) (condPosMap : CondPosMap V) : Prop :=
  ∀ m, ∃! succ, succ ∈ succs ∧
    ∃ cond, getBranchCond succs condPosMap succ = some cond ∧ cond.eval m = true

/-- Any two successors differ in a bit that both conditions keep, and the codes that the conditions
    let pass add up to all. -/
def Split {n bit_num : ℕ} (K : Fin n → Finset (Fin bit_num)) : Prop :=
  (∀ i i' : Fin n, i ≠ i' → ∃ j ∈ K i ∩ K i', (i : ℕ).testBit j ≠ (i' : ℕ).testBit j) ∧
    ∑ i, 2 ^ (bit_num - (K i).card) = 2 ^ bit_num

instance {n bit_num : ℕ} (K : Fin n → Finset (Fin bit_num)) : Decidable (Split K) :=
  inferInstanceAs (Decidable (_ ∧ _))

theorem partitions_iff (z : Z3Context (Fin (totalCondNum + ceilLog succs.length)))
    (hd : succs.Nodup) (hn : 1 < succs.length) :
    Partitions succs (allocateForBB ceilLog totalCondNum succs z) ↔
      Split fun i : Fin succs.length => kept z i := by
  have hcube := existsUnique_cube_iff (fun i : Fin succs.length => kept z i)
    fun i => code (ceilLog succs.length) i
  have hbits : ∀ (i i' : Fin succs.length) j,
      code (ceilLog succs.length) i j ≠ code (ceilLog succs.length) i' j ↔
        (i : ℕ).testBit j ≠ (i' : ℕ).testBit j := by
    intro i i' j
    rw [code, code, Ne, Bool.not_inj_iff]
  simp only [hbits] at hcube
  rw [Split, ← hcube]
  have htaken : ∀ (i : Fin succs.length) m,
      (∃ cond, getBranchCond succs (allocateForBB ceilLog totalCondNum succs z) succs[i] =
        some cond ∧ cond.eval m) ↔
        decisions m ∈ cube (kept z i) (code (ceilLog succs.length) i) := by
    intro i m
    rw [← eval_succCond]
    have hget := getBranchCond_allocateForBB z hd hn i.isLt
    constructor
    · rintro ⟨cond, hcond, htrue⟩
      rw [Option.mem_unique hget hcond]
      exact htrue
    · exact fun h => ⟨_, hget, h⟩
  constructor
  · intro h x
    obtain ⟨m, rfl⟩ := exists_decisions totalCondNum x
    obtain ⟨succ, ⟨hmem, htrue⟩, hunique⟩ := h m
    obtain ⟨i, hi, rfl⟩ := getElem_of_mem hmem
    refine ⟨⟨i, hi⟩, (htaken ⟨i, hi⟩ m).mp htrue, fun i' hi' => ?_⟩
    have hsame := hunique _ ⟨getElem_mem i'.isLt, (htaken i' m).mpr hi'⟩
    exact Fin.ext (hd.getElem_inj_iff.mp hsame)
  · intro h m
    obtain ⟨i, hi, hunique⟩ := h (decisions m)
    refine ⟨succs[i], ⟨getElem_mem i.isLt, (htaken i m).mpr hi⟩, fun succ ⟨hmem, htrue⟩ => ?_⟩
    obtain ⟨i', hi', rfl⟩ := getElem_of_mem hmem
    have hsame := hunique ⟨i', hi'⟩ ((htaken ⟨i', hi'⟩ m).mp htrue)
    rw [← hsame]
    rfl

theorem split_iff {n bit_num : ℕ} {K : Fin n → Finset (Fin bit_num)}
    (hfits : ∀ i, K i = Finset.univ) : Split K ↔ n = 2 ^ bit_num := by
  rw [Split]
  have hsum : ∑ i : Fin n, 2 ^ (bit_num - (K i).card) = n := by
    simp [hfits]
  rw [hsum]
  refine and_iff_right_of_imp fun hn i i' hne => ?_
  by_contra hsame
  push Not at hsame
  refine hne (Fin.ext (Nat.eq_of_testBit_eq fun j => ?_))
  by_cases hj : j < bit_num
  · refine hsame ⟨j, hj⟩ ?_
    rw [hfits, hfits, Finset.inter_self]
    exact mem_univ _
  · have hpow : 2 ^ bit_num ≤ 2 ^ j := Nat.pow_le_pow_right (by omega) (Nat.not_lt.mp hj)
    rw [Nat.testBit_lt_two_pow (i.isLt.trans_le (hn.le.trans hpow)),
      Nat.testBit_lt_two_pow (i'.isLt.trans_le (hn.le.trans hpow))]

/-- **The conditions of a branch partition it** if and only if they split the codes; where no
    expression is too large, if and only if there are as many successors as codes. -/
theorem allocateForBB_partition_iff (ceilLog : ℕ → ℕ) (totalCondNum : ℕ) (succs : List B)
    (z : Z3Context (Fin (totalCondNum + ceilLog succs.length))) (hd : succs.Nodup)
    (hn : 1 < succs.length) :
    (Partitions succs (allocateForBB ceilLog totalCondNum succs z) ↔
      Split fun i : Fin succs.length => kept z i) ∧
    ((∀ i : Fin succs.length, kept z i = Finset.univ) →
      (Partitions succs (allocateForBB ceilLog totalCondNum succs z) ↔
        succs.length = 2 ^ ceilLog succs.length)) :=
  ⟨partitions_iff z hd hn, fun hfits => (partitions_iff z hd hn).trans (split_iff hfits)⟩

/-- Four successors have the four codes of two variables. -/
theorem allocateForBB_partition_four : Partitions [0, 1, 2, 3]
    (allocateForBB (fun _ => 2) 0 [0, 1, 2, 3] (constContext (Fin 2) 30)) :=
  (allocateForBB_partition_iff (fun _ => 2) 0 [0, 1, 2, 3] (constContext (Fin 2) 30) (by decide)
    (by decide)).1.mpr (by decide +kernel)

/-- Three successors have three of the four codes of two variables; under the fourth, none is
    taken. -/
theorem not_partition_three : ¬ Partitions [0, 1, 2]
    (allocateForBB (fun _ => 2) 0 [0, 1, 2] (constContext (Fin 2) 30)) := by
  intro h
  obtain ⟨succ, ⟨hmem, htrue⟩, -⟩ := h fun _ => false
  have hnone : ∀ succ ∈ [0, 1, 2], ((getBranchCond [0, 1, 2]
      (allocateForBB (fun _ => 2) 0 [0, 1, 2] (constContext (Fin 2) 30)) succ).map fun cond =>
        cond.eval fun _ => false) = some false := by
    decide +kernel
  obtain ⟨cond, hcond, htrue⟩ := htrue
  have hfalse := hnone succ hmem
  rw [hcond, Option.map_some, htrue] at hfalse
  cases hfalse

end SaberCondAllocator

end SvfSaber
