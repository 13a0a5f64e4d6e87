import SvfModel.AccessPathProofs
import SvfModel.NodeIDAllocatorProofs

/-!
# `SVFIR::getGepObjVar`: the field nodes of an object

An offset is normalised to a field of the object: made positive, taken modulo the number of fields
or replaced by the last one. Field nodes are kept under their object and normalised offset, and a
new one gets an identifier that no node has, which is asserted.

So the same node is returned exactly for the same normalised offset, in every run
(`Runs.id_eq_iff`). The number of an offset is compared after narrowing it to 32 bits: what
narrows to a field is not normalised (`getModulusOffset_isField_iff`). There the number of fields
is not bounded, and two steps are not one (`modulus_add_iff`). The three are
**`getGepObjVar_fields_iff`**.
-/

namespace SvfGepObjVar

open SvfNodeIDAllocator SvfAccessPath Option List Nat
open Function (update update_of_ne update_self)

structure Options where
  MaxFieldLimit : UInt32
  CyclicFldIdx : Bool
  FirstFieldEqBase : Bool

/-- `abs(x)`; it overflows at the least number. -/
def absOffset (x : Int64) : Option Int64 := if x = Int64.minValue then none else some x.abs

def getModulusOffset (opts : Options) (maxOffset : UInt32) (apOffset : Int64) : Option Int64 :=
  (if apOffset < 0 then absOffset apOffset else some apOffset).map fun offset =>
    if maxOffset = 0 then 0
    else if opts.MaxFieldLimit < maxOffset then offset % maxOffset.toUInt64.toInt64
    else if offset.toUInt64.toUInt32 > maxOffset - 1 then
      if opts.CyclicFldIdx then offset % maxOffset.toUInt64.toInt64
      else (maxOffset - 1).toUInt64.toInt64
    else offset

-- ── Normalised offsets

/-- `getModulusOffset` on numbers. -/
def modulus (opts : Options) (m n : ℕ) : ℕ :=
  if opts.MaxFieldLimit.toNat < m then n % m
  else if m ≤ n % 2 ^ 32 then if opts.CyclicFldIdx then n % m else m - 1
  else n

/-- A number that narrows to a field but is none. -/
def Narrowed (m n : ℕ) : Prop := m ≤ n ∧ n % 2 ^ 32 < m

variable {opts : Options} {m n a b : ℕ}

theorem modulus_le : modulus opts m n ≤ n := by
  rw [modulus]
  have hmod := mod_le n m
  have hnarrow := mod_le n (2 ^ 32)
  split_ifs
  · exact hmod
  · exact hmod
  · omega
  · exact le_rfl

theorem modulus_lt_iff (hm : 0 < m) :
    modulus opts m n < m ↔ opts.MaxFieldLimit.toNat < m ∨ ¬ Narrowed m n := by
  rw [modulus, Narrowed]
  have hmod := mod_lt n hm
  split_ifs with h1 h2 h3
  · exact iff_of_true hmod (.inl h1)
  · exact iff_of_true hmod (.inr fun h => absurd h.2 (not_lt.mpr h2))
  · exact iff_of_true (sub_lt hm one_pos) (.inr fun h => absurd h.2 (not_lt.mpr h2))
  · constructor
    · exact fun h => .inr fun hn => absurd hn.1 (not_le.mpr h)
    · intro h
      have hn := h.resolve_left h1
      exact not_le.mp fun hle => hn ⟨hle, not_le.mp h2⟩

/-- The field that a number beyond the limit is taken for. -/
def wrapped (opts : Options) (m n : ℕ) : ℕ := if opts.CyclicFldIdx then n % m else m - 1

section

variable (hM : ¬ opts.MaxFieldLimit.toNat < m)
include hM

theorem modulus_of_le (hn : ¬ Narrowed m n) (hle : m ≤ n) :
    modulus opts m n = wrapped opts m n := by
  have hbeyond : m ≤ n % 2 ^ 32 := not_lt.mp fun h => hn ⟨hle, h⟩
  rw [modulus, if_neg hM, if_pos hbeyond, wrapped]

theorem modulus_of_lt (h : n % 2 ^ 32 < m) : modulus opts m n = n := by
  rw [modulus, if_neg hM, if_neg (not_le.mpr h)]

theorem modulus_of_narrowed (hn : Narrowed m n) : modulus opts m n = n := modulus_of_lt hM hn.2

theorem modulus_wrapped_add (hm : 0 < m) (hn : ¬ Narrowed m (wrapped opts m a + b)) :
    modulus opts m (wrapped opts m a + b) = wrapped opts m (a + b) := by
  by_cases hc : m ≤ wrapped opts m a + b
  · rw [modulus_of_le hM hn hc]
    simp only [wrapped]
    split_ifs
    · rw [mod_add_mod]
    · rfl
  · have hlt : wrapped opts m a + b < m := not_le.mp hc
    have hnarrow : (wrapped opts m a + b) % 2 ^ 32 < m := (mod_le _ _).trans_lt hlt
    rw [modulus_of_lt hM hnarrow]
    simp only [wrapped] at hlt ⊢
    split_ifs at hlt ⊢
    · rw [← mod_add_mod, mod_eq_of_lt hlt]
    · omega

end

/-- **Two steps are one** unless the sum, or what is left of it after the first step, only
    narrows to a field. -/
theorem modulus_add_iff (hm : 0 < m) :
    modulus opts m (modulus opts m a + b) = modulus opts m (a + b) ↔
      opts.MaxFieldLimit.toNat < m ∨ a % 2 ^ 32 < m ∨
        ¬ Narrowed m (wrapped opts m a + b) ∧ ¬ Narrowed m (a + b) := by
  by_cases hM : opts.MaxFieldLimit.toNat < m
  · refine iff_of_true ?_ (.inl hM)
    rw [modulus, modulus, modulus, if_pos hM, if_pos hM, if_pos hM, mod_add_mod]
  · by_cases ha : a % 2 ^ 32 < m
    · refine iff_of_true ?_ (.inr (.inl ha))
      rw [modulus_of_lt hM ha]
    · have hle : m ≤ a := (not_lt.mp ha).trans (mod_le a _)
      have hwrap : wrapped opts m a < m := by
        rw [wrapped]
        split_ifs
        · exact mod_lt a hm
        · exact sub_lt hm one_pos
      have hwrap' : wrapped opts m (a + b) < m := by
        rw [wrapped]
        split_ifs
        · exact mod_lt _ hm
        · exact sub_lt hm one_pos
      rw [modulus_of_le hM (fun h => ha h.2) hle, or_iff_right hM, or_iff_right ha]
      by_cases hc : Narrowed m (wrapped opts m a + b)
      · refine iff_of_false ?_ (fun h => h.1 hc)
        rw [modulus_of_narrowed hM hc]
        by_cases hd : Narrowed m (a + b)
        · rw [modulus_of_narrowed hM hd]
          omega
        · rw [modulus_of_le hM hd (le_add_right_of_le hle)]
          have := hc.1
          omega
      · rw [modulus_wrapped_add hM hm hc]
        by_cases hd : Narrowed m (a + b)
        · refine iff_of_false ?_ (fun h => h.2 hd)
          rw [modulus_of_narrowed hM hd]
          have := hd.1
          omega
        · exact iff_of_true (modulus_of_le hM hd (le_add_right_of_le hle)).symm ⟨hc, hd⟩

-- ── Offsets as numbers

theorem toInt_toInt64 (x : UInt32) : x.toUInt64.toInt64.toInt = x.toNat := by
  have hlt := x.toNat_lt
  show x.toUInt64.toInt64.toBitVec.toInt = x.toNat
  have hbits : x.toUInt64.toInt64.toBitVec.toNat = x.toNat := by
    show x.toUInt64.toBitVec.toNat = x.toNat
    rw [UInt64.toNat_toBitVec, UInt32.toNat_toUInt64]
  rw [BitVec.toInt_eq_toNat_of_lt (by rw [hbits]; omega), hbits]

theorem toNat_toUInt32 {x : Int64} (h : 0 ≤ x.toInt) :
    x.toUInt64.toUInt32.toNat = x.toInt.natAbs % 2 ^ 32 := by
  have hbits : x.toBitVec.toInt = x.toBitVec.toNat := by
    refine BitVec.toInt_eq_toNat_of_lt ?_
    by_contra hlt
    have hneg := BitVec.toInt_neg_iff.mpr (not_lt.mp hlt)
    exact absurd h (not_le.mpr hneg)
  have hnat : x.toInt.natAbs = x.toBitVec.toNat := by
    show x.toBitVec.toInt.natAbs = _
    rw [hbits, Int.natAbs_natCast]
  rw [UInt64.toNat_toUInt32, hnat]
  rfl

theorem absOffset_spec {x : Int64} (h : x ≠ Int64.minValue) :
    ∃ y, absOffset x = some y ∧ y.toInt = x.toInt.natAbs := by
  refine ⟨x.abs, if_neg h, ?_⟩
  show x.toBitVec.abs.toInt = _
  rw [BitVec.toInt_abs_eq_natAbs_of_ne_intMin]
  · rfl
  · exact fun heq => h (Int64.toBitVec_inj.mp heq)

variable {m : UInt32} {x y : Int64}

theorem pred_toNat (hm : 0 < m.toNat) : (m - 1).toNat = m.toNat - 1 := by
  rw [UInt32.toNat_sub_of_le]
  · rfl
  · rw [UInt32.le_iff_toNat_le]
    exact hm

/-- **`getModulusOffset`** is the number arithmetic on the absolute value, if there is one. -/
theorem getModulusOffset_spec (hm : 0 < m.toNat) (hx : x ≠ Int64.minValue) :
    ∃ y, getModulusOffset opts m x = some y ∧ y.toInt = modulus opts m.toNat x.toInt.natAbs := by
  have habs : ∃ z, (if x < 0 then absOffset x else some x) = some z ∧ z.toInt = x.toInt.natAbs := by
    by_cases hneg : x < 0
    · rw [if_pos hneg]
      exact absOffset_spec hx
    · rw [if_neg hneg]
      rw [Int64.lt_iff_toInt_lt, Int64.toInt_zero, not_lt] at hneg
      exact ⟨x, rfl, (Int.natAbs_of_nonneg hneg).symm⟩
  obtain ⟨z, hz, hzx⟩ := habs
  have hz0 : 0 ≤ z.toInt := by
    rw [hzx]
    exact Int.natCast_nonneg _
  have hne : m ≠ 0 := by
    rintro rfl
    exact absurd hm (lt_irrefl 0)
  have hnarrow : z.toUInt64.toUInt32 > m - 1 ↔ m.toNat ≤ x.toInt.natAbs % 2 ^ 32 := by
    show m - 1 < z.toUInt64.toUInt32 ↔ _
    rw [UInt32.lt_iff_toNat_lt, pred_toNat hm, toNat_toUInt32 hz0, hzx, Int.natAbs_natCast]
    omega
  have hmod : (z % m.toUInt64.toInt64).toInt = (x.toInt.natAbs % m.toNat : ℕ) := by
    rw [Int64.toInt_mod, hzx, toInt_toInt64, Int.tmod_eq_emod_of_nonneg (Int.natCast_nonneg _)]
    rfl
  rw [getModulusOffset, hz, map_some]
  refine ⟨_, rfl, ?_⟩
  rw [if_neg hne, modulus, apply_ite Int64.toInt, apply_ite Int64.toInt, apply_ite Int64.toInt, hmod]
  simp only [hnarrow, UInt32.lt_iff_toNat_lt, toInt_toInt64, pred_toNat hm, hzx]
  split_ifs
  all_goals rfl

def IsField (opts : Options) (m : UInt32) (x : Int64) : Prop :=
  ∃ y, getModulusOffset opts m x = some y ∧ 0 ≤ y.toInt ∧ y.toInt < m.toNat

/-- The offset is normalised to a field: it has an absolute value, and the limit is above
    `MaxFieldLimit` or that value does not only narrow to a field. -/
def InField (opts : Options) (m : UInt32) (x : Int64) : Prop :=
  x ≠ Int64.minValue ∧
    (opts.MaxFieldLimit < m ∨ ¬ Narrowed m.toNat x.toInt.natAbs)

/-- **Exactly these** offsets are normalised to a field. -/
theorem getModulusOffset_isField_iff (hm : 0 < m.toNat) : IsField opts m x ↔ InField opts m x := by
  by_cases hx : x = Int64.minValue
  · subst hx
    exact iff_of_false (fun ⟨y, hy, _⟩ => nomatch hy) (fun h => h.1 rfl)
  · obtain ⟨y, hy, hval⟩ : ∃ y, getModulusOffset opts m x = some y ∧ _ := getModulusOffset_spec hm hx
    rw [InField, and_iff_right hx, UInt32.lt_iff_toNat_lt, ← modulus_lt_iff hm]
    constructor
    · rintro ⟨z, hz, -, hlt⟩
      obtain rfl : y = z := mem_unique hy hz
      rw [hval] at hlt
      exact Int.ofNat_lt.mp hlt
    · intro hlt
      refine ⟨y, hy, ?_, ?_⟩
      · rw [hval]
        exact Int.natCast_nonneg _
      · rw [hval]
        exact Int.ofNat_lt.mpr hlt

theorem ne_minValue_of_nonneg (h : 0 ≤ x.toInt) : x ≠ Int64.minValue := by
  rintro rfl
  cases h

/-- Offsets that are not negative and whose sum is an offset. -/
structure Addable (a b : Int64) : Prop where
  left : 0 ≤ a.toInt
  right : 0 ≤ b.toInt
  sum : a.toInt + b.toInt < 2 ^ 63

theorem addOffset_eq {a b : Int64} (h0 : 0 ≤ a.toInt) (h1 : 0 ≤ b.toInt)
    (h : a.toInt + b.toInt < 2 ^ 63) :
    addOffset a b = some (a + b) ∧ (a + b).toInt = a.toInt + b.toInt := by
  have hrange : -2 ^ 63 ≤ a.toInt + b.toInt ∧ a.toInt + b.toInt < 2 ^ 63 := ⟨by omega, h⟩
  refine ⟨if_pos hrange, ?_⟩
  rw [Int64.toInt_add]
  exact Int.bmod_eq_of_le (by omega) (by omega)

def twoSteps (opts : Options) (m : UInt32) (a b : Int64) : Option Int64 :=
  (getModulusOffset opts m a).bind fun k => (addOffset k b).bind (getModulusOffset opts m)

/-- Two steps are one: nothing is to be normalised after the first step, or the sum and what is
    left of it after the first step do not only narrow to a field. -/
def Composes (opts : Options) (m : UInt32) (a b : Int64) : Prop :=
  opts.MaxFieldLimit < m ∨ a.toInt.natAbs % 2 ^ 32 < m.toNat ∨
    ¬ Narrowed m.toNat (wrapped opts m.toNat a.toInt.natAbs + b.toInt.natAbs) ∧
      ¬ Narrowed m.toNat (a.toInt.natAbs + b.toInt.natAbs)

/-- **Exactly these** steps compose. -/
theorem twoSteps_eq_iff (hm : 0 < m.toNat) {a b : Int64} (h : Addable a b) :
    twoSteps opts m a b = getModulusOffset opts m (a + b) ↔ Composes opts m a b := by
  obtain ⟨k, hk, hkval⟩ : ∃ k, getModulusOffset opts m a = some k ∧ _ :=
    getModulusOffset_spec hm (ne_minValue_of_nonneg h.left)
  have hle : k.toInt ≤ a.toInt := by
    have hmod : modulus opts m.toNat a.toInt.natAbs ≤ a.toInt.natAbs := modulus_le
    have := h.left
    omega
  have hk0 : 0 ≤ k.toInt := by
    rw [hkval]
    exact Int.natCast_nonneg _
  have hsum := h.sum
  have hright := h.right
  obtain ⟨hadd, haddval⟩ := addOffset_eq hk0 h.right (by omega)
  obtain ⟨-, habval⟩ := addOffset_eq h.left h.right h.sum
  have hnat : (k + b).toInt.natAbs = modulus opts m.toNat a.toInt.natAbs + b.toInt.natAbs := by
    omega
  have hnat' : (a + b).toInt.natAbs = a.toInt.natAbs + b.toInt.natAbs := by
    have := h.left
    omega
  obtain ⟨y, hy, hyval⟩ : ∃ y, getModulusOffset opts m (k + b) = some y ∧ _ :=
    getModulusOffset_spec hm (ne_minValue_of_nonneg (by omega))
  obtain ⟨z, hz, hzval⟩ : ∃ z, getModulusOffset opts m (a + b) = some z ∧ _ :=
    getModulusOffset_spec hm (ne_minValue_of_nonneg (by have := h.left; omega))
  have htwo : twoSteps opts m a b = some y := by
    rw [twoSteps, hk, bind_some, hadd, bind_some, hy]
  rw [htwo, hz, some_inj, ← Int64.toInt_inj, hyval, hzval, Int.natCast_inj, hnat, hnat',
    modulus_add_iff hm, Composes, UInt32.lt_iff_toNat_lt]

-- ── The graph

/-- A node: one of an object, with the identifier of the object, or one of a value. -/
inductive SVFVar
  | FIObjVar (mem : ℕ)
  | DummyObjVar (mem : ℕ)
  | GepObjVar (mem : ℕ) (apOffset : Int64)
  | ValVar
deriving DecidableEq

structure SVFIR where
  IDToNodeMap : ℕ → Option SVFVar
  GepObjVarMap : ℕ × Int64 → Option ℕ
  memToFieldsMap : ℕ → Finset ℕ
  allocator : NodeIDAllocator

namespace SVFIR

def addNode (pag : SVFIR) (id : ℕ) (node : SVFVar) : Option SVFIR :=
  if pag.IDToNodeMap id = none then
    some { pag with IDToNodeMap := update pag.IDToNodeMap id (some node) }
  else none

def addFIObjNode (pag : SVFIR) (base : ℕ) : Option SVFIR :=
  let pag := { pag with
    memToFieldsMap := update pag.memToFieldsMap base (insert base (pag.memToFieldsMap base)) }
  pag.addNode base (.FIObjVar base)

def addGepObjNode (pag : SVFIR) (base : ℕ) (apOffset : Int64) (gepId : ℕ) : Option SVFIR :=
  if pag.GepObjVarMap (base, apOffset) = none then
    let pag := { pag with
      GepObjVarMap := update pag.GepObjVarMap (base, apOffset) (some gepId)
      memToFieldsMap :=
        update pag.memToFieldsMap base (insert gepId (pag.memToFieldsMap base)) }
    pag.addNode gepId (.GepObjVar base apOffset)
  else none

end SVFIR

section Graph

variable (opts : Options) (limit : ℕ → UInt32)

def getGepObjVarOf (pag : SVFIR) (base : ℕ) (apOffset : Int64) : Option (ℕ × SVFIR) :=
  if limit base = 0 then some (base, pag)
  else
    (getModulusOffset opts (limit base) apOffset).bind fun newLS =>
      if opts.FirstFieldEqBase ∧ newLS = 0 then some (base, pag)
      else
        match pag.GepObjVarMap (base, newLS) with
        | some id => some (id, pag)
        | none =>
          (pag.allocator.allocateGepObjectId base apOffset.toUInt64.toUInt32.toNat
            opts.MaxFieldLimit.toNat).bind fun (gepId, allocator) =>
              ({ pag with allocator := allocator }.addGepObjNode base newLS gepId).map
                fun pag => (gepId, pag)

def getGepObjVar (pag : SVFIR) (id : ℕ) (apOffset : Int64) : Option (ℕ × SVFIR) :=
  match pag.IDToNodeMap id with
  | some (.GepObjVar mem k) => (addOffset k apOffset).bind (getGepObjVarOf opts limit pag mem)
  | some (.FIObjVar mem) => getGepObjVarOf opts limit pag mem apOffset
  | some (.DummyObjVar mem) => getGepObjVarOf opts limit pag mem apOffset
  | _ => none

/-- A call of `getGepObjVar` and what it has returned. -/
structure Call where
  src : ℕ
  apOffset : Int64
  id : ℕ
deriving DecidableEq

/-- The runs: nodes are added with identifiers from wherever, and `getGepObjVar` is called. -/
inductive Runs : SVFIR → List Call → Prop
  | init (allocator : NodeIDAllocator) :
      Runs ⟨fun _ => none, fun _ => none, fun _ => ∅, allocator⟩ []
  | obj {pag pag' : SVFIR} {calls : List Call} {base : ℕ} {allocator : NodeIDAllocator}
      (hr : Runs pag calls)
      (hadd : { pag with allocator := allocator }.addFIObjNode base = some pag') : Runs pag' calls
  | dummy {pag pag' : SVFIR} {calls : List Call} {base : ℕ} {allocator : NodeIDAllocator}
      (hr : Runs pag calls)
      (hadd : { pag with allocator := allocator }.addNode base (.DummyObjVar base) = some pag') :
      Runs pag' calls
  | val {pag pag' : SVFIR} {calls : List Call} {id : ℕ} {allocator : NodeIDAllocator}
      (hr : Runs pag calls)
      (hadd : { pag with allocator := allocator }.addNode id .ValVar = some pag') : Runs pag' calls
  | call {pag pag' : SVFIR} {calls : List Call} {src id : ℕ} {apOffset : Int64}
      (hr : Runs pag calls) (hcall : getGepObjVar opts limit pag src apOffset = some (id, pag')) :
      Runs pag' (calls ++ [⟨src, apOffset, id⟩])

end Graph

def IsObject (pag : SVFIR) (base : ℕ) : Prop :=
  pag.IDToNodeMap base = some (.FIObjVar base) ∨ pag.IDToNodeMap base = some (.DummyObjVar base)

/-- The object of a call, and the offset in it. -/
def place (pag : SVFIR) (src : ℕ) (apOffset : Int64) : Option (ℕ × Int64) :=
  match pag.IDToNodeMap src with
  | some (.GepObjVar mem k) => (addOffset k apOffset).map fun x => (mem, x)
  | some (.FIObjVar mem) => some (mem, apOffset)
  | some (.DummyObjVar mem) => some (mem, apOffset)
  | _ => none

variable {limit : ℕ → UInt32} {pag pag' : SVFIR} {calls : List Call} {base id src : ℕ}

theorem getGepObjVar_eq : getGepObjVar opts limit pag src x =
    (place pag src x).bind fun p => getGepObjVarOf opts limit pag p.1 p.2 := by
  rw [getGepObjVar, place]
  cases pag.IDToNodeMap src with
  | none => rfl
  | some node =>
    cases node with
    | FIObjVar mem => rfl
    | DummyObjVar mem => rfl
    | GepObjVar mem k =>
      dsimp only
      rw [bind_map]
      rfl
    | ValVar => rfl

theorem place_of_isObject (h : IsObject pag base) : place pag base x = some (base, x) := by
  rw [place]
  rcases h with h | h
  · rw [h]
  · rw [h]

-- ── One call

variable (opts limit) in
/-- `id` is the node of the object for the offset: the object itself, or what is kept under the
    normalised offset. -/
def NodeOf (pag : SVFIR) (base : ℕ) (x : Int64) (id : ℕ) : Prop :=
  limit base ≠ 0 → ∃ k, getModulusOffset opts (limit base) x = some k ∧
    if opts.FirstFieldEqBase ∧ k = 0 then id = base else pag.GepObjVarMap (base, k) = some id

def withField (pag : SVFIR) (allocator : NodeIDAllocator) (base : ℕ) (k : Int64) (id : ℕ) : SVFIR where
  IDToNodeMap := update pag.IDToNodeMap id (some (.GepObjVar base k))
  GepObjVarMap := update pag.GepObjVarMap (base, k) (some id)
  memToFieldsMap := update pag.memToFieldsMap base (insert id (pag.memToFieldsMap base))
  allocator := allocator

theorem addNode_eq_some {node : SVFVar} : pag.addNode id node = some pag' ↔
    pag.IDToNodeMap id = none ∧
      { pag with IDToNodeMap := update pag.IDToNodeMap id (some node) } = pag' := by
  rw [SVFIR.addNode, ite_none_right_eq_some, some_inj]

/-- **What a call does**: it returns a node that is there, or adds one under an identifier that
    no node has. -/
theorem getGepObjVarOf_cases (h : getGepObjVarOf opts limit pag base x = some (id, pag')) :
    pag' = pag ∧ NodeOf opts limit pag base x id ∨
      ∃ k allocator, getModulusOffset opts (limit base) x = some k ∧
        ¬ (opts.FirstFieldEqBase ∧ k = 0) ∧ pag.GepObjVarMap (base, k) = none ∧
        pag.IDToNodeMap id = none ∧ pag' = withField pag allocator base k id := by
  rw [getGepObjVarOf] at h
  by_cases hzero : limit base = 0
  · rw [if_pos hzero] at h
    obtain ⟨-, rfl⟩ := Prod.mk.inj (some.inj h)
    exact .inl ⟨rfl, fun hne => absurd hzero hne⟩
  · rw [if_neg hzero] at h
    obtain ⟨k, hk, h⟩ := bind_eq_some_iff.mp h
    by_cases hfirst : opts.FirstFieldEqBase ∧ k = 0
    · rw [if_pos hfirst] at h
      cases h
      exact .inl ⟨rfl, fun _ => ⟨k, hk, (if_pos hfirst).symm ▸ rfl⟩⟩
    · rw [if_neg hfirst] at h
      cases hfound : pag.GepObjVarMap (base, k) with
      | some found =>
        rw [hfound] at h
        cases h
        exact .inl ⟨rfl, fun _ => ⟨k, hk, (if_neg hfirst).symm ▸ hfound⟩⟩
      | none =>
        rw [hfound] at h
        obtain ⟨⟨gepId, allocator⟩, -, h⟩ := bind_eq_some_iff.mp h
        obtain ⟨pag1, hadd, hpair⟩ := map_eq_some_iff.mp h
        cases hpair
        rw [SVFIR.addGepObjNode] at hadd
        obtain ⟨-, hadd⟩ := ite_none_right_eq_some.mp hadd
        obtain ⟨hfree, rfl⟩ := addNode_eq_some.mp hadd
        exact .inr ⟨k, allocator, hk, hfirst, hfound, hfree, rfl⟩

-- ── What a run keeps

structure Grows (pag pag' : SVFIR) : Prop where
  nodes : ∀ id node, pag.IDToNodeMap id = some node → pag'.IDToNodeMap id = some node
  fields : ∀ key id, pag.GepObjVarMap key = some id → pag'.GepObjVarMap key = some id

theorem update_of_none {A B : Type} [DecidableEq A] {f : A → Option B} {a i : A} {v b : B}
    (hfree : f i = none) (h : f a = some b) : update f i (some v) a = some b := by
  rw [update_of_ne, h]
  rintro rfl
  cases hfree.symm.trans h

theorem IsObject.mono (hg : Grows pag pag') (h : IsObject pag base) : IsObject pag' base :=
  h.imp (hg.nodes _ _) (hg.nodes _ _)

theorem place_mono (hg : Grows pag pag') {p : ℕ × Int64} (h : place pag src x = some p) :
    place pag' src x = some p := by
  rw [place] at h ⊢
  cases hnode : pag.IDToNodeMap src with
  | none =>
    rw [hnode] at h
    cases h
  | some node =>
    rw [hnode] at h
    rw [hg.nodes src node hnode]
    exact h

theorem NodeOf.mono (hg : Grows pag pag') (h : NodeOf opts limit pag base x id) :
    NodeOf opts limit pag' base x id := by
  intro hne
  obtain ⟨k, hk, hid⟩ := h hne
  refine ⟨k, hk, ?_⟩
  split_ifs at hid ⊢
  · exact hid
  · exact hg.fields _ _ hid

variable (opts limit) in
/-- What holds of the graph after some calls. -/
structure Inv (pag : SVFIR) (calls : List Call) : Prop where
  field_iff : ∀ base k id, pag.GepObjVarMap (base, k) = some id ↔
    pag.IDToNodeMap id = some (.GepObjVar base k)
  self : ∀ id mem, pag.IDToNodeMap id = some (.FIObjVar mem) ∨
    pag.IDToNodeMap id = some (.DummyObjVar mem) → mem = id
  owner : ∀ id base k, pag.IDToNodeMap id = some (.GepObjVar base k) → IsObject pag base
  fields : ∀ base, ∀ id ∈ pag.memToFieldsMap base,
    id = base ∨ ∃ k, pag.GepObjVarMap (base, k) = some id
  answered : ∀ c ∈ calls, ∃ base x, place pag c.src c.apOffset = some (base, x) ∧
    IsObject pag base ∧ NodeOf opts limit pag base x c.id
  origin : ∀ base k id, pag.GepObjVarMap (base, k) = some id →
    ∃ c ∈ calls, ∃ x, place pag c.src c.apOffset = some (base, x) ∧
      getModulusOffset opts (limit base) x = some k

theorem Inv.init (allocator : NodeIDAllocator) :
    Inv opts limit ⟨fun _ => none, fun _ => none, fun _ => ∅, allocator⟩ [] where
  field_iff := fun _ _ _ => ⟨(nomatch ·), (nomatch ·)⟩
  self := fun _ _ h => h.elim (nomatch ·) (nomatch ·)
  owner := fun _ _ _ h => nomatch h
  fields := fun _ id h => absurd h (Finset.notMem_empty id)
  answered := nofun
  origin := fun _ _ _ h => nomatch h

theorem Inv.isObject_of_place (h : Inv opts limit pag calls) {p : ℕ × Int64}
    (hp : place pag src x = some p) : IsObject pag p.1 := by
  rw [place] at hp
  cases hnode : pag.IDToNodeMap src with
  | none =>
    rw [hnode] at hp
    cases hp
  | some node =>
    rw [hnode] at hp
    cases node with
    | FIObjVar mem =>
      cases hp
      obtain rfl := h.self src mem (.inl hnode)
      exact .inl hnode
    | DummyObjVar mem =>
      cases hp
      obtain rfl := h.self src mem (.inr hnode)
      exact .inr hnode
    | GepObjVar mem k =>
      obtain ⟨y, -, rfl⟩ := map_eq_some_iff.mp hp
      exact h.owner src mem k hnode
    | ValVar => cases hp

/-- **Another node.** -/
theorem Inv.add (h : Inv opts limit pag calls) {node : SVFVar} (hfree : pag.IDToNodeMap id = none)
    (hmap : pag'.IDToNodeMap = update pag.IDToNodeMap id (some node))
    (hnode : node = .FIObjVar id ∨ node = .DummyObjVar id ∨ node = .ValVar)
    (hgep : pag'.GepObjVarMap = pag.GepObjVarMap)
    (hfields : ∀ base, ∀ i ∈ pag'.memToFieldsMap base, i = base ∨ i ∈ pag.memToFieldsMap base) :
    Inv opts limit pag' calls := by
  have hg : Grows pag pag' := by
    refine ⟨fun i n hi => ?_, fun key i hi => ?_⟩
    · rw [hmap]
      exact update_of_none hfree hi
    · rw [hgep]
      exact hi
  have hold : ∀ i n, pag'.IDToNodeMap i = some n → i = id ∧ n = node ∨
      pag.IDToNodeMap i = some n := by
    intro i n hi
    rw [hmap] at hi
    by_cases hid : i = id
    · subst hid
      rw [update_self] at hi
      exact .inl ⟨rfl, (some.inj hi).symm⟩
    · rw [update_of_ne hid] at hi
      exact .inr hi
  have hfield : ∀ i base k, pag'.IDToNodeMap i = some (.GepObjVar base k) ↔
      pag.IDToNodeMap i = some (.GepObjVar base k) := by
    intro i base k
    refine ⟨fun hi => (hold i _ hi).resolve_left ?_, hg.nodes i _⟩
    rintro ⟨-, heq⟩
    rcases hnode with rfl | rfl | rfl
    · cases heq
    · cases heq
    · cases heq
  constructor
  case field_iff =>
    intro base k i
    rw [hgep, hfield]
    exact h.field_iff base k i
  case self =>
    rintro i mem (hi | hi)
    · rcases hold i _ hi with ⟨rfl, heq⟩ | hi
      · rcases hnode with rfl | rfl | rfl
        · exact SVFVar.FIObjVar.inj heq
        · cases heq
        · cases heq
      · exact h.self i mem (.inl hi)
    · rcases hold i _ hi with ⟨rfl, heq⟩ | hi
      · rcases hnode with rfl | rfl | rfl
        · cases heq
        · exact SVFVar.DummyObjVar.inj heq
        · cases heq
      · exact h.self i mem (.inr hi)
  case owner => exact fun i base k hi => (h.owner i base k ((hfield i base k).mp hi)).mono hg
  case fields =>
    intro base i hi
    rw [hgep]
    exact (hfields base i hi).elim .inl (h.fields base i)
  case answered =>
    intro c hc
    obtain ⟨base, x, hp, hobj, hid⟩ := h.answered c hc
    exact ⟨base, x, place_mono hg hp, hobj.mono hg, hid.mono hg⟩
  case origin =>
    intro base k i hi
    rw [hgep] at hi
    obtain ⟨c, hc, x, hp, hk⟩ := h.origin base k i hi
    exact ⟨c, hc, x, place_mono hg hp, hk⟩

theorem grows_withField {allocator : NodeIDAllocator} {k : Int64}
    (hfree : pag.IDToNodeMap id = none) (hnew : pag.GepObjVarMap (base, k) = none) :
    Grows pag (withField pag allocator base k id) :=
  ⟨fun _ _ hi => update_of_none hfree hi, fun _ _ hi => update_of_none hnew hi⟩

/-- **A new field node.** -/
theorem Inv.withField (h : Inv opts limit pag calls) {allocator : NodeIDAllocator} {k : Int64}
    (hp : place pag src x = some (base, y)) (hk : getModulusOffset opts (limit base) y = some k)
    (hfirst : ¬ (opts.FirstFieldEqBase ∧ k = 0)) (hnew : pag.GepObjVarMap (base, k) = none)
    (hfree : pag.IDToNodeMap id = none) :
    Inv opts limit (withField pag allocator base k id) (calls ++ [⟨src, x, id⟩]) := by
  have hg : Grows pag (SvfGepObjVar.withField pag allocator base k id) := grows_withField hfree hnew
  have hold : ∀ i n, (SvfGepObjVar.withField pag allocator base k id).IDToNodeMap i = some n →
      i = id ∧ n = .GepObjVar base k ∨ pag.IDToNodeMap i = some n := by
    intro i n hi
    have hi' : update pag.IDToNodeMap id (some (.GepObjVar base k)) i = some n := hi
    by_cases hid : i = id
    · subst hid
      rw [update_self] at hi'
      exact .inl ⟨rfl, (some.inj hi').symm⟩
    · rw [update_of_ne hid] at hi'
      exact .inr hi'
  have hmap : ∀ b j i, (SvfGepObjVar.withField pag allocator base k id).GepObjVarMap (b, j) = some i →
      (b = base ∧ j = k ∧ i = id) ∨ pag.GepObjVarMap (b, j) = some i := by
    intro b j i hi
    have hi' : update pag.GepObjVarMap (base, k) (some id) (b, j) = some i := hi
    by_cases hkey : (b, j) = (base, k)
    · rw [hkey, update_self] at hi'
      cases hkey
      exact .inl ⟨rfl, rfl, (some.inj hi').symm⟩
    · rw [update_of_ne hkey] at hi'
      exact .inr hi'
  have hself : (SvfGepObjVar.withField pag allocator base k id).GepObjVarMap (base, k) = some id :=
    update_self _ _ _
  have hobj := (h.isObject_of_place hp).mono hg
  constructor
  case field_iff =>
    intro b j i
    constructor
    · intro hi
      rcases hmap b j i hi with ⟨rfl, rfl, rfl⟩ | hi
      · exact update_self _ _ _
      · exact hg.nodes i _ ((h.field_iff b j i).mp hi)
    · intro hi
      rcases hold i _ hi with ⟨rfl, heq⟩ | hi
      · cases heq
        exact hself
      · exact hg.fields _ i ((h.field_iff b j i).mpr hi)
  case self =>
    rintro i mem (hi | hi)
    · exact h.self i mem (.inl ((hold i _ hi).resolve_left fun h => nomatch h.2))
    · exact h.self i mem (.inr ((hold i _ hi).resolve_left fun h => nomatch h.2))
  case owner =>
    intro i b j hi
    rcases hold i _ hi with ⟨rfl, heq⟩ | hi
    · cases heq
      exact hobj
    · exact (h.owner i b j hi).mono hg
  case fields =>
    intro b i hi
    have hi' : i ∈ update pag.memToFieldsMap base (insert id (pag.memToFieldsMap base)) b := hi
    have hcases : i ∈ pag.memToFieldsMap b ∨ b = base ∧ i = id := by
      by_cases hb : b = base
      · subst hb
        rw [update_self, Finset.mem_insert] at hi'
        exact hi'.symm.imp_right fun h => ⟨rfl, h⟩
      · rw [update_of_ne hb] at hi'
        exact .inl hi'
    rcases hcases with hi | ⟨rfl, rfl⟩
    · exact (h.fields b i hi).imp_right fun ⟨j, hj⟩ => ⟨j, hg.fields _ i hj⟩
    · exact .inr ⟨k, hself⟩
  case answered =>
    intro c hc
    rcases mem_append.mp hc with hc | hc
    · obtain ⟨b, z, hp, hobj, hid⟩ := h.answered c hc
      exact ⟨b, z, place_mono hg hp, hobj.mono hg, hid.mono hg⟩
    · obtain rfl := mem_singleton.mp hc
      exact ⟨base, y, place_mono hg hp, hobj, fun _ => ⟨k, hk, (if_neg hfirst).symm ▸ hself⟩⟩
  case origin =>
    intro b j i hi
    rcases hmap b j i hi with ⟨rfl, rfl, -⟩ | hi
    · exact ⟨_, mem_append_right _ mem_cons_self, y, place_mono hg hp, hk⟩
    · obtain ⟨c, hc, z, hp, hk⟩ := h.origin b j i hi
      exact ⟨c, mem_append_left _ hc, z, place_mono hg hp, hk⟩

/-- **One call.** -/
theorem Inv.call (h : Inv opts limit pag calls)
    (hcall : getGepObjVar opts limit pag src x = some (id, pag')) :
    Inv opts limit pag' (calls ++ [⟨src, x, id⟩]) := by
  rw [getGepObjVar_eq] at hcall
  obtain ⟨⟨base, y⟩, hp, hcall⟩ := bind_eq_some_iff.mp hcall
  rcases getGepObjVarOf_cases hcall with ⟨rfl, hid⟩ | ⟨k, allocator, hk, hfirst, hnew, hfree, rfl⟩
  · refine ⟨h.field_iff, h.self, h.owner, h.fields, fun c hc => ?_, fun b j i hi => ?_⟩
    · rcases mem_append.mp hc with hc | hc
      · exact h.answered c hc
      · obtain rfl := mem_singleton.mp hc
        exact ⟨base, y, hp, h.isObject_of_place hp, hid⟩
    · obtain ⟨c, hc, rest⟩ := h.origin b j i hi
      exact ⟨c, mem_append_left _ hc, rest⟩
  · exact h.withField hp hk hfirst hnew hfree

/-- **Runs.** -/
theorem Runs.inv (hr : Runs opts limit pag calls) : Inv opts limit pag calls := by
  induction hr with
  | init allocator => exact Inv.init allocator
  | @obj pag pag' calls base allocator _ hadd ih =>
    rw [SVFIR.addFIObjNode] at hadd
    obtain ⟨hfree, rfl⟩ := addNode_eq_some.mp hadd
    refine ih.add hfree rfl (.inl rfl) rfl fun b i hi => ?_
    have hi' : i ∈ update pag.memToFieldsMap base (insert base (pag.memToFieldsMap base)) b := hi
    by_cases hb : b = base
    · subst hb
      rw [update_self] at hi'
      exact Finset.mem_insert.mp hi'
    · rw [update_of_ne hb] at hi'
      exact .inr hi'
  | dummy _ hadd ih =>
    obtain ⟨hfree, rfl⟩ := addNode_eq_some.mp hadd
    exact ih.add hfree rfl (.inr (.inl rfl)) rfl fun _ _ hi => .inr hi
  | val _ hadd ih =>
    obtain ⟨hfree, rfl⟩ := addNode_eq_some.mp hadd
    exact ih.add hfree rfl (.inr (.inr rfl)) rfl fun _ _ hi => .inr hi
  | call _ hcall ih => exact ih.call hcall

-- ── Nodes and offsets

theorem IsObject.not_field (h : IsObject pag base) {mem : ℕ} {k : Int64} :
    pag.IDToNodeMap base ≠ some (.GepObjVar mem k) := by
  intro hk
  rcases h with h | h
  · cases h.symm.trans hk
  · cases h.symm.trans hk

section

variable (hr : Runs opts limit pag calls)
include hr

/-- **Same node, same normalised offset.** -/
theorem Runs.id_eq_iff (hm : limit base ≠ 0) {c c' : Call}
    (hc : c ∈ calls) (hc' : c' ∈ calls) (hp : place pag c.src c.apOffset = some (base, x))
    (hp' : place pag c'.src c'.apOffset = some (base, y)) :
    c.id = c'.id ↔ getModulusOffset opts (limit base) x = getModulusOffset opts (limit base) y := by
  have h := hr.inv
  obtain ⟨b, z, hpb, hobj, hid⟩ := h.answered c hc
  cases hpb.symm.trans hp
  obtain ⟨b', z', hpb', -, hid'⟩ := h.answered c' hc'
  cases hpb'.symm.trans hp'
  obtain ⟨k, hk, hid⟩ := hid hm
  obtain ⟨k', hk', hid'⟩ := hid' hm
  rw [hk, hk', some_inj]
  by_cases hfirst : opts.FirstFieldEqBase ∧ k = 0
  · rw [if_pos hfirst] at hid
    by_cases hfirst' : opts.FirstFieldEqBase ∧ k' = 0
    · rw [if_pos hfirst'] at hid'
      exact iff_of_true (hid.trans hid'.symm) (hfirst.2.trans hfirst'.2.symm)
    · rw [if_neg hfirst'] at hid'
      refine iff_of_false (fun heq => ?_) (fun heq => hfirst' ⟨hfirst.1, heq ▸ hfirst.2⟩)
      rw [← heq, hid] at hid'
      exact hobj.not_field ((h.field_iff _ _ _).mp hid')
  · rw [if_neg hfirst] at hid
    by_cases hfirst' : opts.FirstFieldEqBase ∧ k' = 0
    · rw [if_pos hfirst'] at hid'
      refine iff_of_false (fun heq => ?_) (fun heq => hfirst ⟨hfirst'.1, heq ▸ hfirst'.2⟩)
      rw [heq, hid'] at hid
      exact hobj.not_field ((h.field_iff _ _ _).mp hid)
    · rw [if_neg hfirst'] at hid'
      constructor
      · intro heq
        have hnode := (h.field_iff _ _ _).mp hid
        have hnode' := (h.field_iff _ _ _).mp hid'
        rw [← heq, hnode] at hnode'
        exact (SVFVar.GepObjVar.inj (some.inj hnode')).2
      · rintro rfl
        exact mem_unique hid hid'

theorem Runs.id_eq_base_iff (hm : limit base ≠ 0) {c : Call}
    (hc : c ∈ calls) (hp : place pag c.src c.apOffset = some (base, x)) :
    c.id = base ↔ opts.FirstFieldEqBase ∧ getModulusOffset opts (limit base) x = some 0 := by
  have h := hr.inv
  obtain ⟨b, z, hpb, hobj, hid⟩ := h.answered c hc
  cases hpb.symm.trans hp
  obtain ⟨k, hk, hid⟩ := hid hm
  rw [hk, some_inj]
  by_cases hfirst : opts.FirstFieldEqBase ∧ k = 0
  · rw [if_pos hfirst] at hid
    exact iff_of_true hid hfirst
  · rw [if_neg hfirst] at hid
    refine iff_of_false (fun heq => ?_) hfirst
    rw [heq] at hid
    exact hobj.not_field ((h.field_iff _ _ _).mp hid)

theorem Runs.place_of_id (hm : limit base ≠ 0)
    (hobj : IsObject pag base) {a b z : Int64} {r mem : ℕ} (hb : 0 ≤ b.toInt)
    (hc : ⟨base, a, r⟩ ∈ calls) (hz : place pag r b = some (mem, z)) :
    mem = base ∧ ∃ k, getModulusOffset opts (limit base) a = some k ∧ addOffset k b = some z := by
  have h := hr.inv
  obtain ⟨base', a', hp, -, hid⟩ := h.answered _ hc
  cases (place_of_isObject hobj).symm.trans hp
  obtain ⟨k, hk, hid⟩ := hid hm
  by_cases hfirst : opts.FirstFieldEqBase ∧ k = 0
  · rw [if_pos hfirst] at hid
    obtain rfl : r = base := hid
    cases (place_of_isObject hobj).symm.trans hz
    refine ⟨rfl, k, hk, ?_⟩
    obtain ⟨hadd, -⟩ := addOffset_eq (a := 0) (b := b) le_rfl hb
      (by rw [Int64.toInt_zero, zero_add]; exact b.toInt_lt)
    rw [hfirst.2, hadd, Int64.zero_add]
  · rw [if_neg hfirst] at hid
    have hnode : pag.IDToNodeMap r = some (.GepObjVar base k) := (h.field_iff _ _ _).mp hid
    rw [place, hnode] at hz
    obtain ⟨w, hw, hpair⟩ := map_eq_some_iff.mp hz
    cases hpair
    exact ⟨rfl, k, hk, hw⟩

/-- **Two calls and one** reach the same node exactly if the offsets compose. -/
theorem Runs.step_eq_iff (hm : 0 < (limit base).toNat)
    (hobj : IsObject pag base) {a b : Int64} (hab : Addable a b) {r r2 r3 : ℕ}
    (hc1 : ⟨base, a, r⟩ ∈ calls) (hc2 : ⟨r, b, r2⟩ ∈ calls) (hc3 : ⟨base, a + b, r3⟩ ∈ calls) :
    r2 = r3 ↔ Composes opts (limit base) a b := by
  have hne : limit base ≠ 0 := by
    intro hzero
    rw [hzero] at hm
    exact absurd hm (lt_irrefl 0)
  obtain ⟨mem, z, hz, -⟩ := hr.inv.answered _ hc2
  obtain ⟨rfl, k, hk, hadd⟩ := hr.place_of_id hne hobj hab.right hc1 hz
  have htwo : twoSteps opts (limit mem) a b = getModulusOffset opts (limit mem) z := by
    rw [twoSteps, hk, bind_some, hadd, bind_some]
  rw [← twoSteps_eq_iff hm hab, htwo]
  exact hr.id_eq_iff hne hc2 hc3 hz (place_of_isObject hobj)

/-- **At most so many field nodes** as the limit, if every offset is normalised to a field. -/
theorem Runs.card_le (hm : 0 < (limit base).toNat)
    (hin : ∀ c ∈ calls, ∀ x, place pag c.src c.apOffset = some (base, x) →
      InField opts (limit base) x) :
    ((pag.memToFieldsMap base).erase base).card ≤ (limit base).toNat := by
  have h := hr.inv
  have hsub : (pag.memToFieldsMap base).erase base ⊆ (Finset.range (limit base).toNat).image
      fun n => (pag.GepObjVarMap (base, Int64.ofNat n)).getD 0 := by
    intro i hi
    obtain ⟨hne, hi⟩ := Finset.mem_erase.mp hi
    obtain ⟨k, hk⟩ := (h.fields base i hi).resolve_left hne
    obtain ⟨c, hc, x, hp, hnorm⟩ := h.origin base k i hk
    obtain ⟨y, hy, h0, hlt⟩ := (getModulusOffset_isField_iff hm).mpr (hin c hc x hp)
    obtain rfl : k = y := mem_unique hnorm hy
    refine Finset.mem_image.mpr ⟨k.toInt.toNat, Finset.mem_range.mpr (by omega), ?_⟩
    have hback : Int64.ofNat k.toInt.toNat = k := by
      rw [← Int64.ofInt_eq_ofNat, Int.toNat_of_nonneg h0, Int64.ofInt_toInt]
    rw [hback, hk]
    rfl
  exact (Finset.card_le_card hsub).trans (Finset.card_image_le.trans (Finset.card_range _).le)

end

/-- **Field nodes** are bounded and compose exactly so far: the fields that offsets are normalised
    to; in every run the same node for the same normalised offset, and two calls as one; and the
    bound on their number, where every offset is normalised to a field. -/
theorem getGepObjVar_fields_iff (opts : Options) (limit : ℕ → UInt32) :
    (∀ (m : UInt32) (x : Int64), 0 < m.toNat → (IsField opts m x ↔ InField opts m x)) ∧
    ∀ pag calls, Runs opts limit pag calls →
      ∀ base, IsObject pag base → 0 < (limit base).toNat →
        (∀ c ∈ calls, ∀ c' ∈ calls, ∀ x y, place pag c.src c.apOffset = some (base, x) →
          place pag c'.src c'.apOffset = some (base, y) →
            (c.id = c'.id ↔
              getModulusOffset opts (limit base) x = getModulusOffset opts (limit base) y) ∧
            (c.id = base ↔
              opts.FirstFieldEqBase = true ∧ getModulusOffset opts (limit base) x = some 0)) ∧
        (∀ a b r r₂ r₃, Addable a b → ⟨base, a, r⟩ ∈ calls → ⟨r, b, r₂⟩ ∈ calls →
          ⟨base, a + b, r₃⟩ ∈ calls → (r₂ = r₃ ↔ Composes opts (limit base) a b)) ∧
        ((∀ c ∈ calls, ∀ x, place pag c.src c.apOffset = some (base, x) →
            InField opts (limit base) x) →
          ((pag.memToFieldsMap base).erase base).card ≤ (limit base).toNat) := by
  refine ⟨fun m x hm => getModulusOffset_isField_iff hm, fun pag calls hr base hobj hm => ?_⟩
  have hne : limit base ≠ 0 := by
    intro hzero
    rw [hzero] at hm
    exact absurd hm (lt_irrefl 0)
  exact ⟨fun c hc c' hc' x y hp hp' =>
      ⟨hr.id_eq_iff hne hc hc' hp hp', hr.id_eq_base_iff hne hc hp⟩,
    fun a b r r₂ r₃ hab hc₁ hc₂ hc₃ => hr.step_eq_iff hm hobj hab hc₁ hc₂ hc₃, hr.card_le hm⟩

-- ── An offset that narrows to a field

variable (opts limit) in
/-- The calls with these nodes and offsets, one after the other. -/
def callAll : SVFIR → List (ℕ × Int64) → Option (SVFIR × List Call)
  | pag, [] => some (pag, [])
  | pag, (src, x) :: l =>
    (getGepObjVar opts limit pag src x).bind fun (id, pag) =>
      (callAll pag l).map fun (pag, calls) => (pag, ⟨src, x, id⟩ :: calls)

theorem Runs.callAll : ∀ (l : List (ℕ × Int64)) {pag pag' : SVFIR} {calls more : List Call},
    Runs opts limit pag calls → callAll opts limit pag l = some (pag', more) →
      Runs opts limit pag' (calls ++ more) := by
  intro l
  induction l with
  | nil =>
    intro pag pag' calls more hr h
    cases h
    rw [append_nil]
    exact hr
  | cons q l ih =>
    intro pag pag' calls more hr h
    rw [SvfGepObjVar.callAll] at h
    obtain ⟨⟨id, pag1⟩, hcall, h⟩ := bind_eq_some_iff.mp h
    obtain ⟨⟨pag2, rest⟩, hrest, hpair⟩ := map_eq_some_iff.mp h
    cases hpair
    rw [append_cons]
    exact ih (hr.call hcall) hrest

def defaults : Options := ⟨512, false, false⟩

def oneObject : SVFIR where
  IDToNodeMap := update (fun _ => none) 4 (some (.FIObjVar 4))
  GepObjVarMap := fun _ => none
  memToFieldsMap := update (fun _ => ∅) 4 (insert 4 ∅)
  allocator := ⟨5, 4, 5, 5, .SEQ⟩

theorem oneObject_runs (limit : ℕ → UInt32) : Runs defaults limit oneObject [] := by
  have hadd : (⟨fun _ => none, fun _ => none, fun _ => ∅, ⟨5, 4, 5, 5, .SEQ⟩⟩ : SVFIR).addFIObjNode 4 =
      some oneObject := rfl
  exact .obj (.init ⟨5, 4, 5, 5, .SEQ⟩) hadd

/-- An object with three fields: `2 ^ 32` narrows to 0 and is no field; it is a fourth field node,
    and from field 5, which is the last one, `2 ^ 32 - 2` further on is not `2 ^ 32 + 3`. -/
theorem getGepObjVar_not_bounded : ¬ IsField defaults 3 4294967296 ∧
    (∃ pag calls, Runs defaults (fun _ => 3) pag calls ∧
      3 < ((pag.memToFieldsMap 4).erase 4).card) ∧
    ∃ pag r r₂ r₃, Runs defaults (fun _ => 3) pag
      [⟨4, 5, r⟩, ⟨r, 4294967294, r₂⟩, ⟨4, 5 + 4294967294, r₃⟩] ∧ r₂ ≠ r₃ := by
  refine ⟨?_, ?_, ?_⟩
  · rintro ⟨y, hy, -, hlt⟩
    obtain rfl : 4294967296 = y := some.inj hy
    cases hlt
  · have hrun : (callAll defaults (fun _ => 3) oneObject
        [(4, 0), (4, 1), (4, 2), (4, 4294967296)]).map
          (fun r => decide (3 < ((r.1.memToFieldsMap 4).erase 4).card)) = some true := by
      decide +kernel
    obtain ⟨⟨pag, calls⟩, hcalls, hcard⟩ := map_eq_some_iff.mp hrun
    exact ⟨pag, _, (oneObject_runs _).callAll _ hcalls, of_decide_eq_true hcard⟩
  · have hrun : (callAll defaults (fun _ => 3) oneObject
        [(4, 5), (5, 4294967294), (4, 5 + 4294967294)]).map Prod.snd =
          some [⟨4, 5, 5⟩, ⟨5, 4294967294, 6⟩, ⟨4, 5 + 4294967294, 5⟩] := by
      decide +kernel
    obtain ⟨⟨pag, calls⟩, hcalls, rfl⟩ := map_eq_some_iff.mp hrun
    exact ⟨pag, 5, 6, 5, (oneObject_runs _).callAll _ hcalls, by decide⟩

end SvfGepObjVar
