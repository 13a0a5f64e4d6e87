import SvfModel.ClustererProofs

/-!
# `getDistanceMatrix`: the condensed matrix

Of the distances between the objects of a region only those of pairs `i < j` are kept, row by row in
one array; `condensedIndex` is the place of a pair.

Counted from the end of the array, that is the number of a pair among all pairs of smaller numbers
(`choose_two_bijOn`), so it is a bijection as long as the products fit a `size_t`
(`condensedIndex_bijOn`). The matrix is built by a call for each pair of elements of a points-to
set, in the order in which the set is gone through. The calls are all of the kind `i < j` exactly
if each set is gone through in ascending order, and then every entry is the distance of its own
pair (**`getDistanceMatrix_indexed`**). A set that is not writes at the place of another pair
(`descending_not_indexed`).
-/

namespace SvfClusterer

open SvfLoop List

-- ── Numbering pairs

/-- The number of a pair `a < b` among the pairs of smaller numbers. -/
def pairNumber (a b : ℕ) : ℕ := b.choose 2 + a

theorem succ_choose_two (n : ℕ) : (n + 1).choose 2 = n.choose 2 + n := by
  rw [Nat.choose_succ_succ' n 1, Nat.choose_one_right, Nat.add_comm]

theorem pairNumber_lt {a b n : ℕ} (hab : a < b) (hbn : b < n) : pairNumber a b < n.choose 2 := by
  have hle := Nat.choose_le_choose 2 (Nat.succ_le_of_lt hbn)
  rw [Nat.succ_eq_add_one, succ_choose_two] at hle
  rw [pairNumber]
  omega

theorem pairNumber_inj {a b a' b' : ℕ} (hab : a < b) (hab' : a' < b')
    (heq : pairNumber a b = pairNumber a' b') : a = a' ∧ b = b' := by
  have hle : ∀ {a b a' b' : ℕ}, a < b → pairNumber a b = pairNumber a' b' → b' ≤ b := by
    intro a b a' b' hab heq
    by_contra hlt
    have hsmall := pairNumber_lt hab (not_le.mp hlt)
    rw [heq, pairNumber] at hsmall
    omega
  have hb : b = b' := le_antisymm (hle hab' heq.symm) (hle hab heq)
  subst hb
  exact ⟨Nat.add_left_cancel heq, rfl⟩

/-- **The pairs below `n`** are numbered one after the other. -/
theorem pairNumber_surj {n k : ℕ} (hk : k < n.choose 2) :
    ∃ a b, a < b ∧ b < n ∧ pairNumber a b = k := by
  induction n with
  | zero => cases hk
  | succ n ih =>
    by_cases hlt : k < n.choose 2
    · obtain ⟨a, b, hab, hbn, hp⟩ := ih hlt
      exact ⟨a, b, hab, Nat.lt_succ_of_lt hbn, hp⟩
    · rw [succ_choose_two] at hk
      exact ⟨k - n.choose 2, n, by omega, Nat.lt_succ_self n, Nat.add_sub_cancel' (not_lt.mp hlt)⟩

-- ── `condensedIndex`

/-- A `size_t` has 64 bits. -/
def condensedIndex (n i j : UInt64) : UInt64 :=
  n * (n - 1) / 2 - (n - i) * (n - i - 1) / 2 + j - i - 1

/-- No subtraction of `condensedIndex` goes below zero. -/
def NoUnderflow (n i j : UInt64) : Prop :=
  1 ≤ n ∧ i ≤ n ∧ 1 ≤ n - i ∧ (n - i) * (n - i - 1) / 2 ≤ n * (n - 1) / 2 ∧
    i ≤ n * (n - 1) / 2 - (n - i) * (n - i - 1) / 2 + j ∧
    1 ≤ n * (n - 1) / 2 - (n - i) * (n - i - 1) / 2 + j - i

theorem toNat_triangle {m : UInt64} (hm : m.toNat ≤ 4294967296) (hpos : 1 ≤ m) :
    (m * (m - 1) / 2).toNat = m.toNat.choose 2 := by
  have hlt : m.toNat * (m.toNat - 1) < 2 ^ 64 :=
    (Nat.mul_le_mul hm (Nat.sub_le_sub_right hm 1)).trans_lt (by decide)
  rw [UInt64.toNat_div, UInt64.toNat_mul, UInt64.toNat_sub_of_le _ _ hpos, Nat.choose_two_right]
  show m.toNat * (m.toNat - 1) % 2 ^ 64 / 2 = _
  rw [Nat.mod_eq_of_lt hlt]

theorem condensedIndex_spec {n i j : UInt64} (hn : n.toNat ≤ 4294967296) (hij : i < j)
    (hjn : j < n) : NoUnderflow n i j ∧ (condensedIndex n i j).toNat =
      n.toNat.choose 2 - 1 - pairNumber (n.toNat - 1 - j.toNat) (n.toNat - 1 - i.toNat) := by
  have hij' := UInt64.lt_iff_toNat_lt.mp hij
  have hjn' := UInt64.lt_iff_toNat_lt.mp hjn
  have hone : (1 : UInt64).toNat = 1 := rfl
  have hin : i ≤ n := UInt64.le_iff_toNat_le.mpr (by omega)
  have hni : (n - i).toNat = n.toNat - i.toNat := UInt64.toNat_sub_of_le _ _ hin
  have hpos : 1 ≤ n := UInt64.le_iff_toNat_le.mpr (by omega)
  have hpos' : 1 ≤ n - i := UInt64.le_iff_toNat_le.mpr (by omega)
  have htop := toNat_triangle hn hpos
  have hrest := toNat_triangle (m := n - i) (by omega) hpos'
  -- the rows from `i` on are one row and the rows behind it
  obtain ⟨r, hr⟩ : ∃ r, n.toNat - i.toNat = r + 1 := ⟨n.toNat - i.toNat - 1, by omega⟩
  have hrow := succ_choose_two r
  have hle : (r + 1).choose 2 ≤ n.toNat.choose 2 := Nat.choose_le_choose 2 (by omega)
  have hmax : n.toNat.choose 2 ≤ 9223372034707292160 :=
    (Nat.choose_le_choose 2 hn).trans (by rw [Nat.choose_two_right])
  rw [hni, hr] at hrest
  set top := n * (n - 1) / 2
  set rest := (n - i) * (n - i - 1) / 2
  have h1 : rest ≤ top := UInt64.le_iff_toNat_le.mpr (by omega)
  have h1' := UInt64.toNat_sub_of_le _ _ h1
  have h2 : (top - rest + j).toNat = (top - rest).toNat + j.toNat := by
    rw [UInt64.toNat_add, Nat.mod_eq_of_lt]
    omega
  have h3 : i ≤ top - rest + j := UInt64.le_iff_toNat_le.mpr (by omega)
  have h3' := UInt64.toNat_sub_of_le _ _ h3
  have h4 : 1 ≤ top - rest + j - i := UInt64.le_iff_toNat_le.mpr (by omega)
  have h4' := UInt64.toNat_sub_of_le _ _ h4
  refine ⟨⟨hpos, hin, hpos', h1, h3, h4⟩, ?_⟩
  show (top - rest + j - i - 1).toNat = _
  rw [pairNumber, show n.toNat - 1 - i.toNat = r by omega, h4']
  omega

theorem toNat_ofNat_of_le {a : ℕ} (ha : a ≤ 4294967296) : (UInt64.ofNat a).toNat = a :=
  UInt64.toNat_ofNat_of_lt' (show a < 18446744073709551616 by omega)

/-- **`condensedIndex`** numbers the pairs from the first row on. -/
theorem condensedIndex_bijOn {n : UInt64} (hn : n.toNat ≤ 4294967296) :
    Set.BijOn (fun p : UInt64 × UInt64 => (condensedIndex n p.1 p.2).toNat)
      {p | p.1 < p.2 ∧ p.2 < n} (Set.Iio (n.toNat.choose 2)) := by
  -- a pair, counted from the end
  have hback : ∀ {i j : UInt64}, i < j → j < n → ∃ a b, a < b ∧ b < n.toNat ∧
      j.toNat = n.toNat - 1 - a ∧ i.toNat = n.toNat - 1 - b ∧
      (condensedIndex n i j).toNat = n.toNat.choose 2 - 1 - pairNumber a b := by
    intro i j hij hjn
    have hspec := (condensedIndex_spec hn hij hjn).2
    have hij := UInt64.lt_iff_toNat_lt.mp hij
    have hjn := UInt64.lt_iff_toNat_lt.mp hjn
    exact ⟨_, _, by omega, by omega, by omega, by omega, hspec⟩
  refine ⟨fun p ⟨hp, hpn⟩ => ?_, fun p ⟨hp, hpn⟩ q ⟨hq, hqn⟩ heq => ?_, fun k hk => ?_⟩
  · obtain ⟨a, b, hab, hbn, -, -, heq⟩ := hback hp hpn
    have hlt := pairNumber_lt hab hbn
    show (condensedIndex n p.1 p.2).toNat < n.toNat.choose 2
    omega
  · obtain ⟨a, b, hab, hbn, hj, hi, hpk⟩ := hback hp hpn
    obtain ⟨a', b', hab', hbn', hj', hi', hqk⟩ := hback hq hqn
    have heq : (condensedIndex n p.1 p.2).toNat = (condensedIndex n q.1 q.2).toNat := heq
    have hlt := pairNumber_lt hab hbn
    have hlt' := pairNumber_lt hab' hbn'
    obtain ⟨rfl, rfl⟩ := pairNumber_inj hab hab' (by omega)
    exact Prod.ext (UInt64.toNat_inj.mp (by omega)) (UInt64.toNat_inj.mp (by omega))
  · have hk : k < n.toNat.choose 2 := hk
    obtain ⟨a, b, hab, hbn, hp⟩ := pairNumber_surj
      (show n.toNat.choose 2 - 1 - k < n.toNat.choose 2 by omega)
    have hi := toNat_ofNat_of_le (show n.toNat - 1 - b ≤ 4294967296 by omega)
    have hj := toNat_ofNat_of_le (show n.toNat - 1 - a ≤ 4294967296 by omega)
    have hij : UInt64.ofNat (n.toNat - 1 - b) < UInt64.ofNat (n.toNat - 1 - a) :=
      UInt64.lt_iff_toNat_lt.mpr (by omega)
    have hjn : UInt64.ofNat (n.toNat - 1 - a) < n := UInt64.lt_iff_toNat_lt.mpr (by omega)
    refine ⟨(.ofNat (n.toNat - 1 - b), .ofNat (n.toNat - 1 - a)), ⟨hij, hjn⟩, ?_⟩
    show (condensedIndex n (.ofNat (n.toNat - 1 - b)) (.ofNat (n.toNat - 1 - a))).toNat = k
    rw [(condensedIndex_spec hn hij hjn).2, hi, hj,
      show n.toNat - 1 - (n.toNat - 1 - a) = a by omega,
      show n.toNat - 1 - (n.toNat - 1 - b) = b by omega]
    omega

-- ── `getDistanceMatrix`

/-- The pairs of elements with the first one before the second. -/
def pairs : List ℕ → List (ℕ × ℕ)
  | [] => []
  | i :: l => l.map (i, ·) ++ pairs l

def requiredBits (n : ℕ) : ℕ :=
  if n = 0 then 0 else ((n - 1) / NATIVE_INT_SIZE + 1) * NATIVE_INT_SIZE

section Matrix

variable {D : Type} [NatCast D] (lower : ℕ → ℕ → D → D) (n : UInt64) (nodeMap : ℕ → Option ℕ)

/-- The indices of the calls of `condensedIndex` for a points-to set, as it is iterated; `none`
    where an object is not in the region. -/
def calls (pts : List ℕ) : Option (List (ℕ × ℕ)) := (pts.mapM nodeMap).map pairs

/-- The body of the innermost loop; `none` behind the end of the array. -/
def lowerDistance (distance occ : ℕ) (distMatrix : List D) (ij : ℕ × ℕ) : Option (List D) :=
  let k := (condensedIndex n (.ofNat ij.1) (.ofNat ij.2)).toNat
  distMatrix[k]?.map fun existingDistance => distMatrix.set k (lower distance occ existingDistance)

/-- The round of a points-to set with its number of occurrences. -/
def addDistances (distMatrix : List D) (ptsOcc : List ℕ × ℕ) : Option (List D) :=
  (calls nodeMap ptsOcc.1).bind fun ijs =>
    ijs.foldlM (lowerDistance lower n (requiredBits ptsOcc.1.length / NATIVE_INT_SIZE) ptsOcc.2)
      distMatrix

/-- The distances are `double`s; `lower distance occ` is what is made of an existing one. -/
def getDistanceMatrix (pointsToSets : List (List ℕ × ℕ)) : Option (List D) :=
  pointsToSets.foldlM (addDistances lower n nodeMap)
    (List.replicate (n * (n - 1) / 2).toNat ((n * n).toNat : D))

/-- What a points-to set makes of the distance of two objects. -/
def lowered (o o' : ℕ) (existingDistance : D) (ptsOcc : List ℕ × ℕ) : D :=
  if o ∈ ptsOcc.1 ∧ o' ∈ ptsOcc.1 then
    lower (requiredBits ptsOcc.1.length / NATIVE_INT_SIZE) ptsOcc.2 existingDistance
  else existingDistance

end Matrix

-- ── The calls

theorem forall_mem_pairs {R : ℕ → ℕ → Prop} {l : List ℕ} :
    (∀ ij ∈ pairs l, R ij.1 ij.2) ↔ l.Pairwise R := by
  induction l with
  | nil => simp [pairs]
  | cons i l ih =>
    rw [pairs, forall_mem_append, ih, pairwise_cons, forall_mem_map]

theorem mem_pairs {l : List ℕ} (hl : l.Pairwise (· < ·)) {a b : ℕ} :
    (a, b) ∈ pairs l ↔ a ∈ l ∧ b ∈ l ∧ a < b := by
  induction l with
  | nil => simp [pairs]
  | cons i l ih =>
    obtain ⟨hi, hl⟩ := pairwise_cons.mp hl
    simp only [pairs, mem_append, mem_map, Prod.mk.injEq, ih hl, mem_cons]
    constructor
    · rintro (⟨j, hj, rfl, rfl⟩ | ⟨ha, hb, hlt⟩)
      · exact ⟨.inl rfl, .inr hj, hi j hj⟩
      · exact ⟨.inr ha, .inr hb, hlt⟩
    · rintro ⟨rfl | ha, rfl | hb, hlt⟩
      · exact absurd hlt (lt_irrefl _)
      · exact .inl ⟨b, hb, rfl, rfl⟩
      · exact absurd (hi a ha) (lt_asymm hlt)
      · exact .inr ⟨ha, hb, hlt⟩

theorem fst_mem_of_mem_pairs {l : List ℕ} {ij : ℕ × ℕ} (h : ij ∈ pairs l) : ij.1 ∈ l := by
  induction l with
  | nil => cases h
  | cons i l ih =>
    rcases mem_append.mp h with h | h
    · obtain ⟨j, -, rfl⟩ := mem_map.mp h
      exact mem_cons_self
    · exact mem_cons_of_mem i (ih h)

theorem pairs_nodup {l : List ℕ} (hl : l.Nodup) : (pairs l).Nodup := by
  induction l with
  | nil => exact nodup_nil
  | cons i l ih =>
    obtain ⟨hi, hl⟩ := nodup_cons.mp hl
    refine nodup_append'.mpr ⟨hl.map (Prod.mk_right_injective i), ih hl, fun p hp hp' => ?_⟩
    obtain ⟨j, -, rfl⟩ := mem_map.mp hp
    exact hi (fst_mem_of_mem_pairs hp')

-- ── The entries

/-- The place of the pair of the `a`-th and the `b`-th object of `m`. -/
def entry (m a b : ℕ) : ℕ := (condensedIndex (.ofNat m) (.ofNat a) (.ofNat b)).toNat

section Entries

variable {m : ℕ} (hm : m ≤ 4294967296)
include hm

theorem ofNat_pair {a b : ℕ} (hab : a < b) (hbm : b < m) :
    ((.ofNat a, .ofNat b) : UInt64 × UInt64) ∈
      {p : UInt64 × UInt64 | p.1 < p.2 ∧ p.2 < .ofNat m} := by
  refine ⟨UInt64.lt_iff_toNat_lt.mpr ?_, UInt64.lt_iff_toNat_lt.mpr ?_⟩
  · rwa [toNat_ofNat_of_le (by omega), toNat_ofNat_of_le (by omega)]
  · rwa [toNat_ofNat_of_le (by omega), toNat_ofNat_of_le hm]

theorem entry_lt {a b : ℕ} (hab : a < b) (hbm : b < m) : entry m a b < m.choose 2 := by
  have hbij := condensedIndex_bijOn (n := .ofNat m) ((toNat_ofNat_of_le hm).le.trans hm)
  rw [toNat_ofNat_of_le hm] at hbij
  have hlt : _ ∈ Set.Iio (m.choose 2) := hbij.mapsTo (ofNat_pair hm hab hbm)
  exact Set.mem_Iio.mp hlt

theorem entry_inj {a b a' b' : ℕ} (hab : a < b) (hbm : b < m) (hab' : a' < b') (hbm' : b' < m)
    (heq : entry m a b = entry m a' b') : a = a' ∧ b = b' := by
  have hbij := condensedIndex_bijOn (n := .ofNat m) ((toNat_ofNat_of_le hm).le.trans hm)
  have hpair := hbij.injOn (ofNat_pair hm hab hbm) (ofNat_pair hm hab' hbm') heq
  have hfst := congrArg (fun p : UInt64 × UInt64 => p.1.toNat) hpair
  have hsnd := congrArg (fun p : UInt64 × UInt64 => p.2.toNat) hpair
  simp only [toNat_ofNat_of_le (show a ≤ 4294967296 by omega),
    toNat_ofNat_of_le (show b ≤ 4294967296 by omega),
    toNat_ofNat_of_le (show a' ≤ 4294967296 by omega),
    toNat_ofNat_of_le (show b' ≤ 4294967296 by omega)] at hfst hsnd
  exact ⟨hfst, hsnd⟩

/-- The calls for one points-to set lower the entries of its pairs and no others. -/
theorem lowerDistances {D : Type} (lower : ℕ → ℕ → D → D) (distance occ : ℕ) :
    ∀ (ijs : List (ℕ × ℕ)) (distMatrix : List D),
    distMatrix.length = m.choose 2 → (∀ ij ∈ ijs, ij.1 < ij.2 ∧ ij.2 < m) → ijs.Nodup →
    ∃ distMatrix', ijs.foldlM (lowerDistance lower (.ofNat m) distance occ) distMatrix =
        some distMatrix' ∧ distMatrix'.length = m.choose 2 ∧
      ∀ a b, a < b → b < m → distMatrix'[entry m a b]? =
        if (a, b) ∈ ijs then distMatrix[entry m a b]?.map (lower distance occ)
        else distMatrix[entry m a b]? := by
  intro ijs
  induction ijs with
  | nil => exact fun distMatrix hlen _ _ => ⟨distMatrix, rfl, hlen, fun a b _ _ => by simp⟩
  | cons ij ijs ih =>
    intro distMatrix hlen hijs hnd
    obtain ⟨⟨hab, hbm⟩, hijs⟩ := forall_mem_cons.mp hijs
    obtain ⟨hnot, hnd⟩ := nodup_cons.mp hnd
    have hlt : entry m ij.1 ij.2 < distMatrix.length := hlen ▸ entry_lt hm hab hbm
    obtain ⟨distMatrix', hrun, hlen', hentries⟩ := ih
      (distMatrix.set (entry m ij.1 ij.2) (lower distance occ distMatrix[entry m ij.1 ij.2]))
      (by rw [length_set, hlen]) hijs hnd
    refine ⟨distMatrix', ?_, hlen', fun a b hab' hbm' => ?_⟩
    · rw [foldlM_cons, lowerDistance]
      show (distMatrix[entry m ij.1 ij.2]?.map _).bind _ = _
      rw [getElem?_eq_getElem hlt]
      exact hrun
    · rw [hentries a b hab' hbm']
      by_cases heq : (a, b) = ij
      · subst heq
        rw [if_neg hnot, if_pos mem_cons_self, getElem?_set_self hlt,
          getElem?_eq_getElem hlt]
        rfl
      · have hne : entry m ij.1 ij.2 ≠ entry m a b := fun h => heq (by
          obtain ⟨rfl, rfl⟩ := entry_inj hm hab hbm hab' hbm' h
          rfl)
        rw [getElem?_set_ne hne]
        simp only [mem_cons, heq, false_or]

end Entries

-- ── The objects of a region

section Region

variable {objs : List ℕ} (hobjs : objs.Pairwise (· < ·))
include hobjs

theorem idxOf_lt_iff {o o' : ℕ} (ho : o ∈ objs) (ho' : o' ∈ objs) :
    objs.idxOf o < objs.idxOf o' ↔ o < o' := by
  have hmono : ∀ {o o' : ℕ}, o ∈ objs → o' ∈ objs → objs.idxOf o < objs.idxOf o' → o < o' := by
    intro o o' ho ho' hlt
    have h := pairwise_iff_getElem.mp hobjs _ _ (idxOf_lt_length_of_mem ho)
      (idxOf_lt_length_of_mem ho') hlt
    rwa [getElem_idxOf, getElem_idxOf] at h
  refine ⟨hmono ho ho', fun hlt => ?_⟩
  rcases lt_trichotomy (objs.idxOf o) (objs.idxOf o') with h | h | h
  · exact h
  · exact absurd ((idxOf_inj ho).mp h) hlt.ne
  · exact absurd (hmono ho' ho h) (lt_asymm hlt)

omit hobjs in
theorem calls_eq {pts : List ℕ} (hpts : ∀ o ∈ pts, o ∈ objs) :
    calls objs.idxOf? pts = some (pairs (pts.map objs.idxOf)) := by
  have hidx : ∀ o ∈ pts, objs.idxOf? o = some (objs.idxOf o) := by
    intro o ho
    obtain ⟨i, hi⟩ := Option.isSome_iff_exists.mp (isSome_idxOf?.mpr (hpts o ho))
    rw [idxOf_eq_getD_idxOf?, hi, Option.getD_some]
  rw [calls, mapM_some pts hidx]
  rfl

/-- The calls for a points-to set are ordered exactly if its elements are. -/
theorem calls_ordered_iff {pts : List ℕ} (hpts : ∀ o ∈ pts, o ∈ objs) :
    (∀ ijs ∈ calls objs.idxOf? pts, ∀ ij ∈ ijs, ij.1 < ij.2 ∧ ij.2 < objs.length) ↔
      pts.Pairwise (· < ·) := by
  have hcalls := forall_mem_pairs (R := fun i j => i < j ∧ j < objs.length)
    (l := pts.map objs.idxOf)
  rw [pairwise_map] at hcalls
  rw [calls_eq hpts]
  constructor
  · intro h
    exact (hcalls.mp (h _ rfl)).imp_of_mem fun ho ho' hlt =>
      (idxOf_lt_iff hobjs (hpts _ ho) (hpts _ ho')).mp hlt.1
  · intro h ijs hijs
    cases hijs
    exact hcalls.mpr (h.imp_of_mem fun ho ho' hlt =>
      ⟨(idxOf_lt_iff hobjs (hpts _ ho) (hpts _ ho')).mpr hlt,
        idxOf_lt_length_of_mem (hpts _ ho')⟩)

omit hobjs in
theorem mem_map_idxOf {pts : List ℕ} {o : ℕ} (ho : o ∈ objs) :
    objs.idxOf o ∈ pts.map objs.idxOf ↔ o ∈ pts := by
  rw [mem_map]
  constructor
  · rintro ⟨x, hx, heq⟩
    exact (idxOf_inj ho).mp heq.symm ▸ hx
  · exact fun h => ⟨o, h, rfl⟩

/-- **The rounds of points-to sets** that are gone through in ascending order lower the entries
    of the pairs that they have. -/
theorem addDistances_spec {D : Type} (lower : ℕ → ℕ → D → D) (hm : objs.length ≤ 4294967296) :
    ∀ (pointsToSets : List (List ℕ × ℕ)) (distMatrix : List D) (d : ℕ → ℕ → D),
    (∀ p ∈ pointsToSets, (∀ o ∈ p.1, o ∈ objs) ∧ p.1.Pairwise (· < ·)) →
    distMatrix.length = objs.length.choose 2 →
    (∀ o ∈ objs, ∀ o' ∈ objs, o < o' →
      distMatrix[entry objs.length (objs.idxOf o) (objs.idxOf o')]? = some (d o o')) →
    ∃ distMatrix', pointsToSets.foldlM (addDistances lower (.ofNat objs.length) objs.idxOf?)
        distMatrix = some distMatrix' ∧ ∀ o ∈ objs, ∀ o' ∈ objs, o < o' →
      distMatrix'[entry objs.length (objs.idxOf o) (objs.idxOf o')]? =
        some (pointsToSets.foldl (lowered lower o o') (d o o')) := by
  intro pointsToSets
  induction pointsToSets with
  | nil => exact fun distMatrix d _ _ hd => ⟨distMatrix, rfl, hd⟩
  | cons p pointsToSets ih =>
    intro distMatrix d hsets hlen hd
    obtain ⟨⟨hsub, hasc⟩, hsets⟩ := forall_mem_cons.mp hsets
    have hcalls := (calls_ordered_iff hobjs hsub).mpr hasc
    rw [calls_eq hsub] at hcalls
    have hidx : (p.1.map objs.idxOf).Pairwise (· < ·) := pairwise_map.mpr
      (hasc.imp_of_mem fun ho ho' hlt => (idxOf_lt_iff hobjs (hsub _ ho) (hsub _ ho')).mpr hlt)
    obtain ⟨distMatrix₁, hrun1, hlen1, hentries⟩ := lowerDistances hm lower
      (requiredBits p.1.length / NATIVE_INT_SIZE) p.2 _ distMatrix hlen (hcalls _ rfl)
      (pairs_nodup (hidx.imp fun h => h.ne))
    obtain ⟨distMatrix', hrun, hd'⟩ := ih distMatrix₁ (fun o o' => lowered lower o o' (d o o') p)
      hsets hlen1 fun o ho o' ho' hlt => by
        rw [hentries _ _ ((idxOf_lt_iff hobjs ho ho').mpr hlt) (idxOf_lt_length_of_mem ho'),
          hd o ho o' ho' hlt, lowered]
        simp only [mem_pairs hidx, mem_map_idxOf ho, mem_map_idxOf ho', idxOf_lt_iff hobjs ho ho',
          hlt, and_true]
        split_ifs <;> rfl
    refine ⟨distMatrix', ?_, hd'⟩
    rw [foldlM_cons, addDistances, calls_eq hsub, Option.bind_some, hrun1]
    exact hrun

end Region

-- ── The matrix of a region

/-- **The condensed matrix** is indexed correctly: `condensedIndex` is a bijection and no
    subtraction in it goes below zero, as long as the products fit a `size_t`. For a region, each
    call is for a pair `i < j` exactly if the points-to sets are gone through in ascending order,
    and then every entry is the distance of its own pair of objects. -/
theorem getDistanceMatrix_indexed {D : Type} [NatCast D] (lower : ℕ → ℕ → D → D) :
    (∀ n : UInt64, n.toNat ≤ 4294967296 → (∀ i j, i < j → j < n → NoUnderflow n i j) ∧
      Set.BijOn (fun p : UInt64 × UInt64 => (condensedIndex n p.1 p.2).toNat)
        {p | p.1 < p.2 ∧ p.2 < n} (Set.Iio (n.toNat * (n.toNat - 1) / 2))) ∧
    ∀ (c : Clustering) (order : HashOrder) (labels : List ℕ) (numRegions region : ℕ)
      (occ : List ℕ → ℕ), Stops (c.objectsRegion order) (labels, numRegions) →
      let objs := c.regionsObjects labels region
      let pointsTos := c.regionsPointsTos labels region
      let pointsToSets := pointsTos.map fun pts => (pts, occ pts)
      ((∀ pts ∈ pointsTos, ∀ ijs ∈ calls objs.idxOf? pts, ∀ ij ∈ ijs,
          ij.1 < ij.2 ∧ ij.2 < objs.length) ↔ ∀ pts ∈ pointsTos, pts.Pairwise (· < ·)) ∧
      ((∀ pts ∈ pointsTos, pts.Pairwise (· < ·)) → ∃ distMatrix,
        getDistanceMatrix lower (.ofNat objs.length) objs.idxOf? pointsToSets = some distMatrix ∧
        ∀ a b o o', a < b → objs[a]? = some o → objs[b]? = some o' →
          distMatrix[entry objs.length a b]? = some (pointsToSets.foldl (lowered lower o o')
            ((UInt64.ofNat objs.length * .ofNat objs.length).toNat : D))) := by
  refine ⟨fun n hn => ⟨fun i j hij hjn => (condensedIndex_spec hn hij hjn).1, ?_⟩, ?_⟩
  · rw [← Nat.choose_two_right]
    exact condensedIndex_bijOn hn
  intro c order labels numRegions region occ hstops objs pointsTos pointsToSets
  obtain ⟨labels', hstops', hregions⟩ := c.objectsRegion_spec order
  cases hstops.unique hstops'
  have hsorted : objs.Pairwise (· < ·) := pairwise_lt_range.filter _
  have hlen : objs.length ≤ 4294967296 := by
    have hle : objs.length ≤ c.numObjects := c.length_regionsObjects_le labels region
    exact (hle.trans c.nodeID).trans (by decide)
  refine ⟨forall₂_congr fun pts hpts =>
    calls_ordered_iff hsorted (hregions.mem_of_pointsTo pts hpts), fun hasc => ?_⟩
  have hsets : ∀ p ∈ pointsToSets, (∀ o ∈ p.1, o ∈ objs) ∧ p.1.Pairwise (· < ·) := by
    intro p hp
    obtain ⟨pts, hpts, rfl⟩ := mem_map.mp hp
    exact ⟨hregions.mem_of_pointsTo pts hpts, hasc pts hpts⟩
  have hsize : (UInt64.ofNat objs.length * (.ofNat objs.length - 1) / 2).toNat =
      objs.length.choose 2 := by
    rcases Nat.eq_zero_or_pos objs.length with h0 | hpos
    · rw [h0]
      rfl
    · rw [toNat_triangle ((toNat_ofNat_of_le hlen).le.trans hlen), toNat_ofNat_of_le hlen]
      exact UInt64.le_iff_toNat_le.mpr ((toNat_ofNat_of_le hlen).symm ▸ hpos)
  obtain ⟨distMatrix, hrun, hentries⟩ := addDistances_spec hsorted lower hlen pointsToSets
    (List.replicate (objs.length.choose 2)
      ((UInt64.ofNat objs.length * .ofNat objs.length).toNat : D)) (fun _ _ => _) hsets
    length_replicate fun o ho o' ho' hlt =>
      getElem?_replicate_of_lt (entry_lt hlen ((idxOf_lt_iff hsorted ho ho').mpr hlt)
        (idxOf_lt_length_of_mem ho'))
  refine ⟨distMatrix, ?_, fun a b o o' hab ha hb => ?_⟩
  · rw [getDistanceMatrix, hsize]
    exact hrun
  · have hidx : ∀ {k x : ℕ}, objs[k]? = some x → x ∈ objs ∧ objs.idxOf x = k := by
      intro k x hk
      obtain ⟨hlt, rfl⟩ := List.getElem?_eq_some_iff.mp hk
      exact ⟨getElem_mem hlt, List.Nodup.idxOf_getElem (hsorted.imp fun h => h.ne) k hlt⟩
    obtain ⟨ho, rfl⟩ := hidx ha
    obtain ⟨ho', rfl⟩ := hidx hb
    exact hentries o ho o' ho' ((idxOf_lt_iff hsorted ho ho').mp hab)

/-- One region of 64 objects with one points-to set, as it is iterated. -/
def oneSet (pts : List ℕ) (h : ∀ o ∈ pts, o < 64) : Clustering where
  numObjects         := 64
  pointsTos          := [pts]
  regionedClustering := false
  regionAlign        := false
  clusterMethod      := .SINGLE
  evaluated          := false
  special            := oneRegion.special
  nodeID             := oneRegion.nodeID
  objects            := fun _ hp => mem_singleton.mp hp ▸ h

theorem getDistanceMatrix_indexed_oneSet : NoUnderflow 64 4 5 ∧ ∃ distMatrix : List ℕ,
    getDistanceMatrix (fun distance _ old => min distance old) 64
      ((oneSet [4, 5] (by decide)).regionsObjects (List.replicate 64 0) 0).idxOf? [([4, 5], 1)] =
        some distMatrix ∧ distMatrix[entry 64 4 5]? = some 1 := by
  obtain ⟨hindex, hmatrix⟩ := getDistanceMatrix_indexed fun distance _ (old : ℕ) => min distance old
  have hregion := hmatrix (oneSet [4, 5] (by decide)) insertionOrder (List.replicate 64 0) 1 0
    (fun _ => 1) ⟨0, fun _ _ => rfl⟩
  obtain ⟨distMatrix, hrun, hentries⟩ := hregion.2 (by decide)
  exact ⟨(hindex 64 (by decide)).1 4 5 (by decide) (by decide), distMatrix, hrun,
    hentries 4 5 4 5 (by decide) rfl rfl⟩

/-- A product that does not fit a `size_t` gives two pairs one index, and a set that is gone
    through in descending order makes a call for a pair `i > j`: that of 5 and 4 writes at the
    place of 4 and 62. -/
theorem descending_not_indexed :
    (¬ ∀ n : UInt64, Set.InjOn (fun p : UInt64 × UInt64 => (condensedIndex n p.1 p.2).toNat)
      {p | p.1 < p.2 ∧ p.2 < n}) ∧
    ¬ ∀ (c : Clustering) (order : HashOrder) (labels : List ℕ) (numRegions region : ℕ),
      Stops (c.objectsRegion order) (labels, numRegions) →
      ∀ pts ∈ c.regionsPointsTos labels region,
        ∀ ijs ∈ calls (c.regionsObjects labels region).idxOf? pts, ∀ ij ∈ ijs, ij.1 < ij.2 := by
  constructor
  · intro hall
    have hinj := @hall 4294967297 (0, 2147483648) (by decide) (4294967295, 4294967296) (by decide)
      (by decide)
    cases hinj
  · intro hall
    have hcall := hall (oneSet [5, 4] (by decide)) insertionOrder (List.replicate 64 0) 1 0
      ⟨0, fun _ _ => rfl⟩ [5, 4] (by decide) [(5, 4)] (by decide) (5, 4) (by decide)
    exact absurd hcall (by decide)

end SvfClusterer
