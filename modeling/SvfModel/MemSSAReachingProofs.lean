import SvfModel.MemSSARenameProofs

/-!
# Memory SSA: reaching definitions

What the three passes make together. The operations of the blocks do not touch each other's
fields and definitions (**`opsOwned`**), so the walk down the dominator tree serves all of them;
the phis and chis of a region are a `Placement` (**`placement`**), so what the tree leaves in
force at a block is the last definition met on any path to it. The main result is
**`buildMemSSA_reaching`**.
-/

namespace SvfMemSSA

open SvfScc SvfLoop SvfDominance SvfLoopAndDomInfo List Option

variable {B R : Type} [DecidableEq B] [DecidableEq R]

namespace MemSSA

/-- The definitions of a region in a block before its `i`-th statement. -/
def defsBefore (t : MemSSA B R) (r : R) (b : B) (i : Nat) : List (MSSADEF B R) :=
  (t.bb2PhiSetMap b ++ (List.range i).flatMap (t.chiSetMap b)).filter fun d => d.getMR = r

end MemSSA

namespace SVFFunction

section

variable (fn : SVFFunction B R)

/-- The definitions of a region in a block. -/
def defsIn (t : MemSSA B R) (r : R) (b : B) : List (MSSADEF B R) :=
  t.defsBefore r b (fn.stmts b).length

/-- The last definition of a region met on the blocks `q` and in the block `b` before its
    `i`-th statement: a chi, a phi or else the entry chi. -/
def reachingDef (t : MemSSA B R) (r : R) (q : List B) (b : B) (i : Nat) :
    MSSADEF B R :=
  (q.flatMap (fn.defsIn t r) ++ t.defsBefore r b i).getLastD (.entry r)

def musAt (t : MemSSA B R) (b : B) (i : Nat) : List (MSSAMU B R) :=
  match (fn.stmts b)[i]? with
  | some .ret => t.returnMuSet
  | _ => t.muSetMap b i

end

end SVFFunction

namespace MemSSA

/-- What the first two passes leave behind. -/
structure Ready (fn : SVFFunction B R) (s : MemSSA B R) : Prop where
  mus : ∀ b, fn.Reachable b → ∀ i,
    s.muSetMap b i = (fn.regsAt Stmt.muRegs b i).map (.stmt b i)
  chis : ∀ b, fn.Reachable b → ∀ i,
    s.chiSetMap b i = (fn.regsAt Stmt.chiRegs b i).map (.chi b i)
  used : ∀ r, r ∈ s.usedRegs ↔ ∃ b, fn.Reachable b ∧ ∃ i,
    r ∈ fn.regsAt Stmt.muRegs b i ∨ r ∈ fn.regsAt Stmt.chiRegs b i
  rets : s.returnMuSet = if fn.hasReturn then s.usedRegs.map .ret else []
  phis : ∀ b, ∀ d ∈ s.bb2PhiSetMap b, ∃ r ∈ s.usedRegs, d = .phi b r ∧ fn.Reachable b
  nodup : ∀ b, (s.bb2PhiSetMap b).Nodup
  closed : ∀ r ∈ s.usedRegs, ∀ b, fn.Reachable b →
    (∃ i, r ∈ fn.regsAt Stmt.chiRegs b i) ∨ .phi b r ∈ s.bb2PhiSetMap b →
    ∀ v, Frontier fn.Edge fn.entry b v → .phi v r ∈ s.bb2PhiSetMap v
  stack : ∀ r ∈ s.usedRegs, s.mr2VerStackMap r = some [entryVer 1 r, entryVer 0 r]
  count : ∀ r ∈ s.usedRegs, s.mr2CounterMap r = some 2
  ver : s.ver = enteredOps s.usedRegs fun _ => none
  resVer : s.resVer = enteredRes s.usedRegs fun _ => none

variable {fn : SVFFunction B R} {s t : MemSSA B R}

omit [DecidableEq B] in
theorem ready_of_passes (hfn : fn.WellFormed) (hc : Created fn s) (hp : PhisPlaced fn s t) :
    Ready fn t := by
  have hused : t.usedRegs = s.usedRegs := (congrArg MemSSA.usedRegs hp.rest).trans rfl
  constructor
  case mus =>
    intro b hb i
    rw [show t.muSetMap = s.muSetMap from (congrArg MemSSA.muSetMap hp.rest).trans rfl]
    exact hc.mus b ((hfn.reach_iff b).mpr hb) i
  case chis =>
    intro b hb i
    rw [show t.chiSetMap = s.chiSetMap from (congrArg MemSSA.chiSetMap hp.rest).trans rfl]
    exact hc.chis b ((hfn.reach_iff b).mpr hb) i
  case used =>
    intro r
    rw [hused, hc.used]
    simp only [hfn.reach_iff]
  case rets =>
    rw [hused, show t.returnMuSet = s.returnMuSet from
      (congrArg MemSSA.returnMuSet hp.rest).trans rfl]
    exact hc.rets
  case phis =>
    rw [hused]
    exact hp.phis
  case nodup => exact hp.nodup
  case closed =>
    rw [hused]
    intro r hr b hb hdef v hv
    refine hp.closed r hr b hb (hdef.imp_left fun hchi => ?_) v hv
    exact (hc.defs r b).mpr ⟨(hfn.reach_iff b).mpr hb, hchi⟩
  case stack =>
    rw [hused, show t.mr2VerStackMap = s.mr2VerStackMap from
      (congrArg MemSSA.mr2VerStackMap hp.rest).trans rfl]
    exact hc.stack
  case count =>
    rw [hused, show t.mr2CounterMap = s.mr2CounterMap from
      (congrArg MemSSA.mr2CounterMap hp.rest).trans rfl]
    exact hc.count
  case ver =>
    rw [hused, show t.ver = s.ver from (congrArg MemSSA.ver hp.rest).trans rfl]
    exact hc.ver
  case resVer =>
    rw [hused, show t.resVer = s.resVer from (congrArg MemSSA.resVer hp.rest).trans rfl]
    exact hc.resVer

-- ── Whose operations are whose

/-- The operations that the `i`-th statement of a block can have. -/
inductive StmtOp (fn : SVFFunction B R) (b : B) (i : Nat) : Op B R → Prop
  | mu (r : R) : StmtOp fn b i (.use (.mu (.stmt b i r)))
  | ret (r : R) (h : (fn.stmts b)[i]? = some Stmt.ret) : StmtOp fn b i (.use (.mu (.ret r)))
  | op (r : R) : StmtOp fn b i (.use (.op (.chi b i r)))
  | chi (r : R) : StmtOp fn b i (.defn (.chi b i r))

inductive BlockOp (fn : SVFFunction B R) (b : B) : Op B R → Prop
  | phi (r : R) : BlockOp fn b (.defn (.phi b r))
  | stmt {i : Nat} {op : Op B R} (h : StmtOp fn b i op) : BlockOp fn b op
  | phiOp (v : B) (r : R) (pos : Nat) (h : fn.getBBPredecessorPos b v = some pos) :
      BlockOp fn b (.use (.phiOp (.phi v r) pos))

variable {op : Op B R} {b : B} {i : Nat} {st : Stmt R} {inc : R → MSSADEF B R} {d : MSSADEF B R}
  {r : R}

omit [DecidableEq B] [DecidableEq R] in
theorem StmtOp.owner (hfn : fn.WellFormed) {a b : B} {i j : Nat} (ha : fn.Reachable a)
    (hb : fn.Reachable b) (h : StmtOp fn a i op) (h' : StmtOp fn b j op) :
    a = b ∧ i = j := by
  cases h with
  | mu r => cases h' with | mu => exact ⟨rfl, rfl⟩
  | ret r hret => cases h' with | ret _ hret' => exact hfn.ret_unique a b i j ha hb hret hret'
  | op r => cases h' with | op => exact ⟨rfl, rfl⟩
  | chi r => cases h' with | chi => exact ⟨rfl, rfl⟩

omit [DecidableEq R] in
theorem predecessor_of_pos {a v : B} {pos : Nat} (h : fn.getBBPredecessorPos a v = some pos) :
    (fn.preds v)[pos]? = some a := by
  obtain ⟨hlt, ha, -⟩ := findIdx?_eq_some_iff_getElem.mp h
  rw [getElem?_eq_getElem hlt, of_decide_eq_true ha]

omit [DecidableEq R] in
theorem BlockOp.owner (hfn : fn.WellFormed) {a b : B} (ha : fn.Reachable a) (hb : fn.Reachable b)
    (h : BlockOp fn a op) (h' : BlockOp fn b op) : a = b := by
  cases h with
  | phi r =>
    cases h' with
    | phi => rfl
    | stmt h' => cases h'
  | stmt h =>
    cases h' with
    | phi r => cases h
    | stmt h' => exact (h.owner hfn ha hb h').1
    | phiOp v r pos hpos => cases h
  | phiOp v r pos hpos =>
    cases h' with
    | stmt h' => cases h'
    | phiOp _ _ _ hpos' =>
      have heq := (predecessor_of_pos hpos).symm.trans (predecessor_of_pos hpos')
      exact some.inj heq

omit [DecidableEq B] [DecidableEq R] in
theorem regsAt_eq (f : Stmt R → List R) (h : (fn.stmts b)[i]? = some st)
    : fn.regsAt f b i = f st := by
  unfold SVFFunction.regsAt
  rw [h]
  rfl

omit [DecidableEq B] in
theorem stmtOp_of_mem (hs : Ready fn s) (hb : fn.Reachable b) (hst : (fn.stmts b)[i]? = some st)
    (h : op ∈ stmtOps s b (st, i)) :
    StmtOp fn b i op ∧ op.getMR ∈ s.usedRegs := by
  have hmu : op ∈ (s.muSetMap b i).map (fun mu => .use (.mu mu)) →
      StmtOp fn b i op ∧ op.getMR ∈ s.usedRegs := by
    intro h
    rw [hs.mus b hb, List.map_map] at h
    obtain ⟨r, hr, rfl⟩ := List.mem_map.mp h
    exact ⟨.mu r, (hs.used r).mpr ⟨b, hb, i, .inl hr⟩⟩
  have hchi : op ∈ (s.chiSetMap b i).flatMap (fun chi => [.use (.op chi), .defn chi]) →
      StmtOp fn b i op ∧ op.getMR ∈ s.usedRegs := by
    intro h
    rw [hs.chis b hb] at h
    obtain ⟨d, hd, hop⟩ := mem_flatMap.mp h
    obtain ⟨r, hr, rfl⟩ := mem_map.mp hd
    have hused := (hs.used r).mpr ⟨b, hb, i, .inr hr⟩
    rcases mem_cons.mp hop with rfl | hop
    · exact ⟨.op r, hused⟩
    · rw [mem_singleton.mp hop]
      exact ⟨.chi r, hused⟩
  cases st with
  | load _ => exact hmu h
  | store _ => exact hchi h
  | callSite _ _ => exact (mem_append.mp h).elim hmu hchi
  | ret =>
    obtain ⟨m, hm, rfl⟩ := mem_map.mp h
    rw [hs.rets] at hm
    by_cases hret : fn.hasReturn
    · rw [if_pos hret] at hm
      obtain ⟨r, hr, rfl⟩ := mem_map.mp hm
      exact ⟨.ret r hst, hr⟩
    · rw [if_neg hret] at hm
      cases hm

theorem blockOp_of_mem (hs : Ready fn s) (hb : fn.Reachable b) (h : op ∈ blockOps fn s b)
    : BlockOp fn b op ∧ op.getMR ∈ s.usedRegs := by
  unfold blockOps at h
  rcases mem_append.mp h with h | h
  · rcases mem_append.mp h with h | h
    · obtain ⟨d, hd, rfl⟩ := mem_map.mp h
      obtain ⟨r, hr, rfl, -⟩ := hs.phis b d hd
      exact ⟨.phi r, hr⟩
    · obtain ⟨⟨st, i⟩, hst, hop⟩ := mem_flatMap.mp h
      obtain ⟨hop, hr⟩ := stmtOp_of_mem hs hb (mem_zipIdx_iff_getElem?.mp hst) hop
      exact ⟨.stmt hop, hr⟩
  · obtain ⟨v, hv, hop⟩ := mem_flatMap.mp h
    unfold succOps at hop
    cases hpos : fn.getBBPredecessorPos b v with
    | none =>
      rw [hpos] at hop
      cases hop
    | some pos =>
      rw [hpos] at hop
      obtain ⟨d, hd, rfl⟩ := mem_map.mp hop
      obtain ⟨r, hr, rfl, -⟩ := hs.phis v d hd
      exact ⟨.phiOp v r pos hpos, hr⟩

-- ── The definitions of a block

omit [DecidableEq B] [DecidableEq R] in
theorem filterMap_uses {A : Type} (l : List A) (f : A → Slot B R) :
    (l.map fun a => Op.use (f a)).filterMap Op.def? = [] := by
  rw [filterMap_map]
  exact filterMap_eq_nil_iff.mpr fun _ _ => rfl

omit [DecidableEq B] [DecidableEq R] in
theorem filterMap_chis (l : List (MSSADEF B R)) :
    (l.flatMap fun chi => [Op.use (.op chi), .defn chi]).filterMap Op.def? = l := by
  rw [filterMap_flatMap]
  exact flatMap_singleton' l

omit [DecidableEq B] in
theorem filterMap_stmtOps (hs : Ready fn s) (hb : fn.Reachable b) (hst : (fn.stmts b)[i]? = some st)
    :
    (stmtOps s b (st, i)).filterMap Op.def? = s.chiSetMap b i := by
  have hnone : st.chiRegs = [] → s.chiSetMap b i = [] := by
    intro h
    rw [hs.chis b hb, regsAt_eq _ hst, h]
    rfl
  cases st with
  | load _ => exact (filterMap_uses _ _).trans (hnone rfl).symm
  | store _ => exact filterMap_chis _
  | callSite _ _ =>
    show List.filterMap Op.def? (_ ++ _) = _
    rw [filterMap_append, filterMap_uses, filterMap_chis, nil_append]
  | ret => exact (filterMap_uses _ _).trans (hnone rfl).symm

omit [DecidableEq B] in
theorem filterMap_take (hs : Ready fn s) (hb : fn.Reachable b) (n : Nat) :
    (((fn.stmts b).take n).zipIdx.flatMap (stmtOps s b)).filterMap Op.def? =
      (List.range ((fn.stmts b).take n).length).flatMap (s.chiSetMap b) := by
  have hat : ∀ st ∈ ((fn.stmts b).take n).zipIdx,
      (stmtOps s b st).filterMap Op.def? = s.chiSetMap b st.2 := by
    intro st hst
    have hget := mem_zipIdx_iff_getElem?.mp hst
    refine filterMap_stmtOps hs hb ?_
    rw [getElem?_take] at hget
    split at hget
    · exact hget
    · cases hget.symm
  rw [filterMap_flatMap, flatMap_congr hat, range_eq_range', ← zipIdx_map_snd, flatMap_map]

omit [DecidableEq R] in
theorem filterMap_succOps (b v : B) : (succOps fn s b v).filterMap Op.def? = [] := by
  unfold succOps
  cases fn.getBBPredecessorPos b v with
  | none => rfl
  | some pos => exact filterMap_uses _ _

theorem filterMap_blockOps (hs : Ready fn s) (hb : fn.Reachable b) :
    (blockOps fn s b).filterMap Op.def? =
      s.bb2PhiSetMap b ++ (List.range (fn.stmts b).length).flatMap (s.chiSetMap b) := by
  have hphis : ((s.bb2PhiSetMap b).map .defn).filterMap Op.def? = s.bb2PhiSetMap b := by
    rw [filterMap_map]
    exact filterMap_some
  have hstmts := filterMap_take hs hb (fn.stmts b).length
  rw [take_length] at hstmts
  have hsuccs : ((fn.succs b).flatMap (succOps fn s b)).filterMap Op.def? = [] := by
    rw [filterMap_flatMap]
    exact flatMap_eq_nil_iff.mpr fun v _ => filterMap_succOps b v
  unfold blockOps
  rw [filterMap_append, filterMap_append, hphis, hstmts, hsuccs, append_nil]

section

variable (hfn : fn.WellFormed) (hs : Ready fn s)
include hfn hs

omit [DecidableEq B] in
theorem chis_nodup (hb : fn.Reachable b) (n : Nat) :
    ((List.range n).flatMap (s.chiSetMap b)).Nodup := by
  rw [nodup_flatMap]
  constructor
  · intro i _
    rw [hs.chis b hb]
    refine (hfn.chis_nodup b i).map fun r r' he => ?_
    injection he
  · refine nodup_range.imp fun {i j} hij d hd hd' => hij ?_
    rw [hs.chis b hb] at hd hd'
    obtain ⟨r, -, rfl⟩ := mem_map.mp hd
    obtain ⟨r', -, he⟩ := mem_map.mp hd'
    injection he with _ hi _
    exact hi.symm

theorem defs_nodup (hb : fn.Reachable b) :
    ((blockOps fn s b).filterMap Op.def?).Nodup := by
  rw [filterMap_blockOps hs hb]
  refine (hs.nodup b).append (chis_nodup hfn hs hb _) fun d hd hd' => ?_
  obtain ⟨r, -, rfl, -⟩ := hs.phis b d hd
  obtain ⟨i, -, hi⟩ := mem_flatMap.mp hd'
  rw [hs.chis b hb] at hi
  obtain ⟨r', -, he⟩ := mem_map.mp hi
  cases he

/-- **The blocks do not touch each other's fields and definitions.** -/
theorem opsOwned : OpsOwned fn s := by
  constructor
  case used => exact fun b hb op hop => (blockOp_of_mem hs hb hop).2
  case pos =>
    intro b _ succ hsucc
    have hmem : b ∈ fn.preds succ := (hfn.preds_iff b succ).mpr hsucc
    unfold SVFFunction.getBBPredecessorPos
    rw [findIdx?_isSome]
    exact any_eq_true.mpr ⟨b, hmem, decide_eq_true rfl⟩
  case nodup => exact fun b hb => defs_nodup hfn hs hb
  case useOwner =>
    exact fun a b slot ha hb h h' =>
      (blockOp_of_mem hs ha h).1.owner hfn ha hb (blockOp_of_mem hs hb h').1
  case defOwner =>
    exact fun a b d ha hb h h' =>
      (blockOp_of_mem hs ha h).1.owner hfn ha hb (blockOp_of_mem hs hb h').1

end

-- ── The definition in force at a field

omit [DecidableEq B] in
theorem flows_eq (l : List (Op B R)) (r : R) : ∀ inc : R → MSSADEF B R,
    flows inc l r = ((l.filterMap Op.def?).filter fun d => d.getMR = r).getLastD (inc r) := by
  induction l with
  | nil => exact fun _ => rfl
  | cons op l ih =>
    intro inc
    show flows (flow inc op) l r = _
    rw [ih]
    cases op with
    | use slot => rfl
    | defn d =>
      show List.getLastD _ (Function.update inc d.getMR d r) =
        ((d :: l.filterMap Op.def?).filter fun d => d.getMR = r).getLastD (inc r)
      by_cases hr : d.getMR = r
      · subst hr
        rw [Function.update_self, filter_cons, if_pos (decide_eq_true rfl), getLastD_cons]
      · rw [Function.update_of_ne (Ne.symm hr), filter_cons, if_neg]
        rw [decide_eq_true_eq]
        exact hr

omit [DecidableEq B] [DecidableEq R] in
theorem exists_last_use {l : List (Op B R)} {slot : Slot B R} (h : .use slot ∈ l) :
    ∃ l1 l2, l = l1 ++ .use slot :: l2 ∧ .use slot ∉ l2 := by
  obtain ⟨l1, l2, hl, hlast⟩ := eq_append_cons_of_mem (mem_reverse.mpr h)
  refine ⟨l2.reverse, l1.reverse, ?_, fun hmem => hlast (mem_reverse.mp hmem)⟩
  have hrev := congrArg List.reverse hl
  rw [reverse_reverse, reverse_append, reverse_cons, append_assoc] at hrev
  exact hrev

omit [DecidableEq B] in
theorem stmtOps_pairwise (hfn : fn.WellFormed) (hs : Ready fn s) (hb : fn.Reachable b) (st : Stmt R)
    (i : Nat) :
    (stmtOps s b (st, i)).Pairwise fun op op' =>
      ∀ d slot, op = .defn d → op' = .use slot → d.getMR ≠ slot.getMR := by
  have hmus : ∀ l : List (MSSAMU B R), (l.map fun mu => Op.use (.mu mu)).Pairwise
      fun op op' => ∀ d slot, op = .defn d → op' = .use slot → d.getMR ≠ slot.getMR := by
    intro l
    refine pairwise_map.mpr (pairwise_of_forall fun _ _ => ?_)
    intro d slot he
    cases he
  have hchis : ((s.chiSetMap b i).flatMap fun chi => [Op.use (.op chi), .defn chi]).Pairwise
      fun op op' => ∀ d slot, op = .defn d → op' = .use slot → d.getMR ≠ slot.getMR := by
    refine pairwise_flatMap.mpr ⟨fun chi _ => ?_, ?_⟩
    · refine pairwise_pair.mpr fun d slot he => ?_
      cases he
    · rw [hs.chis b hb]
      refine pairwise_map.mpr ((hfn.chis_nodup b i).imp fun {r r'} hne => ?_)
      intro op hop op' hop' d slot hd hslot
      subst hd hslot
      have hd : d = .chi b i r := by
        rcases mem_cons.mp hop with he | hop
        · cases he
        · exact Op.defn.inj (mem_singleton.mp hop)
      have hslot : slot = .op (.chi b i r') := by
        rcases mem_cons.mp hop' with he | hop'
        · exact Op.use.inj he
        · cases mem_singleton.mp hop'
      subst hd hslot
      exact hne
  cases st with
  | load _ => exact hmus _
  | store _ => exact hchis
  | callSite _ _ =>
    refine pairwise_append.mpr ⟨hmus _, hchis, fun op hop op' _ d slot hd => ?_⟩
    obtain ⟨mu, -, rfl⟩ := mem_map.mp hop
    cases hd
  | ret => exact hmus _

/-- **A field of a statement** gets the version of the last definition in the block before the
    statement, or else of the one that came in. -/
theorem served_stmt (hfn : fn.WellFormed) (hs : Ready fn s) (hb : fn.Reachable b)
    (hst : (fn.stmts b)[i]? = some st) {slot : Slot B R} (h : .use slot ∈ stmtOps s b (st, i))
    {t : MemSSA B R} (ht : Served (blockOps fn s b) inc t) :
    ∃ v, t.ver slot = some v ∧
      t.resVer ((s.defsBefore slot.getMR b i).getLastD (inc slot.getMR)) = some v := by
  obtain ⟨hlt, hget⟩ := List.getElem?_eq_some_iff.mp hst
  obtain ⟨x, y, hxy, hy⟩ := exists_last_use h
  have hsplit : (fn.stmts b).zipIdx = ((fn.stmts b).take i).zipIdx ++
      (st, i) :: ((fn.stmts b).drop (i + 1)).zipIdx (i + 1) := by
    have hlist : fn.stmts b = (fn.stmts b).take i ++ st :: (fn.stmts b).drop (i + 1) := by
      rw [← hget, getElem_cons_drop, take_append_drop]
    have hlen : ((fn.stmts b).take i).length = i := length_take_of_le hlt.le
    conv_lhs => rw [hlist]
    rw [zipIdx_append, zipIdx_cons, hlen, Nat.zero_add]
  -- no later statement and no phi has this field
  have hlater : .use slot ∉ (((fn.stmts b).drop (i + 1)).zipIdx (i + 1)).flatMap (stmtOps s b) := by
    intro hmem
    obtain ⟨⟨st', j⟩, hst', hop⟩ := mem_flatMap.mp hmem
    obtain ⟨hle, hget'⟩ := mk_mem_zipIdx_iff_le_and_getElem?_sub.mp hst'
    rw [getElem?_drop, Nat.add_sub_cancel' hle] at hget'
    have howner := (stmtOp_of_mem hs hb hst h).1.owner hfn hb hb (stmtOp_of_mem hs hb hget' hop).1
    exact absurd howner.2 (Nat.ne_of_lt hle)
  have hsuccs : .use slot ∉ (fn.succs b).flatMap (succOps fn s b) := by
    intro hmem
    obtain ⟨v, -, hop⟩ := mem_flatMap.mp hmem
    have hstmt := (stmtOp_of_mem hs hb hst h).1
    unfold succOps at hop
    split at hop
    · cases hop
    · obtain ⟨d, -, he⟩ := mem_map.mp hop
      rw [← Op.use.inj he] at hstmt
      cases hstmt
  have hops : blockOps fn s b =
      ((s.bb2PhiSetMap b).map .defn ++ ((fn.stmts b).take i).zipIdx.flatMap (stmtOps s b) ++ x) ++
        .use slot :: (y ++ (((fn.stmts b).drop (i + 1)).zipIdx (i + 1)).flatMap (stmtOps s b) ++
          (fn.succs b).flatMap (succOps fn s b)) := by
    unfold blockOps
    rw [hsplit, flatMap_append, flatMap_cons, hxy]
    simp only [append_assoc, cons_append]
  obtain ⟨v, hv, hd⟩ := ht _ slot _ hops (by
    simp only [mem_append, not_or]
    exact ⟨⟨hy, hlater⟩, hsuccs⟩)
  refine ⟨v, hv, ?_⟩
  -- before the field in its statement there are definitions of other regions only
  have hx : (x.filterMap Op.def?).filter (fun d => d.getMR = slot.getMR) = [] := by
    have hpair := stmtOps_pairwise hfn hs hb st i
    rw [hxy, pairwise_append] at hpair
    refine filter_eq_nil_iff.mpr fun d hd => ?_
    obtain ⟨op, hop, hd⟩ := mem_filterMap.mp hd
    rw [decide_eq_true_eq]
    cases op with
    | use slot => cases hd
    | defn d' =>
      rw [← some.inj hd]
      exact hpair.2.2 _ hop _ mem_cons_self d' slot rfl rfl
  have hphis : ((s.bb2PhiSetMap b).map .defn).filterMap Op.def? = s.bb2PhiSetMap b := by
    rw [filterMap_map]
    exact filterMap_some
  rw [flows_eq, filterMap_append, filterMap_append, hphis, filterMap_take hs hb,
    filter_append, hx, append_nil, length_take_of_le hlt.le] at hd
  exact hd

/-- **A phi operand** gets the version of the last definition in the predecessor, or else of
    the one that came in. -/
theorem served_phi (hs : Ready fn s) {u : B} (hu : fn.Reachable u) {v : B} (hv : v ∈ fn.succs u)
    (hd : d ∈ s.bb2PhiSetMap v) {pos : Nat} (hpos : fn.getBBPredecessorPos u v = some pos)
    {t : MemSSA B R} (ht : Served (blockOps fn s u) inc t) :
    ∃ w, t.ver (.phiOp d pos) = some w ∧
      t.resVer ((fn.defsIn s d.getMR u).getLastD (inc d.getMR)) = some w := by
  have hmem : .use (.phiOp d pos) ∈ (fn.succs u).flatMap (succOps fn s u) := by
    refine mem_flatMap.mpr ⟨v, hv, ?_⟩
    unfold succOps
    rw [hpos]
    exact mem_map_of_mem hd
  obtain ⟨x, y, hxy, hy⟩ := exists_last_use hmem
  have hops : blockOps fn s u = ((s.bb2PhiSetMap u).map .defn ++
      (fn.stmts u).zipIdx.flatMap (stmtOps s u) ++ x) ++ .use (.phiOp d pos) :: y := by
    unfold blockOps
    rw [hxy, append_assoc]
    simp only [append_assoc]
  obtain ⟨w, hw, hres⟩ := ht _ _ y hops hy
  refine ⟨w, hw, ?_⟩
  have hdefs := filterMap_blockOps hs hu
  rw [hops, filterMap_append] at hdefs
  have hrest : (.use (.phiOp d pos) :: y).filterMap Op.def? = [] := by
    refine filterMap_eq_nil_iff.mpr fun op hop => ?_
    have hin : op ∈ (fn.succs u).flatMap (succOps fn s u) := hxy ▸ mem_append_right x hop
    obtain ⟨v', -, hop'⟩ := mem_flatMap.mp hin
    exact filterMap_eq_nil_iff.mp (filterMap_succOps u v') op hop'
  rw [hrest, append_nil] at hdefs
  rw [flows_eq, hdefs] at hres
  exact hres

-- ── The tree and the paths

omit [DecidableEq B] in
theorem def_of_mem_defsIn (hs : Ready fn s) (hb : fn.Reachable b) (h : d ∈ fn.defsIn s r b) :
    (∃ i, r ∈ fn.regsAt Stmt.chiRegs b i) ∨ .phi b r ∈ s.bb2PhiSetMap b := by
  obtain ⟨hd, hdec⟩ := mem_filter.mp h
  obtain rfl := of_decide_eq_true hdec
  rcases mem_append.mp hd with hd | hd
  · obtain ⟨r, -, rfl, -⟩ := hs.phis b d hd
    exact .inr hd
  · obtain ⟨i, -, hd⟩ := mem_flatMap.mp hd
    rw [hs.chis b hb] at hd
    obtain ⟨r, hr, rfl⟩ := mem_map.mp hd
    exact .inl ⟨i, hr⟩

omit [DecidableEq B] in
theorem defsBefore_ne_nil (h : .phi b r ∈ s.bb2PhiSetMap b) (i : Nat) : s.defsBefore r b i ≠ [] :=
  ne_nil_of_mem (mem_filter.mpr ⟨mem_append_left _ h, decide_eq_true rfl⟩)

/-- **The phis and chis of a used region**, as definitions on the graph of the function. -/
def placement (hfn : fn.WellFormed) (hs : Ready fn s) {r : R} (hr : r ∈ s.usedRegs) :
    Placement fn.Edge fn.entry (MSSADEF B R) where
  tree := hfn.tree
  node := hfn.node
  ancestor := hfn.ancestor
  phi b := .phi b r ∈ s.bb2PhiSetMap b
  last b := (fn.defsIn s r b).getLast?
  phi_last := by
    intro b h hlast
    exact defsBefore_ne_nil h _ (getLast?_eq_none_iff.mp hlast)
  frontier := by
    intro w v hw hlast hv
    obtain ⟨d, hd⟩ := exists_mem_of_ne_nil _ (mt getLast?_eq_none_iff.mpr hlast)
    exact hs.closed r hr w hw (def_of_mem_defsIn hs hw hd) v hv

omit [DecidableEq B] in
theorem met_placement (hfn : fn.WellFormed) (hs : Ready fn s) (hr : r ∈ s.usedRegs)
    (init : MSSADEF B R) (q : List B) :
    (placement hfn hs hr).met init q = (q.flatMap (fn.defsIn s r)).getLastD init := by
  induction q using List.reverseRecOn with
  | nil => rfl
  | append_singleton q b ih =>
    rw [Placement.met_concat, ih, flatMap_append, getLastD_eq_getLast?,
      getLastD_eq_getLast?, getLast?_append, flatMap_singleton]
    show ((fn.defsIn s r b).getLast?).getD _ = _
    cases (fn.defsIn s r b).getLast? with
    | none => rfl
    | some d => rfl

theorem in_of_flowTo (hfn : fn.WellFormed) (hs : Ready fn s) (hr : r ∈ s.usedRegs) {a c : B}
    {inc inc' : R → MSSADEF B R} (h : FlowTo hfn.tree (blockOps fn s) a inc c inc')
    (ha : fn.Reachable a) {init : MSSADEF B R} (hin : (placement hfn hs hr).In init a (inc r)) :
    (placement hfn hs hr).In init c (inc' r) := by
  induction h with
  | refl => exact hin
  | @step a b c inc inc' hc _ ih =>
    have hend : flows inc (blockOps fn s a) r = ((fn.defsIn s r a).getLast?).getD (inc r) := by
      rw [flows_eq, filterMap_blockOps hs ha, getLastD_eq_getLast?]
      rfl
    have hout : (placement hfn hs hr).Out init a (flows inc (blockOps fn s a) r) := by
      rw [hend]
      cases hlast : (fn.defsIn s r a).getLast? with
      | some d => exact .inl hlast
      | none => exact .inr ⟨hlast, hin⟩
    exact ih (reachable_below hfn ha (.single hc)) (hout.child hc)

omit [DecidableEq B] in
theorem exists_flowTo {tree : DomTree B} (ops : B → List (Op B R)) {a c : B}
    (h : Reach tree.Child a c) : ∀ inc, ∃ inc', FlowTo tree ops a inc c inc' := by
  induction h using Relation.ReflTransGen.head_induction_on with
  | refl => exact fun inc => ⟨inc, .refl c inc⟩
  | head hc _ ih =>
    intro inc
    obtain ⟨inc', h⟩ := ih (flows inc (ops _))
    exact ⟨inc', .step hc h⟩

/-- **The last definition met on a path** is the one in force along the tree. -/
theorem reachingDef_eq (hfn : fn.WellFormed) (hs : Ready fn s) (hr : r ∈ s.usedRegs) {q : List B}
    (hq : Walk fn.Edge fn.entry b (q ++ [b]))
    (hflow : FlowTo hfn.tree (blockOps fn s) fn.entry .entry b inc) (i : Nat) :
    (s.defsBefore r b i).getLastD (inc r) = fn.reachingDef s r q b i := by
  have hentry : (placement hfn hs hr).In (.entry r) fn.entry (.entry r) := .entry
  have hin := in_of_flowTo hfn hs hr hflow .refl hentry
  unfold SVFFunction.reachingDef
  rw [getLastD_eq_getLast?, getLastD_eq_getLast?, getLast?_append]
  cases hlast : (s.defsBefore r b i).getLast? with
  | some d => rfl
  | none =>
    have hphi : ¬ (placement hfn hs hr).phi b := fun h =>
      defsBefore_ne_nil h i (getLast?_eq_none_iff.mp hlast)
    have hmet : (placement hfn hs hr).In (.entry r) b ((placement hfn hs hr).met (.entry r) q) :=
      Placement.met_of_walk q b hq hphi
    rw [met_placement] at hmet
    show inc r = ((q.flatMap (fn.defsIn s r)).getLast?).getD (.entry r)
    rw [← getLastD_eq_getLast?]
    exact hin.unique hmet

-- ── The whole of it

/-- A definition has a version: as its result, or as the operand of an entry chi, whose versions
    0 and 1 are both made for it. -/
def Defines (t : MemSSA B R) (d : MSSADEF B R) (v : MRVer B R) : Prop :=
  t.resVer d = some v ∨ ∃ r, d = .entry r ∧ t.ver (.op d) = some v

/-- Memory SSA of a function: the mus and chis are where the statements ask for them; every
    field at a statement has, whatever path leads there, the version of the last definition met
    on the path, and every phi has for each reachable predecessor the one met on any path
    through it; a version has one definition and the stacks hold the entry versions. -/
structure ReachingSSA (fn : SVFFunction B R) (t : MemSSA B R) : Prop where
  muSets : ∀ b, fn.Reachable b → ∀ i,
    t.muSetMap b i = (fn.regsAt Stmt.muRegs b i).map (.stmt b i)
  chiSets : ∀ b, fn.Reachable b → ∀ i,
    t.chiSetMap b i = (fn.regsAt Stmt.chiRegs b i).map (.chi b i)
  retSet : t.returnMuSet = if fn.hasReturn then t.usedRegs.map .ret else []
  used : ∀ r, r ∈ t.usedRegs ↔ ∃ b, fn.Reachable b ∧ ∃ i,
    r ∈ fn.regsAt Stmt.muRegs b i ∨ r ∈ fn.regsAt Stmt.chiRegs b i
  mus : ∀ b i, ∀ m ∈ fn.musAt t b i, ∀ q, Walk fn.Edge fn.entry b (q ++ [b]) →
    ∃ v, t.ver (.mu m) = some v ∧ t.resVer (fn.reachingDef t m.getMR q b i) = some v
  ops : ∀ b i, ∀ d ∈ t.chiSetMap b i, ∀ q, Walk fn.Edge fn.entry b (q ++ [b]) →
    ∃ v, t.ver (.op d) = some v ∧ t.resVer (fn.reachingDef t d.getMR q b i) = some v
  phiOps : ∀ b, ∀ d ∈ t.bb2PhiSetMap b, ∀ u ∈ fn.preds b, ∀ q,
    Walk fn.Edge fn.entry u (q ++ [u]) → ∃ pos v, fn.getBBPredecessorPos u b = some pos ∧
      t.ver (.phiOp d pos) = some v ∧
      t.resVer (fn.reachingDef t d.getMR q u (fn.stmts u).length) = some v
  made : ∀ b, fn.Reachable b →
    (∀ d ∈ t.bb2PhiSetMap b, t.resVer d ≠ none) ∧ ∀ i, ∀ d ∈ t.chiSetMap b i, t.resVer d ≠ none
  one : ∀ slot v, t.ver slot = some v → ∃! d, t.Defines d v
  numbers : ∀ d d' v v', t.Defines d v → t.Defines d' v' → v.mr = v'.mr →
    v.version = v'.version → v = v'
  stack : ∀ r ∈ t.usedRegs, t.mr2VerStackMap r = some [entryVer 1 r, entryVer 0 r]

section

omit [DecidableEq B]

section

variable (hs : Ready fn s)
include hs

theorem use_of_musAt (hb : fn.Reachable b) {m : MSSAMU B R}
    (h : m ∈ fn.musAt s b i) :
    ∃ st, (fn.stmts b)[i]? = some st ∧ .use (.mu m) ∈ stmtOps s b (st, i) := by
  unfold SVFFunction.musAt at h
  cases hst : (fn.stmts b)[i]? with
  | none =>
    rw [hst] at h
    have h : m ∈ s.muSetMap b i := h
    rw [hs.mus b hb, SVFFunction.regsAt, hst] at h
    cases h
  | some st =>
    refine ⟨st, rfl, ?_⟩
    rw [hst] at h
    cases st with
    | load _ => exact mem_map_of_mem h
    | store _ =>
      have h : m ∈ s.muSetMap b i := h
      rw [hs.mus b hb, SVFFunction.regsAt, hst] at h
      cases h
    | callSite _ _ => exact mem_append_left _ (mem_map_of_mem h)
    | ret => exact mem_map_of_mem h

theorem ops_of_chis (hb : fn.Reachable b) (h : d ∈ s.chiSetMap b i) :
    ∃ st, (fn.stmts b)[i]? = some st ∧ .use (.op d) ∈ stmtOps s b (st, i) ∧
      .defn d ∈ stmtOps s b (st, i) := by
  have hchi : .use (.op d) ∈ (s.chiSetMap b i).flatMap (fun chi => [Op.use (.op chi), .defn chi]) ∧
      .defn d ∈ (s.chiSetMap b i).flatMap (fun chi => [Op.use (.op chi), .defn chi]) :=
    ⟨mem_flatMap.mpr ⟨d, h, mem_cons_self⟩, mem_flatMap.mpr ⟨d, h, mem_cons_of_mem _ mem_cons_self⟩⟩
  cases hst : (fn.stmts b)[i]? with
  | none =>
    rw [hs.chis b hb, SVFFunction.regsAt, hst] at h
    cases h
  | some st =>
    refine ⟨st, rfl, ?_⟩
    cases st with
    | load _ =>
      rw [hs.chis b hb, SVFFunction.regsAt, hst] at h
      cases h
    | store _ => exact hchi
    | callSite _ _ => exact ⟨mem_append_right _ hchi.1, mem_append_right _ hchi.2⟩
    | ret =>
      rw [hs.chis b hb, SVFFunction.regsAt, hst] at h
      cases h

theorem resVer_ready {v : MRVer B R} (h : s.resVer d = some v)
    : ∃ r ∈ s.usedRegs, d = .entry r ∧ v = entryVer 1 r := by
  rw [hs.resVer] at h
  cases d with
  | chi b i r => cases h
  | phi b r => cases h
  | entry r =>
    rw [enteredRes] at h
    by_cases hr : r ∈ s.usedRegs
    · rw [if_pos hr] at h
      exact ⟨r, hr, rfl, (some.inj h).symm⟩
    · rw [if_neg hr] at h
      cases h

theorem resVer_entry (hr : r ∈ s.usedRegs) :
    s.resVer (.entry r) = some (entryVer 1 r) := by
  rw [hs.resVer, enteredRes, if_pos hr]

theorem named_ready : Named s := by
  constructor
  case made =>
    intro d v hv
    obtain ⟨r, hr, rfl, rfl⟩ := resVer_ready hs hv
    exact ⟨rfl, rfl, Nat.one_pos, 2, hs.count r hr, Nat.lt_succ_self 1⟩
  case distinct =>
    intro d d' v v' hv hv' hmr _
    obtain ⟨r, -, rfl, rfl⟩ := resVer_ready hs hv
    obtain ⟨r', -, rfl, rfl⟩ := resVer_ready hs hv'
    exact congrArg MSSADEF.entry hmr
  case count => exact fun r hr => ⟨2, hs.count r hr, Nat.two_pos⟩

end

end

/-- **`SSARename`** after the first two passes. -/
theorem SSARename_spec (hfn : fn.WellFormed) (hs : Ready fn s) :
    ∃ t, Stops (fun fuel => SSARename fn fuel s) t ∧
      Walked hfn.tree (blockOps fn s) fn.entry .entry s t := by
  have hdepth : ∀ b, fn.Reachable b →
      hfn.tree.level b ≤ fn.blocks.toFinset.sup hfn.tree.level := fun b hb =>
    Finset.le_sup (mem_toFinset.mpr hb.mem_blocks)
  refine SSARenameBB_spec hfn (opsOwned hfn hs) hdepth _ fn.entry .refl
    (Nat.lt_add_left _ (Nat.lt_succ_self _)) s .entry (SameSets.refl s) (fun r hr => ?_)
    (named_ready hs) fun d hd => ?_
  · exact ⟨_, _, hs.stack r hr, resVer_entry hs hr⟩
  · obtain ⟨c, hc, hop⟩ := hd
    have hc := reachable_below hfn .refl hc
    by_contra hne
    obtain ⟨v, hv⟩ := ne_none_iff_exists'.mp hne
    obtain ⟨r, -, rfl, -⟩ := resVer_ready hs hv
    rcases (blockOp_of_mem hs hc hop).1 with _ | h
    cases h

section

variable {hfn : fn.WellFormed}

section

variable (hs : Ready fn s)
include hs

section

variable (h : Walked hfn.tree (blockOps fn s) fn.entry .entry s t)
include h

theorem ver_entry {r : R} {v : MRVer B R} (hv : t.ver (.op (.entry r)) = some v) :
    v = entryVer 0 r := by
  rw [h.verOut (.op (.entry r)) fun ⟨c, hc, hop⟩ => ?_, hs.ver, enteredOps] at hv
  · by_cases hr : r ∈ s.usedRegs
    · rw [if_pos hr] at hv
      exact (some.inj hv).symm
    · rw [if_neg hr] at hv
      cases hv
  · rcases (blockOp_of_mem hs (reachable_below hfn .refl hc) hop).1 with _ | h
    cases h

theorem Defines.eq {d : MSSADEF B R} {v : MRVer B R} (hd : t.Defines d v) : d = v.defn := by
  rcases hd with hv | ⟨r, rfl, hv⟩
  · exact (h.named.made d v hv).1.symm
  · rw [ver_entry hs h hv]
    rfl

theorem exists_defines {slot : Slot B R} {v : MRVer B R} (hv : t.ver slot = some v) :
    ∃ d, t.Defines d v := by
  by_cases hslot : Below hfn.tree (blockOps fn s) fn.entry (.use slot)
  · obtain ⟨c, hc, hop⟩ := hslot
    obtain ⟨inc, hflow⟩ := exists_flowTo (blockOps fn s) hc .entry
    obtain ⟨l1, l2, hl, hlast⟩ := exists_last_use hop
    obtain ⟨w, hw, hd⟩ := h.served c inc hflow l1 slot l2 hl hlast
    rw [hv] at hw
    rw [some.inj hw]
    exact ⟨_, .inl hd⟩
  · have hold := h.verOut slot hslot
    rw [hv, hs.ver] at hold
    rcases slot with m | (_ | r | _) | _
    · cases hold
    · cases hold
    · exact ⟨.entry r, .inr ⟨r, rfl, hv⟩⟩
    · cases hold
    · cases hold

/-- **The walk gives every field its reaching definition.** -/
theorem reachingSSA_of_walked : ReachingSSA fn t := by
  have hdefs : ∀ r q b i, fn.reachingDef t r q b i = fn.reachingDef s r q b i := by
    intro r q b i
    unfold SVFFunction.reachingDef SVFFunction.defsIn defsBefore
    rw [h.sets.eq_phis, h.sets.eq_chis]
  have above : ∀ b, fn.Reachable b → Reach hfn.tree.Child fn.entry b := fun b hb =>
    (hfn.ancestor fn.entry b .refl hb).mpr fun _ hp => hp.first_mem
  have reachable : ∀ {b p}, Walk fn.Edge fn.entry b p → fn.Reachable b := fun hq =>
    hq.reach_mem _ hq.last_mem
  -- the fields of a statement
  have hstmt : ∀ b i st slot q, Walk fn.Edge fn.entry b (q ++ [b]) →
      (fn.stmts b)[i]? = some st → .use slot ∈ stmtOps s b (st, i) →
      ∃ v, t.ver slot = some v ∧ t.resVer (fn.reachingDef t slot.getMR q b i) = some v := by
    intro b i st slot q hq hst hop
    have hb := reachable hq
    obtain ⟨inc, hflow⟩ := exists_flowTo (blockOps fn s) (above b hb) .entry
    obtain ⟨v, hv, hd⟩ := served_stmt hfn hs hb hst hop (h.served b inc hflow)
    have hr : slot.getMR ∈ s.usedRegs := (stmtOp_of_mem hs hb hst hop).2
    refine ⟨v, hv, ?_⟩
    rw [hdefs, ← reachingDef_eq hfn hs hr hq hflow i]
    exact hd
  constructor
  case muSets =>
    rw [h.sets.eq_mus]
    exact hs.mus
  case chiSets =>
    rw [h.sets.eq_chis]
    exact hs.chis
  case retSet =>
    rw [h.sets.eq_rets, h.sets.eq_used]
    exact hs.rets
  case used =>
    rw [h.sets.eq_used]
    exact hs.used
  case mus =>
    intro b i m hm q hq
    have hm : m ∈ fn.musAt s b i := by
      unfold SVFFunction.musAt at hm ⊢
      rw [h.sets.eq_mus, h.sets.eq_rets] at hm
      exact hm
    obtain ⟨st, hst, hop⟩ := use_of_musAt hs (reachable hq) hm
    exact hstmt b i st (.mu m) q hq hst hop
  case ops =>
    intro b i d hd q hq
    rw [h.sets.eq_chis] at hd
    obtain ⟨st, hst, hop, -⟩ := ops_of_chis hs (reachable hq) hd
    exact hstmt b i st (.op d) q hq hst hop
  case phiOps =>
    intro b d hd u hub q hq
    rw [h.sets.eq_phis] at hd
    have hu := reachable hq
    have hb : b ∈ fn.succs u := (hfn.preds_iff u b).mp hub
    obtain ⟨pos, hpos⟩ := isSome_iff_exists.mp ((opsOwned hfn hs).pos u hu b hb)
    obtain ⟨inc, hflow⟩ := exists_flowTo (blockOps fn s) (above u hu) .entry
    obtain ⟨v, hv, hres⟩ := served_phi hs hu hb hd hpos (h.served u inc hflow)
    have hr : d.getMR ∈ s.usedRegs := by
      obtain ⟨r, hr, rfl, -⟩ := hs.phis b d hd
      exact hr
    refine ⟨pos, v, hpos, hv, ?_⟩
    rw [hdefs, ← reachingDef_eq hfn hs hr hq hflow]
    exact hres
  case made =>
    intro b hb
    constructor
    · intro d hd
      rw [h.sets.eq_phis] at hd
      refine h.resIn d ⟨b, above b hb, ?_⟩
      exact mem_append_left _ (mem_append_left _ (mem_map_of_mem hd))
    · intro i d hd
      rw [h.sets.eq_chis] at hd
      obtain ⟨st, hst, -, hop⟩ := ops_of_chis hs hb hd
      refine h.resIn d ⟨b, above b hb, ?_⟩
      refine mem_append_left _ (mem_append_right _ (mem_flatMap.mpr ?_))
      exact ⟨(st, i), mem_zipIdx_iff_getElem?.mpr hst, hop⟩
  case one =>
    intro slot v hv
    obtain ⟨d, hd⟩ := exists_defines hs h hv
    refine ⟨d, hd, fun d' hd' => ?_⟩
    rw [hd.eq hs h, hd'.eq hs h]
  case numbers =>
    intro d d' v v' hd hd' hmr hver
    rcases hd with hv | ⟨r, rfl, hv⟩
    · have hpos := (h.named.made d v hv).2.2.1
      rcases hd' with hv' | ⟨r', rfl, hv'⟩
      · obtain rfl := h.named.distinct d d' v v' hv hv' hmr hver
        exact mem_unique hv hv'
      · rw [hver, ver_entry hs h hv'] at hpos
        exact absurd hpos (Nat.lt_irrefl 0)
    · have hzero := ver_entry hs h hv
      subst hzero
      rcases hd' with hv' | ⟨r', rfl, hv'⟩
      · have hpos := (h.named.made d' v' hv').2.2.1
        rw [← hver] at hpos
        exact absurd hpos (Nat.lt_irrefl 0)
      · have hzero := ver_entry hs h hv'
        subst hzero
        exact congrArg (entryVer 0) hmr
  case stack =>
    rw [h.sets.eq_used, h.stack]
    exact hs.stack

end

end

end

/-- **Memory SSA gives every use its reaching definition.** -/
theorem buildMemSSA_reaching (hfn : fn.WellFormed) (hs : s.Fresh) :
    ∃ t, Stops (buildMemSSA fn s) t ∧ ReachingSSA fn t := by
  have hne : fn.loopAndDom.reachableBBs ≠ [] := ne_nil_of_mem ((hfn.reach_iff fn.entry).mpr .refl)
  obtain ⟨c, hc, hcreated⟩ := createMUCHI_spec fn hfn.reach_nodup hne hs
  obtain ⟨p, hphis, hplaced⟩ := insertPHI_spec hfn hcreated.phis
    fun r b hb => (hfn.reach_iff b).mp ((hcreated.defs r b).mp hb).1
  have hready := ready_of_passes hfn hcreated hplaced
  obtain ⟨t, hrename, hwalked⟩ := SSARename_spec hfn hready
  refine ⟨t, ?_, reachingSSA_of_walked hready hwalked⟩
  have hrun : ∀ fuel, 0 < fuel → buildMemSSA fn s fuel =
      (insertPHI fn fuel c).bind fun s => SSARename fn fuel s := by
    intro fuel _
    unfold buildMemSSA
    rw [hc]
    rfl
  exact Stops.congr hrun (Stops.bind hphis hrename)

end MemSSA

-- ── A loop

/-- The dominator tree of two blocks, the second below the first. -/
def loopTree : DomTree Bool where
  getNode b := match b with
    | false => some ⟨0, none, [true]⟩
    | true => some ⟨1, some false, []⟩
  child a b n ha hb := by
    cases a with
    | false =>
      cases ha
      rw [mem_singleton.mp hb]
      exact ⟨_, rfl, rfl, rfl⟩
    | true =>
      cases ha
      cases hb

def loopFunction : SVFFunction Bool Unit where
  blocks := [false, true]
  entry := false
  succs _ := [true]
  exits := []
  entry_mem := mem_cons_self
  succs_mem _ b _ hb := by
    rw [mem_singleton.mp hb]
    exact mem_cons_of_mem _ mem_cons_self
  preds b := if b then [false, true] else []
  stmts b := if b then [.load [()], .store [()]] else []
  isNotRet := true
  loopAndDom :=
    { SVFLoopAndDomInfo.empty with
      reachableBBs := [false, true]
      dtBBsMap := fun b => if b then none else some [true]
      dfBBsMap := fun b => if b then some [true] else none }

theorem loopFunction_edge {a b : Bool} : loopFunction.Edge a b ↔ b := mem_singleton

theorem loopFunction_reachable (b : Bool) : loopFunction.Reachable b := by
  cases b with
  | false => exact .refl
  | true => exact .single (loopFunction_edge.mpr rfl)

theorem loopTree_child {a b : Bool} : loopTree.Child a b ↔ a = false ∧ b := by
  constructor
  · rintro ⟨n, hn, hb⟩
    cases a with
    | false =>
      cases hn
      exact ⟨rfl, mem_singleton.mp hb⟩
    | true =>
      cases hn
      cases hb
  · rintro ⟨rfl, rfl⟩
    exact ⟨_, rfl, mem_cons_self⟩

theorem loopFunction_dom (a b : Bool) : loopFunction.Dom a b ↔ (a = false ∨ b) := by
  constructor
  · intro h
    cases b with
    | false => exact .inl (mem_singleton.mp (h [false] (.single false)))
    | true => exact .inr rfl
  · rintro (rfl | rfl)
    · exact fun p hp => hp.first_mem
    · cases a with
      | false => exact fun p hp => hp.first_mem
      | true => exact fun p hp => hp.last_mem

def loopFunction_wellFormed : loopFunction.WellFormed where
  tree := loopTree
  preds_iff := by decide
  reach_iff b := ⟨fun _ => loopFunction_reachable b, fun _ => by cases b <;> decide⟩
  reach_nodup := by decide
  node b := ⟨fun _ => loopFunction_reachable b, fun _ => by cases b <;> rfl⟩
  ancestor a b _ _ := by
    rw [loopFunction_dom]
    constructor
    · intro h
      rcases Relation.ReflTransGen.cases_tail h with rfl | ⟨c, _, hc⟩
      · cases b with
        | false => exact Or.inl rfl
        | true => exact Or.inr rfl
      · exact Or.inr (loopTree_child.mp hc).2
    · intro h
      cases a with
      | false =>
        cases b with
        | false => exact .refl
        | true => exact .single (loopTree_child.mpr ⟨rfl, rfl⟩)
      | true =>
        rcases h with h | rfl
        · cases h
        · exact .refl
  child_iff b _ c := by
    rw [loopTree_child]
    cases b <;> cases c <;> decide
  child_nodup := by decide
  frontier_iff b _ v := by
    have hdom := loopFunction_dom
    constructor
    · intro hv
      cases b with
      | false => cases hv
      | true =>
        obtain rfl := mem_singleton.mp hv
        exact ⟨true, loopFunction_reachable true, loopFunction_edge.mpr rfl,
          (hdom true true).mpr (Or.inr rfl), fun h => h.2 rfl⟩
    · rintro ⟨u, -, huv, -, hend⟩
      obtain rfl := loopFunction_edge.mp huv
      cases b with
      | false => exact absurd ⟨(hdom false true).mpr (Or.inl rfl), Bool.false_ne_true⟩ hend
      | true => exact mem_cons_self
  chis_nodup b i := by
    cases b with
    | false => exact nodup_nil
    | true =>
      match i with
      | 0 => exact nodup_nil
      | 1 => exact nodup_singleton ()
      | _ + 2 => exact nodup_nil
  ret_unique a b i j _ _ h := by
    have hmem := mem_of_getElem? h
    cases a with
    | false => cases hmem
    | true =>
      rcases mem_cons.mp hmem with he | hmem
      · cases he
      · cases mem_singleton.mp hmem

/-- The state that the constructor makes. -/
def emptySSA : MemSSA Bool Unit where
  muSetMap _ _ := []
  chiSetMap _ _ := []
  bb2PhiSetMap _ := []
  entryChiSet := []
  returnMuSet := []
  mr2VerStackMap _ := none
  mr2CounterMap _ := none
  usedRegs := []
  reg2BBMap _ := []
  varKills := []
  ver _ := none
  resVer _ := none

theorem emptySSA_fresh : emptySSA.Fresh :=
  ⟨fun _ _ => rfl, fun _ _ => rfl, fun _ => rfl, rfl, fun _ => rfl, fun _ => rfl⟩

/-- The loop gets a phi: it reads the version of the phi, not the entry's or its own. -/
theorem buildMemSSA_loopFunction : (∃ t, Stops (MemSSA.buildMemSSA loopFunction emptySSA) t ∧
      MemSSA.ReachingSSA loopFunction t) ∧
    ((MemSSA.buildMemSSA loopFunction emptySSA 3).bind fun t =>
      (t.ver (.mu (.stmt true 0 ()))).map MRVer.defn) = some (.phi true ()) :=
  ⟨MemSSA.buildMemSSA_reaching loopFunction_wellFormed emptySSA_fresh, by decide⟩

end SvfMemSSA
