import SvfModel.MemSSAProofs

/-!
# Memory SSA: renaming

`SSARename` walks down the dominator tree with a stack of versions per region. What it does in
one block is a list of operations: give a field the version on top of its region's stack, or
make a version for a definition and push it. The heart is **`runOps_spec`**, one block: a field
gets the version of the definition that the operations before it leave in force, and popping
what was pushed restores the stacks. **`SSARenameBB_spec`** is the walk below a block: the
subtrees of its children own different fields and definitions, so none disturbs another.

With the phis closed under dominance frontiers the definition that the tree leaves in force is
the last one met on any path, and that gives the main result.
-/

namespace SvfMemSSA

open SvfScc SvfLoop SvfDominance List Option
open Function (update update_eq_self_iff update_idem update_of_ne update_self)

variable {B R : Type}

/-- The region of a field. -/
def Slot.getMR : Slot B R → R
  | .mu m => m.getMR
  | .op d => d.getMR
  | .phiOp d _ => d.getMR

/-- What renaming does: give a field a version, or a definition its own. -/
inductive Op (B R : Type)
  | use (slot : Slot B R)
  | defn (d : MSSADEF B R)

/-- The region of an operation. -/
def Op.getMR : Op B R → R
  | .use slot => slot.getMR
  | .defn d => d.getMR

/-- The definition of an operation. -/
def Op.def? : Op B R → Option (MSSADEF B R)
  | .use _ => none
  | .defn d => some d

variable [DecidableEq B] [DecidableEq R]

namespace MemSSA

/-- One operation. -/
def runOp (s : MemSSA B R × List R) : Op B R → Option (MemSSA B R × List R)
  | .use slot => do
      let v ← s.1.getTopStackVer slot.getMR
      some (s.1.setVer slot v, s.2)
  | .defn d => do
      let (v, t) ← s.1.newSSAName d.getMR d
      some (t.setResVer d v, d.getMR :: s.2)

/-- The operations of one statement. -/
def stmtOps (s : MemSSA B R) (bb : B) (st : Stmt R × Nat) : List (Op B R) :=
  match st.1 with
  | .load _ => (s.muSetMap bb st.2).map fun mu => .use (.mu mu)
  | .store _ => (s.chiSetMap bb st.2).flatMap fun chi => [.use (.op chi), .defn chi]
  | .callSite _ _ => ((s.muSetMap bb st.2).map fun mu => .use (.mu mu)) ++
      (s.chiSetMap bb st.2).flatMap fun chi => [.use (.op chi), .defn chi]
  | .ret => s.returnMuSet.map fun mu => .use (.mu mu)

/-- The operations on the phis of one successor. -/
def succOps (fn : SVFFunction B R) (s : MemSSA B R) (bb succ : B) : List (Op B R) :=
  match fn.getBBPredecessorPos bb succ with
  | none => []
  | some pos => (s.bb2PhiSetMap succ).map fun phi => .use (.phiOp phi pos)

def blockOps (fn : SVFFunction B R) (s : MemSSA B R) (bb : B) : List (Op B R) :=
  (s.bb2PhiSetMap bb).map .defn ++ (fn.stmts bb).zipIdx.flatMap (stmtOps s bb) ++
    (fn.succs bb).flatMap (succOps fn s bb)

-- ── The passes as operations

/-- Nothing but versions, stacks and counters has changed. -/
def SameSets (s t : MemSSA B R) : Prop :=
  t = { s with
    mr2VerStackMap := t.mr2VerStackMap, mr2CounterMap := t.mr2CounterMap, ver := t.ver
    resVer := t.resVer }

section

omit [DecidableEq B] [DecidableEq R]

theorem SameSets.refl (s : MemSSA B R) : SameSets s s := rfl

theorem SameSets.trans {s t u : MemSSA B R} (h : SameSets s t) (h' : SameSets t u) :
    SameSets s u := by
  unfold SameSets at h h' ⊢
  rw [h] at h'
  exact h'

section

variable {s t : MemSSA B R} (h : SameSets s t)
include h

theorem SameSets.eq_mus : t.muSetMap = s.muSetMap :=
  (congrArg MemSSA.muSetMap h).trans rfl

theorem SameSets.eq_chis : t.chiSetMap = s.chiSetMap :=
  (congrArg MemSSA.chiSetMap h).trans rfl

theorem SameSets.eq_phis : t.bb2PhiSetMap = s.bb2PhiSetMap :=
  (congrArg MemSSA.bb2PhiSetMap h).trans rfl

theorem SameSets.eq_rets : t.returnMuSet = s.returnMuSet :=
  (congrArg MemSSA.returnMuSet h).trans rfl

theorem SameSets.eq_used : t.usedRegs = s.usedRegs :=
  (congrArg MemSSA.usedRegs h).trans rfl

end

end

variable {d : MSSADEF B R} {op : Op B R} {m : List R} {st : List (MRVer B R)}

omit [DecidableEq B] in
theorem newSSAName_some {s t : MemSSA B R} {mr : R} {v : MRVer B R}
    (h : s.newSSAName mr d = some (v, t)) :
    ∃ n st, s.mr2CounterMap mr = some n ∧ s.mr2VerStackMap mr = some st ∧ v = ⟨mr, n, d⟩ ∧
      t = { s with
        mr2CounterMap := update s.mr2CounterMap mr (some (n + 1))
        mr2VerStackMap := update s.mr2VerStackMap mr (some (v :: st)) } := by
  unfold newSSAName at h
  obtain ⟨n, hn, h⟩ := bind_eq_some_iff.mp h
  obtain ⟨st, hst, h⟩ := bind_eq_some_iff.mp h
  injection some.inj h with hv ht
  subst hv
  exact ⟨n, st, hn, hst, rfl, ht.symm⟩

theorem runOp_sameSets {r r' : MemSSA B R × List R} (h : runOp r op = some r') :
    SameSets r.1 r'.1 := by
  cases op with
  | use slot =>
    obtain ⟨v, -, h⟩ := bind_eq_some_iff.mp h
    rw [← some.inj h]
    rfl
  | defn d =>
    obtain ⟨⟨v, u⟩, hu, h⟩ := bind_eq_some_iff.mp h
    obtain ⟨n, st, -, -, -, rfl⟩ := newSSAName_some hu
    rw [← some.inj h]
    rfl

theorem runOps_sameSets {r r' : MemSSA B R × List R} (l : List (Op B R))
    (h : l.foldlM runOp r = some r') : SameSets r.1 r'.1 :=
  foldlM_keeps (P := fun u => SameSets r.1 u.1) l r r'
    (fun _ _ _ _ hr hop => hr.trans (runOp_sameSets hop)) (SameSets.refl r.1) h

omit [DecidableEq B] in
theorem foldlM_pair {A : Type} {f : MemSSA B R → A → Option (MemSSA B R)}
    {g : A → List (Op B R)} {P : MemSSA B R → Prop} [DecidableEq B]
    (hfg : ∀ s a m, P s → (f s a).map (·, m) = (g a).foldlM runOp (s, m))
    (hP : ∀ s a t, P s → f s a = some t → P t) :
    ∀ (l : List A) (s : MemSSA B R) (m : List R), P s →
      (l.foldlM f s).map (·, m) = (l.flatMap g).foldlM runOp (s, m) := by
  intro l
  induction l with
  | nil => exact fun s m _ => rfl
  | cons a l ih =>
    intro s m hs
    rw [flatMap_cons, foldlM_append, ← hfg s a m hs, foldlM_cons]
    cases hf : f s a with
    | none => rfl
    | some t => exact ih t m (hP s a t hs hf)

theorem RenameMuSet_ops (muSet : List (MSSAMU B R)) (s : MemSSA B R) (m : List R) :
    (RenameMuSet muSet s).map (·, m) =
      (muSet.map fun mu => Op.use (.mu mu)).foldlM runOp (s, m) := by
  rw [map_eq_flatMap]
  refine foldlM_pair (P := fun _ => True) (fun s mu m _ => ?_) (fun _ _ _ _ _ => trivial) muSet s m
    trivial
  show _ = (runOp (s, m) (.use (.mu mu))).bind _
  show Option.map _ (Option.bind _ _) = Option.bind (Option.bind _ _) _
  rw [map_bind, bind_assoc]
  rfl

theorem RenamePhiOps_ops (phiSet : List (MSSADEF B R)) (pos : Nat) (s : MemSSA B R)
    (m : List R) : (RenamePhiOps phiSet pos s).map (·, m) =
      (phiSet.map fun phi => Op.use (.phiOp phi pos)).foldlM runOp (s, m) := by
  rw [map_eq_flatMap]
  refine foldlM_pair (P := fun _ => True) (fun s phi m _ => ?_) (fun _ _ _ _ _ => trivial) phiSet s
    m trivial
  show Option.map _ (Option.bind _ _) = Option.bind (Option.bind _ _) _
  rw [map_bind, bind_assoc]
  rfl

theorem RenamePhiRes_ops (phiSet : List (MSSADEF B R)) (r : MemSSA B R × List R) :
    RenamePhiRes phiSet r = (phiSet.map Op.defn).foldlM runOp r := by
  rw [foldlM_map]
  rfl

theorem RenameChiSet_ops (chiSet : List (MSSADEF B R)) : ∀ r : MemSSA B R × List R,
    RenameChiSet chiSet r =
      (chiSet.flatMap fun chi => [Op.use (.op chi), .defn chi]).foldlM runOp r := by
  unfold RenameChiSet
  induction chiSet with
  | nil => exact fun _ => rfl
  | cons chi chiSet ih =>
    intro r
    rw [foldlM_cons, flatMap_cons, foldlM_append]
    simp only [List.foldlM_cons, List.foldlM_nil, runOp, Option.bind_eq_bind, Option.bind_assoc,
      Option.bind_some, Option.pure_def]
    refine Option.bind_congr fun v _ => Option.bind_congr fun q _ => ih _

/-- One statement, on a state with the sets of `s`. -/
theorem renameStmt_ops {s : MemSSA B R} (bb : B) (st : Stmt R × Nat) {r : MemSSA B R × List R}
    (h : SameSets s r.1) : renameStmt bb r st = (stmtOps s bb st).foldlM runOp r := by
  obtain ⟨st, i⟩ := st
  obtain ⟨t, m⟩ := r
  have hmu : (RenameMuSet (t.muSetMap bb i) t).map (·, m) =
      ((s.muSetMap bb i).map fun mu => .use (.mu mu)).foldlM runOp (t, m) := by
    rw [RenameMuSet_ops, h.eq_mus]
  cases st with
  | load _ => exact hmu
  | store _ =>
    show RenameChiSet (t.chiSetMap bb i) (t, m) = _
    rw [RenameChiSet_ops, h.eq_chis]
    rfl
  | callSite _ _ =>
    show (RenameMuSet (t.muSetMap bb i) t).bind _ = List.foldlM runOp (t, m) (_ ++ _)
    rw [foldlM_append, ← hmu]
    cases hren : RenameMuSet (t.muSetMap bb i) t with
    | none => rfl
    | some u =>
      have hsame : SameSets t u := by
        rw [hren] at hmu
        exact runOps_sameSets _ hmu.symm
      show RenameChiSet (u.chiSetMap bb i) (u, m) = _
      rw [RenameChiSet_ops, hsame.eq_chis, h.eq_chis]
      rfl
  | ret =>
    show (RenameMuSet t.returnMuSet t).map (·, m) = _
    rw [RenameMuSet_ops, h.eq_rets]
    rfl

theorem renameStmts_ops {s : MemSSA B R} (bb : B) : ∀ (l : List (Stmt R × Nat))
    {r : MemSSA B R × List R}, SameSets s r.1 →
    l.foldlM (renameStmt bb) r = (l.flatMap (stmtOps s bb)).foldlM runOp r := by
  intro l
  induction l with
  | nil => exact fun _ => rfl
  | cons st l ih =>
    intro r h
    rw [foldlM_cons, flatMap_cons, foldlM_append, renameStmt_ops bb st h]
    refine bind_congr fun r' hr' => ih (h.trans (runOps_sameSets _ hr'))

section

variable {fn : SVFFunction B R}

theorem renameSucc_ops {s t : MemSSA B R} (bb succ : B) (m : List R) (h : SameSets s t)
    (hpos : (fn.getBBPredecessorPos bb succ).isSome) :
    (renameSucc fn bb t succ).map (·, m) = (succOps fn s bb succ).foldlM runOp (t, m) := by
  obtain ⟨pos, hpos⟩ := isSome_iff_exists.mp hpos
  unfold renameSucc succOps
  rw [hpos]
  show (RenamePhiOps (t.bb2PhiSetMap succ) pos t).map (·, m) = _
  rw [RenamePhiOps_ops, h.eq_phis]

theorem renameSucc_sameSets {s t : MemSSA B R} {bb succ : B}
    (h : renameSucc fn bb s succ = some t) : SameSets s t := by
  obtain ⟨pos, hpos, -⟩ := bind_eq_some_iff.mp h
  have hops := renameSucc_ops bb succ [] (SameSets.refl s) (isSome_iff_exists.mpr ⟨pos, hpos⟩)
  rw [h] at hops
  exact runOps_sameSets _ hops.symm

theorem renameSuccs_ops {s : MemSSA B R} (bb : B) (m : List R) :
    ∀ (l : List B), (∀ succ ∈ l, (fn.getBBPredecessorPos bb succ).isSome) →
    ∀ {t : MemSSA B R}, SameSets s t → (l.foldlM (renameSucc fn bb) t).map (·, m) =
        (l.flatMap (succOps fn s bb)).foldlM runOp (t, m) := by
  intro l
  induction l with
  | nil => exact fun _ _ _ => rfl
  | cons succ l ih =>
    intro hpos t h
    rw [flatMap_cons, foldlM_append,
      ← renameSucc_ops bb succ m h (hpos succ mem_cons_self), foldlM_cons]
    cases hren : renameSucc fn bb t succ with
    | none => rfl
    | some u =>
      exact ih (forall_mem_cons.mp hpos).2 (h.trans (renameSucc_sameSets hren))

/-- **A block as operations**: what it does before it goes on to the children. -/
theorem SSARenameBB_ops {s t : MemSSA B R} {bb : B}
    (hpos : ∀ succ ∈ fn.succs bb, (fn.getBBPredecessorPos bb succ).isSome)
    (hops : (blockOps fn s bb).foldlM runOp (s, []) = some (t, m)) (fuel : Nat) :
    SSARenameBB fn (fuel + 1) bb s = (((fn.loopAndDom.dtBBsMap bb).getD []).foldlM
        (fun s dtbb => SSARenameBB fn fuel dtbb s) t).bind fun s => m.foldlM popVer s := by
  unfold blockOps at hops
  rw [foldlM_append, foldlM_append] at hops
  obtain ⟨⟨u, mu⟩, hstmts, hsuccs⟩ := bind_eq_some_iff.mp hops
  obtain ⟨⟨w, mw⟩, hphis, hstmts⟩ := bind_eq_some_iff.mp hstmts
  have hw : SameSets s w := runOps_sameSets _ hphis
  have hu : SameSets s u := hw.trans (runOps_sameSets _ hstmts)
  rw [← renameSuccs_ops bb mu _ hpos hu] at hsuccs
  obtain ⟨t', hrun, he⟩ := map_eq_some_iff.mp hsuccs
  injection he with ht hm
  subst ht hm
  rw [SSARenameBB, RenamePhiRes_ops, hphis]
  show Option.bind (List.foldlM (renameStmt bb) (w, mw) _) _ = _
  rw [renameStmts_ops bb _ hw, hstmts]
  show Option.bind (List.foldlM (renameSucc fn bb) u _) _ = _
  rw [hrun]
  rfl

end

-- ── One block

/-- The definition of each region that an operation leaves in force. -/
def flow (inc : R → MSSADEF B R) : Op B R → R → MSSADEF B R
  | .use _ => inc
  | .defn d => update inc d.getMR d

def flows (inc : R → MSSADEF B R) (l : List (Op B R)) : R → MSSADEF B R := l.foldl flow inc

def Tops (s : MemSSA B R) (inc : R → MSSADEF B R) : Prop :=
  ∀ r ∈ s.usedRegs, ∃ v st, s.mr2VerStackMap r = some (v :: st) ∧ s.resVer (inc r) = some v

/-- Each definition has a version of its own, made below the counter of its region and after
    the version 0 of the entry chi. -/
structure Named (s : MemSSA B R) : Prop where
  made : ∀ d v, s.resVer d = some v → v.defn = d ∧ v.mr = d.getMR ∧ 0 < v.version ∧
    ∃ n, s.mr2CounterMap v.mr = some n ∧ v.version < n
  distinct : ∀ d d' v v', s.resVer d = some v → s.resVer d' = some v' → v.mr = v'.mr →
    v.version = v'.version → d = d'
  count : ∀ r ∈ s.usedRegs, ∃ n, s.mr2CounterMap r = some n ∧ 0 < n

/-- Popping the regions `k` one after the other leads from the stacks `S` to the stacks `S'`. -/
inductive Pops : List R → (R → Option (List (MRVer B R))) → (R → Option (List (MRVer B R))) → Prop
  | nil (S) : Pops [] S S
  | cons {r k S S' v st} (hr : S r = some (v :: st))
      (hk : Pops k (update S r (some st)) S') : Pops (r :: k) S S'

omit [DecidableEq B] in
theorem Pops.append {k k' : List R} {S S' S'' : R → Option (List (MRVer B R))}
    (h : Pops k S S') (h' : Pops k' S' S'') : Pops (k ++ k') S S'' := by
  induction h with
  | nil => exact h'
  | cons hr _ ih => exact .cons hr (ih h')

omit [DecidableEq B] in
/-- What is popped is what `popVer` pops. -/
theorem popVers_eq {k : List R} {S S' : R → Option (List (MRVer B R))} (h : Pops k S S') :
    ∀ s : MemSSA B R, s.mr2VerStackMap = S →
      k.foldlM popVer s = some { s with mr2VerStackMap := S' } := by
  induction h with
  | nil S =>
    rintro s rfl
    rfl
  | cons hr hk ih =>
    rintro s rfl
    rw [foldlM_cons]
    unfold popVer
    rw [hr]
    exact ih { s with mr2VerStackMap := _ } rfl

structure OpsRun (s : MemSSA B R) (m : List R) (inc : R → MSSADEF B R) (l : List (Op B R))
    (t : MemSSA B R) (m' : List R) : Prop where
  sets : SameSets s t
  tops : Tops t (flows inc l)
  named : Named t
  verOut : ∀ slot, .use slot ∉ l → t.ver slot = s.ver slot
  resOut : ∀ d, .defn d ∉ l → t.resVer d = s.resVer d
  resIn : ∀ d, .defn d ∈ l → t.resVer d ≠ none
  uses : ∀ l₁ slot l₂, l = l₁ ++ .use slot :: l₂ → .use slot ∉ l₂ →
    ∃ v, t.ver slot = some v ∧ t.resVer (flows inc l₁ slot.getMR) = some v
  pops : ∃ k, m' = k ++ m ∧ Pops k t.mr2VerStackMap s.mr2VerStackMap

theorem runOp_use {s : MemSSA B R} {slot : Slot B R} {v : MRVer B R}
    (h : s.mr2VerStackMap slot.getMR = some (v :: st)) :
    runOp (s, m) (.use slot) = some (s.setVer slot v, m) := by
  show Option.bind (Option.bind (s.mr2VerStackMap slot.getMR) List.head?) _ = _
  rw [h]
  rfl

/-- `s` with a version for a definition. -/
def define (s : MemSSA B R) (d : MSSADEF B R) (n : Nat) (st : List (MRVer B R)) : MemSSA B R :=
  { s with
    mr2CounterMap := update s.mr2CounterMap d.getMR (some (n + 1))
    mr2VerStackMap := update s.mr2VerStackMap d.getMR (some (⟨d.getMR, n, d⟩ :: st))
    resVer := update s.resVer d (some ⟨d.getMR, n, d⟩) }

theorem runOp_defn {s : MemSSA B R} {n : Nat} (hn : s.mr2CounterMap d.getMR = some n)
    (hst : s.mr2VerStackMap d.getMR = some st) :
    runOp (s, m) (.defn d) = some (s.define d n st, d.getMR :: m) := by
  show Option.bind (Option.bind (s.mr2CounterMap d.getMR) _) _ = _
  rw [hn]
  show Option.bind (Option.bind (s.mr2VerStackMap d.getMR) _) _ = _
  rw [hst]
  rfl

theorem Named.define {s : MemSSA B R} (h : Named s) {n : Nat}
    (hn : s.mr2CounterMap d.getMR = some n) (hpos : 0 < n) (st : List (MRVer B R)) :
    Named (s.define d n st) := by
  have hcount : ∀ r, (s.define d n st).mr2CounterMap r =
      if r = d.getMR then some (n + 1) else s.mr2CounterMap r := by
    intro r
    by_cases hr : r = d.getMR
    · rw [if_pos hr, hr]
      exact update_self ..
    · rw [if_neg hr]
      exact update_of_ne hr ..
  have hres : ∀ d' v, (s.define d n st).resVer d' = some v →
      (d' = d ∧ v = ⟨d.getMR, n, d⟩) ∨ (d' ≠ d ∧ s.resVer d' = some v) := by
    intro d' v hv
    have hv : update s.resVer d (some ⟨d.getMR, n, d⟩) d' = some v := hv
    by_cases hd : d' = d
    · subst hd
      rw [update_self] at hv
      exact .inl ⟨rfl, (some.inj hv).symm⟩
    · rw [update_of_ne hd] at hv
      exact .inr ⟨hd, hv⟩
  have hbelow : ∀ d' v, s.resVer d' = some v → v.mr = d.getMR → v.version < n := by
    intro d' v hv hmr
    obtain ⟨-, -, -, n', hn', hlt⟩ := h.made d' v hv
    rw [hmr, hn] at hn'
    rw [some.inj hn']
    exact hlt
  constructor
  case made =>
    intro d' v hv
    rcases hres d' v hv with ⟨rfl, rfl⟩ | ⟨-, hv⟩
    · exact ⟨rfl, rfl, hpos, n + 1, by rw [hcount, if_pos rfl], Nat.lt_succ_self n⟩
    · obtain ⟨hdef, hmr, hver, n', hn', hlt⟩ := h.made d' v hv
      refine ⟨hdef, hmr, hver, ?_⟩
      rw [hcount]
      by_cases hr : v.mr = d.getMR
      · rw [if_pos hr]
        exact ⟨n + 1, rfl, (hbelow d' v hv hr).trans (Nat.lt_succ_self n)⟩
      · rw [if_neg hr]
        exact ⟨n', hn', hlt⟩
  case distinct =>
    intro d1 d2 v1 v2 hv1 hv2 hmr hver
    rcases hres d1 v1 hv1 with ⟨rfl, rfl⟩ | ⟨-, hold1⟩
    · rcases hres d2 v2 hv2 with ⟨rfl, -⟩ | ⟨-, hold2⟩
      · rfl
      · exact absurd hver (Nat.ne_of_gt (hbelow d2 v2 hold2 hmr.symm))
    · rcases hres d2 v2 hv2 with ⟨rfl, rfl⟩ | ⟨-, hold2⟩
      · exact absurd hver (Nat.ne_of_lt (hbelow d1 v1 hold1 hmr))
      · exact h.distinct d1 d2 v1 v2 hold1 hold2 hmr hver
  case count =>
    intro r hr
    rw [hcount]
    by_cases he : r = d.getMR
    · rw [if_pos he]
      exact ⟨n + 1, rfl, Nat.succ_pos n⟩
    · rw [if_neg he]
      exact h.count r hr

theorem Tops.define {s : MemSSA B R} {inc : R → MSSADEF B R} (h : Tops s inc)
    (hnone : s.resVer d = none) (n : Nat) :
    Tops (s.define d n st) (flow inc (.defn d)) := by
  intro r hr
  by_cases he : r = d.getMR
  · subst he
    refine ⟨⟨d.getMR, n, d⟩, st, update_self .., ?_⟩
    show update s.resVer d _ (update inc d.getMR d d.getMR) = _
    rw [update_self, update_self]
  · obtain ⟨v, st', hst', hv⟩ := h r hr
    have hne : inc r ≠ d := by
      intro hd
      rw [hd, hnone] at hv
      exact some_ne_none v hv.symm
    refine ⟨v, st', (update_of_ne he ..).trans hst', ?_⟩
    show update s.resVer d _ (update inc d.getMR d r) = _
    rw [update_of_ne he, update_of_ne hne, hv]

/-- **One block.** The operations on used regions, whose definitions have no version yet,
    succeed; each field has at the end the version of the definition in force at its last use,
    and popping what was pushed restores the stacks. -/
theorem runOps_spec : ∀ (l : List (Op B R)) (s : MemSSA B R) (m : List R)
    (inc : R → MSSADEF B R), Tops s inc → Named s → (∀ op ∈ l, op.getMR ∈ s.usedRegs) →
    (l.filterMap Op.def?).Nodup → (∀ d, .defn d ∈ l → s.resVer d = none) →
    ∃ t m', l.foldlM runOp (s, m) = some (t, m') ∧ OpsRun s m inc l t m' := by
  intro l
  induction l with
  | nil =>
    intro s m inc htops hnamed _ _ _
    refine ⟨s, m, rfl, SameSets.refl s, htops, hnamed, fun _ _ => rfl, fun _ _ => rfl,
      nofun, fun l1 slot l2 h => ?_, [], rfl, .nil _⟩
    exact absurd h.symm (append_ne_nil_of_right_ne_nil _ (cons_ne_nil _ _))
  | cons op l ih =>
    intro s m inc htops hnamed hused hnd hnone
    have hmr := hused op mem_cons_self
    obtain ⟨v, st, hst, hv⟩ := htops op.getMR hmr
    cases op with
    | use slot =>
      have htops' : Tops (s.setVer slot v) inc := htops
      have hnamed' : Named (s.setVer slot v) := ⟨hnamed.made, hnamed.distinct, hnamed.count⟩
      obtain ⟨t, m', hrun, h⟩ := ih (s.setVer slot v) m inc htops' hnamed'
        (forall_mem_cons.mp hused).2 hnd
        (fun d hd => hnone d (mem_cons_of_mem _ hd))
      refine ⟨t, m', ?_, ?_⟩
      · rw [foldlM_cons, runOp_use hst]
        exact hrun
      constructor
      case sets => exact h.sets
      case tops => exact h.tops
      case named => exact h.named
      case verOut =>
        intro slot' hslot'
        rw [mem_cons, not_or] at hslot'
        rw [h.verOut slot' hslot'.2]
        exact update_of_ne (fun he => hslot'.1 (congrArg Op.use he)) ..
      case resOut => exact fun d hd => h.resOut d fun hd' => hd (mem_cons_of_mem _ hd')
      case resIn =>
        intro d hd
        rcases mem_cons.mp hd with he | hd
        · cases he
        · exact h.resIn d hd
      case uses =>
        intro l1 slot' l2 hl hlast
        cases l1 with
        | nil =>
          obtain ⟨he, rfl⟩ := List.cons.inj hl
          obtain rfl := Op.use.inj he
          refine ⟨v, (h.verOut slot hlast).trans (update_self ..), ?_⟩
          -- the definition in force has its version, so it is not defined again
          refine (h.resOut _ fun hd => ?_).trans hv
          have hno := hnone _ (mem_cons_of_mem _ hd)
          exact some_ne_none v (hv.symm.trans hno)
        | cons op l1 =>
          obtain ⟨rfl, htail⟩ := List.cons.inj hl
          exact h.uses l1 slot' l2 htail hlast
      case pops => exact h.pops
    | defn d =>
      obtain ⟨n, hn, hpos⟩ := hnamed.count _ hmr
      have hdnone := hnone d mem_cons_self
      have hnd' : d ∉ l.filterMap Op.def? ∧ (l.filterMap Op.def?).Nodup := nodup_cons.mp hnd
      have hdl : .defn d ∉ l := fun hd => hnd'.1 (mem_filterMap.mpr ⟨_, hd, rfl⟩)
      obtain ⟨t, m', hrun, h⟩ := ih (s.define d n (v :: st)) (d.getMR :: m)
        (flow inc (.defn d)) (htops.define hdnone n) (hnamed.define hn hpos (v :: st))
        (forall_mem_cons.mp hused).2 hnd'.2 (by
          intro d' hd'
          have hne : d' ≠ d := fun he => hdl (he ▸ hd')
          exact (update_of_ne hne ..).trans (hnone d' (mem_cons_of_mem _ hd')))
      refine ⟨t, m', ?_, ?_⟩
      · rw [foldlM_cons, runOp_defn hn hst]
        exact hrun
      constructor
      case sets => exact h.sets
      case tops => exact h.tops
      case named => exact h.named
      case verOut =>
        exact fun slot hslot => h.verOut slot fun hs => hslot (mem_cons_of_mem _ hs)
      case resOut =>
        intro d' hd'
        rw [mem_cons, not_or] at hd'
        rw [h.resOut d' hd'.2]
        exact update_of_ne (fun he => hd'.1 (congrArg Op.defn he)) ..
      case resIn =>
        intro d' hd'
        rcases mem_cons.mp hd' with he | hd'
        · obtain rfl := Op.defn.inj he
          rw [h.resOut d' hdl]
          show update s.resVer d' _ d' ≠ none
          rw [update_self]
          exact some_ne_none _
        · exact h.resIn d' hd'
      case uses =>
        intro l1 slot' l2 hl hlast
        cases l1 with
        | nil => cases (List.cons.inj hl).1
        | cons op l1 =>
          obtain ⟨rfl, htail⟩ := List.cons.inj hl
          exact h.uses l1 slot' l2 htail hlast
      case pops =>
        obtain ⟨k, rfl, hk⟩ := h.pops
        refine ⟨k ++ [d.getMR], by rw [append_assoc, singleton_append], hk.append ?_⟩
        refine .cons (update_self ..) ?_
        have hback : update (update s.mr2VerStackMap d.getMR
            (some (⟨d.getMR, n, d⟩ :: v :: st))) d.getMR (some (v :: st)) =
            s.mr2VerStackMap := by
          rw [update_idem]
          exact update_eq_self_iff.mpr hst.symm
        show Pops [] (update (update s.mr2VerStackMap d.getMR _) d.getMR _) _
        rw [hback]
        exact .nil _

-- ── Down the dominator tree

variable {fn : SVFFunction B R} {s₀ : MemSSA B R}

/-- What the operations of the blocks have to be like: they are on used regions, each block
    names itself among the predecessors of its successors, and no field or definition is
    touched in two blocks, no definition made twice in one. -/
structure OpsOwned (fn : SVFFunction B R) (s₀ : MemSSA B R) : Prop where
  used : ∀ b, fn.Reachable b → ∀ op ∈ blockOps fn s₀ b, op.getMR ∈ s₀.usedRegs
  pos : ∀ b, fn.Reachable b → ∀ succ ∈ fn.succs b, (fn.getBBPredecessorPos b succ).isSome
  nodup : ∀ b, fn.Reachable b → ((blockOps fn s₀ b).filterMap Op.def?).Nodup
  useOwner : ∀ a b slot, fn.Reachable a → fn.Reachable b → .use slot ∈ blockOps fn s₀ a →
    .use slot ∈ blockOps fn s₀ b → a = b
  defOwner : ∀ a b d, fn.Reachable a → fn.Reachable b → .defn d ∈ blockOps fn s₀ a →
    .defn d ∈ blockOps fn s₀ b → a = b

/-- An operation of a block in the subtree of `b`. -/
def Below (t : DomTree B) (ops : B → List (Op B R)) (b : B) (op : Op B R) : Prop :=
  ∃ c, Reach t.Child b c ∧ op ∈ ops c

/-- The definitions in force at the start of a block, and those at the start of a block below
    it, along the tree. -/
inductive FlowTo (t : DomTree B) (ops : B → List (Op B R)) :
    B → (R → MSSADEF B R) → B → (R → MSSADEF B R) → Prop
  | refl (b : B) (inc : R → MSSADEF B R) : FlowTo t ops b inc b inc
  | step {a b c : B} {inc inc' : R → MSSADEF B R} (hc : t.Child a b)
      (h : FlowTo t ops b (flows inc (ops a)) c inc') : FlowTo t ops a inc c inc'

omit [DecidableEq B] in
theorem FlowTo.reach {t : DomTree B} {ops : B → List (Op B R)} {a c : B}
    {inc inc' : R → MSSADEF B R} (h : FlowTo t ops a inc c inc') : Reach t.Child a c := by
  induction h with
  | refl => exact .refl
  | step hc _ ih => exact .head hc ih

/-- The last use of each field of a block carries the version of the definition in force. -/
def Served (ops : List (Op B R)) (inc : R → MSSADEF B R) (t : MemSSA B R) : Prop :=
  ∀ l₁ slot l₂, ops = l₁ ++ .use slot :: l₂ → .use slot ∉ l₂ →
    ∃ v, t.ver slot = some v ∧ t.resVer (flows inc l₁ slot.getMR) = some v

omit [DecidableEq B] in
theorem Served.mono {ops : List (Op B R)} {inc : R → MSSADEF B R} {t u : MemSSA B R}
    (h : Served ops inc t) (hver : ∀ slot, .use slot ∈ ops → u.ver slot = t.ver slot)
    (hres : ∀ d v, t.resVer d = some v → u.resVer d = some v) : Served ops inc u := by
  intro l1 slot l2 hl hlast
  obtain ⟨v, hv, hd⟩ := h l1 slot l2 hl hlast
  refine ⟨v, (hver slot ?_).trans hv, hres _ v hd⟩
  rw [hl]
  exact mem_append_right l1 mem_cons_self

/-- What `SSARenameBB` does at `b` and below, entered with the definitions `inc` in force. -/
structure Walked (tree : DomTree B) (ops : B → List (Op B R)) (b : B) (inc : R → MSSADEF B R)
    (s t : MemSSA B R) : Prop where
  sets : SameSets s t
  stack : t.mr2VerStackMap = s.mr2VerStackMap
  named : Named t
  verOut : ∀ slot, ¬ Below tree ops b (.use slot) → t.ver slot = s.ver slot
  resOut : ∀ d, ¬ Below tree ops b (.defn d) → t.resVer d = s.resVer d
  resIn : ∀ d, Below tree ops b (.defn d) → t.resVer d ≠ none
  served : ∀ c inc', FlowTo tree ops b inc c inc' → Served (ops c) inc' t

omit [DecidableEq B] [DecidableEq R] in
theorem reachable_below (hfn : fn.WellFormed) {b c : B} (hb : fn.Reachable b)
    (h : Reach hfn.tree.Child b c) : fn.Reachable c := by
  rcases Relation.ReflTransGen.cases_tail h with rfl | ⟨_, _, hc⟩
  · exact hb
  · exact (hfn.node c).mp hc.isNode

section

variable (hfn : fn.WellFormed) {b a : B} (hb : fn.Reachable b) (ha : hfn.tree.Child b a)
  (howner : ∀ x y, fn.Reachable x → fn.Reachable y → op ∈ blockOps fn s₀ x →
    op ∈ blockOps fn s₀ y → x = y)
include hb ha howner

omit [DecidableEq R] in
theorem below_disjoint {c : B} (hc : hfn.tree.Child b c)
    (h : Below hfn.tree (blockOps fn s₀) a op) (h' : Below hfn.tree (blockOps fn s₀) c op) :
    a = c := by
  obtain ⟨x, hx, hopx⟩ := h
  obtain ⟨y, hy, hopy⟩ := h'
  have hxr := reachable_below hfn hb (.head ha hx)
  have hyr := reachable_below hfn hb (.head hc hy)
  have hxy := howner x y hxr hyr hopx hopy
  subst hxy
  exact ha.disjoint hc hx hy

omit [DecidableEq R] in
theorem not_below_child (h : op ∈ blockOps fn s₀ b) :
    ¬ Below hfn.tree (blockOps fn s₀) a op := by
  rintro ⟨x, hx, hop⟩
  have hbx := howner b x hb (reachable_below hfn hb (.head ha hx)) h hop
  subst hbx
  exact ha.not_above hx

end

/-- The invariant of the loop over the children of `b`, of which `l` are left, entered in `s`
    with the definitions `inc` in force. -/
structure Children (tree : DomTree B) (ops : B → List (Op B R)) (cs : List B)
    (inc : R → MSSADEF B R) (s : MemSSA B R) (l : List B) (t : MemSSA B R) : Prop where
  sub : ∀ c ∈ l, c ∈ cs
  nodup : l.Nodup
  sets : SameSets s t
  stack : t.mr2VerStackMap = s.mr2VerStackMap
  named : Named t
  verOut : ∀ slot, (∀ c ∈ cs, c ∉ l → ¬ Below tree ops c (.use slot)) → t.ver slot = s.ver slot
  resOut : ∀ d, (∀ c ∈ cs, c ∉ l → ¬ Below tree ops c (.defn d)) → t.resVer d = s.resVer d
  resIn : ∀ c ∈ cs, c ∉ l → ∀ d, Below tree ops c (.defn d) → t.resVer d ≠ none
  served : ∀ c ∈ cs, c ∉ l → ∀ c' inc', FlowTo tree ops c inc c' inc' → Served (ops c') inc' t

section

variable {hfn : fn.WellFormed} {b a : B} {cs l : List B} {inc : R → MSSADEF B R}
  {s t u : MemSSA B R}

theorem Children.keeps (h : Children hfn.tree (blockOps fn s₀) cs inc s l t)
    (hnone : ∀ c ∈ cs, ∀ d, Below hfn.tree (blockOps fn s₀) c (.defn d) → s.resVer d = none)
    {d : MSSADEF B R} {v : MRVer B R} (hv : s.resVer d = some v) : t.resVer d = some v := by
  rw [h.resOut d fun c hc _ hd => ?_]
  · exact hv
  · exact some_ne_none v (hv.symm.trans (hnone c hc d hd))

section

variable (hops : OpsOwned fn s₀)
include hops

section

variable (hb : fn.Reachable b) (hcs : ∀ c ∈ cs, hfn.tree.Child b c)
  (hnone : ∀ c ∈ cs, ∀ d, Below hfn.tree (blockOps fn s₀) c (.defn d) → s.resVer d = none)
  (h : Children hfn.tree (blockOps fn s₀) cs inc s (a :: l) t)
include hb hcs hnone h

theorem Children.fresh {d : MSSADEF B R} (hd : Below hfn.tree (blockOps fn s₀) a (.defn d)) :
    t.resVer d = none := by
  have ha := h.sub a mem_cons_self
  rw [h.resOut d fun c hc hnc hd' => hnc ?_]
  · exact hnone a ha d hd
  · rw [below_disjoint hfn hb (hcs c hc) (fun x y hx hy => hops.defOwner x y d hx hy)
      (hcs a ha) hd' hd]
    exact mem_cons_self

theorem Children.step (hw : Walked hfn.tree (blockOps fn s₀) a inc t u) :
    Children hfn.tree (blockOps fn s₀) cs inc s l u := by
  have hal := nodup_cons.mp h.nodup
  have hacs := h.sub a mem_cons_self
  have hdone : ∀ c, c ∉ l → c ≠ a → c ∉ a :: l := fun c hc hne hmem =>
    (mem_cons.mp hmem).elim hne hc
  have hext : ∀ d v, t.resVer d = some v → u.resVer d = some v := by
    intro d v hv
    rw [hw.resOut d fun hd => ?_]
    · exact hv
    · exact some_ne_none v (hv.symm.trans (h.fresh hops hb hcs hnone hd))
  constructor
  case sub => exact (forall_mem_cons.mp h.sub).2
  case nodup => exact hal.2
  case sets => exact h.sets.trans hw.sets
  case stack => exact hw.stack.trans h.stack
  case named => exact hw.named
  case verOut =>
    intro slot hslot
    rw [hw.verOut slot (hslot a hacs hal.1)]
    exact h.verOut slot fun c hc hnc => hslot c hc fun hcl => hnc (mem_cons_of_mem a hcl)
  case resOut =>
    intro d hd
    rw [hw.resOut d (hd a hacs hal.1)]
    exact h.resOut d fun c hc hnc => hd c hc fun hcl => hnc (mem_cons_of_mem a hcl)
  case resIn =>
    intro c hc hnc d hd
    by_cases hca : c = a
    · subst hca
      exact hw.resIn d hd
    · obtain ⟨v, hv⟩ := ne_none_iff_exists'.mp (h.resIn c hc (hdone c hnc hca) d hd)
      rw [hext d v hv]
      exact some_ne_none v
  case served =>
    intro c hc hnc c' inc' hflow
    by_cases hca : c = a
    · subst hca
      exact hw.served c' inc' hflow
    · refine (h.served c hc (hdone c hnc hca) c' inc' hflow).mono (fun slot hslot => ?_) hext
      refine hw.verOut slot fun hslot' => hca ?_
      exact below_disjoint hfn hb (hcs c hc) (fun x y hx hy => hops.useOwner x y slot hx hy)
        (hcs a hacs) ⟨c', hflow.reach, hslot⟩ hslot'

end

theorem Children.walked (hb : fn.Reachable b)
    (hcs : ∀ c, c ∈ cs ↔ hfn.tree.Child b c)
    (hnone : ∀ c ∈ cs, ∀ d, Below hfn.tree (blockOps fn s₀) c (.defn d) → t.resVer d = none)
    {m m' : List R} (hblock : OpsRun s m inc (blockOps fn s₀ b) t m')
    (h : Children hfn.tree (blockOps fn s₀) cs (flows inc (blockOps fn s₀ b)) t [] u) :
    Walked hfn.tree (blockOps fn s₀) b inc s { u with mr2VerStackMap := s.mr2VerStackMap } := by
  have hself : ∀ op ∈ blockOps fn s₀ b, Below hfn.tree (blockOps fn s₀) b op :=
    fun op hop => ⟨b, .refl, hop⟩
  have hbelow : ∀ c ∈ cs, ∀ op, Below hfn.tree (blockOps fn s₀) c op →
      Below hfn.tree (blockOps fn s₀) b op :=
    fun c hc op ⟨x, hx, hop⟩ => ⟨x, .head ((hcs c).mp hc) hx, hop⟩
  constructor
  case sets => exact (hblock.sets.trans h.sets).trans rfl
  case stack => rfl
  case named => exact ⟨h.named.made, h.named.distinct, h.named.count⟩
  case verOut =>
    intro slot hslot
    show u.ver slot = _
    rw [h.verOut slot fun c hc _ hop => hslot (hbelow c hc _ hop)]
    exact hblock.verOut slot fun hop => hslot (hself _ hop)
  case resOut =>
    intro d hd
    show u.resVer d = _
    rw [h.resOut d fun c hc _ hop => hd (hbelow c hc _ hop)]
    exact hblock.resOut d fun hop => hd (hself _ hop)
  case resIn =>
    rintro d ⟨x, hx, hd⟩
    show u.resVer d ≠ none
    rcases Relation.ReflTransGen.cases_head hx with rfl | ⟨c, hc, hcx⟩
    · obtain ⟨v, hv⟩ := ne_none_iff_exists'.mp (hblock.resIn d hd)
      rw [h.keeps hnone hv]
      exact some_ne_none v
    · exact h.resIn c ((hcs c).mpr hc) not_mem_nil d ⟨x, hcx, hd⟩
  case served =>
    intro c inc' hflow
    cases hflow with
    | refl =>
      refine Served.mono hblock.uses (fun slot hslot => ?_) fun d v hv => h.keeps hnone hv
      refine h.verOut slot fun c hc _ => ?_
      exact not_below_child hfn hb ((hcs c).mp hc)
        (fun x y hx hy => hops.useOwner x y slot hx hy) hslot
    | step hc hflow => exact h.served _ ((hcs _).mpr hc) not_mem_nil c inc' hflow

end

end

omit [DecidableEq R] in
theorem blockOps_congr {s t : MemSSA B R} (h : SameSets s t) (b : B) :
    blockOps fn t b = blockOps fn s b := by
  have hstmt : stmtOps t b = stmtOps s b := by
    funext st
    unfold stmtOps
    rw [h.eq_mus, h.eq_chis, h.eq_rets]
  have hsucc : succOps fn t b = succOps fn s b := by
    funext succ
    unfold succOps
    rw [h.eq_phis]
  unfold blockOps
  rw [hstmt, hsucc, h.eq_phis]

/-- **The walk below a block.** It stops; it serves every field below the block, gives every
    definition there a version, touches nothing else and leaves the stacks as they were. -/
theorem SSARenameBB_spec (hfn : fn.WellFormed) (hops : OpsOwned fn s₀) {depth : Nat}
    (hdepth : ∀ b, fn.Reachable b → hfn.tree.level b ≤ depth) :
    ∀ (k : Nat) (b : B), fn.Reachable b → depth < hfn.tree.level b + k →
    ∀ (s : MemSSA B R) (inc : R → MSSADEF B R), SameSets s₀ s → Tops s inc → Named s →
      (∀ d, Below hfn.tree (blockOps fn s₀) b (.defn d) → s.resVer d = none) →
      ∃ t, Stops (fun fuel => SSARenameBB fn fuel b s) t ∧
        Walked hfn.tree (blockOps fn s₀) b inc s t := by
  intro k
  induction k with
  | zero =>
    intro b hb hk
    exact absurd (hdepth b hb) (Nat.not_le_of_lt hk)
  | succ k ih =>
    intro b hb hk s inc hsets htops hnamed hnone
    have hcs := hfn.child_iff b hb
    have hcnd := hfn.child_nodup b
    generalize hdt : (fn.loopAndDom.dtBBsMap b).getD [] = cs at hcs hcnd
    -- the block itself
    obtain ⟨t, m, hrun, hblock⟩ := runOps_spec (blockOps fn s₀ b) s [] inc htops hnamed
      (fun op hop => hsets.eq_used ▸ hops.used b hb op hop) (hops.nodup b hb)
      (fun d hd => hnone d ⟨b, .refl, hd⟩)
    have hfresh : ∀ c ∈ cs, ∀ d,
        Below hfn.tree (blockOps fn s₀) c (.defn d) → t.resVer d = none := by
      rintro c hc d ⟨x, hx, hd⟩
      rw [hblock.resOut d fun hd' => ?_]
      · exact hnone d ⟨x, .head ((hcs c).mp hc) hx, hd⟩
      · exact not_below_child hfn hb ((hcs c).mp hc)
          (fun x y hx hy => hops.defOwner x y d hx hy) hd' ⟨x, hx, hd⟩
    -- its children
    have hstep : ∀ a l u,
        Children hfn.tree (blockOps fn s₀) cs (flows inc (blockOps fn s₀ b)) t (a :: l) u →
        ∃ w, Stops (fun fuel => SSARenameBB fn fuel a u) w ∧
          Children hfn.tree (blockOps fn s₀) cs (flows inc (blockOps fn s₀ b)) t l w := by
      intro a l u h
      have ha := (hcs a).mp (h.sub a mem_cons_self)
      have htops' : Tops u (flows inc (blockOps fn s₀ b)) := by
        intro r hr
        rw [h.sets.eq_used] at hr
        obtain ⟨v, st, hst, hv⟩ := hblock.tops r hr
        exact ⟨v, st, h.stack ▸ hst, h.keeps hfresh hv⟩
      have hka : depth < hfn.tree.level a + k := by
        rw [ha.level_eq]
        omega
      obtain ⟨w, hstops, hw⟩ := ih a (reachable_below hfn hb (.single ha)) hka u _
        ((hsets.trans hblock.sets).trans h.sets) htops' h.named
        (fun d hd => h.fresh hops hb (fun c hc => (hcs c).mp hc) hfresh hd)
      exact ⟨w, hstops, h.step hops hb (fun c hc => (hcs c).mp hc) hfresh hw⟩
    obtain ⟨u, ⟨n, hn⟩, hu⟩ := stops_foldlM hstep cs t
      ⟨fun _ hc => hc, hcnd, SameSets.refl t, rfl, hblock.named, fun _ _ => rfl,
        fun _ _ => rfl, fun c hc hnc => absurd hc hnc, fun c hc hnc => absurd hc hnc⟩
    -- the stacks
    obtain ⟨k', hm, hpops⟩ := hblock.pops
    rw [append_nil] at hm
    subst hm
    refine ⟨_, ⟨n + 1, fun fuel hf => ?_⟩, hu.walked hops hb hcs hfresh hblock⟩
    obtain ⟨fuel, rfl⟩ : ∃ f, fuel = f + 1 := ⟨fuel - 1, by omega⟩
    have hrun' : (blockOps fn s b).foldlM runOp (s, []) = some (t, m) := by
      rw [blockOps_congr hsets]
      exact hrun
    have hchildren : cs.foldlM (fun s dtbb => SSARenameBB fn fuel dtbb s) t = some u :=
      hn fuel (by omega)
    show SSARenameBB fn (fuel + 1) b s = _
    rw [SSARenameBB_ops (hops.pos b hb) hrun', hdt, hchildren]
    exact popVers_eq hpops u hu.stack

end MemSSA

end SvfMemSSA
