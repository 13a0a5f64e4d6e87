import SvfModel.ReachingDefProofs
import SvfModel.LoopAndDomInfoProofs

/-!
# Memory SSA

`buildMemSSA` annotates one function: `createMUCHI` puts a mu on every read and a chi on every
write of a memory region, `insertPHI` puts phis where the iterated dominance frontiers of the
chis are, and `SSARename` walks the dominator tree with one stack of versions per region.

The functions and what they read come first, then the three passes as the code runs them, then
what the first two leave behind: **`createMUCHI_spec`** (every region of a reachable statement
is a used one, its chis are recorded) and **`insertPHI_spec`** (the phis are closed under
dominance frontiers, so they are a `Placement`). The renaming is the next module.
-/

namespace SvfMemSSA

open SvfScc SvfLoop SvfDominance SvfLoopAndDomInfo List
open Function (update update_idem update_of_ne update_self)

/-- What the passes see of a block, in order: the loads and stores among the statements of its
    instructions, and behind those of an instruction the instruction itself if it is a call site
    that is no intrinsic, or else if it returns. The regions are the memory region generator's;
    where it has no set for a call site the set is empty. -/
inductive Stmt (R : Type)
  | load (mrSet : List R)
  | store (mrSet : List R)
  | callSite (refMRSet modMRSet : List R)
  | ret

/-- A function with what LLVM knows of it. -/
structure SVFFunction (B R : Type) extends FunctionCFG B where
  preds : B → List B
  stmts : B → List (Stmt R)
  isNotRet : Bool
  loopAndDom : SVFLoopAndDomInfo B

/-- A mu: `LoadMU` or `CallMU` at a statement of a block, `RetMU`. -/
inductive MSSAMU (B R : Type)
  | stmt (bb : B) (i : Nat) (mr : R)
  | ret (mr : R)
  deriving DecidableEq

inductive MSSADEF (B R : Type)
  | chi (bb : B) (i : Nat) (mr : R)
  | entry (mr : R)
  | phi (bb : B) (mr : R)
  deriving DecidableEq

/-- A version of a region and the definition it was made for. -/
structure MRVer (B R : Type) where
  mr : R
  version : Nat
  defn : MSSADEF B R

/-- The fields that are given a version: those of the mus, the operands of the chis and the
    operands of the phis. -/
inductive Slot (B R : Type)
  | mu (mu : MSSAMU B R)
  | op (chi : MSSADEF B R)
  | phiOp (phi : MSSADEF B R) (pos : Nat)
  deriving DecidableEq

variable {B R : Type}

namespace MSSAMU

def getMR : MSSAMU B R → R
  | .stmt _ _ mr => mr
  | .ret mr => mr

end MSSAMU

namespace MSSADEF

def getMR : MSSADEF B R → R
  | .chi _ _ mr => mr
  | .entry mr => mr
  | .phi _ mr => mr

end MSSADEF

/-- The annotations of one function. An absent entry of a map from statements or blocks is the
    empty set; a vector that is used as a stack is a list with its end first. -/
structure MemSSA (B R : Type) where
  muSetMap : B → Nat → List (MSSAMU B R)
  chiSetMap : B → Nat → List (MSSADEF B R)
  bb2PhiSetMap : B → List (MSSADEF B R)
  entryChiSet : List (MSSADEF B R)
  returnMuSet : List (MSSAMU B R)
  mr2VerStackMap : R → Option (List (MRVer B R))
  mr2CounterMap : R → Option Nat
  usedRegs : List R
  reg2BBMap : R → List B
  varKills : List R
  ver : Slot B R → Option (MRVer B R)
  resVer : MSSADEF B R → Option (MRVer B R)

variable [DecidableEq B] [DecidableEq R]

namespace SVFFunction

def hasReturn (fn : SVFFunction B R) : Bool := !fn.isNotRet

def getBBPredecessorPos (fn : SVFFunction B R) (bb succbb : B) : Option Nat :=
  (fn.preds succbb).findIdx? fun PredBB => PredBB = bb

end SVFFunction

namespace MemSSA

-- ── Creating mus and chis

def collectRegUses (mr : R) (s : MemSSA B R) : MemSSA B R :=
  if mr ∈ s.varKills then s else { s with usedRegs := s.usedRegs.insert mr }

def collectRegDefs (bb : B) (mr : R) (s : MemSSA B R) : MemSSA B R :=
  { s with
    varKills := s.varKills.insert mr
    reg2BBMap := update s.reg2BBMap mr (bb :: s.reg2BBMap mr) }

def AddMU (bb : B) (i : Nat) (mr : R) (s : MemSSA B R) : MemSSA B R :=
  collectRegUses mr
    { s with
      muSetMap := update s.muSetMap bb
        (update (s.muSetMap bb) i (s.muSetMap bb i ++ [.stmt bb i mr])) }

def AddCHI (bb : B) (i : Nat) (mr : R) (s : MemSSA B R) : MemSSA B R :=
  collectRegDefs bb mr <| collectRegUses mr
    { s with
      chiSetMap := update s.chiSetMap bb
        (update (s.chiSetMap bb) i (s.chiSetMap bb i ++ [.chi bb i mr])) }

/-- The mus and chis of one statement. -/
def annotate (bb : B) (s : MemSSA B R) (st : Stmt R × Nat) : MemSSA B R :=
  match st.1 with
  | .load mrSet => mrSet.foldl (fun s mr => s.AddMU bb st.2 mr) s
  | .store mrSet => mrSet.foldl (fun s mr => s.AddCHI bb st.2 mr) s
  | .callSite refMRSet modMRSet =>
    modMRSet.foldl (fun s mr => s.AddCHI bb st.2 mr)
      (refMRSet.foldl (fun s mr => s.AddMU bb st.2 mr) s)
  | .ret => s

/-- The mus and chis of one block. -/
def annotateBB (fn : SVFFunction B R) (s : MemSSA B R) (bb : B) : MemSSA B R :=
  (fn.stmts bb).zipIdx.foldl (annotate bb) { s with varKills := [] }

def newSSAName (s : MemSSA B R) (mr : R) (d : MSSADEF B R) : Option (MRVer B R × MemSSA B R) := do
  let version ← s.mr2CounterMap mr
  let stack ← s.mr2VerStackMap mr
  let mrVer : MRVer B R := ⟨mr, version, d⟩
  some (mrVer,
    { s with
      mr2CounterMap := update s.mr2CounterMap mr (some (version + 1))
      mr2VerStackMap := update s.mr2VerStackMap mr (some (mrVer :: stack)) })

def setVer (s : MemSSA B R) (slot : Slot B R) (v : MRVer B R) : MemSSA B R :=
  { s with ver := update s.ver slot (some v) }

def setResVer (s : MemSSA B R) (d : MSSADEF B R) (v : MRVer B R) : MemSSA B R :=
  { s with resVer := update s.resVer d (some v) }

def createEntryCHI (fn : SVFFunction B R) (s : MemSSA B R) (mr : R) : Option (MemSSA B R) := do
  let s := { s with
    mr2CounterMap := update s.mr2CounterMap mr (some 0)
    mr2VerStackMap := update s.mr2VerStackMap mr (some []) }
  let chi : MSSADEF B R := .entry mr
  let (opVer, s) ← s.newSSAName mr chi
  let s := s.setVer (.op chi) opVer
  let (resVer, s) ← s.newSSAName mr chi
  let s := s.setResVer chi resVer
  let s := { s with entryChiSet := s.entryChiSet ++ [chi] }
  some (if fn.hasReturn then { s with returnMuSet := s.returnMuSet ++ [.ret mr] } else s)

def createMUCHI (fn : SVFFunction B R) (s : MemSSA B R) : Option (MemSSA B R) :=
  let s := fn.loopAndDom.reachableBBs.foldl (annotateBB fn) s
  s.usedRegs.foldlM (createEntryCHI fn) s

-- ── Inserting phis

def AddMSSAPHI (bb : B) (mr : R) (s : MemSSA B R) : MemSSA B R :=
  { s with bb2PhiSetMap :=
      update s.bb2PhiSetMap bb (s.bb2PhiSetMap bb ++ [.phi bb mr]) }

/-- The variables of the loop over the frontiers. -/
structure PhiWork (B R : Type) where
  mssa : MemSSA B R
  bb2MRSetMap : B → List R
  bbs : List B

/-- One block of a frontier. -/
def phiAt (mr : R) (w : PhiWork B R) (pbb : B) : PhiWork B R :=
  if mr ∈ w.bb2MRSetMap pbb then w
  else
    { mssa := w.mssa.AddMSSAPHI pbb mr
      bb2MRSetMap := update w.bb2MRSetMap pbb (mr :: w.bb2MRSetMap pbb)
      bbs := pbb :: w.bbs }

section

variable (fn : SVFFunction B R)

/-- The body of the `while` loop. A block without an entry in the frontier map is passed over
    with a warning. -/
def phiBody (mr : R) (w : PhiWork B R) : Option (PhiWork B R) :=
  match w.bbs with
  | [] => none
  | bb :: bbs =>
    match fn.loopAndDom.dfBBsMap bb with
    | none => some { w with bbs := bbs }
    | some domSet => some (domSet.foldl (phiAt mr) { w with bbs := bbs })

def phisOf (fuel : Nat) (w : PhiWork B R) (mr : R) : Option (PhiWork B R) :=
  whileM (fun w => !w.bbs.isEmpty) (phiBody fn mr) fuel
    { w with bbs := w.mssa.reg2BBMap mr }

def insertPHI (fuel : Nat) (s : MemSSA B R) : Option (MemSSA B R) :=
  (s.usedRegs.foldlM (phisOf fn fuel)
    { mssa := s, bb2MRSetMap := fun _ => [], bbs := [] }).map PhiWork.mssa

end

-- ── Renaming

def getTopStackVer (s : MemSSA B R) (mr : R) : Option (MRVer B R) :=
  (s.mr2VerStackMap mr).bind List.head?

def RenameMuSet (muSet : List (MSSAMU B R)) (s : MemSSA B R) : Option (MemSSA B R) :=
  muSet.foldlM (fun s mu => do
    let v ← s.getTopStackVer mu.getMR
    some (s.setVer (.mu mu) v)) s

def RenameChiSet (chiSet : List (MSSADEF B R)) (s : MemSSA B R × List R) :
    Option (MemSSA B R × List R) :=
  chiSet.foldlM (fun (s, memRegs) chi => do
    let v ← s.getTopStackVer chi.getMR
    let s := s.setVer (.op chi) v
    let (v, s) ← s.newSSAName chi.getMR chi
    some (s.setResVer chi v, chi.getMR :: memRegs)) s

def RenamePhiRes (phiSet : List (MSSADEF B R)) (s : MemSSA B R × List R) :
    Option (MemSSA B R × List R) :=
  phiSet.foldlM (fun (s, memRegs) phi => do
    let (v, s) ← s.newSSAName phi.getMR phi
    some (s.setResVer phi v, phi.getMR :: memRegs)) s

def RenamePhiOps (phiSet : List (MSSADEF B R)) (pos : Nat) (s : MemSSA B R) : Option (MemSSA B R) :=
  phiSet.foldlM (fun s phi => do
    let v ← s.getTopStackVer phi.getMR
    some (s.setVer (.phiOp phi pos) v)) s

/-- The mus and chis of one statement. -/
def renameStmt (bb : B) (s : MemSSA B R × List R) (st : Stmt R × Nat) :
    Option (MemSSA B R × List R) :=
  match st.1 with
  | .load _ => (RenameMuSet (s.1.muSetMap bb st.2) s.1).map fun t => (t, s.2)
  | .store _ => RenameChiSet (s.1.chiSetMap bb st.2) s
  | .callSite _ _ => do
      let t ← RenameMuSet (s.1.muSetMap bb st.2) s.1
      RenameChiSet (t.chiSetMap bb st.2) (t, s.2)
  | .ret => (RenameMuSet s.1.returnMuSet s.1).map fun t => (t, s.2)

/-- The phi operands of one successor. -/
def renameSucc (fn : SVFFunction B R) (bb : B) (s : MemSSA B R) (succ : B) :
    Option (MemSSA B R) := do
  let pos ← fn.getBBPredecessorPos bb succ
  RenamePhiOps (s.bb2PhiSetMap succ) pos s

def popVer (s : MemSSA B R) (mr : R) : Option (MemSSA B R) :=
  match s.mr2VerStackMap mr with
  | some (_ :: stack) =>
    some { s with mr2VerStackMap := update s.mr2VerStackMap mr (some stack) }
  | _ => none

def SSARenameBB (fn : SVFFunction B R) : Nat → B → MemSSA B R → Option (MemSSA B R)
  | 0, _, _ => none
  | fuel + 1, bb, s => do
      let r ← RenamePhiRes (s.bb2PhiSetMap bb) (s, [])
      let (s, memRegs) ← (fn.stmts bb).zipIdx.foldlM (renameStmt bb) r
      let s ← (fn.succs bb).foldlM (renameSucc fn bb) s
      let s ← ((fn.loopAndDom.dtBBsMap bb).getD []).foldlM
        (fun s dtbb => SSARenameBB fn fuel dtbb s) s
      memRegs.foldlM popVer s

def SSARename (fn : SVFFunction B R) (fuel : Nat) (s : MemSSA B R) : Option (MemSSA B R) :=
  SSARenameBB fn fuel fn.entry s

def buildMemSSA (fn : SVFFunction B R) (s : MemSSA B R) (fuel : Nat) : Option (MemSSA B R) := do
  let s ← createMUCHI fn { s with usedRegs := [], reg2BBMap := fun _ => [] }
  let s ← insertPHI fn fuel s
  SSARename fn fuel s

-- ── What the statements ask for

end MemSSA

/-- The regions that a statement puts a mu on. -/
def Stmt.muRegs : Stmt R → List R
  | .load mrSet => mrSet
  | .callSite refMRSet _ => refMRSet
  | _ => []

/-- The regions that a statement puts a chi on. -/
def Stmt.chiRegs : Stmt R → List R
  | .store mrSet => mrSet
  | .callSite _ modMRSet => modMRSet
  | _ => []

/-- What `f` says of the `i`-th statement of a block, if there is one. -/
def SVFFunction.regsAt (fn : SVFFunction B R) (f : Stmt R → List R) (b : B) (i : Nat) : List R :=
  ((fn.stmts b)[i]?.map f).getD []

namespace MemSSA

/-- A list at one statement, nothing elsewhere. -/
def only (bb : B) (i : Nat) (l : List R) (b : B) (j : Nat) : List R :=
  if b = bb ∧ j = i then l else []

structure Adds (mu chi : B → Nat → List R) (s t : MemSSA B R) : Prop where
  mus : ∀ b i, t.muSetMap b i = s.muSetMap b i ++ (mu b i).map (.stmt b i)
  chis : ∀ b i, t.chiSetMap b i = s.chiSetMap b i ++ (chi b i).map (.chi b i)
  used : ∀ r, r ∈ t.usedRegs ↔ r ∈ s.usedRegs ∨ ∃ b i, r ∈ mu b i ∨ r ∈ chi b i
  defs : ∀ r b, b ∈ t.reg2BBMap r ↔ b ∈ s.reg2BBMap r ∨ ∃ i, r ∈ chi b i
  kills : ∀ r ∈ t.varKills, r ∈ t.usedRegs
  rest : t = { s with
    muSetMap := t.muSetMap, chiSetMap := t.chiSetMap, usedRegs := t.usedRegs
    reg2BBMap := t.reg2BBMap, varKills := t.varKills }

section

omit [DecidableEq B] [DecidableEq R]

theorem Adds.refl {s : MemSSA B R} (hk : ∀ r ∈ s.varKills, r ∈ s.usedRegs) :
    Adds (fun _ _ => []) (fun _ _ => []) s s where
  mus := fun _ _ => (append_nil _).symm
  chis := fun _ _ => (append_nil _).symm
  used := fun r => by simp
  defs := fun r b => by simp
  kills := hk
  rest := rfl

theorem Adds.trans {mu chi mu' chi' : B → Nat → List R} {s t u : MemSSA B R}
    (h : Adds mu chi s t) (h' : Adds mu' chi' t u) :
    Adds (fun b i => mu b i ++ mu' b i) (fun b i => chi b i ++ chi' b i) s u where
  mus := fun b i => by rw [h'.mus, h.mus, map_append, append_assoc]
  chis := fun b i => by rw [h'.chis, h.chis, map_append, append_assoc]
  used := by
    intro r
    rw [h'.used, h.used, or_assoc, ← exists_or]
    simp only [← exists_or, mem_append]
    refine or_congr_right (exists_congr fun b => exists_congr fun i => ?_)
    tauto
  defs := by
    intro r b
    rw [h'.defs, h.defs, or_assoc, ← exists_or]
    simp only [mem_append]
  kills := h'.kills
  rest := by
    have hrest := h'.rest
    rw [h.rest] at hrest
    exact hrest

theorem Adds.congr {mu chi mu' chi' : B → Nat → List R} {s t : MemSSA B R} (h : Adds mu chi s t)
    (hmu : ∀ b i, mu b i = mu' b i) (hchi : ∀ b i, chi b i = chi' b i) : Adds mu' chi' s t := by
  have hmu' : mu = mu' := funext fun b => funext (hmu b)
  have hchi' : chi = chi' := funext fun b => funext (hchi b)
  rw [← hmu', ← hchi']
  exact h

theorem foldl_adds {A : Type} {f : MemSSA B R → A → MemSSA B R} {mu chi : A → B → Nat → List R}
    (hf : ∀ s a, (∀ r ∈ s.varKills, r ∈ s.usedRegs) → Adds (mu a) (chi a) s (f s a)) :
    ∀ (l : List A) (s : MemSSA B R), (∀ r ∈ s.varKills, r ∈ s.usedRegs) →
      Adds (fun b i => l.flatMap fun a => mu a b i) (fun b i => l.flatMap fun a => chi a b i) s
        (l.foldl f s) := by
  intro l
  induction l with
  | nil => exact fun s hk => .refl hk
  | cons a l ih =>
    intro s hk
    have hstep := hf s a hk
    exact hstep.trans (ih (f s a) hstep.kills)

end

section

omit [DecidableEq R]

theorem flatMap_only (bb : B) (i : Nat) (l : List R) (b : B) (j : Nat) :
    (l.flatMap fun a => only bb i [a] b j) = only bb i l b j := by
  unfold only
  by_cases h : b = bb ∧ j = i
  · simp only [if_pos h, flatMap_singleton']
  · simp [if_neg h]

theorem mem_only {bb : B} {i : Nat} {l : List R} {b : B} {j : Nat} {r : R} :
    r ∈ only bb i l b j ↔ (b = bb ∧ j = i) ∧ r ∈ l := by
  unfold only
  by_cases h : b = bb ∧ j = i
  · rw [if_pos h, and_iff_right h]
  · rw [if_neg h]
    simp [h]

theorem update_update_append {D : Type} (m : B → Nat → List D) (f : B → Nat → R → D) (bb : B)
    (i : Nat) (mr : R) (b : B) (j : Nat) :
    update m bb (update (m bb) i (m bb i ++ [f bb i mr])) b j =
      m b j ++ (only bb i [mr] b j).map (f b j) := by
  unfold only
  by_cases hb : b = bb
  · subst hb
    rw [update_self]
    by_cases hj : j = i
    · subst hj
      simp
    · simp [hj]
  · simp [hb]

end

omit [DecidableEq B] in
theorem collectRegUses_eq (mr : R) (s : MemSSA B R) :
    collectRegUses mr s = { s with usedRegs := (collectRegUses mr s).usedRegs } := by
  unfold collectRegUses
  split
  · rfl
  · rfl

section

variable {s : MemSSA B R} (hk : ∀ r ∈ s.varKills, r ∈ s.usedRegs)
include hk

omit [DecidableEq B] in
theorem mem_collectRegUses (mr r : R) : r ∈ (collectRegUses mr s).usedRegs ↔ r ∈ s.usedRegs ∨ r = mr := by
  unfold collectRegUses
  by_cases h : mr ∈ s.varKills
  · rw [if_pos h]
    refine ⟨.inl, fun h' => h'.elim id fun he => ?_⟩
    rw [he]
    exact hk mr h
  · rw [if_neg h]
    show r ∈ s.usedRegs.insert mr ↔ _
    rw [mem_insert_iff, or_comm]

theorem AddMU_adds (bb : B) (i : Nat) (mr : R) :
    Adds (only bb i [mr]) (fun _ _ => []) s (s.AddMU bb i mr) := by
  have hused := mem_collectRegUses (s := { s with
    muSetMap := update s.muSetMap bb
      (update (s.muSetMap bb) i (s.muSetMap bb i ++ [.stmt bb i mr])) }) hk mr
  unfold AddMU
  rw [collectRegUses_eq]
  refine ⟨fun b j => ?_, fun b j => (append_nil _).symm, fun r => ?_, fun r b => ?_,
    fun r hr => ?_, rfl⟩
  · exact update_update_append s.muSetMap .stmt bb i mr b j
  · rw [hused]
    simp only [mem_only, mem_singleton, not_mem_nil, or_false]
    refine or_congr_right ⟨fun he => ⟨bb, i, ⟨rfl, rfl⟩, he⟩, fun ⟨_, _, _, he⟩ => he⟩
  · simp
  · exact (hused r).mpr (.inl (hk r hr))

theorem AddCHI_adds (bb : B) (i : Nat) (mr : R) :
    Adds (fun _ _ => []) (only bb i [mr]) s (s.AddCHI bb i mr) := by
  have hused := mem_collectRegUses (s := { s with
    chiSetMap := update s.chiSetMap bb
      (update (s.chiSetMap bb) i (s.chiSetMap bb i ++ [.chi bb i mr])) }) hk mr
  unfold AddCHI collectRegDefs
  rw [collectRegUses_eq]
  refine ⟨fun b j => (append_nil _).symm, fun b j => ?_, fun r => ?_, fun r b => ?_,
    fun r hr => ?_, rfl⟩
  · exact update_update_append s.chiSetMap .chi bb i mr b j
  · rw [hused]
    simp only [mem_only, mem_singleton, not_mem_nil, false_or]
    refine or_congr_right ⟨fun he => ⟨bb, i, ⟨rfl, rfl⟩, he⟩, fun ⟨_, _, _, he⟩ => he⟩
  · show b ∈ update s.reg2BBMap mr (bb :: s.reg2BBMap mr) r ↔ _
    simp only [mem_only, mem_singleton]
    by_cases hr : r = mr
    · subst hr
      rw [update_self, mem_cons, or_comm]
      refine or_congr_right ⟨fun he => ⟨i, ⟨he, rfl⟩, rfl⟩, fun ⟨_, ⟨he, _⟩, _⟩ => he⟩
    · rw [update_of_ne hr]
      simp [hr]
  · refine (hused r).mpr ?_
    rcases mem_insert_iff.mp hr with rfl | hr
    · exact .inr rfl
    · exact .inl (hk r hr)

theorem AddMUs_adds (bb : B) (i : Nat) (l : List R) :
    Adds (only bb i l) (fun _ _ => []) s (l.foldl (fun s mr => s.AddMU bb i mr) s) :=
  (foldl_adds (fun _ mr hk => AddMU_adds hk bb i mr) l s hk).congr (flatMap_only bb i l)
    fun _ _ => flatMap_eq_nil_iff.mpr fun _ _ => rfl

theorem AddCHIs_adds (bb : B) (i : Nat) (l : List R) :
    Adds (fun _ _ => []) (only bb i l) s (l.foldl (fun s mr => s.AddCHI bb i mr) s) :=
  (foldl_adds (fun _ mr hk => AddCHI_adds hk bb i mr) l s hk).congr
    (fun _ _ => flatMap_eq_nil_iff.mpr fun _ _ => rfl) (flatMap_only bb i l)

theorem annotate_adds (bb : B) (st : Stmt R × Nat) :
    Adds (only bb st.2 st.1.muRegs) (only bb st.2 st.1.chiRegs) s (annotate bb s st) := by
  have hnil : ∀ b i, [] = only bb st.2 ([] : List R) b i := by
    intro b i
    exact (ite_self _).symm
  obtain ⟨st, i⟩ := st
  cases st with
  | load mrSet => exact (AddMUs_adds hk bb i mrSet).congr (fun _ _ => rfl) hnil
  | store mrSet => exact (AddCHIs_adds hk bb i mrSet).congr hnil fun _ _ => rfl
  | callSite refMRSet modMRSet =>
    have hmus := AddMUs_adds hk bb i refMRSet
    exact (hmus.trans (AddCHIs_adds hmus.kills bb i modMRSet)).congr
      (fun _ _ => append_nil _) fun _ _ => nil_append _
  | ret => exact (Adds.refl hk).congr hnil hnil

end

omit [DecidableEq R] in
theorem flatMap_zipIdx_only (f : Stmt R → List R) (bb b : B) (j : Nat) :
    ∀ (l : List (Stmt R)) (k : Nat), ((l.zipIdx k).flatMap fun st => only bb st.2 (f st.1) b j) =
        if b = bb ∧ k ≤ j then (l[j - k]?.map f).getD [] else [] := by
  intro l
  induction l with
  | nil => exact fun k => (ite_self _).symm
  | cons st l ih =>
    intro k
    rw [zipIdx_cons, flatMap_cons, ih]
    unfold only
    by_cases hb : b = bb
    · rcases Nat.lt_trichotomy j k with hlt | rfl | hgt
      · rw [if_neg (by omega), if_neg (by omega), if_neg (by omega)]
        rfl
      · rw [if_pos ⟨hb, rfl⟩, if_neg (by omega), if_pos ⟨hb, le_rfl⟩, Nat.sub_self]
        exact append_nil _
      · rw [if_neg (by omega), if_pos ⟨hb, hgt⟩, if_pos ⟨hb, hgt.le⟩]
        have hsub : j - k = (j - (k + 1)) + 1 := by omega
        rw [hsub, getElem?_cons_succ]
        rfl
    · rw [if_neg (fun h => hb h.1), if_neg (fun h => hb h.1), if_neg (fun h => hb h.1)]
      rfl

theorem annotateBB_adds (fn : SVFFunction B R) (bb : B) {s : MemSSA B R} :
    Adds (fun b j => if b = bb then fn.regsAt Stmt.muRegs b j else [])
      (fun b j => if b = bb then fn.regsAt Stmt.chiRegs b j else []) s (annotateBB fn s bb) := by
  have hclear : Adds (fun _ _ => []) (fun _ _ => []) s { s with varKills := [] } :=
    ⟨fun _ _ => (append_nil _).symm, fun _ _ => (append_nil _).symm,
      fun r => by simp, fun r b => by simp, nofun, rfl⟩
  have hstmts := foldl_adds (fun s st hk => annotate_adds (s := s) hk bb st)
    (fn.stmts bb).zipIdx _ hclear.kills
  have hat : ∀ (f : Stmt R → List R) (b : B) (j : Nat),
      ([] ++ ((fn.stmts bb).zipIdx.flatMap fun st => only bb st.2 (f st.1) b j)) =
        if b = bb then fn.regsAt f b j else [] := by
    intro f b j
    rw [nil_append, flatMap_zipIdx_only, Nat.sub_zero]
    by_cases hb : b = bb
    · subst hb
      rw [if_pos ⟨rfl, Nat.zero_le j⟩, if_pos rfl]
      rfl
    · rw [if_neg hb, if_neg fun h => hb h.1]
  exact (hclear.trans hstmts).congr (hat Stmt.muRegs) (hat Stmt.chiRegs)

omit [DecidableEq R] in
theorem flatMap_blocks (g : B → Nat → List R) (b : B) (j : Nat) : ∀ l : List B, l.Nodup →
      (l.flatMap fun bb => if b = bb then g b j else []) = if b ∈ l then g b j else [] := by
  intro l
  induction l with
  | nil => exact fun _ => rfl
  | cons bb l ih =>
    intro hnd
    rw [nodup_cons] at hnd
    rw [flatMap_cons, ih hnd.2]
    by_cases hb : b = bb
    · rw [if_pos hb, if_neg (hb ▸ hnd.1), if_pos (hb ▸ mem_cons_self), append_nil]
    · rw [if_neg hb, nil_append]
      simp only [mem_cons, hb, false_or]

theorem annotateBBs_adds (fn : SVFFunction B R) (hnd : fn.loopAndDom.reachableBBs.Nodup)
    (hne : fn.loopAndDom.reachableBBs ≠ []) (s : MemSSA B R) :
    Adds (fun b j => if b ∈ fn.loopAndDom.reachableBBs then fn.regsAt Stmt.muRegs b j else [])
      (fun b j => if b ∈ fn.loopAndDom.reachableBBs then fn.regsAt Stmt.chiRegs b j else []) s
      (fn.loopAndDom.reachableBBs.foldl (annotateBB fn) s) := by
  have hstart : fn.loopAndDom.reachableBBs.foldl (annotateBB fn) s =
      fn.loopAndDom.reachableBBs.foldl (annotateBB fn) { s with varKills := [] } := by
    cases hbbs : fn.loopAndDom.reachableBBs with
    | nil => exact absurd hbbs hne
    | cons bb bbs => rfl
  have hclear : Adds (fun _ _ => []) (fun _ _ => []) s { s with varKills := [] } :=
    ⟨fun _ _ => (append_nil _).symm, fun _ _ => (append_nil _).symm,
      fun r => by simp, fun r b => by simp, nofun, rfl⟩
  have hblocks := foldl_adds (fun s bb _ => annotateBB_adds fn bb (s := s))
    fn.loopAndDom.reachableBBs _ hclear.kills
  rw [hstart]
  exact (hclear.trans hblocks).congr (fun b j => flatMap_blocks (fn.regsAt Stmt.muRegs) b j _ hnd)
    (fun b j => flatMap_blocks (fn.regsAt Stmt.chiRegs) b j _ hnd)

-- ── The entry chis

/-- The two versions of an entry chi. -/
def entryVer (version : Nat) (r : R) : MRVer B R := ⟨r, version, .entry r⟩

/-- The operands of the chis, with those of the entry chis of `l`. -/
def enteredOps (l : List R) (ver : Slot B R → Option (MRVer B R)) : Slot B R → Option (MRVer B R)
  | .op (.entry r) => if r ∈ l then some (entryVer 0 r) else ver (.op (.entry r))
  | slot => ver slot

def enteredRes (l : List R) (resVer : MSSADEF B R → Option (MRVer B R)) :
    MSSADEF B R → Option (MRVer B R)
  | .entry r => if r ∈ l then some (entryVer 1 r) else resVer (.entry r)
  | d => resVer d

def entered (fn : SVFFunction B R) (s : MemSSA B R) (l : List R) : MemSSA B R :=
  { s with
    mr2CounterMap := fun r => if r ∈ l then some 2 else s.mr2CounterMap r
    mr2VerStackMap := fun r => if r ∈ l then some [entryVer 1 r, entryVer 0 r]
      else s.mr2VerStackMap r
    ver := enteredOps l s.ver
    resVer := enteredRes l s.resVer
    entryChiSet := s.entryChiSet ++ l.map .entry
    returnMuSet := s.returnMuSet ++ if fn.hasReturn then l.map .ret else [] }

omit [DecidableEq B] in
theorem update_eq_mem {V : Type} (m : R → V) (mr : R) (v : R → V) :
    update m mr (v mr) = fun r => if r ∈ [mr] then v r else m r := by
  funext r
  by_cases hr : r = mr
  · subst hr
    simp
  · simp [hr]

theorem update_enteredOps (ver : Slot B R → Option (MRVer B R)) (mr : R) :
    update ver (.op (.entry mr)) (some (entryVer 0 mr)) = enteredOps [mr] ver := by
  funext slot
  by_cases h : slot = .op (.entry mr)
  · subst h
    rw [update_self, enteredOps, if_pos mem_cons_self]
  · rw [update_of_ne h]
    fun_cases enteredOps with
    | case1 r hr =>
      rw [mem_singleton.mp hr] at h
      exact absurd rfl h
    | case2 => rfl
    | case3 => rfl

theorem update_enteredRes (resVer : MSSADEF B R → Option (MRVer B R)) (mr : R) :
    update resVer (.entry mr) (some (entryVer 1 mr)) = enteredRes [mr] resVer := by
  funext d
  by_cases h : d = .entry mr
  · subst h
    rw [update_self, enteredRes, if_pos mem_cons_self]
  · rw [update_of_ne h]
    fun_cases enteredRes with
    | case1 r hr => exact absurd (congrArg MSSADEF.entry (mem_singleton.mp hr)) h
    | case2 => rfl
    | case3 => rfl

theorem createEntryCHI_eq (fn : SVFFunction B R) (s : MemSSA B R) (mr : R) :
    createEntryCHI fn s mr = some (entered fn s [mr]) := by
  have hver := update_enteredOps s.ver mr
  have hres := update_enteredRes s.resVer mr
  have hcounter := update_eq_mem s.mr2CounterMap mr fun _ => some 2
  have hstack := update_eq_mem s.mr2VerStackMap mr
    fun r => some [entryVer 1 r, entryVer (B := B) 0 r]
  unfold createEntryCHI newSSAName setVer setResVer
  simp only [update_self, Option.bind_eq_bind, Option.bind_some, Option.some.injEq, update_idem]
  unfold entered
  by_cases hret : fn.hasReturn
  · rw [if_pos hret, if_pos hret, MemSSA.mk.injEq]
    exact ⟨rfl, rfl, rfl, rfl, rfl, hstack, hcounter, rfl, rfl, rfl, hver, hres⟩
  · rw [if_neg hret, if_neg hret, append_nil, MemSSA.mk.injEq]
    exact ⟨rfl, rfl, rfl, rfl, rfl, hstack, hcounter, rfl, rfl, rfl, hver, hres⟩

section

omit [DecidableEq B]

theorem ite_mem_cons {V : Type} (mr : R) (l : List R) (v m : R → V) :
    (fun r => if r ∈ l then v r else if r ∈ [mr] then v r else m r) =
      fun r => if r ∈ mr :: l then v r else m r := by
  funext r
  by_cases hl : r ∈ l
  · rw [if_pos hl, if_pos (mem_cons_of_mem mr hl)]
  · rw [if_neg hl]
    simp only [mem_cons, not_mem_nil, or_false, hl]

theorem enteredOps_cons (mr : R) (l : List R) (ver : Slot B R → Option (MRVer B R)) :
    enteredOps l (enteredOps [mr] ver) = enteredOps (mr :: l) ver := by
  have hentry := ite_mem_cons mr l (fun r => some (entryVer (B := B) 0 r))
    fun r => ver (.op (.entry r))
  funext slot
  rcases slot with mu | (_ | r | _) | phi
  · rfl
  · rfl
  · exact congrFun hentry r
  · rfl
  · rfl

theorem enteredRes_cons (mr : R) (l : List R) (resVer : MSSADEF B R → Option (MRVer B R)) :
    enteredRes l (enteredRes [mr] resVer) = enteredRes (mr :: l) resVer := by
  have hentry := ite_mem_cons mr l (fun r => some (entryVer (B := B) 1 r))
    fun r => resVer (.entry r)
  funext d
  rcases d with _ | r | _
  · rfl
  · exact congrFun hentry r
  · rfl

theorem entered_cons (fn : SVFFunction B R) (s : MemSSA B R) (mr : R) (l : List R) :
    entered fn (entered fn s [mr]) l = entered fn s (mr :: l) := by
  have hrets : (s.returnMuSet ++ if fn.hasReturn then [.ret mr] else []) ++
      (if fn.hasReturn then l.map .ret else []) =
      s.returnMuSet ++ if fn.hasReturn then .ret mr :: l.map .ret else [] := by
    by_cases hret : fn.hasReturn
    · rw [if_pos hret, if_pos hret, if_pos hret, append_assoc]
      rfl
    · rw [if_neg hret, if_neg hret, if_neg hret, append_nil]
  have hentries : s.entryChiSet ++ [.entry mr] ++ l.map .entry =
      s.entryChiSet ++ (mr :: l).map .entry := append_assoc ..
  unfold entered
  rw [MemSSA.mk.injEq]
  exact ⟨rfl, rfl, rfl, hentries, hrets, ite_mem_cons mr l _ _, ite_mem_cons mr l _ _, rfl, rfl,
    rfl, enteredOps_cons mr l s.ver, enteredRes_cons mr l s.resVer⟩

theorem entered_nil (fn : SVFFunction B R) (s : MemSSA B R) : entered fn s [] = s := by
  have hver : enteredOps [] s.ver = s.ver := by
    funext slot
    rcases slot with mu | (_ | r | _) | phi
    · rfl
    · rfl
    · rw [enteredOps, if_neg not_mem_nil]
    · rfl
    · rfl
  have hres : enteredRes [] s.resVer = s.resVer := by
    funext d
    rcases d with _ | r | _
    · rfl
    · rw [enteredRes, if_neg not_mem_nil]
    · rfl
  have hrets : (s.returnMuSet ++ if fn.hasReturn then [] else []) = s.returnMuSet := by
    rw [ite_self, append_nil]
  unfold entered
  rw [hver, hres, map_nil, map_nil, hrets, append_nil]
  simp only [not_mem_nil, if_false]

end

theorem createEntryCHIs_eq (fn : SVFFunction B R) : ∀ (l : List R) (s : MemSSA B R),
    l.foldlM (createEntryCHI fn) s = some (entered fn s l) := by
  intro l
  induction l with
  | nil => exact fun s => congrArg some (entered_nil fn s).symm
  | cons mr l ih =>
    intro s
    rw [foldlM_cons, createEntryCHI_eq]
    exact (ih _).trans (congrArg some (entered_cons fn s mr l))

/-- Nothing has been annotated yet. What other functions left in the stacks and counters, and
    in the sets that are cleared, may be anything. -/
structure Fresh (s : MemSSA B R) : Prop where
  mus : ∀ b i, s.muSetMap b i = []
  chis : ∀ b i, s.chiSetMap b i = []
  phis : ∀ b, s.bb2PhiSetMap b = []
  rets : s.returnMuSet = []
  ver : ∀ slot, s.ver slot = none
  resVer : ∀ d, s.resVer d = none

/-- What `createMUCHI` leaves behind. -/
structure Created (fn : SVFFunction B R) (t : MemSSA B R) : Prop where
  mus : ∀ b ∈ fn.loopAndDom.reachableBBs, ∀ i,
    t.muSetMap b i = (fn.regsAt Stmt.muRegs b i).map (.stmt b i)
  chis : ∀ b ∈ fn.loopAndDom.reachableBBs, ∀ i,
    t.chiSetMap b i = (fn.regsAt Stmt.chiRegs b i).map (.chi b i)
  used : ∀ r, r ∈ t.usedRegs ↔ ∃ b ∈ fn.loopAndDom.reachableBBs, ∃ i,
    r ∈ fn.regsAt Stmt.muRegs b i ∨ r ∈ fn.regsAt Stmt.chiRegs b i
  defs : ∀ r b, b ∈ t.reg2BBMap r ↔
    b ∈ fn.loopAndDom.reachableBBs ∧ ∃ i, r ∈ fn.regsAt Stmt.chiRegs b i
  phis : ∀ b, t.bb2PhiSetMap b = []
  rets : t.returnMuSet = if fn.hasReturn then t.usedRegs.map .ret else []
  stack : ∀ r ∈ t.usedRegs, t.mr2VerStackMap r = some [entryVer 1 r, entryVer 0 r]
  count : ∀ r ∈ t.usedRegs, t.mr2CounterMap r = some 2
  ver : t.ver = enteredOps t.usedRegs fun _ => none
  resVer : t.resVer = enteredRes t.usedRegs fun _ => none

/-- **`createMUCHI`** puts the mus and chis where the statements ask for them, finds all their
    regions used and records the blocks of the chis. -/
theorem createMUCHI_spec (fn : SVFFunction B R) (hnd : fn.loopAndDom.reachableBBs.Nodup)
    (hne : fn.loopAndDom.reachableBBs ≠ []) {s : MemSSA B R} (hs : s.Fresh) :
    ∃ t, createMUCHI fn { s with usedRegs := [], reg2BBMap := fun _ => [] } = some t ∧
      Created fn t := by
  have h := annotateBBs_adds fn hnd hne { s with usedRegs := [], reg2BBMap := fun _ => [] }
  unfold createMUCHI
  generalize hu : fn.loopAndDom.reachableBBs.foldl (annotateBB fn)
    { s with usedRegs := [], reg2BBMap := fun _ => [] } = u at h
  have hmem : ∀ (f : Stmt R → List R) (r : R) (b : B) (i : Nat),
      (r ∈ if b ∈ fn.loopAndDom.reachableBBs then fn.regsAt f b i else []) ↔
        b ∈ fn.loopAndDom.reachableBBs ∧ r ∈ fn.regsAt f b i := by
    intro f r b i
    by_cases hb : b ∈ fn.loopAndDom.reachableBBs
    · rw [if_pos hb, and_iff_right hb]
    · rw [if_neg hb]
      exact ⟨nofun, fun h => absurd h.1 hb⟩
  have hver : u.ver = fun _ => none := (congrArg MemSSA.ver h.rest).trans (funext hs.ver)
  have hres : u.resVer = fun _ => none := (congrArg MemSSA.resVer h.rest).trans (funext hs.resVer)
  have hrets : u.returnMuSet = [] := (congrArg MemSSA.returnMuSet h.rest).trans hs.rets
  have hphis : u.bb2PhiSetMap = s.bb2PhiSetMap := (congrArg MemSSA.bb2PhiSetMap h.rest).trans rfl
  refine ⟨entered fn u u.usedRegs, createEntryCHIs_eq fn u.usedRegs u, ?_⟩
  constructor
  case mus =>
    intro b hb i
    refine (h.mus b i).trans ?_
    rw [if_pos hb]
    exact congrArg (· ++ _) (hs.mus b i)
  case chis =>
    intro b hb i
    refine (h.chis b i).trans ?_
    rw [if_pos hb]
    exact congrArg (· ++ _) (hs.chis b i)
  case used =>
    intro r
    refine (h.used r).trans ?_
    simp only [hmem, not_mem_nil, false_or]
    refine exists_congr fun b => ⟨fun ⟨i, hi⟩ => ?_, fun ⟨hb, i, hi⟩ => ?_⟩
    · exact ⟨hi.elim And.left And.left, i, hi.imp And.right And.right⟩
    · exact ⟨i, hi.imp (.intro hb) (.intro hb)⟩
  case defs =>
    intro r b
    refine (h.defs r b).trans ?_
    simp only [hmem, not_mem_nil, false_or, exists_and_left]
  case phis => exact fun b => (congrFun hphis b).trans (hs.phis b)
  case rets =>
    show u.returnMuSet ++ _ = _
    rw [hrets]
    rfl
  case stack => exact fun r hr => if_pos hr
  case count => exact fun r hr => if_pos hr
  case ver => exact congrArg (enteredOps u.usedRegs) hver
  case resVer => exact congrArg (enteredRes u.usedRegs) hres

end MemSSA

-- ── The phis

/-- What a function promises: its predecessor lists, dominator tree and dominance frontiers are
    right, a set of regions has no region twice, and one statement at most returns. -/
structure SVFFunction.WellFormed (fn : SVFFunction B R) where
  tree : DomTree B
  preds_iff : ∀ u v, u ∈ fn.preds v ↔ v ∈ fn.succs u
  reach_iff : ∀ b, b ∈ fn.loopAndDom.reachableBBs ↔ fn.Reachable b
  reach_nodup : fn.loopAndDom.reachableBBs.Nodup
  node : ∀ b, (tree.getNode b).isSome ↔ fn.Reachable b
  ancestor : ∀ a b, fn.Reachable a → fn.Reachable b → (Reach tree.Child a b ↔ fn.Dom a b)
  child_iff : ∀ b, fn.Reachable b → ∀ c,
    c ∈ (fn.loopAndDom.dtBBsMap b).getD [] ↔ tree.Child b c
  child_nodup : ∀ b, ((fn.loopAndDom.dtBBsMap b).getD []).Nodup
  frontier_iff : ∀ b, fn.Reachable b → ∀ v,
    v ∈ (fn.loopAndDom.dfBBsMap b).getD [] ↔ Frontier fn.Edge fn.entry b v
  chis_nodup : ∀ b i, (fn.regsAt Stmt.chiRegs b i).Nodup
  ret_unique : ∀ (a b : B) (i j : Nat), fn.Reachable a → fn.Reachable b →
    (fn.stmts a)[i]? = some Stmt.ret → (fn.stmts b)[j]? = some Stmt.ret → a = b ∧ i = j

namespace MemSSA

variable {fn : SVFFunction B R} {s : MemSSA B R} {mr : R}

/-- Every mark has its phi and every phi its mark, at reachable blocks; nothing else has
    changed since `s`. -/
structure Marked (fn : SVFFunction B R) (s : MemSSA B R) (w : PhiWork B R) : Prop where
  rest : w.mssa = { s with bb2PhiSetMap := w.mssa.bb2PhiSetMap }
  phis : ∀ b d, d ∈ w.mssa.bb2PhiSetMap b ↔ ∃ r ∈ w.bb2MRSetMap b, d = .phi b r
  nodup : ∀ b, (w.mssa.bb2PhiSetMap b).Nodup
  used : ∀ b, ∀ r ∈ w.bb2MRSetMap b, r ∈ s.usedRegs ∧ fn.Reachable b

/-- What is left to do for a region: the blocks that are not marked and those on the list. -/
def todo (fn : SVFFunction B R) (mr : R) (w : PhiWork B R) : Nat :=
  {b ∈ fn.blocks.toFinset | mr ∉ w.bb2MRSetMap b}.card + w.bbs.length

structure Spread (fn : SVFFunction B R) (mr : R) (domSet : List B) (w w' : PhiWork B R) :
    Prop where
  others : ∀ b r, r ≠ mr → (r ∈ w'.bb2MRSetMap b ↔ r ∈ w.bb2MRSetMap b)
  marks : ∀ b, mr ∈ w'.bb2MRSetMap b ↔ mr ∈ w.bb2MRSetMap b ∨ b ∈ domSet
  keeps : ∀ b ∈ w.bbs, b ∈ w'.bbs
  bbs : ∀ b ∈ w'.bbs, b ∈ w.bbs ∨ b ∈ domSet
  fresh : ∀ b, mr ∈ w'.bb2MRSetMap b → mr ∈ w.bb2MRSetMap b ∨ b ∈ w'.bbs
  todo : todo fn mr w' ≤ todo fn mr w

theorem phiAt_marked {w : PhiWork B R} (h : Marked fn s w) (hmr : mr ∈ s.usedRegs) {pbb : B}
    (hpbb : fn.Reachable pbb) : Marked fn s (phiAt mr w pbb) := by
  unfold phiAt
  by_cases hmark : mr ∈ w.bb2MRSetMap pbb
  · rw [if_pos hmark]
    exact h
  · rw [if_neg hmark]
    constructor
    case rest =>
      show AddMSSAPHI pbb mr w.mssa = _
      unfold AddMSSAPHI
      rw [h.rest]
    case phis =>
      intro b d
      show d ∈ update w.mssa.bb2PhiSetMap pbb _ b ↔ ∃ r ∈ update w.bb2MRSetMap pbb _ b, _
      by_cases hb : b = pbb
      · subst hb
        rw [update_self, update_self, mem_append, h.phis,
          mem_singleton, exists_mem_cons_iff, or_comm]
      · rw [update_of_ne hb, update_of_ne hb, h.phis]
    case nodup =>
      intro b
      show (update w.mssa.bb2PhiSetMap pbb _ b).Nodup
      by_cases hb : b = pbb
      · subst hb
        rw [update_self]
        refine (h.nodup b).append (nodup_singleton _) fun d hd hd' => hmark ?_
        obtain ⟨r, hr, rfl⟩ := (h.phis b d).mp hd
        injection mem_singleton.mp hd' with _ he
        exact he ▸ hr
      · rw [update_of_ne hb]
        exact h.nodup b
    case used =>
      intro b r hr
      have hr : r ∈ update w.bb2MRSetMap pbb (mr :: w.bb2MRSetMap pbb) b := hr
      by_cases hb : b = pbb
      · subst hb
        rw [update_self] at hr
        rcases mem_cons.mp hr with rfl | hr
        · exact ⟨hmr, hpbb⟩
        · exact h.used b r hr
      · rw [update_of_ne hb] at hr
        exact h.used b r hr

theorem phiAt_spread (w : PhiWork B R) {pbb : B} (hpbb : fn.Reachable pbb) :
    Spread fn mr [pbb] w (phiAt mr w pbb) := by
  unfold phiAt
  by_cases hmark : mr ∈ w.bb2MRSetMap pbb
  · rw [if_pos hmark]
    refine ⟨fun _ _ _ => .rfl, fun b => ?_, fun _ h => h, fun _ h => .inl h,
      fun _ h => .inl h, le_rfl⟩
    refine ⟨.inl, fun h => h.elim id fun hb => ?_⟩
    rw [mem_singleton.mp hb]
    exact hmark
  · rw [if_neg hmark]
    have hat : ∀ b r, r ∈ update w.bb2MRSetMap pbb (mr :: w.bb2MRSetMap pbb) b ↔
        r ∈ w.bb2MRSetMap b ∨ (b = pbb ∧ r = mr) := by
      intro b r
      by_cases hb : b = pbb
      · subst hb
        rw [update_self, mem_cons, or_comm, and_iff_right rfl]
      · rw [update_of_ne hb]
        simp [hb]
    constructor
    case others =>
      intro b r hr
      refine (hat b r).trans (or_iff_left fun h => hr h.2)
    case marks =>
      intro b
      refine (hat b mr).trans ?_
      rw [mem_singleton, and_iff_left rfl]
    case keeps => exact fun b hb => mem_cons_of_mem pbb hb
    case bbs =>
      intro b hb
      rcases mem_cons.mp hb with rfl | hb
      · exact .inr mem_cons_self
      · exact .inl hb
    case fresh =>
      intro b hb
      rcases (hat b mr).mp hb with hb | ⟨rfl, -⟩
      · exact .inl hb
      · exact .inr mem_cons_self
    case todo =>
      have hlt : {b ∈ fn.blocks.toFinset |
            mr ∉ update w.bb2MRSetMap pbb (mr :: w.bb2MRSetMap pbb) b}.card <
          {b ∈ fn.blocks.toFinset | mr ∉ w.bb2MRSetMap b}.card := by
        refine Finset.card_lt_card ⟨fun b hb => ?_, fun hsub => ?_⟩
        · rw [Finset.mem_filter] at hb ⊢
          exact ⟨hb.1, fun hm => hb.2 ((hat b mr).mpr (.inl hm))⟩
        · have hmem := hsub (Finset.mem_filter.mpr ⟨mem_toFinset.mpr hpbb.mem_blocks, hmark⟩)
          exact (Finset.mem_filter.mp hmem).2 ((hat pbb mr).mpr (.inr ⟨rfl, rfl⟩))
      have hle := Nat.succ_le_of_lt hlt
      show _ + (w.bbs.length + 1) ≤ _ + w.bbs.length
      rw [← Nat.add_assoc, Nat.add_right_comm]
      exact Nat.add_le_add_right hle _

theorem Spread.trans {l l' : List B} {w w' w'' : PhiWork B R} (h : Spread fn mr l w w')
    (h' : Spread fn mr l' w' w'') : Spread fn mr (l ++ l') w w'' where
  others := fun b r hr => (h'.others b r hr).trans (h.others b r hr)
  marks := fun b => by rw [h'.marks, h.marks, mem_append, or_assoc]
  keeps := fun b hb => h'.keeps b (h.keeps b hb)
  bbs := by
    intro b hb
    rw [mem_append, ← or_assoc]
    exact (h'.bbs b hb).imp_left (h.bbs b)
  fresh := by
    intro b hb
    rcases h'.fresh b hb with hb | hb
    · exact (h.fresh b hb).imp_right (h'.keeps b)
    · exact .inr hb
  todo := h'.todo.trans h.todo

theorem phiAts_spec (hmr : mr ∈ s.usedRegs) :
    ∀ (domSet : List B) (w : PhiWork B R), (∀ b ∈ domSet, fn.Reachable b) → Marked fn s w →
      Marked fn s (domSet.foldl (phiAt mr) w) ∧
      Spread fn mr domSet w (domSet.foldl (phiAt mr) w) := by
  intro domSet
  induction domSet with
  | nil =>
    intro w _ h
    refine ⟨h, fun _ _ _ => .rfl, fun b => ?_, fun _ h => h, fun _ h => .inl h,
      fun _ h => .inl h, le_rfl⟩
    exact ⟨.inl, fun h => h.elim id nofun⟩
  | cons pbb domSet ih =>
    intro w hreach h
    have hpbb := hreach pbb mem_cons_self
    obtain ⟨hm, hs⟩ := ih (phiAt mr w pbb) (forall_mem_cons.mp hreach).2 (phiAt_marked h hmr hpbb)
    exact ⟨hm, (phiAt_spread w hpbb).trans hs⟩

/-- The invariant of the `while` loop: the frontier of a block with a definition is marked, or
    the block is still on the list. The marks of the other regions are those of `m`. -/
structure Closing (fn : SVFFunction B R) (s : MemSSA B R) (mr : R) (m : B → List R)
    (w : PhiWork B R) : Prop where
  marked : Marked fn s w
  others : ∀ b r, r ≠ mr → (r ∈ w.bb2MRSetMap b ↔ r ∈ m b)
  bbs : ∀ b ∈ w.bbs, fn.Reachable b
  closed : ∀ b, b ∈ s.reg2BBMap mr ∨ mr ∈ w.bb2MRSetMap b →
    b ∈ w.bbs ∨ ∀ v ∈ (fn.loopAndDom.dfBBsMap b).getD [], mr ∈ w.bb2MRSetMap v

omit [DecidableEq B] [DecidableEq R] in
theorem reachable_of_frontier (hfn : fn.WellFormed) {b v : B} (hb : fn.Reachable b)
    (hv : v ∈ (fn.loopAndDom.dfBBsMap b).getD []) : fn.Reachable v := by
  obtain ⟨u, hu, huv, -⟩ := (hfn.frontier_iff b hb v).mp hv
  exact hu.tail huv

theorem phiBody_spec (hfn : fn.WellFormed) (hmr : mr ∈ s.usedRegs) {m : B → List R}
    {w : PhiWork B R} (h : Closing fn s mr m w) (hne : (!w.bbs.isEmpty)) :
    ∃ w', phiBody fn mr w = some w' ∧ Closing fn s mr m w' ∧ todo fn mr w' < todo fn mr w := by
  cases hbbs : w.bbs with
  | nil =>
    rw [hbbs] at hne
    cases hne
  | cons bb bbs =>
    have hbb : fn.Reachable bb := h.bbs bb (hbbs ▸ mem_cons_self)
    have hpop : Marked fn s { w with bbs := bbs } :=
      ⟨h.marked.rest, h.marked.phis, h.marked.nodup, h.marked.used⟩
    obtain ⟨hm, hs⟩ := phiAts_spec hmr ((fn.loopAndDom.dfBBsMap bb).getD []) _
      (fun b hb => reachable_of_frontier hfn hbb hb) hpop
    refine ⟨((fn.loopAndDom.dfBBsMap bb).getD []).foldl (phiAt mr) { w with bbs := bbs },
      ?_, ⟨hm, fun b r hr => (hs.others b r hr).trans (h.others b r hr), ?_, ?_⟩, ?_⟩
    · unfold phiBody
      rw [hbbs]
      dsimp only
      cases fn.loopAndDom.dfBBsMap bb with
      | none => rfl
      | some domSet => rfl
    · intro b hb
      rcases hs.bbs b hb with hb | hb
      · exact h.bbs b (hbbs ▸ mem_cons_of_mem bb hb)
      · exact reachable_of_frontier hfn hbb hb
    · intro b hb
      have hback : b ∈ s.reg2BBMap mr ∨ mr ∈ w.bb2MRSetMap b ∨
          b ∈ (((fn.loopAndDom.dfBBsMap bb).getD []).foldl (phiAt mr)
            { w with bbs := bbs }).bbs := by
        rcases hb with hb | hb
        · exact .inl hb
        · exact .inr (hs.fresh b hb)
      rcases or_assoc.mpr hback with hb | hb
      · rcases h.closed b hb with hlist | hdone
        · rw [hbbs] at hlist
          rcases mem_cons.mp hlist with rfl | hlist
          · exact .inr fun v hv => (hs.marks v).mpr (.inr hv)
          · exact .inl (hs.keeps b hlist)
        · exact .inr fun v hv => (hs.marks v).mpr (.inl (hdone v hv))
      · exact .inl hb
    · refine Nat.lt_of_le_of_lt hs.todo ?_
      show _ + bbs.length < _ + w.bbs.length
      rw [hbbs]
      exact Nat.add_lt_add_left (Nat.lt_succ_self _) _

/-- The phis of a region are closed: where the dominance of a block with a chi or a phi of it
    ends, there is a phi. -/
def PhiClosed (fn : SVFFunction B R) (s : MemSSA B R) (marks : B → List R) (r : R) : Prop :=
  ∀ b, b ∈ s.reg2BBMap r ∨ r ∈ marks b →
    ∀ v ∈ (fn.loopAndDom.dfBBsMap b).getD [], r ∈ marks v

theorem phisOf_spec (hfn : fn.WellFormed) (hmr : mr ∈ s.usedRegs)
    (hdefs : ∀ b ∈ s.reg2BBMap mr, fn.Reachable b) {w : PhiWork B R} (h : Marked fn s w)
    (hold : ∀ b, mr ∈ w.bb2MRSetMap b →
      ∀ v ∈ (fn.loopAndDom.dfBBsMap b).getD [], mr ∈ w.bb2MRSetMap v) :
    ∃ t, Stops (fun fuel => phisOf fn fuel w mr) t ∧ Marked fn s t ∧
      (∀ b r, r ≠ mr → (r ∈ t.bb2MRSetMap b ↔ r ∈ w.bb2MRSetMap b)) ∧
      PhiClosed fn s t.bb2MRSetMap mr := by
  have hregs : w.mssa.reg2BBMap = s.reg2BBMap := (congrArg MemSSA.reg2BBMap h.rest).trans rfl
  have hinit : Closing fn s mr w.bb2MRSetMap { w with bbs := w.mssa.reg2BBMap mr } := by
    refine ⟨⟨h.rest, h.phis, h.nodup, h.used⟩, fun _ _ _ => .rfl, ?_, ?_⟩
    · show ∀ b ∈ w.mssa.reg2BBMap mr, _
      rw [hregs]
      exact hdefs
    · show ∀ b, _ → b ∈ w.mssa.reg2BBMap mr ∨ _
      rw [hregs]
      exact fun b hb => hb.imp_right (hold b)
  obtain ⟨t, hstops, hI, hcond⟩ :=
    whileM_total (fun w hI hc => phiBody_spec hfn hmr (w := w) hI hc) hinit
  have hempty : t.bbs = [] := isEmpty_iff.mp ((Bool.not_eq_false' ..).mp hcond)
  refine ⟨t, hstops, hI.marked, hI.others, fun b hb => ?_⟩
  rcases hI.closed b hb with hlist | hdone
  · rw [hempty] at hlist
    cases hlist
  · exact hdone

/-- What `insertPHI` leaves behind: each block has a phi of a region once or not at all, and the
    phis of the used regions are closed. -/
structure PhisPlaced (fn : SVFFunction B R) (s t : MemSSA B R) : Prop where
  rest : t = { s with bb2PhiSetMap := t.bb2PhiSetMap }
  phis : ∀ b, ∀ d ∈ t.bb2PhiSetMap b, ∃ r ∈ s.usedRegs, d = .phi b r ∧ fn.Reachable b
  nodup : ∀ b, (t.bb2PhiSetMap b).Nodup
  closed : ∀ r ∈ s.usedRegs, ∀ b, fn.Reachable b →
    b ∈ s.reg2BBMap r ∨ .phi b r ∈ t.bb2PhiSetMap b →
    ∀ v, Frontier fn.Edge fn.entry b v → .phi v r ∈ t.bb2PhiSetMap v

/-- **`insertPHI`** stops with phis that are closed under dominance frontiers. -/
theorem insertPHI_spec (hfn : fn.WellFormed) (hphis : ∀ b, s.bb2PhiSetMap b = [])
    (hdefs : ∀ r b, b ∈ s.reg2BBMap r → fn.Reachable b) :
    ∃ t, Stops (fun fuel => insertPHI fn fuel s) t ∧ PhisPlaced fn s t := by
  let I : List R → PhiWork B R → Prop := fun l w => Marked fn s w ∧ (∀ r ∈ l, r ∈ s.usedRegs) ∧
    (∀ r b, r ∈ w.bb2MRSetMap b → ∀ v ∈ (fn.loopAndDom.dfBBsMap b).getD [], r ∈ w.bb2MRSetMap v) ∧
    ∀ r ∈ s.usedRegs, r ∉ l → PhiClosed fn s w.bb2MRSetMap r
  have hinit : I s.usedRegs { mssa := s, bb2MRSetMap := fun _ => [], bbs := [] } := by
    refine ⟨⟨rfl, fun b d => ?_, fun b => ?_, nofun⟩,
      fun _ hr => hr, nofun, fun r hr hn => absurd hr hn⟩
    · show d ∈ s.bb2PhiSetMap b ↔ _
      rw [hphis]
      simp
    · show (s.bb2PhiSetMap b).Nodup
      rw [hphis]
      exact nodup_nil
  have hstep : ∀ mr l w, I (mr :: l) w →
      ∃ t, Stops (fun fuel => phisOf fn fuel w mr) t ∧ I l t := by
    rintro mr l w ⟨hm, hused, hold, hdone⟩
    obtain ⟨t, hstops, hm', hothers, hclosed⟩ := phisOf_spec hfn (hused mr mem_cons_self)
      (hdefs mr) hm (hold mr)
    have keep : ∀ r, r ≠ mr → PhiClosed fn s w.bb2MRSetMap r → PhiClosed fn s t.bb2MRSetMap r := by
      intro r hr h b hb v hv
      rw [hothers b r hr] at hb
      exact (hothers v r hr).mpr (h b hb v hv)
    refine ⟨t, hstops, hm', (forall_mem_cons.mp hused).2, fun r b hb => ?_, fun r hr hn => ?_⟩
    · by_cases hr : r = mr
      · subst hr
        exact hclosed b (.inr hb)
      · intro v hv
        exact (hothers v r hr).mpr (hold r b ((hothers b r hr).mp hb) v hv)
    · by_cases he : r = mr
      · subst he
        exact hclosed
      · exact keep r he (hdone r hr fun h => (mem_cons.mp h).elim he hn)
  obtain ⟨w, hstops, hm, -, -, hclosed⟩ := stops_foldlM hstep s.usedRegs _ hinit
  refine ⟨w.mssa, hstops.map PhiWork.mssa, hm.rest, fun b d hd => ?_, hm.nodup,
    fun r hr b hb hdef v hv => ?_⟩
  · obtain ⟨r, hr, rfl⟩ := (hm.phis b d).mp hd
    exact ⟨r, (hm.used b r hr).1, rfl, (hm.used b r hr).2⟩
  · have hmark : ∀ b, .phi b r ∈ w.mssa.bb2PhiSetMap b ↔ r ∈ w.bb2MRSetMap b := by
      intro b
      rw [hm.phis]
      constructor
      · rintro ⟨r', hr', he⟩
        injection he with _ he
        exact he ▸ hr'
      · exact fun hr => ⟨r, hr, rfl⟩
    rw [hmark] at hdef ⊢
    exact hclosed r hr not_mem_nil b hdef v ((hfn.frontier_iff b hb v).mpr hv)

end MemSSA

end SvfMemSSA
