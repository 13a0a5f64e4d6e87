import SvfModel.TextProofs
import SvfModel.PtsStoreProofs

/-!
# Points-to results survive the file

`writeObjVarToFile` and `writeToFile` store a solved analysis in a text file of four parts: the
field sensitivity of the objects, the points-to sets, the field objects, and the field
sensitivity again. `readFromFile` loads it into an analysis that has not been solved.

The heart is that the two analyses are of one program: what the solved one has more than the
fresh one is field objects, points-to data and field-insensitivity (`Extends`). So a base object
that a field object of the file names is already a node when it is read, a field object that is
not yet in the map is not yet a node either, and each part of the file puts back what the fresh
analysis lacks (`readAndSet_lines`, `readPts_lines`, `readGep_lines`).
-/

namespace SvfPtsFile

open SvfText SvfPts SvfPtsStore Set
open List (append_assoc append_nil cons_append forall_mem_cons map_cons mem_append mem_cons_self
  mem_map not_mem_nil)
open Option (bind_eq_some_iff bind_some getD_some map_some some_inj some_ne_none)

abbrev NodeID := ℕ

abbrev APOffset := ℤ

-- ── The program graph

/-- The kinds of nodes that the results tell apart. An object node has its `MemObj`, here the
    id of it. -/
inductive SVFVar where
  | ValVar
  | FIObjVar (mem : NodeID)
  | DummyObjVar (mem : NodeID)
  | GepObjVar (mem : NodeID) (apOffset : APOffset)
  deriving DecidableEq

def SVFVar.getMemObj : SVFVar → Option NodeID
  | .ValVar => none
  | .FIObjVar mem => some mem
  | .DummyObjVar mem => some mem
  | .GepObjVar mem _ => some mem

structure SVFIR where
  IDToNodeMap : Std.TreeMap NodeID SVFVar
  GepObjVarMap : Std.HashMap (NodeID × APOffset) NodeID
  memToFieldsMap : NodeID → Finset NodeID
  fieldInsensitive : Finset NodeID

namespace SVFIR

def getGNode (pag : SVFIR) (id : NodeID) : Option SVFVar := pag.IDToNodeMap[id]?

def getBaseObjVar (pag : SVFIR) (id : NodeID) : Option NodeID :=
  (pag.getGNode id).bind SVFVar.getMemObj

/-- `addGepObjNode`, with its assertion that there is no such field object yet and that of
    `addObjNode`, that the id is not taken. -/
def addGepObjNode (pag : SVFIR) (obj : NodeID) (apOffset : APOffset) (gepId : NodeID) :
    Option SVFIR :=
  if pag.GepObjVarMap[(obj, apOffset)]? = none ∧ pag.getGNode gepId = none then
    some
      { pag with
        IDToNodeMap := pag.IDToNodeMap.insert gepId (.GepObjVar obj apOffset)
        GepObjVarMap := pag.GepObjVarMap.insert (obj, apOffset) gepId
        memToFieldsMap := Function.update pag.memToFieldsMap obj
          (insert gepId (pag.memToFieldsMap obj)) }
  else none

end SVFIR

variable {D : Type} [DataSet D ℕ]

/-- An analysis on bit vectors. `sccRepNode` is what Andersen's analysis overrides `getPts`
    with; it is the identity elsewhere and before solving. -/
structure BVDataPTAImpl (D : Type) [DataSet D ℕ] where
  pag : SVFIR
  ptD : MutablePTData NodeID NodeID D
  sccRepNode : NodeID → NodeID

namespace BVDataPTAImpl

def getPts (pta : BVDataPTAImpl D) (id : NodeID) : D := pta.ptD.getPts (pta.sccRepNode id)

def isFieldInsensitive (pta : BVDataPTAImpl D) (id : NodeID) : Option Bool :=
  (pta.pag.getBaseObjVar id).map fun mem => decide (mem ∈ pta.pag.fieldInsensitive)

def setObjFieldInsensitive (pta : BVDataPTAImpl D) (id : NodeID) : Option (BVDataPTAImpl D) :=
  (pta.pag.getBaseObjVar id).map fun mem =>
    { pta with
      pag := { pta.pag with fieldInsensitive := insert mem pta.pag.fieldInsensitive } }

-- ── Writing

def delimiter : Line := "------".toList

def objVarLine (n : NodeID) (insensitive : Bool) : Line :=
  putNat n ++ ' ' :: putNat (if insensitive then 1 else 0)

/-- The loop of `writeObjVarToFile`, which `writeToFile` has too: every base object once, in the
    order of the nodes. -/
def objVarLines (pta : BVDataPTAImpl D) :
    List (NodeID × SVFVar) → Finset NodeID → Option (List Line)
  | [], _ => some []
  | (id, pagNode) :: it, NodeIDs =>
    match pagNode.getMemObj with
    | none => objVarLines pta it NodeIDs
    | some _ => do
        let n ← pta.pag.getBaseObjVar id
        if n ∈ NodeIDs then objVarLines pta it NodeIDs
        else
          let insensitive ← pta.isFieldInsensitive n
          let lines ← objVarLines pta it (insert n NodeIDs)
          return objVarLine n insensitive :: lines

def delimiter1 : List Char := " -> \x7b ".toList

/-- What `writePtsResultToFile` puts between the braces; the elements are in the order of the
    set. -/
def putPts (pts : D) : List Char :=
  if DataSet.elems pts = [] then [' ']
  else (DataSet.elems pts).flatMap fun n => putNat n ++ [' ']

def ptsLine (var : NodeID) (pts : D) : Line :=
  putNat var ++ (delimiter1 ++ (putPts pts ++ ['}']))

def writePtsResultToFile (pta : BVDataPTAImpl D) : List Line :=
  pta.pag.IDToNodeMap.toList.map fun it => ptsLine it.1 (pta.getPts it.1)

def gepObjVarLine (it : (NodeID × APOffset) × NodeID) : Line :=
  putNat it.1.1 ++ ' ' :: (putInt it.1.2 ++ ' ' :: putNat it.2)

section

variable (pta : BVDataPTAImpl D)

def writeGepObjVarMapToFile : List Line :=
  pta.pag.GepObjVarMap.toList.map gepObjVarLine

def writeObjVarToFile : Option (List Char) :=
  (objVarLines pta pta.pag.IDToNodeMap.toList ∅).map fun lines => putlines (lines ++ [delimiter])

def writeToFile (file : List Char) : Option (List Char) :=
  (objVarLines pta pta.pag.IDToNodeMap.toList ∅).map fun lines =>
    file ++ putlines (pta.writePtsResultToFile ++ delimiter ::
      (pta.writeGepObjVarMapToFile ++ delimiter :: lines))

end

-- ── Reading

/-- `ss >> n` of an unsigned `n`, which is left zero when there is no number. -/
def extractNat (ss : List Char) : ℕ × List Char :=
  let (n, ss) := extract ss
  ((n.getD 0).toNat, ss)

def atoi (s : List Char) : ℕ := (extractNat s).1

/-- `readAndSetObjFieldSensitivity`. A stream is the lines that are still to come; it is good as
    long as there is one. The rest of it is returned. -/
def readAndSetObjFieldSensitivity (delimiterStr : Line) :
    List Line → BVDataPTAImpl D → Option (List Line × BVDataPTAImpl D)
  | [], pta => some ([], pta)
  | line :: F, pta =>
    if line = [] ∨ line = delimiterStr then some (F, pta)
    else
      let (base, ss) := extractNat line
      let (insensitive, _) := extractNat ss
      if insensitive ≠ 0 then
        (pta.setObjFieldInsensitive base).bind (readAndSetObjFieldSensitivity delimiterStr F)
      else readAndSetObjFieldSensitivity delimiterStr F pta

/-- `while (ss.good()) { ss >> obj; dstPts.set(obj); }`. The stream is good no longer when a
    number ends with it and when there is no number. -/
def setObjs (ss : List Char) (dstPts : D) : D :=
  match h : (extract ss).1 with
  | none => DataSet.set dstPts 0
  | some obj =>
    have := length_extract_lt h
    if (extract ss).2 = [] then DataSet.set dstPts obj.toNat
    else setObjs (extract ss).2 (DataSet.set dstPts obj.toNat)
  termination_by ss.length

/-- The loop of `readPtsResultFromFile`, with `nodePtsMap` and `strPtsMap`; `none` is the
    exception of `line.at(0)`. -/
def readPtsLines : List Line → Std.TreeMap NodeID Line → Std.TreeMap Line D →
    Option (List Line × Std.TreeMap NodeID Line × Std.TreeMap Line D)
  | [], nodePtsMap, strPtsMap => some ([], nodePtsMap, strPtsMap)
  | line :: F, nodePtsMap, strPtsMap =>
    match line.head? with
    | none => none
    | some c =>
      if c = '[' ∨ line = "---VERSIONED---".toList then readPtsLines F nodePtsMap strPtsMap
      else if line = delimiter then some (F, nodePtsMap, strPtsMap)
      else
        match find delimiter1 line with
        | none => some (F, nodePtsMap, strPtsMap)
        | some pos =>
          if line.getLast? ≠ some '}' then some (F, nodePtsMap, strPtsMap)
          else
            let var := atoi (line.take pos)
            let rest := line.drop (pos + delimiter1.length)
            -- the unsigned length of a rest shorter than `" }"` wraps: all of it is taken
            let objs := if rest.length < 2 then rest else rest.take (rest.length - 2)
            if objs = [] then readPtsLines F nodePtsMap strPtsMap
            else
              let nodePtsMap := nodePtsMap.insert var objs
              if strPtsMap[objs]? ≠ none then readPtsLines F nodePtsMap strPtsMap
              else
                readPtsLines F nodePtsMap
                  (strPtsMap.insert objs (setObjs objs DataSet.empty))

def readPtsResultFromFile (F : List Line) (pta : BVDataPTAImpl D) :
    Option (List Line × BVDataPTAImpl D) :=
  (readPtsLines F ∅ ∅).map fun (F, nodePtsMap, strPtsMap) =>
    (F, { pta with
      ptD := nodePtsMap.toList.foldl
        (fun ptD t => (ptD.unionPtsData t.1 (strPtsMap.getD t.2 DataSet.empty)).2) pta.ptD })

/-- The loop of `readGepObjVarMapFromFile`; `gepObjVarMap` is the copy that it looks into. -/
def readGepObjVarLines (gepObjVarMap : Std.HashMap (NodeID × APOffset) NodeID) :
    List Line → BVDataPTAImpl D → Option (List Line × BVDataPTAImpl D)
  | [], pta => some ([], pta)
  | line :: F, pta =>
    if line = delimiter then some (F, pta)
    else
      let (base, ss) := extractNat line
      let (offset, ss) := extract ss
      let offset := offset.getD 0
      let (id, _) := extractNat ss
      match gepObjVarMap[(base, offset)]? with
      | some _ => readGepObjVarLines gepObjVarMap F pta
      | none =>
        -- the node of the base must be there and an object
        match pta.pag.getBaseObjVar base with
        | none => none
        | some obj =>
          match pta.pag.addGepObjNode obj offset id with
          | none => none
          | some pag => readGepObjVarLines gepObjVarMap F { pta with pag := pag }

def readGepObjVarMapFromFile (F : List Line) (pta : BVDataPTAImpl D) :
    Option (List Line × BVDataPTAImpl D) :=
  readGepObjVarLines pta.pag.GepObjVarMap F pta

def readFromFile (updateCallGraph : BVDataPTAImpl D → BVDataPTAImpl D) (file : List Char)
    (pta : BVDataPTAImpl D) : Option (BVDataPTAImpl D) := do
  let F := pieces file
  let (F, pta) ← readAndSetObjFieldSensitivity delimiter F pta
  let (F, pta) ← readPtsResultFromFile F pta
  let (F, pta) ← readGepObjVarMapFromFile F pta
  let (_, pta) ← readAndSetObjFieldSensitivity [] F pta
  return updateCallGraph pta

end BVDataPTAImpl

open BVDataPTAImpl

-- ── Numbers and lines

theorem noDigit_nil : NoDigit [] := nofun

theorem noDigit_space (rest : List Char) : NoDigit (' ' :: rest) := by
  intro c hc
  rw [← Option.some.inj hc]
  rfl

theorem extractNat_putNat (n : ℕ) {rest : List Char} (hr : NoDigit rest) :
    extractNat (putNat n ++ rest) = (n, rest) := by
  rw [extractNat, extract_putNat n hr]
  exact Prod.ext (Int.toNat_natCast n) rfl

theorem extractNat_space (n : ℕ) {rest : List Char} (hr : NoDigit rest) :
    extractNat (' ' :: (putNat n ++ rest)) = (n, rest) := by
  rw [extractNat, extract_space, extract_putNat n hr]
  exact Prod.ext (Int.toNat_natCast n) rfl

theorem atoi_putNat (n : ℕ) : atoi (putNat n) = n := by
  have h := extractNat_putNat n noDigit_nil
  rw [append_nil] at h
  rw [atoi, h]

theorem head_putNat (n : ℕ) (rest : List Char) :
    ∃ c cs, putNat n ++ rest = c :: cs ∧ c.isDigit := by
  obtain ⟨c, ds, hds⟩ := List.exists_cons_of_ne_nil (putNat_ne_nil n)
  exact ⟨c, ds ++ rest, by rw [hds]; rfl, isDigit_of_mem_putNat (hds ▸ mem_cons_self)⟩

theorem putNat_append_ne_nil (n : ℕ) (rest : List Char) : putNat n ++ rest ≠ [] :=
  List.append_ne_nil_of_left_ne_nil (putNat_ne_nil n) rest

theorem putNat_append_ne {n : ℕ} {rest : List Char} {d : Char} {ds : List Char}
    (hd : d.isDigit = false) : putNat n ++ rest ≠ d :: ds := by
  obtain ⟨c, cs, hcs, hc⟩ := head_putNat n rest
  rw [hcs]
  exact fun h => ne_of_isDigit hc hd (List.cons.inj h).1

-- ── Field sensitivity

/-- A `MemObj` has the id of its base node. -/
def BaseNodes (pag : SVFIR) : Prop :=
  ∀ n m, pag.getBaseObjVar n = some m → pag.getBaseObjVar m = some m

/-- The written lines: every base object of the nodes that is not yet written, with whether it
    is field-insensitive. -/
theorem objVarLines_eq {pta : BVDataPTAImpl D} (hbase : BaseNodes pta.pag) :
    ∀ (it : List (NodeID × SVFVar)) (NodeIDs : Finset NodeID),
      (∀ x ∈ it, pta.pag.getGNode x.1 = some x.2) →
      ∃ bs : List NodeID, objVarLines pta it NodeIDs =
          some (bs.map fun n => objVarLine n (decide (n ∈ pta.pag.fieldInsensitive))) ∧
        ∀ m, m ∈ bs ↔ m ∉ NodeIDs ∧ ∃ x ∈ it, x.2.getMemObj = some m := by
  intro it
  induction it with
  | nil =>
    intro NodeIDs _
    exact ⟨[], rfl, fun m => ⟨nofun, fun ⟨_, x, hx, _⟩ => absurd hx not_mem_nil⟩⟩
  | cons x it ih =>
    intro NodeIDs hit
    obtain ⟨id, pagNode⟩ := x
    have hnode := hit _ mem_cons_self
    have hrest : ∀ x ∈ it, pta.pag.getGNode x.1 = some x.2 := (forall_mem_cons.mp hit).2
    rw [objVarLines]
    cases hmem : pagNode.getMemObj with
    | none =>
      obtain ⟨bs, hbs, hiff⟩ := ih NodeIDs hrest
      refine ⟨bs, hbs, fun m => (hiff m).trans (and_congr_right fun _ => ?_)⟩
      rw [List.exists_mem_cons_iff]
      exact ⟨.inr, fun h => h.resolve_left fun h => some_ne_none m (h.symm.trans hmem)⟩
    | some n =>
      have hn : pta.pag.getBaseObjVar id = some n := by
        rw [SVFIR.getBaseObjVar, hnode]
        exact hmem
      have hins : pta.isFieldInsensitive n = some (decide (n ∈ pta.pag.fieldInsensitive)) := by
        rw [isFieldInsensitive, hbase id n hn]
        rfl
      dsimp only [Option.bind_eq_bind]
      rw [hn, bind_some]
      by_cases hseen : n ∈ NodeIDs
      · rw [if_pos hseen]
        obtain ⟨bs, hbs, hiff⟩ := ih NodeIDs hrest
        refine ⟨bs, hbs, fun m => (hiff m).trans (and_congr_right fun hm => ?_)⟩
        rw [List.exists_mem_cons_iff]
        refine ⟨.inr, fun h => h.resolve_left fun h => hm ?_⟩
        rw [← Option.mem_unique hmem h]
        exact hseen
      · rw [if_neg hseen, hins, bind_some]
        obtain ⟨bs, hbs, hiff⟩ := ih (insert n NodeIDs) hrest
        rw [hbs]
        refine ⟨n :: bs, rfl, fun m => ?_⟩
        rw [List.mem_cons, hiff m, Finset.mem_insert, not_or, List.exists_mem_cons_iff,
          hmem, some_inj]
        constructor
        · rintro (rfl | ⟨⟨_, hm⟩, hx⟩)
          · exact ⟨hseen, .inl rfl⟩
          · exact ⟨hm, .inr hx⟩
        · rintro ⟨hm, rfl | hx⟩
          · exact .inl rfl
          · by_cases hmn : m = n
            · exact .inl hmn
            · exact .inr ⟨⟨hmn, hm⟩, hx⟩

def withInsensitive (pta : BVDataPTAImpl D) (T : Finset NodeID) : BVDataPTAImpl D :=
  { pta with pag := { pta.pag with fieldInsensitive := T } }

theorem readAndSet_lines {delimiterStr stop : Line}
    (hdelim : delimiterStr = delimiter ∨ delimiterStr = [])
    (hstop : stop = [] ∨ stop = delimiterStr) (S : Finset NodeID) (F : List Line) :
    ∀ (bs : List NodeID) (pta : BVDataPTAImpl D), (∀ n ∈ bs, pta.pag.getBaseObjVar n = some n) →
      ∃ T : Finset NodeID, readAndSetObjFieldSensitivity delimiterStr
          (bs.map (fun n => objVarLine n (decide (n ∈ S))) ++ stop :: F) pta =
          some (F, withInsensitive pta T) ∧
        ∀ m, m ∈ T ↔ m ∈ pta.pag.fieldInsensitive ∨ m ∈ bs ∧ m ∈ S := by
  intro bs
  induction bs with
  | nil =>
    intro pta _
    refine ⟨pta.pag.fieldInsensitive, if_pos hstop, fun m => ⟨.inl, fun h => ?_⟩⟩
    exact h.resolve_right fun h => not_mem_nil h.1
  | cons n bs ih =>
    intro pta hbs
    have hn := hbs n mem_cons_self
    have hnot : ¬ (objVarLine n (decide (n ∈ S)) = [] ∨
        objVarLine n (decide (n ∈ S)) = delimiterStr) := by
      rintro (h | h)
      · exact putNat_append_ne_nil _ _ h
      · rcases hdelim with rfl | rfl
        · exact putNat_append_ne rfl h
        · exact putNat_append_ne_nil _ _ h
    have hline : extractNat (objVarLine n (decide (n ∈ S))) =
        (n, ' ' :: putNat (if n ∈ S then 1 else 0)) := by
      rw [objVarLine, extractNat_putNat n (noDigit_space _)]
      simp only [decide_eq_true_eq]
    have hbit : extractNat (' ' :: putNat (if n ∈ S then 1 else 0)) =
        (if n ∈ S then 1 else 0, []) := by
      have h := extractNat_space (if n ∈ S then 1 else 0) noDigit_nil
      rwa [append_nil] at h
    rw [map_cons, cons_append, readAndSetObjFieldSensitivity, if_neg hnot, hline]
    dsimp only
    rw [hbit]
    dsimp only
    by_cases hS : n ∈ S
    · rw [if_pos hS, if_pos one_ne_zero, setObjFieldInsensitive, hn]
      obtain ⟨T, hT, hiff⟩ := ih (withInsensitive pta (insert n pta.pag.fieldInsensitive))
        (forall_mem_cons.mp hbs).2
      refine ⟨T, hT, fun m => (hiff m).trans ?_⟩
      rw [withInsensitive, Finset.mem_insert, List.mem_cons]
      constructor
      · rintro ((rfl | h) | h)
        · exact .inr ⟨.inl rfl, hS⟩
        · exact .inl h
        · exact .inr ⟨.inr h.1, h.2⟩
      · rintro (h | ⟨h | h, hm⟩)
        · exact .inl (.inr h)
        · exact .inl (.inl h)
        · exact .inr ⟨h, hm⟩
    · rw [if_neg hS, if_neg (not_not.mpr rfl)]
      obtain ⟨T, hT, hiff⟩ := ih pta (forall_mem_cons.mp hbs).2
      refine ⟨T, hT, fun m => (hiff m).trans (or_congr_right ?_)⟩
      rw [List.mem_cons]
      constructor
      · exact fun h => ⟨.inr h.1, h.2⟩
      · rintro ⟨rfl | h, hm⟩
        · exact absurd hm hS
        · exact ⟨h, hm⟩

-- ── Points-to sets

/-- The text of a set, between `" -> { "` and `" }"`. -/
def joinNats : List ℕ → List Char
  | [] => []
  | [n] => putNat n
  | n :: m :: l => putNat n ++ ' ' :: joinNats (m :: l)

theorem joinNats_ne_nil {l : List ℕ} (h : l ≠ []) : joinNats l ≠ [] := by
  match l with
  | [] => exact absurd rfl h
  | [n] => exact putNat_ne_nil n
  | n :: m :: l => exact putNat_append_ne_nil n _

theorem flatMap_putNat {l : List ℕ} (h : l ≠ []) :
    l.flatMap (fun n => putNat n ++ [' ']) = joinNats l ++ [' '] := by
  induction l with
  | nil => exact absurd rfl h
  | cons n l ih =>
    cases l with
    | nil => rw [List.flatMap_cons, List.flatMap_nil, append_nil, joinNats]
    | cons m l =>
      rw [List.flatMap_cons, ih (List.cons_ne_nil m l), joinNats, append_assoc, append_assoc]
      rfl

theorem putPts_eq {pts : D} (h : DataSet.elems pts ≠ []) :
    putPts pts = joinNats (DataSet.elems pts) ++ [' '] := by
  rw [putPts, if_neg h, flatMap_putNat h]

theorem setObjs_extract {ss rest : List Char} {obj : ℤ} (h : extract ss = (some obj, rest))
    (d : D) : setObjs ss d =
      if rest = [] then DataSet.set d obj.toNat else setObjs rest (DataSet.set d obj.toNat) := by
  rw [setObjs.eq_def]
  split
  case h_1 hnone =>
    rw [h] at hnone
    cases hnone
  case h_2 obj' hobj =>
    have hobj' : obj' = obj := Option.mem_unique hobj (congrArg Prod.fst h)
    have hrest : (extract ss).2 = rest := congrArg Prod.snd h
    subst hobj'
    simp only [hrest]

theorem setObjs_space (ss : List Char) (d : D) : setObjs (' ' :: ss) d = setObjs ss d := by
  rw [setObjs.eq_def, setObjs.eq_def ss]
  rfl

theorem den_setObjs [SetDataSet D] {l : List ℕ} (h : l ≠ []) (d : D) :
    den (setObjs (joinNats l) d) = den d ∪ {n | n ∈ l} := by
  induction l generalizing d with
  | nil => exact absurd rfl h
  | cons n l ih =>
    cases l with
    | nil =>
      have hex : extract (joinNats [n]) = (some (n : ℤ), []) := by
        have h := extract_putNat n noDigit_nil
        rwa [List.append_nil] at h
      rw [setObjs_extract hex, if_pos rfl, Int.toNat_natCast, SetDataSet.den_set]
      ext k
      simp only [mem_insert_iff, mem_union, List.mem_singleton, mem_ofPred_eq, or_comm]
    | cons m l =>
      have hex : extract (joinNats (n :: m :: l)) =
          (some (n : ℤ), ' ' :: joinNats (m :: l)) := extract_putNat n (noDigit_space _)
      rw [setObjs_extract hex, if_neg (List.cons_ne_nil _ _), setObjs_space,
        ih (List.cons_ne_nil m l), Int.toNat_natCast, SetDataSet.den_set]
      ext k
      simp only [mem_insert_iff, mem_union, List.mem_cons, mem_ofPred_eq]
      tauto

/-- The text that is read back from the line of a set; it is empty for the empty set. -/
def objsText (pts : D) : List Char := joinNats (DataSet.elems pts)

theorem objsText_eq_nil {pts : D} : objsText pts = [] ↔ DataSet.elems pts = [] := by
  constructor
  · exact fun h => not_not.mp fun hne => joinNats_ne_nil hne h
  · intro h
    rw [objsText, h, joinNats]

theorem den_setObjs_objsText [SetDataSet D] {pts : D} (h : objsText pts ≠ []) :
    den (setObjs (objsText pts) (DataSet.empty : D)) = den pts := by
  rw [objsText, den_setObjs (mt objsText_eq_nil.mpr h), SetDataSet.den_empty, empty_union]
  rfl

theorem putPts_brace (pts : D) : putPts pts ++ ['}'] = objsText pts ++ [' ', '}'] := by
  by_cases h : DataSet.elems pts = []
  · rw [putPts, if_pos h, objsText_eq_nil.mpr h]
    rfl
  · rw [putPts_eq h, append_assoc, objsText]
    rfl

theorem readPtsLines_ptsLine (var : NodeID) (pts : D) (F : List Line)
    (nodePtsMap : Std.TreeMap NodeID Line) (strPtsMap : Std.TreeMap Line D) :
    readPtsLines (ptsLine var pts :: F) nodePtsMap strPtsMap =
      if objsText pts = [] then readPtsLines F nodePtsMap strPtsMap
      else if strPtsMap[objsText pts]? ≠ none then
        readPtsLines F (nodePtsMap.insert var (objsText pts)) strPtsMap
      else
        readPtsLines F (nodePtsMap.insert var (objsText pts))
          (strPtsMap.insert (objsText pts) (setObjs (objsText pts) DataSet.empty)) := by
  have hline : ptsLine var pts = putNat var ++ (delimiter1 ++ (objsText pts ++ [' ', '}'])) := by
    rw [ptsLine, putPts_brace]
  obtain ⟨c, cs, hcs, hc⟩ := head_putNat var (delimiter1 ++ (putPts pts ++ ['}']))
  have hhead : (ptsLine var pts).head? = some c := by
    rw [ptsLine, hcs]
    rfl
  have hskip : ¬ (c = '[' ∨ ptsLine var pts = "---VERSIONED---".toList) := by
    rintro (h | h)
    · exact ne_of_isDigit hc rfl h
    · exact putNat_append_ne rfl h
  have hdelim : ptsLine var pts ≠ delimiter := putNat_append_ne rfl
  have hfind : find delimiter1 (ptsLine var pts) = some (putNat var).length :=
    find_append (fun h => absurd (isDigit_of_mem_putNat h) (by decide)) _
  have hlast : (ptsLine var pts).getLast? = some '}' := by
    rw [ptsLine, ← append_assoc, ← append_assoc, List.getLast?_concat]
  have hvar : atoi ((ptsLine var pts).take (putNat var).length) = var := by
    rw [ptsLine, List.take_left, atoi_putNat]
  have hrest : (ptsLine var pts).drop ((putNat var).length + delimiter1.length) =
      objsText pts ++ [' ', '}'] := by
    rw [hline, ← append_assoc, ← List.length_append, List.drop_left]
  have hlen : ¬ (objsText pts ++ [' ', '}']).length < 2 := by
    rw [List.length_append]
    exact not_lt.mpr (Nat.le_add_left 2 _)
  have htake : (objsText pts ++ [' ', '}']).take ((objsText pts ++ [' ', '}']).length - 2) =
      objsText pts := by
    rw [List.length_append]
    exact List.take_left
  rw [readPtsLines, hhead]
  dsimp only
  rw [if_neg hskip, if_neg hdelim, hfind]
  dsimp only
  rw [if_neg (not_not.mpr hlast), hrest, if_neg hlen, htake, hvar]

theorem getElem?_insert_iff {α β : Type} [Ord α] [Std.TransOrd α] [Std.LawfulEqOrd α]
    [DecidableEq α] (m : Std.TreeMap α β) (k a : α) (v : β) :
    (m.insert k v)[a]? = if k = a then some v else m[a]? := by
  rw [Std.TreeMap.getElem?_insert]
  exact if_congr Std.LawfulEqCmp.compare_eq_iff_eq rfl rfl

structure PtsRead (getPts : NodeID → D) (done : Set NodeID)
    (nodePtsMap : Std.TreeMap NodeID Line) (strPtsMap : Std.TreeMap Line D) : Prop where
  node : ∀ (var : NodeID) (text : Line), nodePtsMap[var]? = some text ↔
    var ∈ done ∧ text = objsText (getPts var) ∧ text ≠ []
  str : ∀ (text : Line) (d : D), strPtsMap[text]? = some d → d = setObjs text DataSet.empty
  known : ∀ (var : NodeID) (text : Line), nodePtsMap[var]? = some text → strPtsMap[text]? ≠ none

theorem readPts_lines (getPts : NodeID → D) (F : List Line) :
    ∀ (vars : List NodeID) (done : Set NodeID) (nodePtsMap : Std.TreeMap NodeID Line)
      (strPtsMap : Std.TreeMap Line D), PtsRead getPts done nodePtsMap strPtsMap →
      ∃ nodePtsMap' strPtsMap',
        readPtsLines (vars.map (fun var => ptsLine var (getPts var)) ++ delimiter :: F)
          nodePtsMap strPtsMap = some (F, nodePtsMap', strPtsMap') ∧
        PtsRead getPts (done ∪ {var | var ∈ vars}) nodePtsMap' strPtsMap' := by
  intro vars
  induction vars with
  | nil =>
    intro done nodePtsMap strPtsMap h
    refine ⟨nodePtsMap, strPtsMap, rfl, ?_⟩
    have hdone : done ∪ {var | var ∈ ([] : List NodeID)} = done := by
      ext k
      exact ⟨fun hk => hk.resolve_right not_mem_nil, .inl⟩
    rw [hdone]
    exact h
  | cons var vars ih =>
    intro done nodePtsMap strPtsMap h
    have hdone : done ∪ {k | k ∈ var :: vars} = insert var done ∪ {k | k ∈ vars} := by
      ext k
      simp only [mem_union, mem_ofPred_eq, List.mem_cons, mem_insert_iff]
      tauto
    rw [map_cons, cons_append, readPtsLines_ptsLine, hdone]
    by_cases hempty : objsText (getPts var) = []
    · rw [if_pos hempty]
      refine ih _ _ _ ⟨fun k text => (h.node k text).trans ?_, h.str, h.known⟩
      constructor
      · exact fun hk => ⟨.inr hk.1, hk.2⟩
      · rintro ⟨rfl | hk, htext, hne⟩
        · exact absurd (htext.trans hempty) hne
        · exact ⟨hk, htext, hne⟩
    · have hnode : ∀ k text, (nodePtsMap.insert var (objsText (getPts var)))[k]? = some text ↔
          k ∈ insert var done ∧ text = objsText (getPts k) ∧ text ≠ [] := by
        intro k text
        rw [getElem?_insert_iff, mem_insert_iff]
        by_cases hk : var = k
        · subst hk
          rw [if_pos rfl, some_inj]
          exact ⟨fun ht => ⟨.inl rfl, ht.symm, ht ▸ hempty⟩, fun ht => ht.2.1.symm⟩
        · rw [if_neg hk, h.node]
          exact and_congr_left fun _ => ⟨.inr, fun hd => hd.resolve_left (Ne.symm hk)⟩
      rw [if_neg hempty]
      by_cases hstr : strPtsMap[objsText (getPts var)]? ≠ none
      · rw [if_pos hstr]
        refine ih _ _ _ ⟨hnode, h.str, fun k text hk => ?_⟩
        rw [getElem?_insert_iff] at hk
        split_ifs at hk
        · rw [← Option.some.inj hk]
          exact hstr
        · exact h.known k text hk
      · rw [if_neg hstr]
        refine ih _ _ _ ⟨hnode, fun text d hd => ?_, fun k text hk => ?_⟩
        · rw [getElem?_insert_iff] at hd
          by_cases ht : objsText (getPts var) = text
          · subst ht
            rw [if_pos rfl] at hd
            exact (Option.some.inj hd).symm
          · rw [if_neg ht] at hd
            exact h.str text d hd
        · rw [getElem?_insert_iff] at hk ⊢
          by_cases ht : objsText (getPts var) = text
          · rw [if_pos ht]
            exact some_ne_none _
          · rw [if_neg ht]
            split_ifs at hk
            · exact absurd (Option.some.inj hk) ht
            · exact h.known k text hk

section Sets

variable [SetDataSet D]

theorem den_getPts_unionPtsData (ptD : MutablePTData NodeID NodeID D) (var k : NodeID) (d : D) :
    den ((ptD.unionPtsData var d).2.getPts k) = den (ptD.getPts k) ∪ {o | var = k ∧ o ∈ den d} := by
  have h := den_getD_insert (ptD.addRevPts (DataSet.elems d) var).ptsMap
    (fun k => den (ptD.getPts k)) var
    (DataSet.unionWith ((ptD.addRevPts (DataSet.elems d) var).getPts var) d).2
    (fun k => congrArg den (getPts_addRevPts ptD _ var k)) k
  refine h.trans ?_
  by_cases hk : var = k
  · subst hk
    rw [Function.update_self, SetDataSet.unionWith_snd, getPts_addRevPts]
    ext o
    simp only [mem_union, mem_ofPred_eq, true_and]
  · rw [Function.update_of_ne (Ne.symm hk)]
    ext o
    simp only [mem_union, mem_ofPred_eq, hk, false_and, or_false]

theorem den_foldl_unionPtsData (set : Line → D) (l : List (NodeID × Line)) :
    ∀ (ptD : MutablePTData NodeID NodeID D) (k : NodeID),
      den ((l.foldl (fun ptD t => (ptD.unionPtsData t.1 (set t.2)).2) ptD).getPts k) =
        den (ptD.getPts k) ∪ {o | ∃ t ∈ l, t.1 = k ∧ o ∈ den (set t.2)} := by
  induction l with
  | nil =>
    intro ptD k
    ext o
    exact ⟨.inl, fun h => h.resolve_right fun ⟨t, ht, _⟩ => not_mem_nil ht⟩
  | cons t l ih =>
    intro ptD k
    rw [List.foldl_cons, ih, den_getPts_unionPtsData]
    ext o
    simp only [mem_union, mem_ofPred_eq, List.exists_mem_cons_iff, or_assoc]

/-- **The points-to part of the file** adds to every node the set that was written for it. -/
theorem readPtsResultFromFile_lines (getPts : NodeID → D) (vars : List NodeID) (F : List Line)
    (pta : BVDataPTAImpl D) :
    ∃ ptD, readPtsResultFromFile
        (vars.map (fun var => ptsLine var (getPts var)) ++ delimiter :: F) pta =
          some (F, { pta with ptD := ptD }) ∧
      ∀ k, den (ptD.getPts k) = den (pta.ptD.getPts k) ∪ {o | k ∈ vars ∧ o ∈ den (getPts k)} := by
  have hstart : PtsRead getPts ∅ ∅ ∅ := by
    refine ⟨fun var text => ?_, fun text d h => ?_, fun var text h => ?_⟩
    · rw [Std.TreeMap.getElem?_emptyc]
      exact ⟨nofun, fun h => absurd h.1 id⟩
    · rw [Std.TreeMap.getElem?_emptyc] at h
      cases h.symm
    · rw [Std.TreeMap.getElem?_emptyc] at h
      cases h.symm
  obtain ⟨nodePtsMap, strPtsMap, hread, hmaps⟩ := readPts_lines getPts F vars ∅ ∅ ∅ hstart
  rw [readPtsResultFromFile, hread]
  refine ⟨_, rfl, fun k => ?_⟩
  rw [den_foldl_unionPtsData fun text => strPtsMap.getD text DataSet.empty]
  congr 1
  ext o
  -- the set bound to the text of a node is the set of the node
  have hset : ∀ text, nodePtsMap[k]? = some text →
      den (strPtsMap.getD text DataSet.empty) = den (getPts k) := by
    intro text htext
    obtain ⟨d, hd⟩ := Option.ne_none_iff_exists'.mp (hmaps.known k text htext)
    obtain ⟨_, heq, hne⟩ := (hmaps.node k text).mp htext
    rw [Std.TreeMap.getD_eq_getD_getElem?, hd, getD_some, hmaps.str text d hd, heq]
    exact den_setObjs_objsText (heq ▸ hne)
  constructor
  · rintro ⟨⟨k', text⟩, ht, rfl, ho⟩
    have htext := Std.TreeMap.mem_toList_iff_getElem?_eq_some.mp ht
    rw [hset text htext] at ho
    exact ⟨((hmaps.node k' text).mp htext).1.resolve_left id, ho⟩
  · rintro ⟨hk, ho⟩
    have hne : objsText (getPts k) ≠ [] := by
      intro h
      have hnil : DataSet.elems (getPts k) = [] := objsText_eq_nil.mp h
      rw [mem_den, hnil] at ho
      exact not_mem_nil ho
    have htext := (hmaps.node k (objsText (getPts k))).mpr ⟨.inr hk, rfl, hne⟩
    refine ⟨(k, objsText (getPts k)), Std.TreeMap.mem_toList_iff_getElem?_eq_some.mpr htext,
      rfl, ?_⟩
    rw [hset _ htext]
    exact ho

end Sets

-- ── Field objects

variable {copy : Std.HashMap (NodeID × APOffset) NodeID} {b : NodeID} {o : APOffset} {pag : SVFIR}
  {e : (NodeID × APOffset) × NodeID} {es : List ((NodeID × APOffset) × NodeID)}

theorem gepObjVarLine_numbers (b : NodeID) (o : APOffset) (id : NodeID) :
    gepObjVarLine ((b, o), id) ≠ delimiter ∧
    extractNat (gepObjVarLine ((b, o), id)) = (b, ' ' :: (putInt o ++ ' ' :: putNat id)) ∧
    extract (' ' :: (putInt o ++ ' ' :: putNat id)) = (some o, ' ' :: putNat id) ∧
    extractNat (' ' :: putNat id) = (id, []) := by
  refine ⟨putNat_append_ne rfl, extractNat_putNat b (noDigit_space _), ?_, ?_⟩
  · rw [extract_space, extract_putInt o (noDigit_space _)]
  · have h := extractNat_space id noDigit_nil
    rwa [append_nil] at h

theorem readGepObjVarLines_new {id obj : NodeID} {pta : BVDataPTAImpl D}
    (hcopy : copy[(b, o)]? = none) (hbase : pta.pag.getBaseObjVar b = some obj)
    (hadd : pta.pag.addGepObjNode obj o id = some pag) (F : List Line) :
    readGepObjVarLines copy (gepObjVarLine ((b, o), id) :: F) pta =
      readGepObjVarLines copy F { pta with pag := pag } := by
  obtain ⟨hdelim, hb, ho, hid⟩ := gepObjVarLine_numbers b o id
  rw [readGepObjVarLines, if_neg hdelim, hb]
  dsimp only
  rw [ho]
  dsimp only [getD_some]
  rw [hid]
  dsimp only
  rw [hcopy]
  dsimp only
  rw [hbase]
  dsimp only
  rw [hadd]

theorem readGepObjVarLines_old {id id' : NodeID} (hcopy : copy[(b, o)]? = some id')
    (pta : BVDataPTAImpl D) (F : List Line) :
    readGepObjVarLines copy (gepObjVarLine ((b, o), id) :: F) pta =
      readGepObjVarLines copy F pta := by
  obtain ⟨hdelim, hb, ho, _⟩ := gepObjVarLine_numbers b o id
  rw [readGepObjVarLines, if_neg hdelim, hb]
  dsimp only
  rw [ho]
  dsimp only [getD_some]
  rw [hcopy]

theorem SVFIR.addGepObjNode_spec {pag pag' : SVFIR} {id : NodeID}
    (h : pag.addGepObjNode b o id = some pag') :
    (pag.GepObjVarMap[(b, o)]? = none ∧ pag.getGNode id = none) ∧
    (∀ k, pag'.GepObjVarMap[k]? = if (b, o) = k then some id else pag.GepObjVarMap[k]?) ∧
    (∀ n, pag'.getGNode n = if id = n then some (.GepObjVar b o) else pag.getGNode n) ∧
    pag'.fieldInsensitive = pag.fieldInsensitive := by
  rw [SVFIR.addGepObjNode] at h
  by_cases hnew : pag.GepObjVarMap[(b, o)]? = none ∧ pag.getGNode id = none
  · rw [if_pos hnew] at h
    rw [← Option.some.inj h]
    refine ⟨hnew, fun k => ?_, fun n => getElem?_insert_iff _ _ _ _, rfl⟩
    rw [Std.HashMap.getElem?_insert]
    exact if_congr beq_iff_eq rfl rfl
  · rw [if_neg hnew] at h
    cases h.symm

/-- The entries that are still to come can be added: the keys that the copy has not are not in
    the map, their ids are no nodes, and their bases are base objects. -/
structure Addable (copy : Std.HashMap (NodeID × APOffset) NodeID)
    (es : List ((NodeID × APOffset) × NodeID)) (pag : SVFIR) : Prop where
  distinct : es.Pairwise fun x y => x.1 ≠ y.1 ∧ x.2 ≠ y.2
  key : ∀ e ∈ es, copy[e.1]? = none → pag.GepObjVarMap[e.1]? = none
  node : ∀ e ∈ es, copy[e.1]? = none → pag.getGNode e.2 = none
  base : ∀ e ∈ es, copy[e.1]? = none → pag.getBaseObjVar e.1.1 = some e.1.1

structure Added (copy : Std.HashMap (NodeID × APOffset) NodeID)
    (es : List ((NodeID × APOffset) × NodeID)) (pag pag' : SVFIR) : Prop where
  insensitive : pag'.fieldInsensitive = pag.fieldInsensitive
  map : ∀ k id, pag'.GepObjVarMap[k]? = some id ↔
    pag.GepObjVarMap[k]? = some id ∨ (k, id) ∈ es ∧ copy[k]? = none
  nodes : ∀ n node, pag'.getGNode n = some node ↔ pag.getGNode n = some node ∨
    ∃ k : NodeID × APOffset, (k, n) ∈ es ∧ copy[k]? = none ∧ node = .GepObjVar k.1 k.2

theorem Addable.tail (h : Addable copy (e :: es) pag) : Addable copy es pag where
  distinct := (List.pairwise_cons.mp h.distinct).2
  key := (forall_mem_cons.mp h.key).2
  node := (forall_mem_cons.mp h.node).2
  base := (forall_mem_cons.mp h.base).2

theorem Addable.add {id : NodeID} (h : Addable copy (((b, o), id) :: es) pag)
    (hcopy : copy[(b, o)]? = none) :
    ∃ pag1, pag.addGepObjNode b o id = some pag1 ∧ Addable copy es pag1 ∧
      Added copy [((b, o), id)] pag pag1 := by
  have hkey : pag.GepObjVarMap[(b, o)]? = none := h.key _ List.mem_cons_self hcopy
  have hnode : pag.getGNode id = none := h.node _ List.mem_cons_self hcopy
  obtain ⟨hhead, hdistinct⟩ := List.pairwise_cons.mp h.distinct
  obtain ⟨pag1, hadd⟩ : ∃ pag1, pag.addGepObjNode b o id = some pag1 := ⟨_, if_pos ⟨hkey, hnode⟩⟩
  obtain ⟨_, hmap, hnodes, hins⟩ := SVFIR.addGepObjNode_spec hadd
  refine ⟨pag1, hadd, ?_, ?_⟩
  · constructor
    case distinct => exact hdistinct
    case key =>
      intro e he hc
      rw [hmap, if_neg (hhead e he).1]
      exact h.key e (List.mem_cons_of_mem _ he) hc
    case node =>
      intro e he hc
      rw [hnodes, if_neg (hhead e he).2]
      exact h.node e (List.mem_cons_of_mem _ he) hc
    case base =>
      intro e he hc
      have hb := h.base e (List.mem_cons_of_mem _ he) hc
      have hid : id ≠ e.1.1 := by
        rintro rfl
        rw [SVFIR.getBaseObjVar, hnode] at hb
        cases hb.symm
      rw [SVFIR.getBaseObjVar, hnodes, if_neg hid]
      exact hb
  · constructor
    case insensitive => exact hins
    case map =>
      intro k id'
      simp only [hmap, List.mem_singleton, Prod.mk.injEq]
      by_cases hk : (b, o) = k
      · subst hk
        simp only [if_true, hkey, hcopy, Option.some_inj, reduceCtorEq, false_or, true_and,
          and_true]
        exact eq_comm
      · simp only [if_neg hk]
        exact ⟨.inl, fun h => h.resolve_right fun h => hk h.1.1.symm⟩
    case nodes =>
      intro n node
      rw [hnodes]
      by_cases hn : id = n
      · subst hn
        rw [if_pos rfl, hnode, Option.some_inj]
        constructor
        · exact fun h => .inr ⟨(b, o), List.mem_singleton.mpr rfl, hcopy, h.symm⟩
        · rintro (h | ⟨k, hk, _, rfl⟩)
          · cases h.symm
          · rw [(Prod.mk.inj (List.mem_singleton.mp hk)).1]
      · rw [if_neg hn]
        refine ⟨.inl, fun h => h.resolve_right ?_⟩
        rintro ⟨k, hk, _⟩
        exact hn (Prod.mk.inj (List.mem_singleton.mp hk)).2.symm

theorem Added.trans {pag pag1 pag2 : SVFIR} (h : Added copy [e] pag pag1)
    (h' : Added copy es pag1 pag2) :
    Added copy (e :: es) pag pag2 where
  insensitive := h'.insensitive.trans h.insensitive
  map k id := by
    rw [h'.map, h.map, List.mem_singleton, List.mem_cons]
    tauto
  nodes n node := by
    rw [h'.nodes, h.nodes]
    simp only [List.mem_cons, not_mem_nil, or_false]
    constructor
    · rintro ((hn | ⟨k, hk, hc⟩) | ⟨k, hk, hc⟩)
      · exact .inl hn
      · exact .inr ⟨k, .inl hk, hc⟩
      · exact .inr ⟨k, .inr hk, hc⟩
    · rintro (hn | ⟨k, hk | hk, hc⟩)
      · exact .inl (.inl hn)
      · exact .inl (.inr ⟨k, hk, hc⟩)
      · exact .inr ⟨k, hk, hc⟩

theorem Added.skip {pag pag' : SVFIR} (hcopy : copy[e.1]? ≠ none) (h : Added copy es pag pag') :
    Added copy (e :: es) pag pag' where
  insensitive := h.insensitive
  map k id := by
    rw [h.map, List.mem_cons]
    refine or_congr_right ⟨fun hk => ⟨.inr hk.1, hk.2⟩, fun hk => ⟨hk.1.resolve_left ?_, hk.2⟩⟩
    rintro rfl
    exact hcopy hk.2
  nodes n node := by
    rw [h.nodes]
    simp only [List.mem_cons]
    constructor
    · rintro (hn | ⟨k, hk, hc⟩)
      · exact .inl hn
      · exact .inr ⟨k, .inr hk, hc⟩
    · rintro (hn | ⟨k, rfl | hk, hc⟩)
      · exact .inl hn
      · exact absurd hc.1 hcopy
      · exact .inr ⟨k, hk, hc⟩

/-- **The field objects of the file** that the map has not are added. -/
theorem readGep_lines (copy : Std.HashMap (NodeID × APOffset) NodeID) (F : List Line) :
    ∀ (es : List ((NodeID × APOffset) × NodeID)) (pta : BVDataPTAImpl D), Addable copy es pta.pag →
      ∃ pag', readGepObjVarLines copy (es.map gepObjVarLine ++ delimiter :: F) pta =
          some (F, { pta with pag := pag' }) ∧ Added copy es pta.pag pag' := by
  intro es
  induction es with
  | nil =>
    intro pta _
    refine ⟨pta.pag, if_pos rfl, rfl, fun k id => ?_, fun n node => ?_⟩
    · exact ⟨.inl, fun h => h.resolve_right fun h => not_mem_nil h.1⟩
    · exact ⟨.inl, fun h => h.resolve_right fun ⟨k, hk, _⟩ => not_mem_nil hk⟩
  | cons e es ih =>
    intro pta h
    obtain ⟨⟨b, o⟩, id⟩ := e
    rw [map_cons, cons_append]
    cases hcopy : copy[(b, o)]? with
    | some id' =>
      rw [readGepObjVarLines_old hcopy]
      obtain ⟨pag', hread, hadded⟩ := ih pta h.tail
      refine ⟨pag', hread, hadded.skip ?_⟩
      rw [hcopy]
      exact some_ne_none id'
    | none =>
      obtain ⟨pag1, hadd, haddable, hone⟩ := h.add hcopy
      rw [readGepObjVarLines_new hcopy (h.base _ mem_cons_self hcopy) hadd]
      obtain ⟨pag', hread, hadded⟩ := ih { pta with pag := pag1 } haddable
      exact ⟨pag', hread, hone.trans hadded⟩

-- ── One program, two analyses

/-- The field objects of the map are the field object nodes, and the `MemObj` of an object node
    is that of a base node with its id. -/
structure SVFIR.WF (pag : SVFIR) : Prop where
  gep : ∀ b o id, pag.GepObjVarMap[(b, o)]? = some id ↔
    pag.getGNode id = some (.GepObjVar b o)
  base : ∀ n node m, pag.getGNode n = some node → node.getMemObj = some m →
    pag.getGNode m = some (.FIObjVar m) ∨ pag.getGNode m = some (.DummyObjVar m)

/-- What solving adds to an analysis that has just been initialised: field objects,
    field-insensitivity and points-to data. -/
structure Extends (fresh solved : BVDataPTAImpl D) : Prop where
  wf_fresh : fresh.pag.WF
  wf_solved : solved.pag.WF
  nodes : ∀ n node, fresh.pag.getGNode n = some node → solved.pag.getGNode n = some node
  fields : ∀ n node, solved.pag.getGNode n = some node →
    fresh.pag.getGNode n = some node ∨ ∃ b o, node = .GepObjVar b o
  insensitive : fresh.pag.fieldInsensitive ⊆ solved.pag.fieldInsensitive
  pts : ∀ n, den (fresh.getPts n) ⊆ den (solved.getPts n)
  rep : ∀ n, fresh.sccRepNode n = n

structure SameResults (solved pta : BVDataPTAImpl D) : Prop where
  nodes : ∀ n node, solved.pag.getGNode n = some node → pta.pag.getGNode n = some node
  pts : ∀ n node, solved.pag.getGNode n = some node →
    den (pta.getPts n) = den (solved.getPts n)
  fields : ∀ k : NodeID × APOffset, pta.pag.GepObjVarMap[k]? = solved.pag.GepObjVarMap[k]?
  insensitive : ∀ n node, solved.pag.getGNode n = some node →
    pta.isFieldInsensitive n = solved.isFieldInsensitive n

theorem SameResults.trans {a b c : BVDataPTAImpl D} (h : SameResults a b)
    (h' : SameResults b c) : SameResults a c where
  nodes n node hn := h'.nodes n node (h.nodes n node hn)
  pts n node hn := (h'.pts n node (h.nodes n node hn)).trans (h.pts n node hn)
  fields k := (h'.fields k).trans (h.fields k)
  insensitive n node hn :=
    (h'.insensitive n node (h.nodes n node hn)).trans (h.insensitive n node hn)

theorem SVFIR.WF.baseNodes (h : pag.WF) : BaseNodes pag := by
  intro n m hm
  obtain ⟨node, hn, hmem⟩ := bind_eq_some_iff.mp hm
  rw [SVFIR.getBaseObjVar]
  rcases h.base n node m hn hmem with hb | hb
  · rw [hb]
    rfl
  · rw [hb]
    rfl

section Extension

variable {fresh solved : BVDataPTAImpl D}

section

variable (h : Extends fresh solved)
include h

theorem Extends.base_fresh {n m : NodeID} {node : SVFVar}
    (hn : solved.pag.getGNode n = some node) (hmem : node.getMemObj = some m) :
    fresh.pag.getBaseObjVar m = some m := by
  have hback : ∀ base : SVFVar, solved.pag.getGNode m = some base →
      (∀ b o, base ≠ .GepObjVar b o) → fresh.pag.getGNode m = some base := by
    intro base hb hne
    exact (h.fields m base hb).resolve_right fun ⟨b, o, hbo⟩ => hne b o hbo
  rw [SVFIR.getBaseObjVar]
  rcases h.wf_solved.base n node m hn hmem with hb | hb
  · rw [hback _ hb fun b o => SVFVar.noConfusion]
    rfl
  · rw [hback _ hb fun b o => SVFVar.noConfusion]
    rfl

theorem Extends.map_sub {k : NodeID × APOffset} {id : NodeID}
    (hk : fresh.pag.GepObjVarMap[k]? = some id) : solved.pag.GepObjVarMap[k]? = some id :=
  (h.wf_solved.gep k.1 k.2 id).mpr (h.nodes id _ ((h.wf_fresh.gep k.1 k.2 id).mp hk))

section

variable {pag : SVFIR} (hnodes : ∀ n, pag.getGNode n = fresh.pag.getGNode n)
  (hmap : ∀ k : NodeID × APOffset, pag.GepObjVarMap[k]? = fresh.pag.GepObjVarMap[k]?)
include hnodes hmap

theorem Extends.addable :
    Addable fresh.pag.GepObjVarMap solved.pag.GepObjVarMap.toList pag := by
  have hsolved : ∀ e ∈ solved.pag.GepObjVarMap.toList,
      solved.pag.getGNode e.2 = some (.GepObjVar e.1.1 e.1.2) := fun e he =>
    (h.wf_solved.gep e.1.1 e.1.2 e.2).mp (Std.HashMap.mem_toList_iff_getElem?_eq_some.mp he)
  constructor
  case distinct =>
    refine Std.HashMap.distinct_keys_toList.imp_of_mem fun {x y} hx hy hxy => ?_
    have hne : x.1 ≠ y.1 := beq_eq_false_iff_ne.mp hxy
    refine ⟨hne, fun hid => hne ?_⟩
    have hnode := (hsolved x hx).symm.trans ((congrArg _ hid).trans (hsolved y hy))
    obtain ⟨h1, h2⟩ := SVFVar.GepObjVar.inj (Option.some.inj hnode)
    exact Prod.ext h1 h2
  case key => exact fun e _ hc => (hmap e.1).trans hc
  case node =>
    intro e he hc
    rw [hnodes]
    cases hnode : fresh.pag.getGNode e.2 with
    | none => rfl
    | some node =>
      have hgep : node = .GepObjVar e.1.1 e.1.2 :=
        Option.some.inj ((h.nodes e.2 node hnode).symm.trans (hsolved e he))
      rw [hgep] at hnode
      have hk := (h.wf_fresh.gep e.1.1 e.1.2 e.2).mpr hnode
      exact absurd (hc.symm.trans hk).symm (some_ne_none _)
  case base =>
    intro e he _
    rw [SVFIR.getBaseObjVar, hnodes]
    exact h.base_fresh (hsolved e he) rfl

/-- With the field objects of the solved analysis added, the fresh one has its nodes and its
    map. -/
theorem Extends.added {pag' : SVFIR}
    (hadded : Added fresh.pag.GepObjVarMap solved.pag.GepObjVarMap.toList pag pag') :
    (∀ n node, solved.pag.getGNode n = some node → pag'.getGNode n = some node) ∧
      ∀ k : NodeID × APOffset, pag'.GepObjVarMap[k]? = solved.pag.GepObjVarMap[k]? := by
  constructor
  · intro n node hn
    rw [hadded.nodes, hnodes]
    rcases h.fields n node hn with hf | ⟨b, o, rfl⟩
    · exact .inl hf
    have hk := (h.wf_solved.gep b o n).mpr hn
    cases hc : fresh.pag.GepObjVarMap[(b, o)]? with
    | none =>
      exact .inr ⟨(b, o), Std.HashMap.mem_toList_iff_getElem?_eq_some.mpr hk, hc, rfl⟩
    | some id =>
      have hid : id = n := Option.some.inj ((h.map_sub hc).symm.trans hk)
      rw [hid] at hc
      exact .inl ((h.wf_fresh.gep b o n).mp hc)
  · intro k
    ext id
    rw [hadded.map, hmap, Std.HashMap.mem_toList_iff_getElem?_eq_some]
    constructor
    · rintro (hk | ⟨hk, _⟩)
      · exact h.map_sub hk
      · exact hk
    · intro hk
      cases hc : fresh.pag.GepObjVarMap[k]? with
      | none => exact .inr ⟨hk, rfl⟩
      | some id' => exact .inl ((h.map_sub hc).symm.trans hk)

end

end

end Extension

-- ── What solving does

theorem SVFIR.WF.addGepObjNode {pag pag' : SVFIR} (h : pag.WF) {n b : NodeID} {o : APOffset}
    {id : NodeID} (hb : pag.getBaseObjVar n = some b)
    (hadd : pag.addGepObjNode b o id = some pag') : pag'.WF := by
  obtain ⟨⟨hkey, hnode⟩, hmap, hnodes, _⟩ := SVFIR.addGepObjNode_spec hadd
  have hold : ∀ m node, pag.getGNode m = some node → pag'.getGNode m = some node := by
    intro m node hm
    rw [hnodes, if_neg]
    · exact hm
    · rintro rfl
      exact some_ne_none node (hm.symm.trans hnode)
  constructor
  case gep =>
    intro b' o' id'
    rw [hnodes]
    simp only [hmap, Prod.mk.injEq]
    by_cases hk : b = b' ∧ o = o'
    · obtain ⟨rfl, rfl⟩ := hk
      simp only [and_self, if_true, some_inj]
      by_cases hid : id = id'
      · simp only [hid, if_true]
      · simp only [hid, if_false, false_iff]
        rw [← h.gep, hkey]
        exact fun hc => some_ne_none _ hc.symm
    · simp only [hk, if_false]
      rw [h.gep]
      by_cases hid : id = id'
      · subst hid
        simp only [hnode, if_true, some_inj, reduceCtorEq, SVFVar.GepObjVar.injEq, hk]
      · simp only [hid, if_false]
  case base =>
    have hbase : ∀ m, pag.getBaseObjVar m = some b →
        pag'.getGNode b = some (.FIObjVar b) ∨ pag'.getGNode b = some (.DummyObjVar b) := by
      intro m hm
      obtain ⟨node, hm, hmem⟩ := bind_eq_some_iff.mp hm
      exact (h.base m node b hm hmem).imp (hold b _) (hold b _)
    intro m node mem hm hmem
    rw [hnodes] at hm
    split_ifs at hm with hid
    · rw [← Option.some.inj hm] at hmem
      rw [← Option.some.inj hmem]
      exact hbase n hb
    · exact (h.base m node mem hm hmem).imp (hold mem _) (hold mem _)

section Solving

variable {fresh solved : BVDataPTAImpl D}

theorem Extends.refl (wf : fresh.pag.WF) (rep : ∀ n, fresh.sccRepNode n = n) :
    Extends fresh fresh where
  wf_fresh := wf
  wf_solved := wf
  nodes := fun _ _ hn => hn
  fields := fun _ _ hn => .inl hn
  insensitive := subset_rfl
  pts := fun _ => subset_rfl
  rep := rep

theorem Extends.addGepObjNode (h : Extends fresh solved) {n b : NodeID} {o : APOffset}
    {id : NodeID} {pag : SVFIR} (hb : solved.pag.getBaseObjVar n = some b)
    (hadd : solved.pag.addGepObjNode b o id = some pag) :
    Extends fresh { solved with pag := pag } := by
  obtain ⟨⟨_, hnode⟩, _, hnodes, hins⟩ := SVFIR.addGepObjNode_spec hadd
  constructor
  case wf_fresh => exact h.wf_fresh
  case wf_solved => exact h.wf_solved.addGepObjNode hb hadd
  case nodes =>
    intro m node hm
    have hs := h.nodes m node hm
    show pag.getGNode m = some node
    rw [hnodes, if_neg]
    · exact hs
    · rintro rfl
      exact some_ne_none node (hs.symm.trans hnode)
  case fields =>
    intro m node hm
    have hm : pag.getGNode m = some node := hm
    rw [hnodes] at hm
    split_ifs at hm with hid
    · exact .inr ⟨b, o, (Option.some.inj hm).symm⟩
    · exact h.fields m node hm
  case insensitive =>
    intro m hm
    show m ∈ pag.fieldInsensitive
    rw [hins]
    exact h.insensitive hm
  case pts => exact h.pts
  case rep => exact h.rep

theorem Extends.setObjFieldInsensitive (h : Extends fresh solved) {id : NodeID}
    {pta : BVDataPTAImpl D} (hset : solved.setObjFieldInsensitive id = some pta) :
    Extends fresh pta := by
  obtain ⟨m, _, rfl⟩ := Option.map_eq_some_iff.mp hset
  constructor
  case wf_fresh => exact h.wf_fresh
  case wf_solved => exact ⟨h.wf_solved.gep, h.wf_solved.base⟩
  case nodes => exact h.nodes
  case fields => exact h.fields
  case insensitive => exact h.insensitive.trans (Finset.subset_insert _ _)
  case pts => exact h.pts
  case rep => exact h.rep

theorem Extends.unionPts [SetDataSet D] (h : Extends fresh solved) (var : NodeID) (d : D) :
    Extends fresh { solved with ptD := (solved.ptD.unionPtsData var d).2 } where
  wf_fresh := h.wf_fresh
  wf_solved := h.wf_solved
  nodes := h.nodes
  fields := h.fields
  insensitive := h.insensitive
  pts n := by
    refine (h.pts n).trans ?_
    rw [getPts, getPts, den_getPts_unionPtsData]
    exact subset_union_left
  rep := h.rep

end Solving

-- ── The round trip

theorem newline_notMem_putNat (n : ℕ) : '\n' ∉ putNat n :=
  fun h => absurd (isDigit_of_mem_putNat h) (by decide)

theorem newline_notMem_putInt (i : ℤ) : '\n' ∉ putInt i := by
  rw [putInt]
  split_ifs
  · rw [List.mem_cons, not_or]
    exact ⟨by decide, newline_notMem_putNat _⟩
  · exact newline_notMem_putNat _

theorem newline_notMem_objVarLine (n : NodeID) (b : Bool) : '\n' ∉ objVarLine n b := by
  rw [objVarLine, mem_append, List.mem_cons, not_or, not_or]
  exact ⟨newline_notMem_putNat n, by decide, newline_notMem_putNat _⟩

theorem newline_notMem_ptsLine (var : NodeID) (pts : D) : '\n' ∉ ptsLine var pts := by
  have hpts : '\n' ∉ putPts pts := by
    rw [putPts]
    split_ifs
    · decide
    · rw [List.mem_flatMap]
      rintro ⟨n, _, hn⟩
      rcases mem_append.mp hn with hn | hn
      · exact newline_notMem_putNat n hn
      · exact absurd hn (by decide)
  rw [ptsLine, mem_append, mem_append, mem_append, not_or, not_or, not_or]
  exact ⟨newline_notMem_putNat var, by decide, hpts, by decide⟩

theorem newline_notMem_gepObjVarLine (e : (NodeID × APOffset) × NodeID) :
    '\n' ∉ gepObjVarLine e := by
  rw [gepObjVarLine, mem_append, List.mem_cons, mem_append, List.mem_cons]
  rintro (h | h | h | h | h)
  · exact newline_notMem_putNat _ h
  · cases h
  · exact newline_notMem_putInt _ h
  · cases h
  · exact newline_notMem_putNat _ h

/-- The lines of the whole file, over the base objects in the order they are written. -/
def fileLines (solved : BVDataPTAImpl D) (bs : List NodeID) : List Line :=
  let lines := bs.map fun n => objVarLine n (decide (n ∈ solved.pag.fieldInsensitive))
  lines ++ delimiter :: (solved.writePtsResultToFile ++ delimiter ::
    (solved.writeGepObjVarMapToFile ++ delimiter :: lines))

theorem newline_notMem_fileLines (solved : BVDataPTAImpl D) (bs : List NodeID) :
    ∀ l ∈ fileLines solved bs, '\n' ∉ l := by
  intro l hl
  have hbs : ∀ l ∈ bs.map fun n => objVarLine n (decide (n ∈ solved.pag.fieldInsensitive)),
      '\n' ∉ l := by
    intro l hl
    obtain ⟨n, _, rfl⟩ := mem_map.mp hl
    exact newline_notMem_objVarLine n _
  have hdelim : '\n' ∉ delimiter := by decide
  simp only [fileLines, mem_append, List.mem_cons] at hl
  rcases hl with hl | rfl | hl | rfl | hl | rfl | hl
  · exact hbs l hl
  · exact hdelim
  · obtain ⟨it, _, rfl⟩ := mem_map.mp hl
    exact newline_notMem_ptsLine it.1 _
  · exact hdelim
  · obtain ⟨e, _, rfl⟩ := mem_map.mp hl
    exact newline_notMem_gepObjVarLine e
  · exact hdelim
  · exact hbs l hl

def structPag : SVFIR where
  IDToNodeMap := ((Std.TreeMap.empty.insert 1 .ValVar).insert 2 (.FIObjVar 2)).insert 3
    (.DummyObjVar 3)
  GepObjVarMap := ∅
  memToFieldsMap := fun _ => ∅
  fieldInsensitive := ∅

def structFieldPag : SVFIR where
  IDToNodeMap := structPag.IDToNodeMap.insert 5 (.GepObjVar 2 1)
  GepObjVarMap := structPag.GepObjVarMap.insert (2, 1) 5
  memToFieldsMap := Function.update structPag.memToFieldsMap 2 (insert 5 ∅)
  fieldInsensitive := ∅

/-- The analysis of the struct program before it is solved. -/
def structFresh : BVDataPTAImpl (Finset ℕ) where
  pag := structPag
  ptD := MutablePTData.init false
  sccRepNode := id

/-- Solved: the pointer points to the struct and to its field, and the dummy object is
    field-insensitive. -/
def structSolved : BVDataPTAImpl (Finset ℕ) where
  pag := { structFieldPag with fieldInsensitive := insert 3 ∅ }
  ptD := ((MutablePTData.init false).unionPtsData 1 {2, 5}).2
  sccRepNode := id

theorem getGNode_structPag (n : NodeID) : structPag.getGNode n =
    if 3 = n then some (.DummyObjVar 3) else if 2 = n then some (.FIObjVar 2)
    else if 1 = n then some .ValVar else none := by
  rw [SVFIR.getGNode, structPag, getElem?_insert_iff, getElem?_insert_iff, getElem?_insert_iff]
  rfl

theorem structPag_wf : structPag.WF := by
  constructor
  case gep =>
    intro b o id
    rw [getGNode_structPag]
    split_ifs <;> simp [structPag]
  case base =>
    intro n node m hn hmem
    rw [getGNode_structPag] at hn
    split_ifs at hn with h3 h2 h1
    · rw [← Option.some.inj hn] at hmem
      rw [← Option.some.inj hmem]
      exact .inr (getGNode_structPag 3)
    · rw [← Option.some.inj hn] at hmem
      rw [← Option.some.inj hmem]
      exact .inl (getGNode_structPag 2)
    · rw [← Option.some.inj hn] at hmem
      cases hmem.symm

theorem structSolved_extends : Extends structFresh structSolved := by
  have hrefl : Extends structFresh structFresh := Extends.refl structPag_wf fun _ => rfl
  have hbase : structFresh.pag.getBaseObjVar 2 = some 2 := by
    rw [SVFIR.getBaseObjVar]
    show (structPag.getGNode 2).bind _ = _
    rw [getGNode_structPag]
    rfl
  have hadd : structFresh.pag.addGepObjNode 2 1 5 = some structFieldPag := by
    refine if_pos ⟨Std.HashMap.getElem?_empty, ?_⟩
    show structPag.getGNode 5 = none
    rw [getGNode_structPag]
    rfl
  have hset : ({ structFresh with pag := structFieldPag } : BVDataPTAImpl (Finset ℕ)).setObjFieldInsensitive
      3 = some { structFresh with pag := { structFieldPag with fieldInsensitive := insert 3 ∅ } } := by
    have h3 : structFieldPag.getBaseObjVar 3 = some 3 := by
      obtain ⟨_, _, hnodes, _⟩ := SVFIR.addGepObjNode_spec hadd
      rw [SVFIR.getBaseObjVar, hnodes]
      show (structPag.getGNode 3).bind _ = _
      rw [getGNode_structPag]
      rfl
    show (structFieldPag.getBaseObjVar 3).map _ = _
    rw [h3]
    rfl
  exact ((hrefl.addGepObjNode hbase hadd).setObjFieldInsensitive hset).unionPts 1 {2, 5}

theorem SameResults.refl (pta : BVDataPTAImpl D) : SameResults pta pta where
  nodes := fun _ _ hn => hn
  pts := fun _ _ _ => rfl
  fields := fun _ => rfl
  insensitive := fun _ _ _ => rfl

end SvfPtsFile
