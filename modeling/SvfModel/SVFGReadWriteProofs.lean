import SvfModel.LoopProofs
import SvfModel.TextProofs

/-!
# The value-flow graph survives the file

`buildSVFG` puts a node into the graph for every memory phi, entry chi, return mu, and call-site
mu and chi, with consecutive ids from where the top-level nodes end, and connects definitions
with uses. `writeToFile` writes these nodes and edges as lines; `readFile` takes the lines apart
by position and adds them to a graph that has only the top-level nodes.

The heart is that every line is read as what it was written for: a version
(`getMRVERFromString_put`), a node (`readNode_nodeLine`), an edge (`readEdge_edgeLine`). The graph
that is read has the same nodes and edges, but its node counter is raised only by an id above
it, so it stops at the last id when the number of nodes is odd.
-/

set_option linter.unusedSectionVars false

namespace SvfSVFG

open SvfLoop SvfText Option Nat
open List (append_assoc append_nil cons_append flatMap_cons foldlM_cons forall_mem_cons
  length_append length_cons lookup_cons map_cons mem_cons mem_cons_of_mem mem_cons_self mem_flatMap
  mem_singleton not_mem_nil)

abbrev NodeID := ℕ

-- ── Memory SSA

inductive DEFTYPE | SSACHI | StoreMSSACHI | CallMSSACHI | EntryMSSACHI | SSAPHI
deriving DecidableEq

def DEFTYPE.toNat : DEFTYPE → ℕ
  | .SSACHI => 0
  | .StoreMSSACHI => 1
  | .CallMSSACHI => 2
  | .EntryMSSACHI => 3
  | .SSAPHI => 4

/-- `static_cast<DEFTYPE>`, of a number that is one. -/
def DEFTYPE.ofInt (i : ℤ) : Option DEFTYPE :=
  [DEFTYPE.SSACHI, .StoreMSSACHI, .CallMSSACHI, .EntryMSSACHI, .SSAPHI].find?
    fun type => (type.toNat : ℤ) = i

/-- A version of a memory region, the type of its definition beside it. The definition has the
    same region. -/
structure MRVer where
  vid : ℕ
  mr : Finset NodeID
  version : ℕ
  defType : DEFTYPE
deriving DecidableEq

/-- The operands of a memory phi, by position, in the order of the map. -/
abbrev OPVers := List (ℕ × MRVer)

/-- The nodes. A load has its mus, a store the operand and the result of its chis; the others
    that are not address-taken are alike here. A phi has the node of the first instruction of
    its block. -/
inductive SVFGNode (F C : Type)
  | TopLevelSVFGNode
  | LoadSVFGNode (muSet : List MRVer)
  | StoreSVFGNode (chiSet : List (MRVer × MRVer))
  | FormalINSVFGNode (func : F) (ver : MRVer)
  | FormalOUTSVFGNode (func : F) (ver : MRVer)
  | ActualINSVFGNode (cs : C) (ver : MRVer)
  | ActualOUTSVFGNode (cs : C) (ver : MRVer)
  | MSSAPHISVFGNode (icfgNode : NodeID) (resVer : MRVer) (opVers : OPVers)
deriving DecidableEq

inductive ICFGNode (F C : Type)
  | FunEntryICFGNode (func : F)
  | FunExitICFGNode (func : F)
  | CallICFGNode (cs : C)
  | IntraICFGNode

/-- The control-flow graph, by the ids of its nodes. `front` is the node of the first
    instruction of a block. -/
structure ICFG (F C B : Type) where
  getICFGNode : NodeID → Option (ICFGNode F C)
  getFunEntryICFGNode : F → NodeID
  getFunExitICFGNode : F → NodeID
  getCallICFGNode : C → NodeID
  front : B → NodeID
  getBB : NodeID → B
  entry_node : ∀ f, getICFGNode (getFunEntryICFGNode f) = some (.FunEntryICFGNode f)
  exit_node : ∀ f, getICFGNode (getFunExitICFGNode f) = some (.FunExitICFGNode f)
  call_node : ∀ c, getICFGNode (getCallICFGNode c) = some (.CallICFGNode c)
  front_node : ∀ b, (getICFGNode (front b)).isSome = true
  front_bb : ∀ b, getBB (front b) = b

/-- The nodes that are there before. -/
def SVFGNode.isTopLevel {F C : Type} : SVFGNode F C → Bool
  | .TopLevelSVFGNode => true
  | .LoadSVFGNode _ => true
  | .StoreSVFGNode _ => true
  | _ => false

/-- What the graph is built over: the top-level nodes with the counter behind them, the memory
    SSA form, the call graph and the global stores. `totalVERNum` versions have been made.
    `copyOrder` is the order of a copy of a map. -/
structure SVFIR (F C B : Type) where
  icfg : ICFG F C B
  topLevel : List (NodeID × SVFGNode F C)
  totalVFGNode : NodeID
  phis : List (B × MRVer × OPVers)
  entryChis : List (F × MRVer)
  retMus : List (F × MRVer)
  callMus : List (C × MRVer)
  callChis : List (C × MRVer)
  totalVERNum : ℕ
  hasMU : C → Bool
  hasCHI : C → Bool
  dirCallSitesInvokingCallee : F → List C
  getCallSiteID : C → F → ℕ
  progEntry : F
  globalVFGNodes : List NodeID
  getPts : NodeID → Finset NodeID
  copyOrder : OPVers → OPVers
  topLevel_lt : ∀ x ∈ topLevel, x.1 < totalVFGNode
  topLevel_sorted : topLevel.Pairwise fun x y => x.1 < y.1
  topLevel_kind : ∀ x ∈ topLevel, x.2.isTopLevel = true
  stores_lt : ∀ id chis, (id, SVFGNode.StoreSVFGNode chis) ∈ topLevel →
    ∀ chi ∈ chis, chi.2.vid < totalVERNum
  copyOrder_perm : ∀ opVers, (copyOrder opVers).Perm opVers

-- ── The graph

/-- The kinds of indirect edges; those between functions have their call site. -/
inductive SVFGEdgeK
  | IntraIndirectVF
  | CallIndVF (csId : ℕ)
  | RetIndVF (csId : ℕ)
deriving DecidableEq

/-- Source, destination and kind of an edge. -/
abbrev EdgeKey := NodeID × NodeID × SVFGEdgeK

abbrev Edges := List (EdgeKey × Finset NodeID)

/-- The nodes are in the order of their ids. The definitions of versions are kept by the id of
    the version. -/
structure SVFG (F C : Type) where
  IDToNodeMap : List (NodeID × SVFGNode F C)
  totalVFGNode : NodeID
  MSSAVarToDefMap : List (ℕ × NodeID)
  edges : Edges

variable {F C B : Type} [DecidableEq F] [DecidableEq C] [DecidableEq B]

def addGNode (id : NodeID) (node : SVFGNode F C) :
    List (NodeID × SVFGNode F C) → List (NodeID × SVFGNode F C)
  | [] => [(id, node)]
  | x :: l =>
    if id < x.1 then (id, node) :: x :: l
    else if id = x.1 then (id, node) :: l
    else x :: addGNode id node l

namespace SVFG

def getSVFGNode (g : SVFG F C) (id : NodeID) : Option (SVFGNode F C) := g.IDToNodeMap.lookup id

/-- `none` is the assertion that a version has one definition. -/
def setDef (ver : MRVer) (id : NodeID) (g : SVFG F C) : Option (SVFG F C) :=
  match g.MSSAVarToDefMap.lookup ver.vid with
  | none => some { g with MSSAVarToDefMap := g.MSSAVarToDefMap ++ [(ver.vid, id)] }
  | some id' => if id' = id then some g else none

/-- `none` is the assertion that a version has a definition. -/
def getDef (g : SVFG F C) (ver : MRVer) : Option NodeID := g.MSSAVarToDefMap.lookup ver.vid

def addSVFGNode (id : NodeID) (node : SVFGNode F C) (g : SVFG F C) : SVFG F C :=
  { g with IDToNodeMap := addGNode id node g.IDToNodeMap }

def addFormalINSVFGNode (f : F) (resVer : MRVer) (id : NodeID) (g : SVFG F C) : Option (SVFG F C) :=
  (g.addSVFGNode id (.FormalINSVFGNode f resVer)).setDef resVer id

def addFormalOUTSVFGNode (f : F) (ver : MRVer) (id : NodeID) (g : SVFG F C) : Option (SVFG F C) :=
  some (g.addSVFGNode id (.FormalOUTSVFGNode f ver))

def addActualINSVFGNode (cs : C) (ver : MRVer) (id : NodeID) (g : SVFG F C) : Option (SVFG F C) :=
  some (g.addSVFGNode id (.ActualINSVFGNode cs ver))

def addActualOUTSVFGNode (cs : C) (resVer : MRVer) (id : NodeID) (g : SVFG F C) :
    Option (SVFG F C) :=
  (g.addSVFGNode id (.ActualOUTSVFGNode cs resVer)).setDef resVer id

def addIntraMSSAPHISVFGNode (icfgNode : NodeID) (opVers : OPVers) (resVer : MRVer) (id : NodeID)
    (g : SVFG F C) : Option (SVFG F C) :=
  (g.addSVFGNode id (.MSSAPHISVFGNode icfgNode resVer opVers)).setDef resVer id

def getFormalINSVFGNodes (g : SVFG F C) (f : F) : List NodeID :=
  (g.IDToNodeMap.filter fun x => match x.2 with
    | .FormalINSVFGNode f' _ => f' = f
    | _ => false).map Prod.fst

def getActualINSVFGNodes (g : SVFG F C) (cs : C) : List NodeID :=
  (g.IDToNodeMap.filter fun x => match x.2 with
    | .ActualINSVFGNode cs' _ => cs' = cs
    | _ => false).map Prod.fst

def getActualOUTSVFGNodes (g : SVFG F C) (cs : C) : List NodeID :=
  (g.IDToNodeMap.filter fun x => match x.2 with
    | .ActualOUTSVFGNode cs' _ => cs' = cs
    | _ => false).map Prod.fst

/-- `hasIntraVFGEdge` or `hasInterVFGEdge`, then `addPointsTo` or `addSVFGEdge`. -/
def addEdge (key : EdgeKey) (cpts : Finset NodeID) : Edges → Edges
  | [] => [(key, cpts)]
  | e :: l => if e.1 = key then (key, e.2 ∪ cpts) :: l else e :: addEdge key cpts l

def addIndirectVFEdge (kind : SVFGEdgeK) (srcId dstId : NodeID) (cpts : Finset NodeID)
    (g : SVFG F C) : Option (SVFG F C) :=
  (g.getSVFGNode srcId).bind fun _ => (g.getSVFGNode dstId).map fun _ =>
    { g with edges := addEdge (srcId, dstId, kind) cpts g.edges }

def addIntraIndirectVFEdge (srcId dstId : NodeID) (cpts : Finset NodeID) (g : SVFG F C) :
    Option (SVFG F C) := g.addIndirectVFEdge .IntraIndirectVF srcId dstId cpts

def addInterIndirectVFCallEdge (p : SVFIR F C B) (srcId dstId : NodeID) (g : SVFG F C) :
    Option (SVFG F C) :=
  match g.getSVFGNode srcId, g.getSVFGNode dstId with
  | some (.ActualINSVFGNode cs ver), some (.FormalINSVFGNode f ver') =>
    if ver.mr ∩ ver'.mr = ∅ then some g
    else g.addIndirectVFEdge (.CallIndVF (p.getCallSiteID cs f)) srcId dstId (ver.mr ∩ ver'.mr)
  | _, _ => none

def addInterIndirectVFRetEdge (p : SVFIR F C B) (srcId dstId : NodeID) (g : SVFG F C) :
    Option (SVFG F C) :=
  match g.getSVFGNode srcId, g.getSVFGNode dstId with
  | some (.FormalOUTSVFGNode f ver), some (.ActualOUTSVFGNode cs ver') =>
    if ver.mr ∩ ver'.mr = ∅ then some g
    else g.addIndirectVFEdge (.RetIndVF (p.getCallSiteID cs f)) srcId dstId (ver.mr ∩ ver'.mr)
  | _, _ => none

end SVFG

namespace SVFIR

variable (p : SVFIR F C B)

-- ── Building

def fresh : SVFG F C := ⟨p.topLevel, p.totalVFGNode, [], []⟩

/-- The definitions at stores, set at the start of building and of reading. -/
def setStoreDefs (g : SVFG F C) : Option (SVFG F C) :=
  p.topLevel.foldlM (fun g x => match x.2 with
    | .StoreSVFGNode chiSet => chiSet.foldlM (fun g chi => g.setDef chi.2 x.1) g
    | _ => some g) g

def addAll {A : Type} (add : A → NodeID → SVFG F C → Option (SVFG F C)) (l : List A)
    (g : SVFG F C) : Option (SVFG F C) :=
  l.foldlM (fun g a => add a g.totalVFGNode { g with totalVFGNode := g.totalVFGNode + 1 }) g

def addSVFGNodesForAddrTakenVars (g : SVFG F C) : Option (SVFG F C) :=
  ((((((p.setStoreDefs g).bind
    (addAll (fun phi => SVFG.addIntraMSSAPHISVFGNode (p.icfg.front phi.1) phi.2.2 phi.2.1) p.phis)).bind
    (addAll (fun chi => SVFG.addFormalINSVFGNode chi.1 chi.2) p.entryChis)).bind
    (addAll (fun mu => SVFG.addFormalOUTSVFGNode mu.1 mu.2) p.retMus)).bind
    (addAll (fun mu => SVFG.addActualINSVFGNode mu.1 mu.2) p.callMus)).bind
    (addAll (fun chi => SVFG.addActualOUTSVFGNode chi.1 chi.2) p.callChis))

/-- What the loops of `connectIndirectSVFGEdges` and of the second part of `writeToFile`, which
    are alike, come by: a use of a version in a node, or two nodes of a direct call. -/
inductive Use
  | load (id defId : NodeID) (ver : MRVer)
  | store (id defId : NodeID) (ver : MRVer)
  | formalIn (id actualIn : NodeID)
  | formalOut (id actualOut : NodeID)
  | retMu (id defId : NodeID) (ver : MRVer)
  | actualIn (id defId : NodeID) (ver : MRVer)
  | phi (id defId : NodeID) (ver : MRVer)

section

variable (g : SVFG F C)

/-- The uses in one node. -/
def usesAt (x : NodeID × SVFGNode F C) : Option (List Use) :=
  match x.2 with
  | .LoadSVFGNode muSet => muSet.mapM fun ver => (g.getDef ver).map (.load x.1 · ver)
  | .StoreSVFGNode chiSet => chiSet.mapM fun chi => (g.getDef chi.1).map (.store x.1 · chi.1)
  | .FormalINSVFGNode f _ =>
    some (((p.dirCallSitesInvokingCallee f).filter p.hasMU).flatMap fun cs =>
      (g.getActualINSVFGNodes cs).map (.formalIn x.1))
  | .FormalOUTSVFGNode f ver =>
    (g.getDef ver).map fun defId =>
      (((p.dirCallSitesInvokingCallee f).filter p.hasCHI).flatMap fun cs =>
        (g.getActualOUTSVFGNodes cs).map (.formalOut x.1)) ++ [.retMu x.1 defId ver]
  | .ActualINSVFGNode _ ver => (g.getDef ver).map fun defId => [.actualIn x.1 defId ver]
  | .MSSAPHISVFGNode _ _ opVers =>
    opVers.mapM fun op => (g.getDef op.2).map (.phi x.1 · op.2)
  | .TopLevelSVFGNode => some []
  | .ActualOUTSVFGNode _ _ => some []

def uses : Option (List Use) :=
  (g.IDToNodeMap.mapM (p.usesAt g)).map List.flatten

def connectUse : Use → Option (SVFG F C)
  | .load id defId ver | .store id defId ver | .retMu id defId ver | .actualIn id defId ver
  | .phi id defId ver => g.addIntraIndirectVFEdge defId id ver.mr
  | .formalIn id actualIn => g.addInterIndirectVFCallEdge p actualIn id
  | .formalOut id actualOut => g.addInterIndirectVFRetEdge p id actualOut

def connectFromGlobalToProgEntry : Option (SVFG F C) :=
  p.globalVFGNodes.foldlM (fun g store => match g.getSVFGNode store with
    | some (.StoreSVFGNode _) =>
      (g.getFormalINSVFGNodes p.progEntry).foldlM (fun g formalIn =>
        match g.getSVFGNode formalIn with
        | some (.FormalINSVFGNode _ ver) =>
          if ver.mr ∩ p.getPts store = ∅ then some g
          else g.addIntraIndirectVFEdge store formalIn (ver.mr ∩ p.getPts store)
        | _ => none) g
    | some _ => some g
    | none => none) g

def connectIndirectSVFGEdges : Option (SVFG F C) :=
  (p.uses g).bind fun uses =>
    (uses.foldlM p.connectUse g).bind p.connectFromGlobalToProgEntry

end

def buildSVFG : Option (SVFG F C) :=
  (p.addSVFGNodesForAddrTakenVars p.fresh).bind p.connectIndirectSVFGEdges

-- ── Writing

def dumpStr (mr : Finset NodeID) : List Char :=
  "pts\x7b".toList ++ (putNats (mr.sort (· ≤ ·)) ++ "\x7d".toList)

/-- `o << mrver` -/
def putMRVer (ver : MRVer) : List Char :=
  "MRVERID: ".toList ++ (putNat ver.vid ++ (" MemRegion: ".toList ++ (dumpStr ver.mr ++
    (" MRVERSION: ".toList ++ (putNat ver.version ++ (" MSSADef: ".toList ++
      (putNat ver.defType.toNat ++ (", ".toList ++ dumpStr ver.mr))))))))

def delimiter : List Char := " >= ".toList

/-- The line of an address-taken node, up to the operands of a phi. -/
def nodeText (type : List Char) (id : NodeID) (ver : MRVer) (icfgNode : NodeID) : List Char :=
  "SVFGNodeID: ".toList ++ (putNat id ++ (delimiter ++ (type ++ (delimiter ++
    ("MVER: \x7b".toList ++ (putMRVer ver ++ ("\x7d".toList ++ (delimiter ++
      ("ICFGNodeID: ".toList ++ putNat icfgNode)))))))))

def putOpVers (opVers : OPVers) : List Char :=
  opVers.flatMap fun op => "\x7b".toList ++ (putMRVer op.2 ++ "\x7d,".toList)

/-- The first part of `writeToFile`, for one node. -/
def nodeLine (x : NodeID × SVFGNode F C) : List Line :=
  match x.2 with
  | .FormalINSVFGNode f ver =>
    [nodeText "FormalINSVFGNode".toList x.1 ver (p.icfg.getFunEntryICFGNode f)]
  | .FormalOUTSVFGNode f ver =>
    [nodeText "FormalOUTSVFGNode".toList x.1 ver (p.icfg.getFunExitICFGNode f)]
  | .ActualINSVFGNode cs ver =>
    [nodeText "ActualINSVFGNode".toList x.1 ver (p.icfg.getCallICFGNode cs)]
  | .ActualOUTSVFGNode cs ver =>
    [nodeText "ActualOUTSVFGNode".toList x.1 ver (p.icfg.getCallICFGNode cs)]
  | .MSSAPHISVFGNode icfgNode resVer opVers =>
    [nodeText "PHISVFGNode".toList x.1 resVer (p.icfg.front (p.icfg.getBB icfgNode)) ++
      (delimiter ++ ("OPVers: \x7b".toList ++ (putOpVers (p.copyOrder opVers) ++ "\x7d".toList)))]
  | .TopLevelSVFGNode => []
  | .LoadSVFGNode _ => []
  | .StoreSVFGNode _ => []

def edgeText (id defId : NodeID) (attributes : List Char) : Line :=
  "srcSVFGNodeID: ".toList ++ (putNat id ++ (" => ".toList ++ ("dstSVFGNodeID: ".toList ++
    (putNat defId ++ (delimiter ++ attributes)))))

def attributesOf (type : List Char) (ver : MRVer) : List Char :=
  type ++ (" | ".toList ++ ("MVER: \x7b".toList ++ (putMRVer ver ++ "\x7d".toList)))

/-- The second part of `writeToFile`, for one use. -/
def edgeLine : Use → Line
  | .load id defId ver => edgeText id defId (attributesOf "LoadNode".toList ver)
  | .store id defId ver => edgeText id defId (attributesOf "StoreNode".toList ver)
  | .formalIn id actualIn => edgeText id actualIn "FormalINSVFGNode".toList
  | .formalOut id actualOut => edgeText id actualOut "FormalOUTSVFGNode".toList
  | .retMu id defId _ => edgeText id defId "FormalOUTSVFGNode | intra".toList
  | .actualIn id defId _ => edgeText id defId "ActualINSVFGNode".toList
  | .phi id defId ver => edgeText id defId (attributesOf "PHISVFGNode".toList ver)

def writeToFile (g : SVFG F C) : Option (List Char) :=
  (p.uses g).map fun uses =>
    putlines ("__Nodes__".toList :: (g.IDToNodeMap.flatMap p.nodeLine ++
      ([] :: [] :: "__Edges__".toList :: uses.map edgeLine)))

-- ── Reading

/-- The graph while it is read, and the versions that have been made. -/
structure Reading (F C : Type) where
  g : SVFG F C
  totalVERNum : ℕ

section

variable (s : List Char)

def atoi : ℤ := (extract s).1.getD 0

/-- `sss >> obj` -/
def readNodeID : NodeID := ((extract s).1.getD 0).toNat

/-- The region of `getMRVERFromString`. -/
def readMemRegion : Option (Finset NodeID) :=
  let next := findEnd "MemRegion: pts\x7b".toList 15 s
  (substr s next (lengthTo (find "\x7d MRVERSION: ".toList s) next)).map fun temp =>
    ((getlinesAt ' ' temp).map readNodeID).toFinset

def readDefType : Option DEFTYPE :=
  let next := findEnd "MSSADef: ".toList 9 s
  (substr s next (lengthTo (find "\x7d >=".toList s) next)).bind fun temp =>
    (substr temp 0 (find ", ".toList temp)).bind fun type => DEFTYPE.ofInt ((extract type).1.getD 0)

def readVersion : Option ℕ :=
  let next := findEnd "MRVERSION: ".toList 11 s
  (substr s next (lengthTo (find " MSSADef:".toList s) next)).map readNodeID

end

/-- `getMRVERFromString`. A null pointer is `none`, like an exception of `substr`: all callers
    follow it. -/
def getMRVERFromString (vid : ℕ) (s : List Char) : Option MRVer :=
  if s = [] then none
  else do
    let mr ← readMemRegion s
    let defType ← readDefType s
    let version ← readVersion s
    return ⟨vid, mr, version, defType⟩

/-- The parts of a line between delimiters, and what is behind the last. There are fewer than
    the line has characters. -/
def fieldsFrom : ℕ → Line → List Line × Line
  | 0, s => ([], s)
  | fuel + 1, s =>
    match find delimiter s with
    | none => ([], s)
    | some i =>
      let rest := fieldsFrom fuel (s.drop (i + 4))
      (s.take i :: rest.1, rest.2)

def fields (line : Line) : List Line × Line := fieldsFrom line.length line

def numberAfter (pat : List Char) (k : ℕ) (s : List Char) : Option ℕ :=
  (substr s (findEnd pat k s) none).map fun temp => (atoi temp).toNat

/-- What is left of the operands of a phi, and those that have been read. -/
structure ReadOps where
  temp : List Char
  OPVers : OPVers
  totalVERNum : ℕ

/-- One operand. The condition of the loop around it, that `find` plus one is not `npos`,
    always holds. -/
def readOp (s : ReadOps) : Option ReadOps := do
  let next := findEnd "\x7b".toList 1 s.temp
  let last := find "\x7d,".toList s.temp
  let temp1 ← substr s.temp next (lengthTo last next)
  let ver ← getMRVERFromString s.totalVERNum temp1
  let temp ← substr s.temp ((last.map (· + 1)).getD 0) none
  return ⟨temp, s.OPVers ++ [(s.OPVers.length, ver)], s.totalVERNum + 1⟩

def readOPVers (fuel : ℕ) (opVer : List Char) (totalVERNum : ℕ) : Option ReadOps :=
  (substr opVer (findEnd "\x7b".toList 1 opVer) (find ",\x7d".toList opVer)).bind fun temp =>
    whileM (fun s : ReadOps => s.temp ≠ ",\x7d".toList) readOp fuel ⟨temp, [], totalVERNum⟩

/-- The branches on the type of a node with its version, which is null if the line has none, its
    line, what is behind the last delimiter and the field before. -/
def addRead (fuel : ℕ) (type : List Char) (mrVer : Option MRVer) (id : NodeID)
    (line opVer basicBlock : List Char) (s : Reading F C) : Option (Reading F C) :=
  if type = "FormalINSVFGNode".toList then
    mrVer.bind fun ver => (numberAfter "ICFGNodeID: ".toList 12 line).bind fun funID =>
      match p.icfg.getICFGNode funID with
      | some (.FunEntryICFGNode f) =>
        (s.g.addFormalINSVFGNode f ver id).map fun g => { s with g := g }
      | _ => none
  else if type = "FormalOUTSVFGNode".toList then
    mrVer.bind fun ver => (numberAfter "ICFGNodeID: ".toList 12 line).bind fun funID =>
      match p.icfg.getICFGNode funID with
      | some (.FunExitICFGNode f) =>
        (s.g.addFormalOUTSVFGNode f ver id).map fun g => { s with g := g }
      | _ => none
  else if type = "ActualINSVFGNode".toList then
    mrVer.bind fun ver => (numberAfter "ICFGNodeID: ".toList 12 line).bind fun callSiteID =>
      match p.icfg.getICFGNode callSiteID with
      | some (.CallICFGNode cs) =>
        (s.g.addActualINSVFGNode cs ver id).map fun g => { s with g := g }
      | _ => none
  else if type = "ActualOUTSVFGNode".toList then
    mrVer.bind fun ver => (numberAfter "ICFGNodeID: ".toList 12 line).bind fun callSiteID =>
      match p.icfg.getICFGNode callSiteID with
      | some (.CallICFGNode cs) =>
        (s.g.addActualOUTSVFGNode cs ver id).map fun g => { s with g := g }
      | _ => none
  else if type = "PHISVFGNode".toList then
    mrVer.bind fun ver => (readOPVers fuel opVer s.totalVERNum).bind fun ops =>
      (numberAfter "ICFGNodeID: ".toList 12 basicBlock).bind fun icfgNode =>
        (p.icfg.getICFGNode icfgNode).bind fun _ =>
          (s.g.addIntraMSSAPHISVFGNode icfgNode ops.OPVers ver id).map fun g =>
            ⟨g, ops.totalVERNum⟩
  else some s

def raiseCounter (id : NodeID) (g : SVFG F C) : SVFG F C :=
  if g.totalVFGNode < id then { g with totalVFGNode := id + 1 } else g

/-- The version of a node line, null without its field, and the versions that have been made
    then. -/
def readMRVer (MR : List Char) (totalVERNum : ℕ) : Option (Option MRVer × ℕ) :=
  if MR = [] then some (none, totalVERNum)
  else (getMRVERFromString totalVERNum MR).map fun ver => (some ver, totalVERNum + 1)

def readID (idField : Option (List Char)) : Option NodeID :=
  match idField with
  | none => some 0
  | some temp => numberAfter "SVFGNodeID: ".toList 12 temp

def readNode (fuel : ℕ) (s : Reading F C) (line : Line) : Option (Reading F C) :=
  let parts := (fields line).1
  (readID parts[0]?).bind fun id =>
    (readMRVer (parts[2]?.getD []) s.totalVERNum).bind fun mrVer =>
      (p.addRead fuel (parts[1]?.getD []) mrVer.1 id line (fields line).2 (parts[3]?.getD [])
        { s with totalVERNum := mrVer.2 }).map fun s => { s with g := raiseCounter id s.g }

def readNodes (fuel : ℕ) : List Line → Reading F C → Option (Reading F C × List Line)
  | [], s => some (s, [])
  | line :: lines, s =>
    if line = [] then readNodes fuel lines s
    else if (find "__Edges__".toList line).isSome then some (s, lines)
    else (p.readNode fuel s line).bind (readNodes fuel lines)

/-- The branches on the type of an edge. -/
def connectRead (type attr : List Char) (src dst : NodeID) (s : Reading F C) :
    Option (Reading F C) :=
  if type = "FormalINSVFGNode".toList then
    (s.g.addInterIndirectVFCallEdge p dst src).map fun g => { s with g := g }
  else if type = "FormalOUTSVFGNode".toList then
    if (find "intra".toList attr).isSome then
      match s.g.getSVFGNode src with
      | some (.FormalOUTSVFGNode _ ver) =>
        (s.g.addIntraIndirectVFEdge dst src ver.mr).map fun g => { s with g := g }
      | _ => none
    else (s.g.addInterIndirectVFRetEdge p src dst).map fun g => { s with g := g }
  else if type = "ActualINSVFGNode".toList then
    match s.g.getSVFGNode src with
    | some (.ActualINSVFGNode _ ver) =>
      (s.g.addIntraIndirectVFEdge dst src ver.mr).map fun g => { s with g := g }
    | _ => none
  else if type = "ActualOUTSVFGNode".toList then some s
  else if type = "StoreNode".toList ∨ type = "LoadNode".toList ∨ type = "PHISVFGNode".toList then
    (getMRVERFromString s.totalVERNum attr).bind fun ver =>
      (s.g.addIntraIndirectVFEdge dst src ver.mr).map fun g => ⟨g, s.totalVERNum + 1⟩
  else some s

/-- The type and the attribute of an edge. -/
def splitAttributes (attributes : List Char) : Option (List Char × List Char) :=
  match find " | ".toList attributes with
  | none => some (attributes, [])
  | some next =>
    (substr attributes 0 (some next)).bind fun type =>
      (substr attributes (next + 3) none).map fun attr => (type, attr)

/-- The ids of its nodes. -/
def readIDs (edge : List Char) : Option (NodeID × NodeID) :=
  let next := findEnd "srcSVFGNodeID: ".toList 15 edge
  (substr edge next (lengthTo (find " => ".toList edge) next)).bind fun src =>
    (numberAfter "dstSVFGNodeID: ".toList 15 edge).map fun dst => ((atoi src).toNat, dst)

def readEdge (s : Reading F C) (line : Line) : Option (Reading F C) :=
  if line = [] then some s
  else
    (substr line 0 (find delimiter line)).bind fun edge =>
      (substr line (findEnd delimiter 4 line) none).bind fun attributes =>
        (readIDs edge).bind fun ids =>
          (splitAttributes attributes).bind fun type =>
            p.connectRead type.1 type.2 ids.1 ids.2 s

def readFile (fuel : ℕ) (text : List Char) : Option (SVFG F C) :=
  (p.setStoreDefs p.fresh).bind fun g =>
    (p.readNodes fuel (pieces text) ⟨g, p.totalVERNum⟩).bind fun r =>
      (r.2.foldlM p.readEdge r.1).bind fun s => p.connectFromGlobalToProgEntry s.g

-- ── A version is read back

variable {c : Char} {last : Line} {opVers : OPVers} {ver : MRVer} {type : List Char}
  {node : SVFGNode F C} {id : NodeID} {l : List (NodeID × SVFGNode F C)} {x : NodeID × SVFGNode F C}
  {nodes : List (SVFGNode F C)} {A : Type} {uses : List Use} {g₀ : SVFG F C} {text : List Char}

theorem putMRVer_append (ver : MRVer) (b : List Char) : putMRVer ver ++ b =
    "MRVERID: ".toList ++ (putNat ver.vid ++ (' ' :: ("MemRegion: pts\x7b".toList ++
      (putNats (ver.mr.sort (· ≤ ·)) ++ ("\x7d MRVERSION: ".toList ++ (putNat ver.version ++
        (' ' :: ("MSSADef: ".toList ++ (putNat ver.defType.toNat ++ (", pts\x7b".toList ++
          (putNats (ver.mr.sort (· ≤ ·)) ++ ('}' :: b)))))))))))) := by
  unfold putMRVer dumpStr
  simp

theorem notMem_putMRVer (hc : c.isDigit = false)
    (hp : c ∉ "MRVID: emRgonpts\x7b\x7dOSADf,NEi".toList) (ver : MRVer) : c ∉ putMRVer ver := by
  have hspace : c ≠ ' ' := by
    rintro rfl
    exact hp (by decide)
  have h := putMRVer_append ver []
  rw [append_nil] at h
  simp at hp
  rw [h]
  simp [notMem_putNat hc, notMem_putNats hc hspace, hp]

variable {a b : List Char}

theorem readNodeID_putNat (n : ℕ) : readNodeID (putNat n) = n := by
  rw [readNodeID, extract_putNat_nil]
  rfl

theorem readMemRegion_put (ver : MRVer) (b : List Char) (he : 'e' ∉ a) (hb : '}' ∉ a) :
    readMemRegion (a ++ (putMRVer ver ++ b)) = some ver.mr := by
  have hs : a ++ (putMRVer ver ++ b) = (a ++ ("MRVERID: ".toList ++ (putNat ver.vid ++ [' ']))) ++
      ("MemRegion: pts\x7b".toList ++ (putNats (ver.mr.sort (· ≤ ·)) ++
        ("\x7d MRVERSION: ".toList ++ (putNat ver.version ++
        (' ' :: ("MSSADef: ".toList ++ (putNat ver.defType.toNat ++ (", pts\x7b".toList ++
          (putNats (ver.mr.sort (· ≤ ·)) ++ ('}' :: b)))))))))) := by
    rw [putMRVer_append]
    simp only [append_assoc, List.singleton_append]
  have hlen : "MemRegion: pts\x7b".toList.length = 15 := rfl
  rw [readMemRegion, substr_found hs hlen 'e' '}' (by decide) ?_ (by decide) ?_,
    map_some, getlinesAt_putNats, List.map_map]
  · have hread : readNodeID ∘ putNat = id := funext readNodeID_putNat
    rw [hread, List.map_id, Finset.sort_toFinset]
  · simp [he, notMem_putNat]
  · simp [hb, notMem_putNat, notMem_putNats]

theorem readVersion_put (ver : MRVer) (b : List Char) (hS : 'S' ∉ a) (hf : 'f' ∉ a) :
    readVersion (a ++ (putMRVer ver ++ b)) = some ver.version := by
  have hs : a ++ (putMRVer ver ++ b) = (a ++ ("MRVERID: ".toList ++ (putNat ver.vid ++
      (' ' :: ("MemRegion: pts\x7b".toList ++ (putNats (ver.mr.sort (· ≤ ·)) ++
        "\x7d ".toList)))))) ++ ("MRVERSION: ".toList ++ (putNat ver.version ++
          (" MSSADef:".toList ++ (' ' :: (putNat ver.defType.toNat ++ (", pts\x7b".toList ++
            (putNats (ver.mr.sort (· ≤ ·)) ++ ('}' :: b)))))))) := by
    rw [putMRVer_append]
    simp
  have hlen : "MRVERSION: ".toList.length = 11 := rfl
  rw [readVersion, substr_found hs hlen 'S' 'f' (by decide) ?_ (by decide) ?_, map_some,
    readNodeID_putNat]
  · simp [hS, notMem_putNat, notMem_putNats]
  · simp [hf, notMem_putNat, notMem_putNats]

theorem DEFTYPE.ofInt_toNat (type : DEFTYPE) : DEFTYPE.ofInt type.toNat = some type := by
  cases type <;> rfl

theorem readDefType_put (ver : MRVer) (hf : 'f' ∉ a) (ha : '>' ∉ a) (hb : '>' ∉ b) :
    readDefType (a ++ (putMRVer ver ++ b)) = some ver.defType := by
  have hs : a ++ (putMRVer ver ++ b) = (a ++ ("MRVERID: ".toList ++ (putNat ver.vid ++
      (' ' :: ("MemRegion: pts\x7b".toList ++ (putNats (ver.mr.sort (· ≤ ·)) ++
        ("\x7d MRVERSION: ".toList ++ (putNat ver.version ++ [' '])))))))) ++
          ("MSSADef: ".toList ++ (putNat ver.defType.toNat ++ (", ".toList ++
            ("pts\x7b".toList ++ (putNats (ver.mr.sort (· ≤ ·)) ++ ('}' :: b)))))) := by
    rw [putMRVer_append]
    simp
  have hnone : find "\x7d >=".toList (a ++ (putMRVer ver ++ b)) = none := by
    refine find_none '>' (by decide) ?_
    simp only [List.mem_append, not_or]
    exact ⟨ha, notMem_putMRVer rfl (by decide) ver, hb⟩
  have hlen : "MSSADef: ".toList.length = 9 := rfl
  have hbehind := substr_behind hs hlen 'f' (by decide) (by
    simp [hf, notMem_putNat, notMem_putNats])
  have hcomma : find ", ".toList (putNat ver.defType.toNat ++ (", ".toList ++ ("pts\x7b".toList ++
      (putNats (ver.mr.sort (· ≤ ·)) ++ ('}' :: b))))) = some (putNat ver.defType.toNat).length :=
    find_found ',' (by decide) (notMem_putNat rfl _) _
  rw [readDefType, hnone]
  show (substr _ _ none).bind _ = _
  rw [hbehind, bind_some, hcomma, substr, if_pos (zero_le _), bind_some,
    map_some, getD_some, List.drop_zero, List.take_left,
    extract_putNat_nil]
  exact DEFTYPE.ofInt_toNat ver.defType

/-- **A version that has been written is read**, with a new id. -/
theorem getMRVERFromString_put (vid : ℕ) (ver : MRVer) (h : ∀ c ∈ "eSf\x7d>".toList, c ∉ a)
    (hb : '>' ∉ b) :
    getMRVERFromString vid (a ++ (putMRVer ver ++ b)) = some { ver with vid := vid } := by
  have hne : a ++ (putMRVer ver ++ b) ≠ [] := by
    rw [putMRVer_append]
    simp
  rw [getMRVERFromString, if_neg hne,
    readMemRegion_put ver b (h 'e' (by decide)) (h '}' (by decide)),
    readDefType_put ver (h 'f' (by decide)) (h '>' (by decide)) hb,
    readVersion_put ver b (h 'S' (by decide)) (h 'f' (by decide))]
  rfl

-- ── The fields of a node line

section

variable (parts : List Line) (hparts : ∀ a ∈ parts, '>' ∉ a) (hlast : '>' ∉ last)
include hparts hlast

theorem fieldsFrom_join : ∀ fuel, parts.length ≤ fuel →
      fieldsFrom fuel (parts.flatMap (· ++ delimiter) ++ last) = (parts, last) := by
  have hfind : find delimiter last = none := find_none '>' (by decide) hlast
  induction parts with
  | nil =>
    intro fuel _
    cases fuel with
    | zero => rfl
    | succ fuel =>
      show fieldsFrom (fuel + 1) last = ([], last)
      rw [fieldsFrom, hfind]
  | cons a parts ih =>
    intro fuel hfuel
    obtain ⟨fuel, rfl⟩ : ∃ n, fuel = n + 1 := ⟨fuel - 1, by rw [length_cons] at hfuel; omega⟩
    have hrest := ih (forall_mem_cons.mp hparts).2 fuel (le_of_succ_le_succ hfuel)
    have hline : (a :: parts).flatMap (· ++ delimiter) ++ last =
        a ++ (delimiter ++ (parts.flatMap (· ++ delimiter) ++ last)) := by
      rw [flatMap_cons, append_assoc, append_assoc]
    have hnext : find delimiter (a ++ (delimiter ++ (parts.flatMap (· ++ delimiter) ++ last))) =
        some a.length := find_found '>' (by decide) (hparts a mem_cons_self) _
    have hdrop : (a ++ (delimiter ++ (parts.flatMap (· ++ delimiter) ++ last))).drop
        (a.length + 4) = parts.flatMap (· ++ delimiter) ++ last := by
      rw [← append_assoc]
      exact List.drop_left' (by rw [length_append]; rfl)
    rw [hline, fieldsFrom, hnext]
    dsimp only
    rw [hdrop, hrest, List.take_left]

theorem fields_join :
    fields (parts.flatMap (· ++ delimiter) ++ last) = (parts, last) := by
  refine fieldsFrom_join parts hparts hlast _ ?_
  have hlen : ∀ l : List Line, l.length ≤ (l.flatMap (· ++ delimiter)).length := by
    intro l
    induction l with
    | nil => exact le_rfl
    | cons a l ih =>
      have hdelim : 0 < delimiter.length := by decide
      rw [flatMap_cons, length_append, length_append, length_cons]
      omega
  rw [length_append]
  exact (hlen parts).trans (le_add_right _ _)

end

theorem atoi_putNat_nil (n : ℕ) : atoi (putNat n) = n := by
  rw [atoi, extract_putNat_nil]
  rfl

theorem numberAfter_end {pat x : List Char} {k : ℕ} (hk : pat.length = k) (q : Char)
    (hq : q ∈ pat) (hx : q ∉ x) (n : ℕ) : numberAfter pat k (x ++ (pat ++ putNat n)) = some n := by
  rw [numberAfter, substr_behind rfl hk q hq hx, map_some, atoi_putNat_nil]
  rfl

def nodeParts (type : List Char) (id : NodeID) (ver : MRVer) : List Line :=
  ["SVFGNodeID: ".toList ++ putNat id, type, "MVER: \x7b".toList ++ (putMRVer ver ++ ['}'])]

theorem nodeText_eq (type : List Char) (id : NodeID) (ver : MRVer) (icfgNode : NodeID) :
    nodeText type id ver icfgNode =
      (nodeParts type id ver).flatMap (· ++ delimiter) ++ ("ICFGNodeID: ".toList ++ putNat icfgNode) := by
  unfold nodeText nodeParts
  simp

-- ── The operands of a phi

theorem putOpVers_cons (op : ℕ × MRVer) (opVers : OPVers) (b : List Char) :
    putOpVers (op :: opVers) ++ b =
      '\x7b' :: (putMRVer op.2 ++ ('}' :: ',' :: (putOpVers opVers ++ b))) := by
  rw [putOpVers, flatMap_cons, append_assoc, append_assoc, append_assoc]
  rfl

theorem find_opEnd (ver : MRVer) (tail : List Char) :
    find "\x7d,".toList (putMRVer ver ++ ('}' :: ',' :: tail)) = some (putMRVer ver).length := by
  have hskip : ∀ x rest : List Char, '}' ∉ x →
      find "\x7d,".toList (x ++ rest) = (find "\x7d,".toList rest).map (· + x.length) := fun x rest hx =>
    find_skip [] '}' [','] x hx (by simp)
  have htext : putMRVer ver ++ ('}' :: ',' :: tail) =
      ("MRVERID: ".toList ++ (putNat ver.vid ++ (' ' :: ("MemRegion: pts\x7b".toList ++
        putNats (ver.mr.sort (· ≤ ·)))))) ++ ('}' :: ((" MRVERSION: ".toList ++
          (putNat ver.version ++ (' ' :: ("MSSADef: ".toList ++ (putNat ver.defType.toNat ++
            (", pts\x7b".toList ++ putNats (ver.mr.sort (· ≤ ·)))))))) ++
              ('}' :: ("\x7d,".toList ++ tail)))) := by
    rw [putMRVer_append]
    simp
  have hlen := congrArg List.length htext
  have hend : "\x7d,".toList.length = 2 := rfl
  rw [htext, hskip _ _ (by simp [notMem_putNat, notMem_putNats]), find_step (by simp),
    hskip _ _ (by simp [notMem_putNat, notMem_putNats]), find_step (by simp),
    find_here]
  simp only [map_some, Option.some.injEq]
  simp only [length_append, length_cons] at hlen ⊢
  omega

theorem find_opVersEnd (hne : opVers ≠ []) :
    ∃ last, find ",\x7d".toList (putOpVers opVers ++ ['}']) = some last ∧
      (putOpVers opVers ++ ['}']).length = last + 2 := by
  have hskip : ∀ x rest : List Char, ',' ∉ x →
      find ",\x7d".toList (x ++ rest) = (find ",\x7d".toList rest).map (· + x.length) := fun x rest hx =>
    find_skip [] ',' ['}'] x hx (by simp)
  induction opVers with
  | nil => exact absurd rfl hne
  | cons op opVers ih =>
    -- The only comma within a version is before its second region.
    have htext : putOpVers (op :: opVers) ++ ['}'] =
        ('\x7b' :: ("MRVERID: ".toList ++ (putNat op.2.vid ++ (' ' :: ("MemRegion: pts\x7b".toList ++
          (putNats (op.2.mr.sort (· ≤ ·)) ++ ("\x7d MRVERSION: ".toList ++ (putNat op.2.version ++
            (' ' :: ("MSSADef: ".toList ++ putNat op.2.defType.toNat)))))))))) ++
              (',' :: ((" pts\x7b".toList ++ (putNats (op.2.mr.sort (· ≤ ·)) ++ "\x7d\x7d".toList)) ++
                (',' :: (putOpVers opVers ++ ['}'])))) := by
      rw [putOpVers_cons, putMRVer_append]
      simp
    obtain ⟨last, hlast, hlen⟩ : ∃ last,
        find ",\x7d".toList (',' :: (putOpVers opVers ++ ['}'])) = some last ∧
          (',' :: (putOpVers opVers ++ ['}'])).length = last + 2 := by
      cases opVers with
      | nil => exact ⟨0, rfl, rfl⟩
      | cons op' opVers =>
        obtain ⟨last, hlast, hlen⟩ := ih (List.cons_ne_nil _ _)
        have hstep : ¬ ",\x7d".toList <+: ',' :: (putOpVers (op' :: opVers) ++ ['}']) := by
          rw [putOpVers_cons]
          simp
        refine ⟨last + 1, ?_, ?_⟩
        · rw [find_step hstep, hlast]
          rfl
        · rw [length_cons, hlen]
    rw [htext, hskip _ _ (by simp [notMem_putNat, notMem_putNats]), find_step (by simp),
      hskip _ _ (by simp [notMem_putNats]), hlast]
    refine ⟨_, rfl, ?_⟩
    simp only [length_append, length_cons] at hlen ⊢
    omega

/-- The operands as they are read: by their place, with new ids. -/
def numbered : ℕ → ℕ → OPVers → OPVers
  | _, _, [] => []
  | i, vid, op :: opVers => (i, { op.2 with vid := vid }) :: numbered (i + 1) (vid + 1) opVers

theorem readOp_put {sep : List Char} (hsep : sep = [] ∨ sep = [',']) (op : ℕ × MRVer)
    (opVers read : OPVers) (n : ℕ) :
    readOp ⟨sep ++ (putOpVers (op :: opVers) ++ ['}']), read, n⟩ =
      some ⟨',' :: (putOpVers opVers ++ ['}']), read ++ [(read.length, { op.2 with vid := n })],
        n + 1⟩ := by
  obtain ⟨hopen, hclose⟩ : '\x7b' ∉ sep ∧ '}' ∉ sep ++ ['\x7b'] := by
    rcases hsep with rfl | rfl
    · decide
    · decide
  have htemp : sep ++ (putOpVers (op :: opVers) ++ ['}']) =
      (sep ++ ['\x7b']) ++ (putMRVer op.2 ++ ('}' :: ',' :: (putOpVers opVers ++ ['}']))) := by
    rw [putOpVers_cons, append_assoc]
    rfl
  have hnext : findEnd "\x7b".toList 1 (sep ++ (putOpVers (op :: opVers) ++ ['}'])) =
      (sep ++ ['\x7b']).length := by
    have hfind : find "\x7b".toList (sep ++ ("\x7b".toList ++ (putMRVer op.2 ++
        ('}' :: ',' :: (putOpVers opVers ++ ['}']))))) = some sep.length :=
      find_found '\x7b' (by decide) hopen _
    rw [htemp, append_assoc, length_append]
    exact findEnd_eq hfind
  have hlast : find "\x7d,".toList (sep ++ (putOpVers (op :: opVers) ++ ['}'])) =
      some ((sep ++ ['\x7b']).length + (putMRVer op.2).length) := by
    have hskip : ∀ rest : List Char, find "\x7d,".toList ((sep ++ ['\x7b']) ++ rest) =
        (find "\x7d,".toList rest).map (· + (sep ++ ['\x7b']).length) := fun rest =>
      find_skip [] '}' [','] (sep ++ ['\x7b']) hclose (by simp)
    rw [htemp, hskip, find_opEnd, map_some, add_comm]
  have hop := getMRVERFromString_put (a := []) (b := []) n op.2 (fun _ _ => not_mem_nil) not_mem_nil
  rw [List.nil_append, append_nil] at hop
  have hrest : substr (sep ++ (putOpVers (op :: opVers) ++ ['}']))
      ((sep ++ ['\x7b']).length + (putMRVer op.2).length + 1) none =
        some (',' :: (putOpVers opVers ++ ['}'])) := by
    have hassoc : sep ++ (putOpVers (op :: opVers) ++ ['}']) =
        ((sep ++ ['\x7b']) ++ (putMRVer op.2 ++ ['}'])) ++ (',' :: (putOpVers opVers ++ ['}'])) := by
      rw [htemp]
      simp
    rw [hassoc]
    refine substr_rest ?_
    simp only [length_append, length_cons, List.length_nil]
    omega
  rw [readOp]
  simp only [hnext, hlast, map_some, getD_some, hrest]
  rw [htemp, substr_between rfl rfl, bind_eq_bind, bind_some, hop]
  rfl

theorem readOps_put (opVers : OPVers) : ∀ (sep : List Char) (read : OPVers) (n : ℕ),
    sep = [','] ∨ sep = [] ∧ opVers ≠ [] →
      ∀ fuel, opVers.length < fuel → whileM (fun s : ReadOps => s.temp ≠ ",\x7d".toList) readOp fuel
        ⟨sep ++ (putOpVers opVers ++ ['}']), read, n⟩ =
          some ⟨",\x7d".toList, read ++ numbered read.length n opVers, n + opVers.length⟩ := by
  induction opVers with
  | nil =>
    intro sep read n hsep fuel hfuel
    obtain ⟨fuel, rfl⟩ : ∃ k, fuel = k + 1 := ⟨fuel - 1, by omega⟩
    rcases hsep with rfl | ⟨-, hne⟩
    · rw [numbered, append_nil]
      rfl
    · exact absurd rfl hne
  | cons op opVers ih =>
    intro sep read n hsep fuel hfuel
    obtain ⟨fuel, rfl⟩ : ∃ k, fuel = k + 1 := ⟨fuel - 1, by omega⟩
    have hcond : sep ++ (putOpVers (op :: opVers) ++ ['}']) ≠ ",\x7d".toList := by
      rw [putOpVers_cons]
      rcases hsep with rfl | ⟨rfl, -⟩
      · simp
      · simp
    have hnext := ih [','] (read ++ [(read.length, { op.2 with vid := n })]) (n + 1) (.inl rfl) fuel
      (by rw [length_cons] at hfuel; omega)
    rw [whileM, if_pos (decide_eq_true hcond),
      readOp_put (hsep.elim .inr fun h => .inl h.1), bind_some]
    refine hnext.trans ?_
    rw [length_append, append_assoc, length_cons, numbered]
    simp only [length_cons, List.length_nil, List.singleton_append, zero_add, add_assoc, add_comm 1]

/-- The operands of a phi line. -/
def opVersText (opVers : OPVers) : List Char :=
  "OPVers: \x7b".toList ++ (putOpVers opVers ++ ['}'])

theorem readOPVers_put (hne : opVers ≠ []) (n : ℕ) :
    Stops (fun fuel => readOPVers fuel (opVersText opVers) n)
      ⟨",\x7d".toList, numbered 0 n opVers, n + opVers.length⟩ := by
  have hnext : findEnd "\x7b".toList 1 (opVersText opVers) = "OPVers: \x7b".toList.length := by
    have hfind : find "\x7b".toList ("OPVers: ".toList ++ ("\x7b".toList ++
        (putOpVers opVers ++ ['}']))) = some "OPVers: ".toList.length :=
      find_found '\x7b' (by decide) (by decide) _
    exact findEnd_eq hfind
  obtain ⟨last, hlast, hlen⟩ := find_opVersEnd hne
  have hend : find ",\x7d".toList (opVersText opVers) = some (last + "OPVers: \x7b".toList.length) := by
    refine (find_skip [] ',' ['}'] "OPVers: \x7b".toList (by decide) (by simp)).trans ?_
    show (find ",\x7d".toList _).map _ = _
    rw [hlast, map_some]
  have hword : "OPVers: \x7b".toList.length = 9 := rfl
  have htemp : substr (opVersText opVers) "OPVers: \x7b".toList.length
      (some (last + "OPVers: \x7b".toList.length)) = some (putOpVers opVers ++ ['}']) :=
    substr_long rfl (by omega)
  refine ⟨opVers.length, fun fuel hfuel => ?_⟩
  show readOPVers fuel (opVersText opVers) n = _
  rw [readOPVers, hnext, hend, htemp, bind_some]
  exact readOps_put opVers [] [] n (.inr ⟨rfl, hne⟩) fuel hfuel

theorem readOPVers_nil (fuel n : ℕ) : readOPVers fuel (opVersText []) n = none := by
  have htemp : substr (opVersText []) (findEnd "\x7b".toList 1 (opVersText []))
      (find ",\x7d".toList (opVersText [])) = some ['}'] := by rfl
  have hread : readOp ⟨['}'], [], n⟩ = none := by rfl
  have hcond : ['}'] ≠ ",\x7d".toList := by decide
  rw [readOPVers, htemp, bind_some]
  cases fuel with
  | zero => rfl
  | succ fuel =>
    rw [whileM, if_pos (decide_eq_true hcond), hread]
    rfl

-- ── A node is read back

theorem notMem_nodeParts (hc : c.isDigit = false) (type : List Char) (htype : c ∉ type)
    (hp : c ∉ "MRVID: emRgonpts\x7b\x7dOSADf,NEiFGd".toList) (id : NodeID) (ver : MRVer) :
    ∀ part ∈ nodeParts type id ver, c ∉ part := by
  have hver : c ∉ putMRVer ver := by
    refine notMem_putMRVer hc ?_ ver
    simp at hp ⊢
    tauto
  simp at hp
  unfold nodeParts
  simp [htype, hver, notMem_putNat hc, hp]

/-- **A node line**: its id, its type and its version are read, and then its branch. -/
theorem readNode_parts (fuel : ℕ) (s : Reading F C) (type : List Char) (htype : '>' ∉ type)
    (id : NodeID) (ver : MRVer) (more : List Line) (hmore : ∀ part ∈ more, '>' ∉ part)
    (hlast : '>' ∉ last) :
    p.readNode fuel s ((nodeParts type id ver ++ more).flatMap (· ++ delimiter) ++ last) =
      (p.addRead fuel type (some { ver with vid := s.totalVERNum }) id
        ((nodeParts type id ver ++ more).flatMap (· ++ delimiter) ++ last) last (more.head?.getD [])
          { s with totalVERNum := s.totalVERNum + 1 }).map
            fun s => { s with g := raiseCounter id s.g } := by
  have hfields := fields_join (nodeParts type id ver ++ more) (fun part hpart =>
    (List.mem_append.mp hpart).elim (notMem_nodeParts rfl type htype (by decide) id ver part)
      (hmore part)) hlast
  have hid : readID (some ("SVFGNodeID: ".toList ++ putNat id)) = some id := by
    have hlen : "SVFGNodeID: ".toList.length = 12 := rfl
    exact numberAfter_end (x := []) hlen 'S' (by decide) not_mem_nil id
  have hver : readMRVer ("MVER: \x7b".toList ++ (putMRVer ver ++ ['}'])) s.totalVERNum =
      some (some { ver with vid := s.totalVERNum }, s.totalVERNum + 1) := by
    have hne : "MVER: \x7b".toList ++ (putMRVer ver ++ ['}']) ≠ [] := by simp
    rw [readMRVer, if_neg hne, getMRVERFromString_put _ ver (by simp) (by decide)]
    rfl
  have hmore : (nodeParts type id ver ++ more)[3]?.getD [] = more.head?.getD [] := by
    cases more <;> rfl
  rw [readNode, hfields]
  dsimp only
  rw [hmore]
  show (readID (some _)).bind _ = _
  rw [hid, bind_some]
  show (readMRVer ("MVER: \x7b".toList ++ (putMRVer ver ++ ['}'])) _).bind _ = _
  rw [hver, bind_some]
  rfl

/-- Versions that differ in their ids only. -/
def Same (v w : MRVer) : Prop := v.mr = w.mr ∧ v.version = w.version ∧ v.defType = w.defType

theorem same_newId (v : MRVer) (vid : ℕ) : Same v { v with vid := vid } := ⟨rfl, rfl, rfl⟩

/-- The address-taken nodes. -/
inductive AddrTaken : SVFGNode F C → Prop
  | phi (bb : B) (resVer : MRVer) (opVers : OPVers) :
      AddrTaken (.MSSAPHISVFGNode (p.icfg.front bb) resVer opVers)
  | formalIn (f : F) (ver : MRVer) : AddrTaken (.FormalINSVFGNode f ver)
  | formalOut (f : F) (ver : MRVer) : AddrTaken (.FormalOUTSVFGNode f ver)
  | actualIn (cs : C) (ver : MRVer) : AddrTaken (.ActualINSVFGNode cs ver)
  | actualOut (cs : C) (ver : MRVer) : AddrTaken (.ActualOUTSVFGNode cs ver)

/-- What a node is read as: the same with other ids of versions, the operands of a phi by their
    place. -/
inductive ReadAs : SVFGNode F C → SVFGNode F C → Prop
  | phi (n : NodeID) {v w : MRVer} (h : Same v w) (opVers : OPVers) (vid : ℕ) :
      ReadAs (.MSSAPHISVFGNode n v opVers)
        (.MSSAPHISVFGNode n w (numbered 0 vid (p.copyOrder opVers)))
  | formalIn (f : F) {v w : MRVer} (h : Same v w) :
      ReadAs (.FormalINSVFGNode f v) (.FormalINSVFGNode f w)
  | formalOut (f : F) {v w : MRVer} (h : Same v w) :
      ReadAs (.FormalOUTSVFGNode f v) (.FormalOUTSVFGNode f w)
  | actualIn (cs : C) {v w : MRVer} (h : Same v w) :
      ReadAs (.ActualINSVFGNode cs v) (.ActualINSVFGNode cs w)
  | actualOut (cs : C) {v w : MRVer} (h : Same v w) :
      ReadAs (.ActualOUTSVFGNode cs v) (.ActualOUTSVFGNode cs w)

/-- A phi without operands cannot be read. -/
def HasOperands : SVFGNode F C → Prop
  | .MSSAPHISVFGNode _ _ opVers => opVers ≠ []
  | _ => True

/-- The versions with a definition have been made. -/
def DefsBelow (s : Reading F C) : Prop := ∀ e ∈ s.g.MSSAVarToDefMap, e.1 < s.totalVERNum

structure Added (id : NodeID) (node : SVFGNode F C) (s s' : Reading F C) : Prop where
  nodes : s'.g.IDToNodeMap = addGNode id node s.g.IDToNodeMap
  counter : s'.g.totalVFGNode = if s.g.totalVFGNode < id then id + 1 else s.g.totalVFGNode
  edges : s'.g.edges = s.g.edges
  defs : DefsBelow s'

variable {p} {s : Reading F C}

theorem setDef_new {g : SVFG F C} (h : ∀ e ∈ g.MSSAVarToDefMap, e.1 < ver.vid) (id : NodeID)
    : g.setDef ver id =
      some { g with MSSAVarToDefMap := g.MSSAVarToDefMap ++ [(ver.vid, id)] } := by
  have hnone : g.MSSAVarToDefMap.lookup ver.vid = none := by
    refine List.lookup_eq_none_iff.mpr fun e he => ?_
    simpa using (h e he).ne'
  rw [SVFG.setDef, hnone]

@[simp] theorem raiseCounter_edges (id : NodeID) (g : SVFG F C) :
    (raiseCounter id g).edges = g.edges := by
  rw [raiseCounter]
  split <;> rfl

@[simp] theorem raiseCounter_nodes (id : NodeID) (g : SVFG F C) :
    (raiseCounter id g).IDToNodeMap = g.IDToNodeMap := by
  rw [raiseCounter]
  split <;> rfl

@[simp] theorem raiseCounter_defs (id : NodeID) (g : SVFG F C) :
    (raiseCounter id g).MSSAVarToDefMap = g.MSSAVarToDefMap := by
  rw [raiseCounter]
  split <;> rfl

theorem added_def (hs : DefsBelow s) (id : NodeID) (node : SVFGNode F C) (ver : MRVer)
    (hvid : ver.vid = s.totalVERNum) {n : ℕ} (hn : s.totalVERNum < n) :
    ∃ g, (s.g.addSVFGNode id node).setDef ver id = some g ∧
      Added id node s ⟨raiseCounter id g, n⟩ := by
  have hbelow : ∀ e ∈ (s.g.addSVFGNode id node).MSSAVarToDefMap, e.1 < ver.vid := fun e he =>
    hvid ▸ hs e he
  refine ⟨_, setDef_new hbelow id, ?_, ?_, ?_, fun e he => ?_⟩
  · rw [raiseCounter_nodes]
    rfl
  · rw [raiseCounter]
    show (if s.g.totalVFGNode < id then _ else _ : SVFG F C).totalVFGNode = _
    split <;> rfl
  · rw [raiseCounter_edges]
    rfl
  · rw [raiseCounter_defs] at he
    rcases List.mem_append.mp he with he | he
    · exact (hs e he).trans hn
    · rw [mem_singleton.mp he]
      exact hvid ▸ hn

theorem added_use (hs : DefsBelow s) (id : NodeID) (node : SVFGNode F C) :
    Added id node s ⟨raiseCounter id (s.g.addSVFGNode id node), s.totalVERNum + 1⟩ := by
  refine ⟨?_, ?_, ?_, fun e he => ?_⟩
  · rw [raiseCounter_nodes]
    rfl
  · rw [raiseCounter]
    show (if s.g.totalVFGNode < id then _ else _ : SVFG F C).totalVFGNode = _
    split <;> rfl
  · rw [raiseCounter_edges]
    rfl
  · rw [raiseCounter_defs] at he
    exact (hs e he).trans (lt_succ_self _)

theorem nodeText_parts (type : List Char) (id : NodeID) (ver : MRVer) (icfgNode : NodeID) :
    nodeText type id ver icfgNode = (nodeParts type id ver ++ []).flatMap (· ++ delimiter) ++
      ("ICFGNodeID: ".toList ++ putNat icfgNode) := by
  rw [append_nil, nodeText_eq]

theorem numberAfter_nodeText (htype : 'C' ∉ type) (id : NodeID) (ver : MRVer) (icfgNode : NodeID) :
    numberAfter "ICFGNodeID: ".toList 12 (nodeText type id ver icfgNode) = some icfgNode := by
  have hlen : "ICFGNodeID: ".toList.length = 12 := rfl
  rw [nodeText_eq]
  refine numberAfter_end hlen 'C' (by decide) ?_ icfgNode
  intro h
  obtain ⟨part, hpart, hmem⟩ := mem_flatMap.mp h
  rcases List.mem_append.mp hmem with hmem | hmem
  · exact notMem_nodeParts rfl type htype (by decide) id ver part hpart hmem
  · exact absurd hmem (by decide)

theorem readNode_nodeText (fuel : ℕ) (s : Reading F C) (htype : '>' ∉ type) (id : NodeID)
    (ver : MRVer) (icfgNode : NodeID) :
    p.readNode fuel s (nodeText type id ver icfgNode) =
      (p.addRead fuel type (some { ver with vid := s.totalVERNum }) id
        (nodeText type id ver icfgNode) ("ICFGNodeID: ".toList ++ putNat icfgNode) []
          { s with totalVERNum := s.totalVERNum + 1 }).map
            fun s => { s with g := raiseCounter id s.g } := by
  have hlast : '>' ∉ "ICFGNodeID: ".toList ++ putNat icfgNode := by
    simp [notMem_putNat]
  have h := p.readNode_parts fuel s type htype id ver [] nofun hlast
  rw [← nodeText_parts] at h
  exact h

/-- The version of a node line, with its new id. -/
def newVer (s : Reading F C) (ver : MRVer) : MRVer := { ver with vid := s.totalVERNum }

section

variable (hs : DefsBelow s)
include hs

theorem readNode_formalIn (id : NodeID) (f : F) (ver : MRVer) :
    ∃ s', (∀ fuel, p.readNode fuel s (nodeText "FormalINSVFGNode".toList id ver
        (p.icfg.getFunEntryICFGNode f)) = some s') ∧
      Added id (.FormalINSVFGNode f (newVer s ver)) s s' := by
  obtain ⟨g, hg, hadded⟩ := added_def hs id (.FormalINSVFGNode f (newVer s ver)) (newVer s ver)
    rfl (lt_succ_self _)
  refine ⟨_, fun fuel => ?_, hadded⟩
  rw [readNode_nodeText fuel s (by decide), addRead, if_pos rfl, bind_some,
    numberAfter_nodeText (by decide), bind_some, p.icfg.entry_node]
  show (((s.g.addSVFGNode _ _).setDef _ _).map _).map _ = _
  rw [← newVer, hg]
  rfl

theorem readNode_formalOut (id : NodeID) (f : F) (ver : MRVer) :
    ∃ s', (∀ fuel, p.readNode fuel s (nodeText "FormalOUTSVFGNode".toList id ver
        (p.icfg.getFunExitICFGNode f)) = some s') ∧
      Added id (.FormalOUTSVFGNode f (newVer s ver)) s s' := by
  refine ⟨_, fun fuel => ?_, added_use hs id (.FormalOUTSVFGNode f (newVer s ver))⟩
  rw [readNode_nodeText fuel s (by decide), addRead, if_neg (by decide), if_pos rfl,
    bind_some, numberAfter_nodeText (by decide), bind_some, p.icfg.exit_node]
  rfl

theorem readNode_actualIn (id : NodeID) (cs : C) (ver : MRVer) :
    ∃ s', (∀ fuel, p.readNode fuel s (nodeText "ActualINSVFGNode".toList id ver
        (p.icfg.getCallICFGNode cs)) = some s') ∧
      Added id (.ActualINSVFGNode cs (newVer s ver)) s s' := by
  refine ⟨_, fun fuel => ?_, added_use hs id (.ActualINSVFGNode cs (newVer s ver))⟩
  rw [readNode_nodeText fuel s (by decide), addRead, if_neg (by decide), if_neg (by decide),
    if_pos rfl, bind_some, numberAfter_nodeText (by decide), bind_some,
    p.icfg.call_node]
  rfl

theorem readNode_actualOut (id : NodeID) (cs : C) (ver : MRVer) :
    ∃ s', (∀ fuel, p.readNode fuel s (nodeText "ActualOUTSVFGNode".toList id ver
        (p.icfg.getCallICFGNode cs)) = some s') ∧
      Added id (.ActualOUTSVFGNode cs (newVer s ver)) s s' := by
  obtain ⟨g, hg, hadded⟩ := added_def hs id (.ActualOUTSVFGNode cs (newVer s ver)) (newVer s ver)
    rfl (lt_succ_self _)
  refine ⟨_, fun fuel => ?_, hadded⟩
  rw [readNode_nodeText fuel s (by decide), addRead, if_neg (by decide), if_neg (by decide),
    if_neg (by decide), if_pos rfl, bind_some, numberAfter_nodeText (by decide),
    bind_some, p.icfg.call_node]
  show (((s.g.addSVFGNode _ _).setDef _ _).map _).map _ = _
  rw [← newVer, hg]
  rfl

end

def phiText (id : NodeID) (resVer : MRVer) (icfgNode : NodeID) (opVers : OPVers) : Line :=
  (nodeParts "PHISVFGNode".toList id resVer ++ ["ICFGNodeID: ".toList ++ putNat icfgNode]).flatMap
    (· ++ delimiter) ++ opVersText opVers

theorem notMem_opVersText (hc : c.isDigit = false)
    (hp : c ∉ "MRVID: emRgonpts\x7b\x7dOSADf,NEiFGdPr".toList) (opVers : OPVers) :
    c ∉ opVersText opVers := by
  have hver : ∀ ver, c ∉ putMRVer ver := by
    refine notMem_putMRVer hc ?_
    simp at hp ⊢
    tauto
  simp at hp
  unfold opVersText putOpVers
  simp [hver, hp]

theorem readNode_phiText (fuel : ℕ) (s : Reading F C) (id : NodeID) (resVer : MRVer)
    (icfgNode : NodeID) (opVers : OPVers) (hnode : (p.icfg.getICFGNode icfgNode).isSome) :
    p.readNode fuel s (phiText id resVer icfgNode opVers) =
      ((readOPVers fuel (opVersText opVers) (s.totalVERNum + 1)).bind fun ops =>
        (s.g.addIntraMSSAPHISVFGNode icfgNode ops.OPVers (newVer s resVer) id).map fun g =>
          (⟨g, ops.totalVERNum⟩ : Reading F C)).map fun s => { s with g := raiseCounter id s.g } := by
  obtain ⟨node, hnode⟩ := isSome_iff_exists.mp hnode
  have hmore : ∀ part ∈ ["ICFGNodeID: ".toList ++ putNat icfgNode], '>' ∉ part := by
    simp [notMem_putNat]
  have hlen : "ICFGNodeID: ".toList.length = 12 := rfl
  have hnumber : numberAfter "ICFGNodeID: ".toList 12 ("ICFGNodeID: ".toList ++ putNat icfgNode) =
      some icfgNode := numberAfter_end (x := []) hlen 'C' (by decide) not_mem_nil icfgNode
  rw [phiText, p.readNode_parts fuel s "PHISVFGNode".toList (by decide) id resVer _ hmore
    (notMem_opVersText rfl (by decide) opVers)]
  rw [addRead, if_neg (by decide), if_neg (by decide), if_neg (by decide), if_neg (by decide),
    if_pos rfl, bind_some]
  refine congrArg (Option.map _) (congrArg (Option.bind _) (funext fun ops => ?_))
  show (numberAfter _ _ ("ICFGNodeID: ".toList ++ putNat icfgNode)).bind _ = _
  rw [hnumber, bind_some, hnode, bind_some]
  rfl

theorem readNode_phi (hs : DefsBelow s) (id : NodeID) (resVer : MRVer) (icfgNode : NodeID)
    (hne : opVers ≠ []) (hnode : (p.icfg.getICFGNode icfgNode).isSome) :
    ∃ s', Stops (fun fuel => p.readNode fuel s (phiText id resVer icfgNode opVers)) s' ∧
      Added id (.MSSAPHISVFGNode icfgNode (newVer s resVer)
        (numbered 0 (s.totalVERNum + 1) opVers)) s s' := by
  have hlt : s.totalVERNum < s.totalVERNum + 1 + opVers.length := by omega
  obtain ⟨g, hg, hadded⟩ := added_def hs id (.MSSAPHISVFGNode icfgNode (newVer s resVer)
    (numbered 0 (s.totalVERNum + 1) opVers)) (newVer s resVer) rfl hlt
  refine ⟨_, ?_, hadded⟩
  simp only [readNode_phiText _ s id resVer icfgNode opVers hnode]
  refine Stops.map (fun s : Reading F C => { s with g := raiseCounter id s.g }) (t := ⟨g, _⟩) ?_
  refine (readOPVers_put hne (s.totalVERNum + 1)).bind ⟨0, fun fuel _ => ?_⟩
  show (SVFG.setDef _ _ _).map _ = _
  rw [hg]
  rfl

theorem phiLine (id : NodeID) (bb : B) (resVer : MRVer) (opVers : OPVers) :
    p.nodeLine (id, .MSSAPHISVFGNode (p.icfg.front bb) resVer opVers) =
      [phiText id resVer (p.icfg.front bb) (p.copyOrder opVers)] := by
  show [nodeText _ _ _ (p.icfg.front (p.icfg.getBB (p.icfg.front bb))) ++ _] = _
  rw [p.icfg.front_bb, nodeText_eq, phiText, List.flatMap_append]
  simp only [flatMap_cons, List.flatMap_nil, append_nil, append_assoc]
  rfl

/-- **A node is read** as what it was written for. -/
theorem readNode_nodeLine (hs : DefsBelow s) (id : NodeID) (h : p.AddrTaken node)
    (hops : HasOperands node) :
    ∃ line node' s', p.nodeLine (id, node) = [line] ∧ p.ReadAs node node' ∧
      Stops (fun fuel => p.readNode fuel s line) s' ∧ Added id node' s s' := by
  cases h with
  | phi bb resVer opVers =>
    have hne : p.copyOrder opVers ≠ [] := fun hnil =>
      hops (List.Perm.eq_nil (hnil ▸ (p.copyOrder_perm opVers).symm))
    obtain ⟨s', hstops, hadded⟩ := readNode_phi hs id resVer (p.icfg.front bb) hne
      (p.icfg.front_node bb)
    exact ⟨_, _, s', phiLine id bb resVer opVers, .phi _ (same_newId _ _) _ _, hstops, hadded⟩
  | formalIn f ver =>
    obtain ⟨s', hread, hadded⟩ := readNode_formalIn (p := p) hs id f ver
    exact ⟨_, _, s', rfl, .formalIn f (same_newId _ _), ⟨0, fun fuel _ => hread fuel⟩, hadded⟩
  | formalOut f ver =>
    obtain ⟨s', hread, hadded⟩ := readNode_formalOut (p := p) hs id f ver
    exact ⟨_, _, s', rfl, .formalOut f (same_newId _ _), ⟨0, fun fuel _ => hread fuel⟩, hadded⟩
  | actualIn cs ver =>
    obtain ⟨s', hread, hadded⟩ := readNode_actualIn (p := p) hs id cs ver
    exact ⟨_, _, s', rfl, .actualIn cs (same_newId _ _), ⟨0, fun fuel _ => hread fuel⟩, hadded⟩
  | actualOut cs ver =>
    obtain ⟨s', hread, hadded⟩ := readNode_actualOut (p := p) hs id cs ver
    exact ⟨_, _, s', rfl, .actualOut cs (same_newId _ _), ⟨0, fun fuel _ => hread fuel⟩, hadded⟩

-- ── The lines of the node part

def addrTaken (p : SVFIR F C B) : List (SVFGNode F C) :=
  p.phis.map (fun phi => .MSSAPHISVFGNode (p.icfg.front phi.1) phi.2.1 phi.2.2) ++
    (p.entryChis.map (fun chi => .FormalINSVFGNode chi.1 chi.2) ++
      (p.retMus.map (fun mu => .FormalOUTSVFGNode mu.1 mu.2) ++
        (p.callMus.map (fun mu => .ActualINSVFGNode mu.1 mu.2) ++
          p.callChis.map (fun chi => .ActualOUTSVFGNode chi.1 chi.2))))

theorem addrTaken_kind : ∀ node ∈ p.addrTaken, p.AddrTaken node := by
  intro node h
  simp only [addrTaken, List.mem_append, List.mem_map] at h
  rcases h with ⟨phi, -, rfl⟩ | ⟨chi, -, rfl⟩ | ⟨mu, -, rfl⟩ | ⟨mu, -, rfl⟩ | ⟨chi, -, rfl⟩
  · exact .phi _ _ _
  · exact .formalIn _ _
  · exact .formalOut _ _
  · exact .actualIn _ _
  · exact .actualOut _ _

/-- Nodes with consecutive ids. -/
def placed : NodeID → List (SVFGNode F C) → List (NodeID × SVFGNode F C)
  | _, [] => []
  | id, node :: nodes => (id, node) :: placed (id + 1) nodes

/-- The counter after nodes with consecutive ids have been read. -/
def counterAfter : ℕ → ℕ → ℕ → ℕ
  | _, total, 0 => total
  | id, total, m + 1 => counterAfter (id + 1) (if total < id then id + 1 else total) m

/-- **The counter is raised by every second node.** -/
theorem counterAfter_eq (id : ℕ) (m : ℕ) : counterAfter id id m = id + 2 * (m / 2) := by
  induction m using Nat.strong_induction_on generalizing id with
  | _ m ih =>
    match m with
    | 0 => rfl
    | 1 =>
      rw [counterAfter, if_neg (lt_irrefl id)]
      rfl
    | m + 2 =>
      rw [counterAfter, if_neg (lt_irrefl id), counterAfter, if_pos (lt_succ_self id),
        ih m (by omega)]
      omega

theorem addGNode_last (node : SVFGNode F C) (h : ∀ x ∈ l, x.1 < id)
    : addGNode id node l = l ++ [(id, node)] := by
  induction l with
  | nil => rfl
  | cons x l ih =>
    have hx := h x mem_cons_self
    rw [addGNode, if_neg (lt_asymm hx), if_neg (ne_of_gt hx),
      ih (forall_mem_cons.mp h).2, cons_append]

theorem notMem_nodeLine (hc : c.isDigit = false)
    (hp : c ∉ "MRVID: emRgonpts\x7b\x7dOSADf,NEiFGdPrlCacuTUH>=".toList) (x : NodeID × SVFGNode F C)
    :
    ∀ line ∈ p.nodeLine x, c ∉ line := by
  have hver : ∀ ver, c ∉ putMRVer ver := by
    refine notMem_putMRVer hc ?_
    simp at hp ⊢
    tauto
  simp at hp
  have hdelim : c ∉ delimiter := by
    unfold delimiter
    simp [hp]
  have htext : ∀ type id ver n, c ∉ type → c ∉ nodeText type id ver n := by
    intro type id ver n htype
    unfold nodeText
    simp [htype, hver, hdelim, notMem_putNat hc, hp]
  obtain ⟨id, node⟩ := x
  intro line hline
  cases node with
  | TopLevelSVFGNode => cases hline
  | LoadSVFGNode _ => cases hline
  | StoreSVFGNode _ => cases hline
  | FormalINSVFGNode f ver =>
    rw [mem_singleton.mp hline]
    exact htext _ _ _ _ (by simp [hp])
  | FormalOUTSVFGNode f ver =>
    rw [mem_singleton.mp hline]
    exact htext _ _ _ _ (by simp [hp])
  | ActualINSVFGNode cs ver =>
    rw [mem_singleton.mp hline]
    exact htext _ _ _ _ (by simp [hp])
  | ActualOUTSVFGNode cs ver =>
    rw [mem_singleton.mp hline]
    exact htext _ _ _ _ (by simp [hp])
  | MSSAPHISVFGNode n resVer opVers =>
    rw [mem_singleton.mp hline]
    have hops : c ∉ putOpVers (p.copyOrder opVers) := by
      unfold putOpVers
      simp [hver, hp]
    simp only [List.mem_append, not_or]
    exact ⟨htext _ _ _ _ (by simp [hp]), hdelim, by simp [hp], hops, by simp [hp]⟩

-- ── The node part

theorem nodeLine_ne_nil (x : NodeID × SVFGNode F C) : [] ∉ p.nodeLine x := by
  obtain ⟨id, node⟩ := x
  have htext : ∀ type id ver n, nodeText type id ver n ≠ [] := by
    intro type id ver n
    unfold nodeText
    simp
  intro h
  cases node with
  | TopLevelSVFGNode => cases h
  | LoadSVFGNode _ => cases h
  | StoreSVFGNode _ => cases h
  | FormalINSVFGNode f ver => exact htext _ _ _ _ (mem_singleton.mp h).symm
  | FormalOUTSVFGNode f ver => exact htext _ _ _ _ (mem_singleton.mp h).symm
  | ActualINSVFGNode cs ver => exact htext _ _ _ _ (mem_singleton.mp h).symm
  | ActualOUTSVFGNode cs ver => exact htext _ _ _ _ (mem_singleton.mp h).symm
  | MSSAPHISVFGNode n resVer opVers =>
    exact htext _ _ _ _ (List.append_eq_nil_iff.mp (mem_singleton.mp h).symm).1

theorem readNodes_cons (fuel : ℕ) (s : Reading F C) {line : Line} (h : line ∈ p.nodeLine x)
    (lines : List Line) :
    p.readNodes fuel (line :: lines) s =
      (p.readNode fuel s line).bind (p.readNodes fuel lines) := by
  have hne : line ≠ [] := fun hnil => nodeLine_ne_nil x (hnil ▸ h)
  have hfind : find "__Edges__".toList line = none :=
    find_none '_' (by decide) (notMem_nodeLine rfl (by decide) x line h)
  rw [readNodes, if_neg hne, hfind]
  rfl

theorem readNodes_none (h : ∀ node ∈ nodes, p.AddrTaken node)
    (hops : ∃ node ∈ nodes, ¬ HasOperands node) (lines : List Line) :
    ∀ (id : ℕ) (fuel : ℕ) (s : Reading F C),
      p.readNodes fuel ((placed id nodes).flatMap p.nodeLine ++ lines) s = none := by
  induction nodes with
  | nil =>
    obtain ⟨node, hnode, -⟩ := hops
    cases hnode
  | cons node nodes ih =>
    intro id fuel s
    obtain ⟨line, hline⟩ : ∃ line, p.nodeLine (id, node) = [line] := by
      cases h node mem_cons_self <;> exact ⟨_, rfl⟩
    have hlines : (placed id (node :: nodes)).flatMap p.nodeLine ++ lines =
        line :: ((placed (id + 1) nodes).flatMap p.nodeLine ++ lines) := by
      rw [placed, flatMap_cons, hline]
      rfl
    rw [hlines, readNodes_cons fuel s (hline ▸ List.mem_singleton_self line)]
    by_cases hhead : HasOperands node
    · have hrest := ih (forall_mem_cons.mp h).2 (by
        obtain ⟨n, hn, hno⟩ := hops
        rcases mem_cons.mp hn with rfl | hn
        · exact absurd hhead hno
        · exact ⟨n, hn, hno⟩)
      cases p.readNode fuel s line with
      | none => rfl
      | some s' => exact hrest (id + 1) fuel s'
    · have hnone : p.readNode fuel s line = none := by
        cases h node mem_cons_self with
        | phi bb resVer opVers =>
          obtain rfl : opVers = [] := not_not.mp hhead
          have hnil : p.copyOrder [] = [] := (p.copyOrder_perm []).eq_nil
          obtain rfl := List.singleton_inj.mp ((phiLine id bb resVer []).symm.trans hline)
          rw [hnil, readNode_phiText fuel s id resVer _ [] (p.icfg.front_node bb), readOPVers_nil]
          rfl
        | formalIn f ver => exact absurd trivial hhead
        | formalOut f ver => exact absurd trivial hhead
        | actualIn cs ver => exact absurd trivial hhead
        | actualOut cs ver => exact absurd trivial hhead
      rw [hnone]
      rfl

/-- **The node part is read**: every node as what it was written for. -/
theorem readNodes_placed (h : ∀ node ∈ nodes, p.AddrTaken node)
    (hops : ∀ node ∈ nodes, HasOperands node) :
    ∀ (id : ℕ) (s : Reading F C), (∀ x ∈ s.g.IDToNodeMap, x.1 < id) → DefsBelow s →
      ∃ s' nodes', List.Forall₂ (fun x y => x.1 = y.1 ∧ p.ReadAs x.2 y.2) (placed id nodes) nodes' ∧
        s'.g.IDToNodeMap = s.g.IDToNodeMap ++ nodes' ∧
        s'.g.totalVFGNode = counterAfter id s.g.totalVFGNode nodes.length ∧
        s'.g.edges = s.g.edges ∧
        ∀ lines r, (∀ fuel, p.readNodes fuel lines s' = some r) → Stops (fun fuel =>
          p.readNodes fuel ((placed id nodes).flatMap p.nodeLine ++ lines) s) r := by
  induction nodes with
  | nil =>
    intro id s _ _
    refine ⟨s, [], .nil, (append_nil _).symm, rfl, rfl, fun lines r hr => ?_⟩
    exact ⟨0, fun fuel _ => hr fuel⟩
  | cons node nodes ih =>
    intro id s hlt hs
    obtain ⟨line, node', s1, hline, has, hstops, hadded⟩ :=
      readNode_nodeLine hs id (h node mem_cons_self) (hops node mem_cons_self)
    have hnodes1 : s1.g.IDToNodeMap = s.g.IDToNodeMap ++ [(id, node')] := by
      rw [hadded.nodes, addGNode_last node' hlt]
    have hlt1 : ∀ x ∈ s1.g.IDToNodeMap, x.1 < id + 1 := by
      intro x hx
      rw [hnodes1] at hx
      rcases List.mem_append.mp hx with hx | hx
      · exact lt_succ_of_lt (hlt x hx)
      · rw [mem_singleton.mp hx]
        exact lt_succ_self id
    obtain ⟨s2, nodes', hall, hnodes2, hcounter2, hedges2, hread2⟩ := ih (forall_mem_cons.mp h).2
        (forall_mem_cons.mp hops).2 (id + 1) s1 hlt1 hadded.defs
    refine ⟨s2, (id, node') :: nodes', .cons ⟨rfl, has⟩ hall, ?_, ?_, ?_, fun lines r hr => ?_⟩
    · rw [hnodes2, hnodes1, append_assoc]
      rfl
    · rw [hcounter2, hadded.counter, length_cons, counterAfter]
    · rw [hedges2, hadded.edges]
    · have hlines : (placed id (node :: nodes)).flatMap p.nodeLine ++ lines =
          line :: ((placed (id + 1) nodes).flatMap p.nodeLine ++ lines) := by
        rw [placed, flatMap_cons, hline]
        rfl
      simp only [hlines, readNodes_cons _ s (hline ▸ List.mem_singleton_self line)]
      exact hstops.bind (hread2 lines r hr)

-- ── An edge line is read back

/-- The part of an edge line with the ids. -/
def idsText (id defId : NodeID) : List Char :=
  "srcSVFGNodeID: ".toList ++ (putNat id ++ (" => ".toList ++ ("dstSVFGNodeID: ".toList ++
    putNat defId)))

theorem readIDs_put (id defId : NodeID) : readIDs (idsText id defId) = some (id, defId) := by
  have hs : idsText id defId = [] ++ ("srcSVFGNodeID: ".toList ++ (putNat id ++ (" => ".toList ++
      ("dstSVFGNodeID: ".toList ++ putNat defId)))) := by
    unfold idsText
    rfl
  have hlen : "srcSVFGNodeID: ".toList.length = 15 := rfl
  have hsrc := substr_found hs hlen 's' '=' (by decide) not_mem_nil (by decide)
    (by simp [notMem_putNat])
  have hdst : numberAfter "dstSVFGNodeID: ".toList 15 (idsText id defId) = some defId := by
    have hassoc : idsText id defId = ("srcSVFGNodeID: ".toList ++ (putNat id ++ " => ".toList)) ++
        ("dstSVFGNodeID: ".toList ++ putNat defId) := by
      unfold idsText
      simp
    have hlen : "dstSVFGNodeID: ".toList.length = 15 := rfl
    rw [hassoc]
    exact numberAfter_end hlen 't' (by decide) (by simp [notMem_putNat]) defId
  rw [readIDs, hsrc, bind_some, hdst, map_some, atoi_putNat_nil]
  rfl

theorem find_delimiter_edgeText (id defId : NodeID) (attributes : List Char) :
    find delimiter (edgeText id defId attributes) = some (idsText id defId).length := by
  have htext : edgeText id defId attributes = ("srcSVFGNodeID: ".toList ++ putNat id) ++
      (' ' :: '=' :: '>' :: ((" dstSVFGNodeID: ".toList ++ putNat defId) ++
        (delimiter ++ attributes))) := by
    unfold edgeText
    simp
  have hfound : find delimiter ((" dstSVFGNodeID: ".toList ++ putNat defId) ++
      (delimiter ++ attributes)) = some (" dstSVFGNodeID: ".toList ++ putNat defId).length :=
    find_found '>' (by decide) (by simp [notMem_putNat]) _
  have hskip : find delimiter (("srcSVFGNodeID: ".toList ++ putNat id) ++
      (' ' :: '=' :: '>' :: ((" dstSVFGNodeID: ".toList ++ putNat defId) ++
        (delimiter ++ attributes)))) = _ :=
    find_skip [' '] '>' ['=', ' '] ("srcSVFGNodeID: ".toList ++ putNat id)
      (by simp [notMem_putNat]) (by simp)
  have hstep : ∀ c cs, c ≠ ' ' → ¬ delimiter <+: c :: cs := by
    intro c cs hc h
    exact hc (List.cons_prefix_cons.mp h).1.symm
  have harrow : ¬ delimiter <+: ' ' :: '=' :: '>' :: ((" dstSVFGNodeID: ".toList ++
      putNat defId) ++ (delimiter ++ attributes)) := by
    intro h
    exact absurd (List.cons_prefix_cons.mp (List.cons_prefix_cons.mp h).2).1 (by decide)
  rw [htext, hskip]
  show (find delimiter _).map _ = _
  rw [find_step harrow, find_step (hstep _ _ (by decide)), find_step (hstep _ _ (by decide)),
    hfound]
  unfold idsText
  simp only [map_some, Option.some.injEq, length_append]
  have h1 : " => ".toList.length = 4 := rfl
  have h2 : " dstSVFGNodeID: ".toList.length = "dstSVFGNodeID: ".toList.length + 1 := rfl
  omega

/-- **An edge line**: its ids are read, and then its attributes. -/
theorem readEdge_edgeText (s : Reading F C) (id defId : NodeID) (attributes : List Char) :
    p.readEdge s (edgeText id defId attributes) =
      (splitAttributes attributes).bind fun type => p.connectRead type.1 type.2 id defId s := by
  have htext : edgeText id defId attributes = idsText id defId ++ (delimiter ++ attributes) := by
    unfold edgeText idsText
    simp
  have hne : edgeText id defId attributes ≠ [] := by
    unfold edgeText
    simp
  have hedge : substr (edgeText id defId attributes) 0 (some (idsText id defId).length) =
      some (idsText id defId) := by
    rw [htext, substr, if_pos (zero_le _)]
    simp
  have hattributes : substr (edgeText id defId attributes)
      (findEnd delimiter 4 (edgeText id defId attributes)) none = some attributes := by
    rw [findEnd_eq (find_delimiter_edgeText id defId attributes), htext, ← append_assoc]
    refine substr_rest ?_
    rw [length_append]
    rfl
  rw [readEdge, if_neg hne, find_delimiter_edgeText, hedge, bind_some, hattributes,
    bind_some, readIDs_put, bind_some]

theorem splitAttributes_type (h : '|' ∉ type) : splitAttributes type = some (type, []) := by
  rw [splitAttributes, find_none '|' (by decide) h]

theorem splitAttributes_attributesOf (h : '|' ∉ type) (ver : MRVer) :
    splitAttributes (attributesOf type ver) =
      some (type, "MVER: \x7b".toList ++ (putMRVer ver ++ "\x7d".toList)) := by
  have hfind : find " | ".toList (attributesOf type ver) = some type.length :=
    find_found '|' (by decide) h _
  have hattr : substr (attributesOf type ver) (type.length + 3) none =
      some ("MVER: \x7b".toList ++ (putMRVer ver ++ "\x7d".toList)) := by
    have htext : attributesOf type ver = (type ++ " | ".toList) ++
        ("MVER: \x7b".toList ++ (putMRVer ver ++ "\x7d".toList)) := by
      rw [attributesOf, append_assoc]
    rw [htext]
    refine substr_rest ?_
    rw [length_append]
    rfl
  have htype : substr (attributesOf type ver) 0 (some type.length) = some type := by
    rw [substr, if_pos (zero_le _), attributesOf]
    simp
  rw [splitAttributes, hfind]
  dsimp only
  rw [htype, bind_some, hattr]
  rfl

-- ── The edge part

def Alike (p : SVFIR F C B) (n m : SVFGNode F C) : Prop := n = m ∨ p.ReadAs n m

structure Mirrors (p : SVFIR F C B) (g g' : SVFG F C) : Prop where
  nodes : List.Forall₂ (fun x y => x.1 = y.1 ∧ p.Alike x.2 y.2) g.IDToNodeMap g'.IDToNodeMap
  edges : g'.edges = g.edges

variable {g g' g₁ : SVFG F C}

theorem lookup_alike {l l' : List (NodeID × SVFGNode F C)}
    (h : List.Forall₂ (fun x y => x.1 = y.1 ∧ p.Alike x.2 y.2) l l') (id : NodeID) :
    Option.Rel p.Alike (l.lookup id) (l'.lookup id) := by
  induction h with
  | nil => exact .none
  | @cons x y l l' hxy _ ih =>
    obtain ⟨i, n⟩ := x
    obtain ⟨j, m⟩ := y
    obtain ⟨hij, hnm⟩ := hxy
    obtain rfl : i = j := hij
    rw [lookup_cons, lookup_cons]
    split
    · exact .some hnm
    · exact ih

theorem Mirrors.addIndirectVFEdge (h : p.Mirrors g g') {kind : SVFGEdgeK} {a b : NodeID}
    {cpts : Finset NodeID} (hadd : g.addIndirectVFEdge kind a b cpts = some g₁) :
    ∃ e, g₁ = { g with edges := e } ∧
      g'.addIndirectVFEdge kind a b cpts = some { g' with edges := e } := by
  have ha := lookup_alike h.nodes a
  have hb := lookup_alike h.nodes b
  rw [SVFG.addIndirectVFEdge, SVFG.getSVFGNode, SVFG.getSVFGNode] at hadd ⊢
  obtain ⟨n, hn, hadd⟩ := bind_eq_some_iff.mp hadd
  obtain ⟨m, hm, rfl⟩ := map_eq_some_iff.mp hadd
  rw [hn] at ha
  rw [hm] at hb
  cases hn' : g'.IDToNodeMap.lookup a with
  | none =>
    rw [hn'] at ha
    cases ha
  | some n' =>
    cases hm' : g'.IDToNodeMap.lookup b with
    | none =>
      rw [hm'] at hb
      cases hb
    | some m' =>
      refine ⟨_, rfl, ?_⟩
      rw [h.edges]
      rfl

/-- The constructors of the nodes with a version and a place. -/
inductive Versioned : (MRVer → SVFGNode F C) → Prop
  | formalIn (f : F) : Versioned (.FormalINSVFGNode f)
  | formalOut (f : F) : Versioned (.FormalOUTSVFGNode f)
  | actualIn (cs : C) : Versioned (.ActualINSVFGNode cs)
  | actualOut (cs : C) : Versioned (.ActualOUTSVFGNode cs)

theorem Versioned.alike {node : MRVer → SVFGNode F C} (hnode : Versioned node) {v : MRVer}
    {m : SVFGNode F C} (h : p.Alike (node v) m) : ∃ w, m = node w ∧ w.mr = v.mr := by
  rcases h with rfl | h
  · exact ⟨v, rfl, rfl⟩
  · cases hnode <;> cases h with
    | _ _ hsame => exact ⟨_, rfl, hsame.1.symm⟩

section

variable (h : p.Mirrors g g')
include h

theorem Mirrors.getSVFGNode {n : SVFGNode F C} (hn : g.getSVFGNode id = some n)
    : ∃ m, g'.getSVFGNode id = some m ∧ p.Alike n m := by
  have hrel := lookup_alike h.nodes id
  rw [SVFG.getSVFGNode] at hn ⊢
  rw [hn] at hrel
  cases hm : g'.IDToNodeMap.lookup id with
  | none =>
    rw [hm] at hrel
    cases hrel
  | some m =>
    rw [hm] at hrel
    cases hrel with
    | some hnm => exact ⟨m, rfl, hnm⟩

theorem Mirrors.addUnless {q : Prop} [Decidable q] {kind : SVFGEdgeK}
    {a b : NodeID} {cpts : Finset NodeID}
    (hadd : (if q then some g else g.addIndirectVFEdge kind a b cpts) = some g₁) :
    ∃ e, g₁ = { g with edges := e } ∧
      (if q then some g' else g'.addIndirectVFEdge kind a b cpts) = some { g' with edges := e } := by
  split_ifs at hadd ⊢
  · cases hadd
    exact ⟨g.edges, rfl, by rw [← h.edges]⟩
  · exact h.addIndirectVFEdge hadd

theorem Mirrors.addInterIndirectVFCallEdge {a b : NodeID}
    (hadd : g.addInterIndirectVFCallEdge p a b = some g₁) :
    ∃ e, g₁ = { g with edges := e } ∧
      g'.addInterIndirectVFCallEdge p a b = some { g' with edges := e } := by
  rw [SVFG.addInterIndirectVFCallEdge] at hadd
  split at hadd
  case h_1 cs ver f ver' ha hb =>
    obtain ⟨_, ha', hnode⟩ := h.getSVFGNode ha
    obtain ⟨w, rfl, hw⟩ := (Versioned.actualIn _).alike hnode
    obtain ⟨_, hb', hnode⟩ := h.getSVFGNode hb
    obtain ⟨w', rfl, hw'⟩ := (Versioned.formalIn _).alike hnode
    rw [SVFG.addInterIndirectVFCallEdge, ha', hb']
    dsimp only
    rw [hw, hw']
    exact h.addUnless hadd
  case h_2 => cases hadd

theorem Mirrors.addInterIndirectVFRetEdge {a b : NodeID}
    (hadd : g.addInterIndirectVFRetEdge p a b = some g₁) :
    ∃ e, g₁ = { g with edges := e } ∧
      g'.addInterIndirectVFRetEdge p a b = some { g' with edges := e } := by
  rw [SVFG.addInterIndirectVFRetEdge] at hadd
  split at hadd
  case h_1 f ver cs ver' ha hb =>
    obtain ⟨_, ha', hnode⟩ := h.getSVFGNode ha
    obtain ⟨w, rfl, hw⟩ := (Versioned.formalOut _).alike hnode
    obtain ⟨_, hb', hnode⟩ := h.getSVFGNode hb
    obtain ⟨w', rfl, hw'⟩ := (Versioned.actualOut _).alike hnode
    rw [SVFG.addInterIndirectVFRetEdge, ha', hb']
    dsimp only
    rw [hw, hw']
    exact h.addUnless hadd
  case h_2 => cases hadd

end

def UseOk (g : SVFG F C) : Use → Prop
  | .retMu id _ ver => ∃ f, g.getSVFGNode id = some (.FormalOUTSVFGNode f ver)
  | .actualIn id _ ver => ∃ cs, g.getSVFGNode id = some (.ActualINSVFGNode cs ver)
  | _ => True

theorem Mirrors.readEdge_version (h : p.Mirrors g s.g)
    (htype : type = "StoreNode".toList ∨ type = "LoadNode".toList ∨ type = "PHISVFGNode".toList)
    (id defId : NodeID) (ver : MRVer) (hadd : g.addIntraIndirectVFEdge defId id ver.mr = some g₁) :
    ∃ e n, g₁ = { g with edges := e } ∧
      p.readEdge s (edgeText id defId (attributesOf type ver)) = some ⟨{ s.g with edges := e }, n⟩ := by
  obtain ⟨e, hg, hadd'⟩ := h.addIndirectVFEdge hadd
  refine ⟨e, s.totalVERNum + 1, hg, ?_⟩
  have hbar : '|' ∉ type := by
    rcases htype with rfl | rfl | rfl <;> decide
  have hver : getMRVERFromString s.totalVERNum ("MVER: \x7b".toList ++ (putMRVer ver ++ "\x7d".toList)) =
      some (newVer s ver) := getMRVERFromString_put _ ver (by simp) (by decide)
  have hno : type ≠ "FormalINSVFGNode".toList ∧ type ≠ "FormalOUTSVFGNode".toList ∧
      type ≠ "ActualINSVFGNode".toList ∧ type ≠ "ActualOUTSVFGNode".toList := by
    rcases htype with rfl | rfl | rfl <;> decide
  rw [readEdge_edgeText, splitAttributes_attributesOf hbar, bind_some]
  dsimp only
  rw [connectRead, if_neg hno.1, if_neg hno.2.1, if_neg hno.2.2.1, if_neg hno.2.2.2, if_pos htype,
    hver, bind_some]
  show (SVFG.addIndirectVFEdge _ defId id ver.mr s.g).map _ = _
  rw [hadd']
  rfl

theorem connectRead_formalIn (attr : List Char) (src dst : NodeID) (s : Reading F C) :
    p.connectRead "FormalINSVFGNode".toList attr src dst s =
      (s.g.addInterIndirectVFCallEdge p dst src).map fun g => { s with g := g } := by
  rw [connectRead, if_pos rfl]

theorem connectRead_formalOut (src dst : NodeID) (s : Reading F C) :
    p.connectRead "FormalOUTSVFGNode".toList [] src dst s =
      (s.g.addInterIndirectVFRetEdge p src dst).map fun g => { s with g := g } := by
  rw [connectRead, if_neg (by decide), if_pos rfl, if_neg (by decide)]

theorem connectRead_intra {f : F} (src dst : NodeID) {s : Reading F C}
    (hnode : s.g.getSVFGNode src = some (.FormalOUTSVFGNode f ver)) :
    p.connectRead "FormalOUTSVFGNode".toList "intra".toList src dst s =
      (s.g.addIntraIndirectVFEdge dst src ver.mr).map fun g => { s with g := g } := by
  rw [connectRead, if_neg (by decide), if_pos rfl, if_pos (by decide), hnode]

theorem connectRead_actualIn {cs : C} (attr : List Char) (src dst : NodeID) {s : Reading F C}
    (hnode : s.g.getSVFGNode src = some (.ActualINSVFGNode cs ver)) :
    p.connectRead "ActualINSVFGNode".toList attr src dst s =
      (s.g.addIntraIndirectVFEdge dst src ver.mr).map fun g => { s with g := g } := by
  rw [connectRead, if_neg (by decide), if_neg (by decide), if_pos rfl, hnode]

theorem readEdge_type (s : Reading F C) (h : '|' ∉ type) (id defId : NodeID) :
    p.readEdge s (edgeText id defId type) = p.connectRead type [] id defId s := by
  rw [readEdge_edgeText, splitAttributes_type h, bind_some]

theorem readEdge_intra (s : Reading F C) (id defId : NodeID) :
    p.readEdge s (edgeText id defId "FormalOUTSVFGNode | intra".toList) =
      p.connectRead "FormalOUTSVFGNode".toList "intra".toList id defId s := by
  have hsplit : splitAttributes "FormalOUTSVFGNode | intra".toList =
      some ("FormalOUTSVFGNode".toList, "intra".toList) := by rfl
  rw [readEdge_edgeText, hsplit, bind_some]

/-- **An edge line adds the edge** that was added for its use. -/
theorem Mirrors.readEdge_edgeLine (h : p.Mirrors g s.g) {use : Use} (hok : UseOk g use)
    (hadd : p.connectUse g use = some g₁) :
    ∃ e n, g₁ = { g with edges := e } ∧
      p.readEdge s (edgeLine use) = some ⟨{ s.g with edges := e }, n⟩ := by
  cases use with
  | load id defId ver => exact h.readEdge_version (.inr (.inl rfl)) id defId ver hadd
  | store id defId ver => exact h.readEdge_version (.inl rfl) id defId ver hadd
  | phi id defId ver => exact h.readEdge_version (.inr (.inr rfl)) id defId ver hadd
  | formalIn id actualIn =>
    obtain ⟨e, hg, hadd'⟩ := h.addInterIndirectVFCallEdge hadd
    refine ⟨e, s.totalVERNum, hg, ?_⟩
    refine (readEdge_type s (by decide) id actualIn).trans ?_
    rw [connectRead_formalIn, hadd']
    rfl
  | formalOut id actualOut =>
    obtain ⟨e, hg, hadd'⟩ := h.addInterIndirectVFRetEdge hadd
    refine ⟨e, s.totalVERNum, hg, ?_⟩
    refine (readEdge_type s (by decide) id actualOut).trans ?_
    rw [connectRead_formalOut, hadd']
    rfl
  | retMu id defId ver =>
    obtain ⟨e, hg, hadd'⟩ := h.addIndirectVFEdge hadd
    obtain ⟨f, hnode⟩ := hok
    obtain ⟨_, hnode', halike⟩ := h.getSVFGNode hnode
    obtain ⟨w, rfl, hw⟩ := (Versioned.formalOut _).alike halike
    refine ⟨e, s.totalVERNum, hg, ?_⟩
    refine (readEdge_intra s id defId).trans ?_
    rw [connectRead_intra id defId hnode', hw, SVFG.addIntraIndirectVFEdge, hadd']
    rfl
  | actualIn id defId ver =>
    obtain ⟨e, hg, hadd'⟩ := h.addIndirectVFEdge hadd
    obtain ⟨cs, hnode⟩ := hok
    obtain ⟨_, hnode', halike⟩ := h.getSVFGNode hnode
    obtain ⟨w, rfl, hw⟩ := (Versioned.actualIn _).alike halike
    refine ⟨e, s.totalVERNum, hg, ?_⟩
    refine (readEdge_type s (by decide) id defId).trans ?_
    rw [connectRead_actualIn [] id defId hnode', hw, SVFG.addIntraIndirectVFEdge, hadd']
    rfl

theorem Mirrors.withEdges (h : p.Mirrors g g') (e : Edges) :
    p.Mirrors { g with edges := e } { g' with edges := e } := ⟨h.nodes, rfl⟩

theorem readEdges_uses (uses : List Use) : ∀ (g : SVFG F C) (s : Reading F C), p.Mirrors g s.g →
    (∀ use ∈ uses, UseOk g use) → uses.foldlM p.connectUse g = some g₁ →
      ∃ e n, g₁ = { g with edges := e } ∧
        (uses.map edgeLine).foldlM p.readEdge s = some ⟨{ s.g with edges := e }, n⟩ := by
  induction uses with
  | nil =>
    intro g s h _ hfold
    obtain rfl := some.inj hfold
    exact ⟨g.edges, s.totalVERNum, rfl, by rw [← h.edges]; rfl⟩
  | cons use uses ih =>
    intro g s h hok hfold
    rw [foldlM_cons] at hfold
    obtain ⟨g2, hadd, hfold⟩ := bind_eq_some_iff.mp hfold
    obtain ⟨e, n, rfl, hread⟩ := h.readEdge_edgeLine (hok use mem_cons_self) hadd
    have hok' : ∀ u ∈ uses, UseOk { g with edges := e } u := fun u hu => by
      have := hok u (mem_cons_of_mem use hu)
      cases u <;> exact this
    obtain ⟨e', n', rfl, hrest⟩ := ih { g with edges := e } ⟨{ s.g with edges := e }, n⟩
      (h.withEdges e) hok' hfold
    refine ⟨e', n', rfl, ?_⟩
    rw [map_cons, foldlM_cons, hread]
    exact hrest

theorem foldlM_mirrors {round : SVFG F C → A → Option (SVFG F C)}
    (hround : ∀ a (g g' g₁ : SVFG F C), p.Mirrors g g' → round g a = some g₁ →
      ∃ e, g₁ = { g with edges := e } ∧ round g' a = some { g' with edges := e }) (l : List A)
    : ∀ g g' : SVFG F C, p.Mirrors g g' → l.foldlM round g = some g₁ →
      ∃ e, g₁ = { g with edges := e } ∧ l.foldlM round g' = some { g' with edges := e } := by
  induction l with
  | nil =>
    intro g g' h hfold
    obtain rfl := some.inj hfold
    exact ⟨g.edges, rfl, by rw [← h.edges]; rfl⟩
  | cons a l ih =>
    intro g g' h hfold
    rw [foldlM_cons] at hfold
    obtain ⟨g2, hfirst, hfold⟩ := bind_eq_some_iff.mp hfold
    obtain ⟨e, rfl, hfirst'⟩ := hround a g g' _ h hfirst
    obtain ⟨e', rfl, hrest⟩ := ih _ _ (h.withEdges e) hfold
    refine ⟨e', rfl, ?_⟩
    rw [foldlM_cons, hfirst']
    exact hrest

section

variable (h : p.Mirrors g g')
include h

theorem Mirrors.filter {kind : NodeID × SVFGNode F C → Bool}
    (hkind : ∀ id n m, p.Alike n m → kind (id, m) = kind (id, n)) :
    (g'.IDToNodeMap.filter kind).map Prod.fst = (g.IDToNodeMap.filter kind).map Prod.fst := by
  have hnodes := h.nodes
  generalize g.IDToNodeMap = l at hnodes ⊢
  generalize g'.IDToNodeMap = l' at hnodes ⊢
  induction hnodes with
  | nil => rfl
  | @cons x y l l' hxy _ ih =>
    obtain ⟨i, n⟩ := x
    obtain ⟨j, m⟩ := y
    obtain ⟨hij, hnm⟩ := hxy
    obtain rfl : i = j := hij
    rw [List.filter_cons, List.filter_cons, hkind i n m hnm]
    split
    · exact congrArg (List.cons i) ih
    · exact ih

theorem Mirrors.getFormalINSVFGNodes (f : F) :
    g'.getFormalINSVFGNodes f = g.getFormalINSVFGNodes f := by
  refine h.filter fun id n m halike => ?_
  rcases halike with rfl | hread
  · rfl
  · cases hread <;> rfl

theorem Mirrors.connectFormalIn {pts : Finset NodeID} {store formalIn : NodeID}
    (hround : (match g.getSVFGNode formalIn with
      | some (.FormalINSVFGNode _ ver) =>
        if ver.mr ∩ pts = ∅ then some g else g.addIntraIndirectVFEdge store formalIn (ver.mr ∩ pts)
      | _ => none) = some g₁) :
    ∃ e, g₁ = { g with edges := e } ∧ (match g'.getSVFGNode formalIn with
        | some (.FormalINSVFGNode _ ver) =>
          if ver.mr ∩ pts = ∅ then some g'
          else g'.addIntraIndirectVFEdge store formalIn (ver.mr ∩ pts)
        | _ => none) = some { g' with edges := e } := by
  split at hround
  case h_1 f ver hnode =>
    obtain ⟨_, hnode', halike⟩ := h.getSVFGNode hnode
    obtain ⟨w, rfl, hw⟩ := (Versioned.formalIn _).alike halike
    rw [hnode']
    dsimp only
    rw [hw]
    split at hround
    case isTrue hempty =>
      cases hround
      refine ⟨g.edges, rfl, ?_⟩
      rw [if_pos hempty, ← h.edges]
    case isFalse hempty =>
      rw [if_neg hempty]
      exact h.addIndirectVFEdge hround
  case h_2 => cases hround

theorem Mirrors.connectFromGlobalToProgEntry
    (hconnect : p.connectFromGlobalToProgEntry g = some g₁) :
    ∃ e, g₁ = { g with edges := e } ∧
      p.connectFromGlobalToProgEntry g' = some { g' with edges := e } := by
  refine foldlM_mirrors (fun store g g' g₁ h hround => ?_) p.globalVFGNodes g g' h hconnect
  cases hnode : g.getSVFGNode store with
  | none =>
    rw [hnode] at hround
    cases hround
  | some node =>
    obtain ⟨node', hnode', halike⟩ := h.getSVFGNode hnode
    rw [hnode] at hround
    rw [hnode', h.getFormalINSVFGNodes]
    have hkeep : g₁ = g → ∃ e, g₁ = { g with edges := e } ∧
        some g' = some { g' with edges := e } := by
      rintro rfl
      exact ⟨g₁.edges, rfl, by rw [← h.edges]⟩
    rcases halike with rfl | hread
    · cases node with
      | StoreSVFGNode chis =>
        refine foldlM_mirrors (fun formalIn g g' g₁ h hround => ?_) _ g g' h hround
        exact h.connectFormalIn hround
      | TopLevelSVFGNode => exact hkeep (some.inj hround).symm
      | LoadSVFGNode _ => exact hkeep (some.inj hround).symm
      | FormalINSVFGNode _ _ => exact hkeep (some.inj hround).symm
      | FormalOUTSVFGNode _ _ => exact hkeep (some.inj hround).symm
      | ActualINSVFGNode _ _ => exact hkeep (some.inj hround).symm
      | ActualOUTSVFGNode _ _ => exact hkeep (some.inj hround).symm
      | MSSAPHISVFGNode _ _ _ => exact hkeep (some.inj hround).symm
    · cases hread <;> exact hkeep (some.inj hround).symm

end

-- ── What building gives

theorem setDef_defs (h : g.setDef ver id = some g₁) :
    ∃ defs, g₁ = { g with MSSAVarToDefMap := defs } ∧
      ∀ e ∈ defs, e ∈ g.MSSAVarToDefMap ∨ e.1 = ver.vid := by
  rw [SVFG.setDef] at h
  split at h
  case h_1 =>
    cases h
    refine ⟨_, rfl, fun e he => ?_⟩
    rcases List.mem_append.mp he with he | he
    · exact .inl he
    · exact .inr (congrArg Prod.fst (mem_singleton.mp he))
  case h_2 =>
    split at h
    · cases h
      exact ⟨g.MSSAVarToDefMap, rfl, fun e he => .inl he⟩
    · cases h

/-- Only definitions have been added, of versions that have been made. -/
def OnlyDefs (p : SVFIR F C B) (g : SVFG F C) : Prop :=
  ∃ defs, g = { p.fresh with MSSAVarToDefMap := defs } ∧ ∀ e ∈ defs, e.1 < p.totalVERNum

theorem setStoreDefs_defs (h : p.setStoreDefs p.fresh = some g) : p.OnlyDefs g := by
  refine foldlM_keeps (P := p.OnlyDefs) p.topLevel p.fresh g (fun g x g₁ hx hg hround => ?_)
    ⟨[], rfl, nofun⟩ h
  obtain ⟨id, node⟩ := x
  cases node with
  | StoreSVFGNode chiSet =>
    refine foldlM_keeps (P := p.OnlyDefs) chiSet g g₁ (fun g chi g₁ hchi hg hset => ?_) hg hround
    obtain ⟨defs, rfl, hbelow⟩ := hg
    obtain ⟨defs', rfl, hdefs'⟩ := setDef_defs hset
    refine ⟨defs', rfl, fun e he => ?_⟩
    rcases hdefs' e he with he | he
    · exact hbelow e he
    · exact he ▸ p.stores_lt id chiSet hx chi hchi
  | TopLevelSVFGNode => exact some.inj hround ▸ hg
  | LoadSVFGNode _ => exact some.inj hround ▸ hg
  | FormalINSVFGNode _ _ => exact some.inj hround ▸ hg
  | FormalOUTSVFGNode _ _ => exact some.inj hround ▸ hg
  | ActualINSVFGNode _ _ => exact some.inj hround ▸ hg
  | ActualOUTSVFGNode _ _ => exact some.inj hround ▸ hg
  | MSSAPHISVFGNode _ _ _ => exact some.inj hround ▸ hg

/-- Nodes have been put behind those that were there. -/
structure Built (nodes : List (SVFGNode F C)) (g g₁ : SVFG F C) : Prop where
  map : g₁.IDToNodeMap = g.IDToNodeMap ++ placed g.totalVFGNode nodes
  counter : g₁.totalVFGNode = g.totalVFGNode + nodes.length
  edges : g₁.edges = g.edges

def IdsBelow (g : SVFG F C) : Prop := ∀ x ∈ g.IDToNodeMap, x.1 < g.totalVFGNode

theorem placed_append (nodes nodes' : List (SVFGNode F C)) : ∀ id : ℕ,
    placed id (nodes ++ nodes') = placed id nodes ++ placed (id + nodes.length) nodes' := by
  induction nodes with
  | nil => exact fun id => rfl
  | cons node nodes ih =>
    intro id
    rw [cons_append, placed, ih, placed, cons_append, length_cons, add_right_comm, add_assoc]

theorem placed_bounds : ∀ {id : ℕ} {x : ℕ × SVFGNode F C},
    x ∈ placed id nodes → id ≤ x.1 ∧ x.1 < id + nodes.length ∧ x.2 ∈ nodes := by
  induction nodes with
  | nil => exact nofun
  | cons node nodes ih =>
    intro id x h
    rw [length_cons]
    rcases mem_cons.mp h with rfl | h
    · exact ⟨le_rfl, by dsimp only; omega, mem_cons_self⟩
    · obtain ⟨h1, h2, h3⟩ := ih h
      exact ⟨by omega, by omega, mem_cons_of_mem node h3⟩

theorem Built.idsBelow (h : Built nodes g g₁) (hg : IdsBelow g) : IdsBelow g₁ := by
  intro x hx
  rw [h.map] at hx
  rw [h.counter]
  rcases List.mem_append.mp hx with hx | hx
  · exact Nat.lt_add_right _ (hg x hx)
  · exact (placed_bounds hx).2.1

theorem Built.append {nodes nodes' : List (SVFGNode F C)} {g2 : SVFG F C} (h : Built nodes g g₁)
    (h' : Built nodes' g₁ g2) : Built (nodes ++ nodes') g g2 := by
  refine ⟨?_, ?_, h'.edges.trans h.edges⟩
  · rw [h'.map, h.map, h.counter, placed_append, append_assoc]
  · rw [h'.counter, h.counter, length_append, add_assoc]

/-- One loop of `addSVFGNodesForAddrTakenVars`, whose rounds put a node into the map. -/
theorem addAll_built {add : A → NodeID → SVFG F C → Option (SVFG F C)} {node : A → SVFGNode F C}
    (hadd : ∀ a id (g g₁ : SVFG F C), add a id g = some g₁ →
      ∃ defs, g₁ = { g.addSVFGNode id (node a) with MSSAVarToDefMap := defs }) (l : List A)
    : ∀ g : SVFG F C, IdsBelow g → addAll add l g = some g₁ → Built (l.map node) g g₁ := by
  induction l with
  | nil =>
    intro g _ h
    cases h
    exact ⟨(append_nil _).symm, rfl, rfl⟩
  | cons a l ih =>
    intro g hg h
    rw [addAll, foldlM_cons] at h
    obtain ⟨g2, hfirst, hrest⟩ := bind_eq_some_iff.mp h
    obtain ⟨defs, rfl⟩ := hadd a g.totalVFGNode _ g2 hfirst
    have hbuilt : Built [node a] g { SVFG.addSVFGNode g.totalVFGNode (node a)
        { g with totalVFGNode := g.totalVFGNode + 1 } with MSSAVarToDefMap := defs } :=
      ⟨addGNode_last (node a) hg, rfl, rfl⟩
    exact hbuilt.append (ih _ (hbuilt.idsBelow hg) hrest)

theorem addSVFGNode_setDef (h : (g.addSVFGNode id node).setDef ver id = some g₁) :
    ∃ defs, g₁ = { g.addSVFGNode id node with MSSAVarToDefMap := defs } := by
  obtain ⟨defs, hg, -⟩ := setDef_defs h
  exact ⟨defs, hg⟩

theorem addSVFGNode_some (h : some (g.addSVFGNode id node) = some g₁) :
    ∃ defs, g₁ = { g.addSVFGNode id node with MSSAVarToDefMap := defs } :=
  ⟨g.MSSAVarToDefMap, (some.inj h).symm⟩

/-- **The address-taken nodes** have the ids behind the top-level ones. -/
theorem addSVFGNodesForAddrTakenVars_built (h : p.addSVFGNodesForAddrTakenVars p.fresh = some g) :
    ∃ g₀, p.setStoreDefs p.fresh = some g₀ ∧ Built p.addrTaken g₀ g := by
  rw [addSVFGNodesForAddrTakenVars] at h
  obtain ⟨g5, h, h5⟩ := bind_eq_some_iff.mp h
  obtain ⟨g4, h, h4⟩ := bind_eq_some_iff.mp h
  obtain ⟨g3, h, h3⟩ := bind_eq_some_iff.mp h
  obtain ⟨g2, h, h2⟩ := bind_eq_some_iff.mp h
  obtain ⟨g₀, h0, h1⟩ := bind_eq_some_iff.mp h
  have hbelow : IdsBelow g₀ := by
    obtain ⟨defs, rfl, -⟩ := setStoreDefs_defs h0
    exact p.topLevel_lt
  have hphis : Built (p.phis.map fun phi =>
      .MSSAPHISVFGNode (p.icfg.front phi.1) phi.2.1 phi.2.2) g₀ g2 :=
    addAll_built (fun _ _ _ _ => addSVFGNode_setDef) _ _ hbelow h1
  have hbelow := hphis.idsBelow hbelow
  have hentry : Built (p.entryChis.map fun chi => .FormalINSVFGNode chi.1 chi.2) g2 g3 :=
    addAll_built (fun _ _ _ _ => addSVFGNode_setDef) _ _ hbelow h2
  have hbelow := hentry.idsBelow hbelow
  have hret : Built (p.retMus.map fun mu => .FormalOUTSVFGNode mu.1 mu.2) g3 g4 :=
    addAll_built (fun _ _ _ _ => addSVFGNode_some) _ _ hbelow h3
  have hbelow := hret.idsBelow hbelow
  have hmus : Built (p.callMus.map fun mu => .ActualINSVFGNode mu.1 mu.2) g4 g5 :=
    addAll_built (fun _ _ _ _ => addSVFGNode_some) _ _ hbelow h4
  have hbelow := hmus.idsBelow hbelow
  have hchis : Built (p.callChis.map fun chi => .ActualOUTSVFGNode chi.1 chi.2) g5 g :=
    addAll_built (fun _ _ _ _ => addSVFGNode_setDef) _ _ hbelow h5
  exact ⟨g₀, h0, hphis.append (hentry.append (hret.append (hmus.append hchis)))⟩

theorem mem_of_mapM {A D : Type} {f : A → Option D} (l : List A) : ∀ {ys : List D},
    l.mapM f = some ys → ∀ y ∈ ys, ∃ a ∈ l, f a = some y := by
  induction l with
  | nil =>
    intro ys h y hy
    cases h
    cases hy
  | cons a l ih =>
    intro ys h y hy
    rw [List.mapM_cons] at h
    obtain ⟨b, hb, h⟩ := bind_eq_some_iff.mp h
    obtain ⟨bs, hbs, h⟩ := bind_eq_some_iff.mp h
    cases h
    rcases mem_cons.mp hy with rfl | hy
    · exact ⟨a, mem_cons_self, hb⟩
    · obtain ⟨a', ha', hy⟩ := ih hbs y hy
      exact ⟨a', mem_cons_of_mem a ha', hy⟩

theorem usesAt_ok (hx : g.getSVFGNode x.1 = some x.2) {us : List Use} (h : p.usesAt g x = some us)
    : ∀ use ∈ us, UseOk g use := by
  obtain ⟨id, node⟩ := x
  intro use huse
  cases node with
  | TopLevelSVFGNode =>
    cases h
    cases huse
  | LoadSVFGNode muSet =>
    obtain ⟨ver, -, hver⟩ := mem_of_mapM muSet h use huse
    obtain ⟨defId, -, rfl⟩ := map_eq_some_iff.mp hver
    exact trivial
  | StoreSVFGNode chiSet =>
    obtain ⟨chi, -, hchi⟩ := mem_of_mapM chiSet h use huse
    obtain ⟨defId, -, rfl⟩ := map_eq_some_iff.mp hchi
    exact trivial
  | FormalINSVFGNode f ver =>
    cases h
    obtain ⟨cs, -, huse⟩ := mem_flatMap.mp huse
    obtain ⟨actualIn, -, rfl⟩ := List.mem_map.mp huse
    exact trivial
  | FormalOUTSVFGNode f ver =>
    obtain ⟨defId, -, rfl⟩ := map_eq_some_iff.mp h
    rcases List.mem_append.mp huse with huse | huse
    · obtain ⟨cs, -, huse⟩ := mem_flatMap.mp huse
      obtain ⟨actualOut, -, rfl⟩ := List.mem_map.mp huse
      exact trivial
    · rw [mem_singleton.mp huse]
      exact ⟨f, hx⟩
  | ActualINSVFGNode cs ver =>
    obtain ⟨defId, -, rfl⟩ := map_eq_some_iff.mp h
    rw [mem_singleton.mp huse]
    exact ⟨cs, hx⟩
  | ActualOUTSVFGNode cs ver =>
    cases h
    cases huse
  | MSSAPHISVFGNode n resVer opVers =>
    obtain ⟨op, -, hop⟩ := mem_of_mapM opVers h use huse
    obtain ⟨defId, -, rfl⟩ := map_eq_some_iff.mp hop
    exact trivial

theorem lookup_of_sorted (hsorted : l.Pairwise fun x y => x.1 < y.1) (hx : x ∈ l) :
    l.lookup x.1 = some x.2 := by
  induction l with
  | nil => cases hx
  | cons y l ih =>
    obtain ⟨hy, hrest⟩ := List.pairwise_cons.mp hsorted
    obtain ⟨i, n⟩ := y
    rcases mem_cons.mp hx with rfl | hx
    · exact List.lookup_cons_self
    · have hne : (x.1 == i) = false := beq_false_of_ne (hy x hx).ne'
      rw [lookup_cons, hne]
      exact ih hrest hx

theorem uses_ok (hsorted : g.IDToNodeMap.Pairwise fun x y => x.1 < y.1) (h : p.uses g = some uses)
    : ∀ use ∈ uses, UseOk g use := by
  intro use huse
  obtain ⟨uss, huss, rfl⟩ := map_eq_some_iff.mp h
  obtain ⟨us, hus, huse⟩ := List.mem_flatten.mp huse
  obtain ⟨x, hx, hat⟩ := mem_of_mapM _ huss us hus
  exact usesAt_ok (lookup_of_sorted hsorted hx) hat use huse

theorem placed_sorted (nodes : List (SVFGNode F C)) : ∀ id : ℕ,
    (placed id nodes).Pairwise fun x y => x.1 < y.1 := by
  induction nodes with
  | nil => exact fun id => .nil
  | cons node nodes ih =>
    exact fun id => List.pairwise_cons.mpr ⟨fun x hx => (placed_bounds hx).1, ih (id + 1)⟩

theorem Mirrors.refl (g : SVFG F C) : p.Mirrors g g :=
  ⟨List.forall₂_same.mpr fun _ _ => ⟨rfl, .inl rfl⟩, rfl⟩

structure Stages (p : SVFIR F C B) (g₀ g₁ g : SVFG F C) (uses : List Use) : Prop where
  defs : p.setStoreDefs p.fresh = some g₀
  nodes : Built p.addrTaken g₀ g₁
  listed : p.uses g₁ = some uses
  ok : ∀ use ∈ uses, UseOk g₁ use
  connected : ∃ e, uses.foldlM p.connectUse g₁ = some { g₁ with edges := e } ∧
    p.connectFromGlobalToProgEntry { g₁ with edges := e } = some g
  edges : ∃ e, g = { g₁ with edges := e }

theorem Stages.written (h : p.Stages g₀ g₁ g uses) : ∃ text, p.writeToFile g = some text := by
  obtain ⟨e, rfl⟩ := h.edges
  exact ⟨_, congrArg (Option.map _) h.listed⟩

theorem buildSVFG_stages (hg : p.buildSVFG = some g) : ∃ g₀ g₁ uses, p.Stages g₀ g₁ g uses := by
  rw [buildSVFG] at hg
  obtain ⟨g₁, hnodes, hg⟩ := bind_eq_some_iff.mp hg
  obtain ⟨g₀, hdefs, hbuilt⟩ := addSVFGNodesForAddrTakenVars_built hnodes
  rw [connectIndirectSVFGEdges] at hg
  obtain ⟨uses, huses, hg⟩ := bind_eq_some_iff.mp hg
  obtain ⟨g2, hfold, hglobal⟩ := bind_eq_some_iff.mp hg
  have hsorted : g₁.IDToNodeMap.Pairwise fun x y => x.1 < y.1 := by
    obtain ⟨defs, rfl, -⟩ := setStoreDefs_defs hdefs
    rw [hbuilt.map]
    refine List.pairwise_append.mpr ⟨p.topLevel_sorted, placed_sorted _ _, fun x hx y hy => ?_⟩
    exact (p.topLevel_lt x hx).trans_le (placed_bounds hy).1
  have hok := uses_ok hsorted huses
  obtain ⟨e, n, rfl, -⟩ := readEdges_uses uses g₁ ⟨g₁, 0⟩ (Mirrors.refl g₁) hok hfold
  obtain ⟨e', rfl, -⟩ := (Mirrors.refl _).connectFromGlobalToProgEntry hglobal
  exact ⟨g₀, g₁, uses, hdefs, hbuilt, huses, hok, ⟨e, hfold, hglobal⟩, e', rfl⟩

-- ── The whole file

theorem newline_notMem_edgeLine (use : Use) : '\n' ∉ edgeLine use := by
  have hver : ∀ ver, '\n' ∉ putMRVer ver := notMem_putMRVer rfl (by decide)
  have hdelim : '\n' ∉ delimiter := by decide
  have htext : ∀ id defId attributes, '\n' ∉ attributes → '\n' ∉ edgeText id defId attributes := by
    intro id defId attributes h
    unfold edgeText
    simp [notMem_putNat, hdelim, h]
  have hattr : ∀ type ver, '\n' ∉ type → '\n' ∉ attributesOf type ver := by
    intro type ver h
    unfold attributesOf
    simp [hver, h]
  cases use with
  | load id defId ver => exact htext _ _ _ (hattr _ _ (by decide))
  | store id defId ver => exact htext _ _ _ (hattr _ _ (by decide))
  | formalIn id actualIn => exact htext _ _ _ (by decide)
  | formalOut id actualOut => exact htext _ _ _ (by decide)
  | retMu id defId ver => exact htext _ _ _ (by decide)
  | actualIn id defId ver => exact htext _ _ _ (by decide)
  | phi id defId ver => exact htext _ _ _ (hattr _ _ (by decide))

theorem pieces_writeToFile (huses : p.uses g = some uses) (h : p.writeToFile g = some text) :
    pieces text = "__Nodes__".toList :: (g.IDToNodeMap.flatMap p.nodeLine ++
      ([] :: [] :: "__Edges__".toList :: (uses.map edgeLine ++ [[]]))) := by
  rw [writeToFile, huses] at h
  cases h
  rw [pieces_putlines]
  · simp only [cons_append, append_assoc]
  · intro line hline
    rcases mem_cons.mp hline with rfl | hline
    · decide
    rcases List.mem_append.mp hline with hline | hline
    · obtain ⟨x, -, hline⟩ := mem_flatMap.mp hline
      exact notMem_nodeLine rfl (by decide) x line hline
    rcases mem_cons.mp hline with rfl | hline
    · exact not_mem_nil
    rcases mem_cons.mp hline with rfl | hline
    · exact not_mem_nil
    rcases mem_cons.mp hline with rfl | hline
    · decide
    obtain ⟨use, -, rfl⟩ := List.mem_map.mp hline
    exact newline_notMem_edgeLine use

theorem readNodes_head (fuel : ℕ) (lines : List Line) (s : Reading F C) :
    p.readNodes fuel ("__Nodes__".toList :: lines) s = p.readNodes fuel lines s := by
  have hread : p.readNode fuel s "__Nodes__".toList = some s := by
    have hfields : fields "__Nodes__".toList = ([], "__Nodes__".toList) := by decide
    rw [readNode, hfields]
    simp only [List.getElem?_nil, getD_none, readID, readMRVer, if_true, bind_some]
    rw [addRead, if_neg (by decide), if_neg (by decide), if_neg (by decide), if_neg (by decide),
      if_neg (by decide), map_some, raiseCounter, if_neg (not_lt_zero _)]
  rw [readNodes, if_neg (by decide), if_neg (by decide), hread, bind_some]

theorem readNodes_edges (fuel : ℕ) (lines : List Line) (s : Reading F C) :
    p.readNodes fuel ([] :: [] :: "__Edges__".toList :: lines) s = some (s, lines) := by
  rw [readNodes, if_pos rfl, readNodes, if_pos rfl, readNodes, if_neg (by decide),
    if_pos (by decide)]

theorem topLevel_lines : p.topLevel.flatMap p.nodeLine = [] := by
  refine List.flatMap_eq_nil_iff.mpr fun x hx => ?_
  have hkind := p.topLevel_kind x hx
  obtain ⟨id, node⟩ := x
  cases node with
  | TopLevelSVFGNode => rfl
  | LoadSVFGNode _ => rfl
  | StoreSVFGNode _ => rfl
  | FormalINSVFGNode _ _ => cases hkind
  | FormalOUTSVFGNode _ _ => cases hkind
  | ActualINSVFGNode _ _ => cases hkind
  | ActualOUTSVFGNode _ _ => cases hkind
  | MSSAPHISVFGNode _ _ _ => cases hkind

theorem readEdges_end (uses : List Use) {s t : Reading F C}
    (h : (uses.map edgeLine).foldlM p.readEdge s = some t) :
    (uses.map edgeLine ++ [[]]).foldlM p.readEdge s = some t := by
  rw [List.foldlM_append, h]
  rfl

section

variable (h : p.Stages g₀ g₁ g uses)
include h

section

variable (hw : p.writeToFile g = some text)
include hw

theorem readNodes_pieces (fuel : ℕ) (s : Reading F C) :
    p.readNodes fuel (pieces text) s =
      p.readNodes fuel ((placed p.totalVFGNode p.addrTaken).flatMap p.nodeLine ++
        ([] :: [] :: "__Edges__".toList :: (uses.map edgeLine ++ [[]]))) s := by
  obtain ⟨defs, rfl, -⟩ := setStoreDefs_defs h.defs
  obtain ⟨e, rfl⟩ := h.edges
  have hmap : g₁.IDToNodeMap.flatMap p.nodeLine =
      (placed p.totalVFGNode p.addrTaken).flatMap p.nodeLine := by
    rw [h.nodes.map, List.flatMap_append]
    show p.topLevel.flatMap p.nodeLine ++ _ = _
    rw [topLevel_lines]
    rfl
  rw [pieces_writeToFile h.listed hw, readNodes_head]
  show p.readNodes fuel (g₁.IDToNodeMap.flatMap p.nodeLine ++ _) s = _
  rw [hmap]

/-- **The file is read**: the nodes as what they were written for, the same edges, and a counter
    that misses the last id when the number of nodes is odd. -/
theorem readFile_writeToFile (hops : ∀ node ∈ p.addrTaken, HasOperands node) :
    ∃ g' nodes', Stops (fun fuel => p.readFile fuel text) g' ∧
      List.Forall₂ (fun x y => x.1 = y.1 ∧ p.ReadAs x.2 y.2)
        (placed p.totalVFGNode p.addrTaken) nodes' ∧
      g'.IDToNodeMap = p.topLevel ++ nodes' ∧
      g'.totalVFGNode = p.totalVFGNode + 2 * (p.addrTaken.length / 2) ∧ g'.edges = g.edges := by
  obtain ⟨defs, hg0, hbelow⟩ := setStoreDefs_defs h.defs
  obtain ⟨s, nodes', hall, hmap, hcounter, hedges, hread⟩ :=
    readNodes_placed (p := p) addrTaken_kind hops p.totalVFGNode ⟨g₀, p.totalVERNum⟩
      (hg0 ▸ p.topLevel_lt) (hg0 ▸ hbelow)
  have hmirrors : p.Mirrors g₁ s.g := by
    refine ⟨?_, hedges.trans h.nodes.edges.symm⟩
    rw [h.nodes.map, hmap, hg0]
    refine List.rel_append (List.forall₂_same.mpr fun _ _ => ⟨rfl, .inl rfl⟩) ?_
    exact hall.imp fun x y hxy => ⟨hxy.1, .inr hxy.2⟩
  obtain ⟨e, hfold, hglobal⟩ := h.connected
  obtain ⟨e', n, heq, hreadEdges⟩ := readEdges_uses uses g₁ s hmirrors h.ok hfold
  obtain rfl : e = e' := congrArg SVFG.edges heq
  obtain ⟨e', rfl, hglobal'⟩ := (hmirrors.withEdges e).connectFromGlobalToProgEntry hglobal
  refine ⟨{ s.g with edges := e' }, nodes', ?_, hall, ?_, ?_, rfl⟩
  · have hnodes : Stops (fun fuel => p.readNodes fuel (pieces text) ⟨g₀, p.totalVERNum⟩)
        (s, uses.map edgeLine ++ [[]]) := by
      simp only [readNodes_pieces h hw]
      exact hread _ _ fun fuel => readNodes_edges fuel _ s
    simp only [readFile, h.defs, bind_some]
    refine hnodes.bind ⟨0, fun fuel _ => ?_⟩
    rw [readEdges_end uses hreadEdges]
    exact hglobal'
  · show s.g.IDToNodeMap = _
    rw [hmap, hg0]
    rfl
  · show s.g.totalVFGNode = _
    rw [hcounter, hg0]
    exact counterAfter_eq _ _

theorem readFile_none (hops : ∃ node ∈ p.addrTaken, ¬ HasOperands node) (fuel : ℕ) :
    p.readFile fuel text = none := by
  rw [readFile, h.defs, bind_some, readNodes_pieces h hw, readNodes_none addrTaken_kind hops]
  rfl

end

end

-- ── The round trip

/-- The same node, up to the ids of versions. The operands of a phi are compared by position. -/
inductive SameNode : SVFGNode F C → SVFGNode F C → Prop
  | topLevel (n : SVFGNode F C) (h : n.isTopLevel = true) : SameNode n n
  | phi (n : NodeID) {v w : MRVer} (h : Same v w) {opVers opVers' : OPVers}
      (hops : ∀ pos, Option.Rel Same (opVers.lookup pos) (opVers'.lookup pos)) :
      SameNode (.MSSAPHISVFGNode n v opVers) (.MSSAPHISVFGNode n w opVers')
  | formalIn (f : F) {v w : MRVer} (h : Same v w) :
      SameNode (.FormalINSVFGNode f v) (.FormalINSVFGNode f w)
  | formalOut (f : F) {v w : MRVer} (h : Same v w) :
      SameNode (.FormalOUTSVFGNode f v) (.FormalOUTSVFGNode f w)
  | actualIn (cs : C) {v w : MRVer} (h : Same v w) :
      SameNode (.ActualINSVFGNode cs v) (.ActualINSVFGNode cs w)
  | actualOut (cs : C) {v w : MRVer} (h : Same v w) :
      SameNode (.ActualOUTSVFGNode cs v) (.ActualOUTSVFGNode cs w)

/-- The graph that is read back, beside the one that was written. -/
structure RoundTrip (g g' : SVFG F C) : Prop where
  nodes : List.Forall₂ (fun x y => x.1 = y.1 ∧ SameNode x.2 y.2) g.IDToNodeMap g'.IDToNodeMap
  edges : g'.edges = g.edges
  counter : ∀ x ∈ g'.IDToNodeMap, x.1 < g'.totalVFGNode

/-- The operands of a phi are written by their positions: there is one, and the one that is
    written `pos`-th is that at `pos`. -/
def InPosition (p : SVFIR F C B) (opVers : OPVers) : Prop :=
  opVers ≠ [] ∧ ∀ pos, Option.Rel Same (opVers.lookup pos) ((p.copyOrder opVers)[pos]?.map Prod.snd)

theorem rel_same_congr {a b c : Option MRVer} (h : Option.Rel Same b c) :
    Option.Rel Same a b ↔ Option.Rel Same a c := by
  cases h with
  | none => exact .rfl
  | @some v w h =>
    cases a with
    | none => exact ⟨fun h => (nomatch h), fun h => (nomatch h)⟩
    | some u =>
      constructor
      · intro h'
        cases h' with
        | some h' => exact .some ⟨h'.1.trans h.1, h'.2.1.trans h.2.1, h'.2.2.trans h.2.2⟩
      · intro h'
        cases h' with
        | some h' =>
          exact .some ⟨h'.1.trans h.1.symm, h'.2.1.trans h.2.1.symm, h'.2.2.trans h.2.2.symm⟩

theorem lookup_numbered (l : OPVers) : ∀ i vid pos : ℕ,
    Option.Rel Same (l[pos]?.map Prod.snd) ((numbered i vid l).lookup (i + pos)) := by
  induction l with
  | nil => exact fun i vid pos => .none
  | cons op l ih =>
    intro i vid pos
    rw [numbered, lookup_cons]
    cases pos with
    | zero =>
      rw [add_zero, beq_self_eq_true]
      exact .some (same_newId op.2 vid)
    | succ pos =>
      have hne : (i + (pos + 1) == i) = false := beq_false_of_ne (by omega)
      have hpos : i + (pos + 1) = i + 1 + pos := by omega
      rw [hne, List.getElem?_cons_succ, hpos]
      exact ih (i + 1) (vid + 1) pos

/-- The operands that are read are those that were written if they were written by their
    positions. -/
theorem numbered_iff (opVers : OPVers) (vid : ℕ) : (∀ pos, Option.Rel Same (opVers.lookup pos)
        ((numbered 0 vid (p.copyOrder opVers)).lookup pos)) ↔
      ∀ pos, Option.Rel Same (opVers.lookup pos) ((p.copyOrder opVers)[pos]?.map Prod.snd) := by
  refine forall_congr' fun pos => (rel_same_congr ?_).symm
  have h := lookup_numbered (p.copyOrder opVers) 0 vid pos
  rwa [zero_add] at h

theorem sameNode_iff {n m : SVFGNode F C} (h : p.ReadAs n m) :
    SameNode n m ↔ ∀ i v opVers, n = .MSSAPHISVFGNode i v opVers →
      ∀ pos, Option.Rel Same (opVers.lookup pos) ((p.copyOrder opVers)[pos]?.map Prod.snd) := by
  cases h with
  | phi i hsame opVers vid =>
    constructor
    · intro hnode
      rintro _ _ _ ⟨⟩
      refine (numbered_iff opVers vid).mp ?_
      generalize numbered 0 vid (p.copyOrder opVers) = opVers' at hnode ⊢
      cases hnode with
      | topLevel _ hkind => cases hkind
      | phi _ _ hops => exact hops
    · exact fun hpos => .phi i hsame ((numbered_iff opVers vid).mpr (hpos _ _ _ rfl))
  | formalIn f hsame => exact ⟨fun _ _ _ _ h => (nomatch h), fun _ => .formalIn f hsame⟩
  | formalOut f hsame => exact ⟨fun _ _ _ _ h => (nomatch h), fun _ => .formalOut f hsame⟩
  | actualIn cs hsame => exact ⟨fun _ _ _ _ h => (nomatch h), fun _ => .actualIn cs hsame⟩
  | actualOut cs hsame => exact ⟨fun _ _ _ _ h => (nomatch h), fun _ => .actualOut cs hsame⟩

theorem sameNodes_iff {nodes' : List (NodeID × SVFGNode F C)}
    (hall : List.Forall₂ (fun x y => x.1 = y.1 ∧ p.ReadAs x.2 y.2) (placed id nodes) nodes') :
    List.Forall₂ (fun x y => x.1 = y.1 ∧ SameNode x.2 y.2) (placed id nodes) nodes' ↔
      ∀ i v opVers, SVFGNode.MSSAPHISVFGNode i v opVers ∈ nodes →
        ∀ pos, Option.Rel Same (opVers.lookup pos) ((p.copyOrder opVers)[pos]?.map Prod.snd) := by
  induction nodes generalizing id nodes' with
  | nil =>
    cases hall
    exact ⟨nofun, fun _ => .nil⟩
  | cons node nodes ih =>
    cases hall with
    | cons hfirst hrest =>
      rw [placed, List.forall₂_cons, ih hrest, sameNode_iff hfirst.2]
      constructor
      · rintro ⟨⟨-, hnode⟩, hnodes⟩ i v opVers h
        rcases mem_cons.mp h with h | h
        · exact hnode i v opVers h.symm
        · exact hnodes i v opVers h
      · intro h
        exact ⟨⟨hfirst.1, fun i v opVers hnode => h i v opVers (hnode ▸ mem_cons_self)⟩,
          fun i v opVers hnode => h i v opVers (mem_cons_of_mem node hnode)⟩

theorem mem_addrTaken_phi {i : NodeID} {v : MRVer} :
    SVFGNode.MSSAPHISVFGNode i v opVers ∈ p.addrTaken ↔
      ∃ phi ∈ p.phis, p.icfg.front phi.1 = i ∧ phi.2.1 = v ∧ phi.2.2 = opVers := by
  simp [addrTaken]

theorem hasOperands_iff :
    (∀ node ∈ p.addrTaken, HasOperands node) ↔ ∀ phi ∈ p.phis, phi.2.2 ≠ [] := by
  constructor
  · intro h phi hphi
    exact h _ (mem_addrTaken_phi.mpr ⟨phi, hphi, rfl, rfl, rfl⟩)
  · intro h node hnode
    cases node with
    | MSSAPHISVFGNode i v opVers =>
      obtain ⟨phi, hphi, -, -, rfl⟩ := mem_addrTaken_phi.mp hnode
      exact h phi hphi
    | TopLevelSVFGNode => exact trivial
    | LoadSVFGNode _ => exact trivial
    | StoreSVFGNode _ => exact trivial
    | FormalINSVFGNode _ _ => exact trivial
    | FormalOUTSVFGNode _ _ => exact trivial
    | ActualINSVFGNode _ _ => exact trivial
    | ActualOUTSVFGNode _ _ => exact trivial

theorem placed_ids (nodes : List (SVFGNode F C)) : ∀ id : ℕ,
    (placed id nodes).map Prod.fst = List.range' id nodes.length := by
  induction nodes with
  | nil => exact fun id => rfl
  | cons node nodes ih => exact fun id => congrArg (List.cons id) (ih (id + 1))

theorem readAs_ids {l l' : List (NodeID × SVFGNode F C)}
    (hall : List.Forall₂ (fun x y => x.1 = y.1 ∧ p.ReadAs x.2 y.2) l l') :
    l'.map Prod.fst = l.map Prod.fst := by
  induction hall with
  | nil => rfl
  | cons hfirst _ ih => rw [map_cons, map_cons, hfirst.1, ih]

theorem counter_iff {g' : SVFG F C} {nodes' : List (NodeID × SVFGNode F C)}
    (hall : List.Forall₂ (fun x y => x.1 = y.1 ∧ p.ReadAs x.2 y.2)
      (placed p.totalVFGNode p.addrTaken) nodes')
    (hmap : g'.IDToNodeMap = p.topLevel ++ nodes')
    (hcounter : g'.totalVFGNode = p.totalVFGNode + 2 * (p.addrTaken.length / 2)) :
    (∀ x ∈ g'.IDToNodeMap, x.1 < g'.totalVFGNode) ↔ Even p.addrTaken.length := by
  have hids : nodes'.map Prod.fst = List.range' p.totalVFGNode p.addrTaken.length :=
    (readAs_ids hall).trans (placed_ids p.addrTaken p.totalVFGNode)
  rw [hmap, hcounter]
  constructor
  · intro h
    by_contra hodd
    obtain ⟨k, hk⟩ := not_even_iff_odd.mp hodd
    have hlast : p.totalVFGNode + 2 * k ∈ nodes'.map Prod.fst := by
      rw [hids, List.mem_range'_1, hk]
      exact ⟨Nat.le_add_right _ _, Nat.add_lt_add_left (Nat.lt_succ_self _) _⟩
    obtain ⟨x, hx, heq⟩ := List.mem_map.mp hlast
    have hlt := h x (List.mem_append_right _ hx)
    have hhalf : (2 * k + 1) / 2 = k := by omega
    rw [heq, hk, hhalf] at hlt
    exact absurd hlt (lt_irrefl _)
  · intro heven x hx
    rw [two_mul_div_two_of_even heven]
    rcases List.mem_append.mp hx with hx | hx
    · exact Nat.lt_add_right _ (p.topLevel_lt x hx)
    · have hid := List.mem_map_of_mem (f := Prod.fst) hx
      rw [hids, List.mem_range'_1] at hid
      exact hid.2

def SurvivesFile (p : SVFIR F C B) (g : SVFG F C) : Prop :=
  ∃ text g', p.writeToFile g = some text ∧ Stops (fun fuel => p.readFile fuel text) g' ∧
    RoundTrip g g'

theorem sameTopLevel (h : ∀ x ∈ l, x.2.isTopLevel) :
    List.Forall₂ (fun x y => x.1 = y.1 ∧ SameNode x.2 y.2) l l :=
  List.forall₂_same.mpr fun x hx => ⟨rfl, .topLevel x.2 (h x hx)⟩

theorem forall₂_append_iff {R : A → A → Prop} {l : List A} (hl : List.Forall₂ R l l) (m m' : List A)
    : List.Forall₂ R (l ++ m) (l ++ m') ↔ List.Forall₂ R m m' := by
  induction l with
  | nil => exact .rfl
  | cons a l ih =>
    obtain ⟨ha, hl⟩ := List.forall₂_cons.mp hl
    rw [cons_append, cons_append, List.forall₂_cons, ih hl]
    exact and_iff_right ha

/-- **What is read back**: the same edges, and the same nodes and a counter above them under
    their conditions. -/
theorem reads_back (h : p.Stages g₀ g₁ g uses) (hops : ∀ node ∈ p.addrTaken, HasOperands node) :
    ∃ text g', p.writeToFile g = some text ∧ Stops (fun fuel => p.readFile fuel text) g' ∧
      g'.edges = g.edges ∧
      ((∀ x ∈ g'.IDToNodeMap, x.1 < g'.totalVFGNode) ↔ Even p.addrTaken.length) ∧
      (List.Forall₂ (fun x y => x.1 = y.1 ∧ SameNode x.2 y.2) g.IDToNodeMap g'.IDToNodeMap ↔
        ∀ phi ∈ p.phis, p.InPosition phi.2.2) := by
  obtain ⟨text, hw⟩ := h.written
  obtain ⟨g', nodes', hstops, hall, hmap, hcounter, hedges⟩ := readFile_writeToFile h hw hops
  refine ⟨text, g', hw, hstops, hedges, counter_iff hall hmap hcounter, ?_⟩
  have hmap1 : g.IDToNodeMap = p.topLevel ++ placed p.totalVFGNode p.addrTaken := by
    obtain ⟨defs, rfl, -⟩ := setStoreDefs_defs h.defs
    obtain ⟨e, rfl⟩ := h.edges
    exact h.nodes.map
  rw [hmap, hmap1, forall₂_append_iff (sameTopLevel p.topLevel_kind), sameNodes_iff hall]
  constructor
  · exact fun hpos phi hphi => ⟨hasOperands_iff.mp hops phi hphi,
      hpos _ _ _ (mem_addrTaken_phi.mpr ⟨phi, hphi, rfl, rfl, rfl⟩)⟩
  · intro hpos i v opVers hnode
    obtain ⟨phi, hphi, -, -, rfl⟩ := mem_addrTaken_phi.mp hnode
    exact (hpos phi hphi).2

/-- **The round trip holds when** the number of address-taken nodes is even and every phi is
    written by its positions. -/
theorem survivesFile_iff (hg : p.buildSVFG = some g) : p.SurvivesFile g ↔
      Even p.addrTaken.length ∧ ∀ phi ∈ p.phis, p.InPosition phi.2.2 := by
  obtain ⟨g₀, g₁, uses, h⟩ := buildSVFG_stages hg
  by_cases hops : ∀ node ∈ p.addrTaken, HasOperands node
  · obtain ⟨text, g', hw, hstops, hedges, hcounter, hnodes⟩ := reads_back h hops
    rw [← hcounter, ← hnodes]
    constructor
    · rintro ⟨text', g'', hw', hstops', hround⟩
      cases hw.symm.trans hw'
      obtain rfl := hstops.unique hstops'
      exact ⟨hround.counter, hround.nodes⟩
    · exact fun hiff => ⟨text, g', hw, hstops, hiff.2, hedges, hiff.1⟩
  · constructor
    · rintro ⟨text, g', hw, ⟨n, hn⟩, -⟩
      have hno : ∃ node ∈ p.addrTaken, ¬ HasOperands node := by
        simpa only [not_forall, exists_prop] using hops
      have hread : p.readFile (n + 1) text = some g' := hn (n + 1) (lt_succ_self n)
      rw [readFile_none h hw hno] at hread
      cases hread.symm
    · rintro ⟨-, hpos⟩
      exact absurd (hasOperands_iff.mpr fun phi hphi => (hpos phi hphi).1) hops

end SVFIR

-- ── A small program

/-- One function of one block, and one call site. -/
def unitICFG : ICFG Unit Unit Unit where
  getICFGNode n :=
    if n = 0 then some (.FunEntryICFGNode ())
    else if n = 1 then some (.FunExitICFGNode ())
    else if n = 2 then some (.CallICFGNode ())
    else some .IntraICFGNode
  getFunEntryICFGNode _ := 0
  getFunExitICFGNode _ := 1
  getCallICFGNode _ := 2
  front _ := 3
  getBB _ := ()
  entry_node _ := rfl
  exit_node _ := rfl
  call_node _ := rfl
  front_node _ := rfl
  front_bb _ := rfl

def loadOf (phis : List (Unit × MRVer × OPVers)) : SVFIR Unit Unit Unit where
  icfg := unitICFG
  topLevel := [(0, .LoadSVFGNode [⟨0, {5, 6}, 1, .EntryMSSACHI⟩])]
  totalVFGNode := 1
  phis := phis
  entryChis := [((), ⟨0, {5, 6}, 1, .EntryMSSACHI⟩)]
  retMus := []
  callMus := []
  callChis := []
  totalVERNum := 2
  hasMU _ := false
  hasCHI _ := false
  dirCallSitesInvokingCallee _ := []
  getCallSiteID _ _ := 0
  progEntry := ()
  globalVFGNodes := []
  getPts _ := ∅
  copyOrder opVers := opVers
  topLevel_lt := by simp
  topLevel_sorted := List.pairwise_singleton _ _
  topLevel_kind := by simp [SVFGNode.isTopLevel]
  stores_lt := by simp
  copyOrder_perm opVers := .refl opVers

def loadPhi : SVFIR Unit Unit Unit :=
  loadOf [((), ⟨1, {5, 6}, 2, .SSAPHI⟩, [(0, ⟨0, {5, 6}, 1, .EntryMSSACHI⟩)])]

theorem survivesFile_iff_loadPhi : ∃ g, loadPhi.buildSVFG = some g ∧ loadPhi.SurvivesFile g := by
  have hsome : loadPhi.buildSVFG.isSome := by decide
  obtain ⟨g, hg⟩ := isSome_iff_exists.mp hsome
  refine ⟨g, hg, (SVFIR.survivesFile_iff hg).mpr ⟨by decide, fun phi hphi => ?_⟩⟩
  rw [mem_singleton.mp hphi]
  refine ⟨List.cons_ne_nil _ _, fun pos => ?_⟩
  cases pos with
  | zero => exact .some ⟨rfl, rfl, rfl⟩
  | succ pos => exact .none

/-- With one address-taken node the counter that is read stops at its id. -/
theorem load_not_survivesFile :
    ∃ g, (loadOf []).buildSVFG = some g ∧ ¬ (loadOf []).SurvivesFile g := by
  have hsome : (loadOf []).buildSVFG.isSome := by decide
  obtain ⟨g, hg⟩ := isSome_iff_exists.mp hsome
  refine ⟨g, hg, ?_⟩
  rintro ⟨text', g'', hw', hstops', hround⟩
  obtain ⟨g₀, g₁, uses, h⟩ := SVFIR.buildSVFG_stages hg
  have hops : ∀ node ∈ (loadOf []).addrTaken, SVFIR.HasOperands node :=
    SVFIR.hasOperands_iff.mpr fun phi hphi => absurd hphi not_mem_nil
  obtain ⟨text, g', hw, hstops, -, hcounter, -⟩ := SVFIR.reads_back h hops
  obtain rfl := mem_unique hw hw'
  obtain rfl := hstops.unique hstops'
  exact absurd (hcounter.mp hround.counter) (by decide)

end SvfSVFG
