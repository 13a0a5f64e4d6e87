import Mathlib

/-!
# `CFLGraphBuilder`: bidirected graphs

Every edge of the constraint graph, or of the value-flow graph, becomes an edge of the CFL graph
and one in the other direction, labelled with the symbol whose name ends in `bar`. An attribute is
packed above the eight bits of the kind. The name is looked up under a key, and what is not in the
tables is the empty name, and kind 0.

`edgesOf` and `attrsOf` are what one edge adds, and a graph is built of that for each of its edges
(`AliasCFLGraphBuilder.mem_buildBigraph`, `VFCFLGraphBuilder.mem_buildBigraph`). An edge is paired
exactly if the key that is looked up has the name of the label and the attribute is in the range of
its bits: **`buildBigraph_paired_iff`**. For value-flow edges the key is the kind of the source edge
or the label with the attribute in it, and so it hardly ever has.
-/

namespace SvfCFLGraphBuilder

open List Nat

abbrev Kind := UInt32

abbrev Attribute := UInt32

/-- The tables of `GrammarBase`. Every name gets a kind of its own. -/
structure GrammarBase where
  terminals : List (String × Kind)
  nonterminals : List (String × Kind)
  names : ((terminals ++ nonterminals).map Prod.fst).Nodup
  kinds : ((terminals ++ nonterminals).map Prod.snd).Nodup

/-- The lower eight bits are the kind. -/
def getAttributedKind (attri : Attribute) (kind : Kind) : Kind := attri <<< 8 ||| kind

structure CFLEdge (N : Type) where
  src : N
  dst : N
  label : Kind
deriving DecidableEq

-- ── The builder

structure CFLGraphBuilder (N : Type) where
  labelToKindMap : List (String × Kind)
  kindToLabelMap : List (Kind × String)
  kindToAttrsMap : List (Kind × Attribute)
  nodes : List N
  cflEdgeSet : List (CFLEdge N)

namespace CFLGraphBuilder

variable {N : Type} [DecidableEq N] (b : CFLGraphBuilder N)

def kindOf (label : String) : Kind := (b.labelToKindMap.lookup label).getD 0

def labelOf (kind : Kind) : String := (b.kindToLabelMap.lookup kind).getD ""

omit [DecidableEq N] in
def addAttribute (kind : Kind) (attri : Attribute) : CFLGraphBuilder N :=
  if (kind, attri) ∈ b.kindToAttrsMap then b
  else { b with kindToAttrsMap := b.kindToAttrsMap ++ [(kind, attri)] }

def addCFLEdge (src dst : N) (label : Kind) : CFLGraphBuilder N :=
  if ⟨src, dst, label⟩ ∈ b.cflEdgeSet then b
  else { b with cflEdgeSet := b.cflEdgeSet ++ [⟨src, dst, label⟩] }

/-- The body of the two loops. -/
def insertSymbol (pairV : String × Kind) : CFLGraphBuilder N :=
  { b with
    labelToKindMap := if (b.labelToKindMap.lookup pairV.1).isNone then
      b.labelToKindMap ++ [pairV] else b.labelToKindMap
    kindToLabelMap := if (b.kindToLabelMap.lookup pairV.2).isNone then
      b.kindToLabelMap ++ [(pairV.2, pairV.1)] else b.kindToLabelMap }

def buildlabelToKindMap (grammar : GrammarBase) : CFLGraphBuilder N :=
  grammar.nonterminals.foldl insertSymbol (grammar.terminals.foldl insertSymbol b)

def start (grammar : GrammarBase) (nodes : List N) : CFLGraphBuilder N :=
  buildlabelToKindMap ⟨[], [], [], nodes, []⟩ grammar

end CFLGraphBuilder

/-- A graph as the loops go through it. -/
structure Graph (N E : Type) where
  nodes : List N
  getOutEdges : N → List E

def Graph.edges {N E : Type} (graph : Graph N E) : List E := graph.nodes.flatMap graph.getOutEdges

-- ── Constraint graphs

inductive ConstraintEdgeK where
  | Addr
  | Copy
  | Store
  | Load
  | NormalGep
  | VariantGep
deriving DecidableEq

def ConstraintEdgeK.toKind : ConstraintEdgeK → Kind
  | Addr => 0
  | Copy => 1
  | Store => 2
  | Load => 3
  | NormalGep => 4
  | VariantGep => 5

/-- The index is that of a `NormalGepCGEdge`. -/
structure ConstraintEdge (N : Type) where
  src : N
  dst : N
  edgeKind : ConstraintEdgeK
  constantFieldIdx : Int64

namespace AliasCFLGraphBuilder

variable {N : Type} [DecidableEq N]

/-- The body of the loop. -/
def addEdge (b : CFLGraphBuilder N) (edge : ConstraintEdge N) : CFLGraphBuilder N :=
  let edgeLabel := edge.edgeKind.toKind
  if edge.edgeKind = .NormalGep then
    let attr := edge.constantFieldIdx.toUInt64.toUInt32
    let b := b.addAttribute edgeLabel attr
    let b := b.addCFLEdge edge.src edge.dst (getAttributedKind attr edgeLabel)
    let label := b.labelOf edge.edgeKind.toKind ++ "bar"
    let b := b.addCFLEdge edge.dst edge.src (getAttributedKind attr (b.kindOf label))
    b.addAttribute (b.kindOf label) attr
  else
    let b := b.addCFLEdge edge.src edge.dst edgeLabel
    let label := b.labelOf edge.edgeKind.toKind ++ "bar"
    b.addCFLEdge edge.dst edge.src (b.kindOf label)

def buildBigraph (graph : Graph N (ConstraintEdge N)) (grammar : GrammarBase) : CFLGraphBuilder N :=
  graph.nodes.foldl (fun b node => (graph.getOutEdges node).foldl addEdge b)
    (CFLGraphBuilder.start grammar graph.nodes)

end AliasCFLGraphBuilder

-- ── Value-flow graphs

inductive VFGEdgeK where
  | IntraDirectVF
  | IntraIndirectVF
  | CallDirVF
  | RetDirVF
  | CallIndVF
  | RetIndVF
  | TheadMHPIndirectVF
deriving DecidableEq

def VFGEdgeK.toKind : VFGEdgeK → Kind
  | IntraDirectVF => 0
  | IntraIndirectVF => 1
  | CallDirVF => 2
  | RetDirVF => 3
  | CallIndVF => 4
  | RetIndVF => 5
  | TheadMHPIndirectVF => 6

structure VFGEdge (N : Type) where
  src : N
  dst : N
  edgeKind : VFGEdgeK
  callSiteId : UInt32

namespace VFCFLGraphBuilder

variable {N : Type} [DecidableEq N]

section

variable (b : CFLGraphBuilder N)

/-- The branch for `a` edges. -/
def addIntraEdge (edge : VFGEdge N) : CFLGraphBuilder N :=
  let edgeLabel : Kind := 0
  let b := b.addCFLEdge edge.src edge.dst edgeLabel
  let b := b.addCFLEdge edge.src edge.dst edgeLabel
  let label := b.labelOf edge.edgeKind.toKind ++ "bar"
  b.addCFLEdge edge.dst edge.src (b.kindOf label)

/-- A branch for `call` or `ret` edges. -/
def addSiteEdge (edge : VFGEdge N) (edgeLabel : Kind) : CFLGraphBuilder N :=
  let attr := edge.callSiteId
  let b := b.addAttribute edgeLabel attr
  let edgeLabel := getAttributedKind attr edgeLabel
  let b := b.addCFLEdge edge.src edge.dst edgeLabel
  let label := b.labelOf edgeLabel ++ "bar"
  let b := b.addCFLEdge edge.dst edge.src (getAttributedKind attr (b.kindOf label))
  b.addAttribute (b.kindOf label) attr

/-- The body of the loop. -/
def addEdge (edge : VFGEdge N) : CFLGraphBuilder N :=
  match edge.edgeKind with
  | .IntraDirectVF => addIntraEdge b edge
  | .IntraIndirectVF => addIntraEdge b edge
  | .TheadMHPIndirectVF => addIntraEdge b edge
  | .CallDirVF => addSiteEdge b edge 1
  | .CallIndVF => addSiteEdge b edge 1
  | .RetDirVF => addSiteEdge b edge 2
  | .RetIndVF => addSiteEdge b edge 2

end

def buildBigraph (graph : Graph N (VFGEdge N)) (grammar : GrammarBase) : CFLGraphBuilder N :=
  graph.nodes.foldl (fun b node => (graph.getOutEdges node).foldl addEdge b)
    (CFLGraphBuilder.start grammar graph.nodes)

end VFCFLGraphBuilder

-- ── What one edge adds

def GrammarBase.symbols (g : GrammarBase) : List (String × Kind) := g.terminals ++ g.nonterminals

def GrammarBase.kindOf (g : GrammarBase) (label : String) : Kind :=
  (g.symbols.lookup label).getD 0

def GrammarBase.labelOf (g : GrammarBase) (kind : Kind) : String :=
  ((g.symbols.map Prod.swap).lookup kind).getD ""

/-- What the branches of the builders have in common: the label, the key under which its name is
    looked up, and the attribute if there is one. -/
structure Request (N : Type) where
  src : N
  dst : N
  label : Kind
  key : Kind
  attri : Option Attribute

namespace Request

variable {N : Type} (r : Request N) (g : GrammarBase)

def bar : Kind := g.kindOf (g.labelOf r.key ++ "bar")

def pack (kind : Kind) : Kind := r.attri.elim kind fun attri => getAttributedKind attri kind

def edges : List (CFLEdge N) :=
  [⟨r.src, r.dst, r.pack r.label⟩, ⟨r.dst, r.src, r.pack (r.bar g)⟩]

def attrs : List (Kind × Attribute) :=
  r.attri.elim [] fun attri => [(r.label, attri), (r.bar g, attri)]

end Request

def AliasCFLGraphBuilder.request {N : Type} (edge : ConstraintEdge N) : Request N :=
  ⟨edge.src, edge.dst, edge.edgeKind.toKind, edge.edgeKind.toKind,
    if edge.edgeKind = .NormalGep then some edge.constantFieldIdx.toUInt64.toUInt32 else none⟩

def VFGEdgeK.label : VFGEdgeK → Kind
  | IntraDirectVF | IntraIndirectVF | TheadMHPIndirectVF => 0
  | CallDirVF | CallIndVF => 1
  | RetDirVF | RetIndVF => 2

def VFGEdgeK.HasSite (kind : VFGEdgeK) : Prop := kind.label ≠ 0

instance (kind : VFGEdgeK) : Decidable kind.HasSite := inferInstanceAs (Decidable (_ ≠ _))

/-- What is looked up for a value-flow edge: its own kind, or the label with the attribute. -/
def VFGEdge.key {N : Type} (edge : VFGEdge N) : Kind :=
  if edge.edgeKind.HasSite then getAttributedKind edge.callSiteId edge.edgeKind.label
  else edge.edgeKind.toKind

def VFCFLGraphBuilder.request {N : Type} (edge : VFGEdge N) : Request N :=
  ⟨edge.src, edge.dst, edge.edgeKind.label, edge.key,
    if edge.edgeKind.HasSite then some edge.callSiteId else none⟩

-- ── What it should add

/-- `getEdgeKindWithMask` is the kind and `getEdgeAttri` the attribute. -/
def Labelled (label kind : Kind) (i : ℤ) : Prop :=
  label.toNat % 2 ^ 8 = kind.toNat ∧ ((label.toNat / 2 ^ 8 : ℕ) : ℤ) = i

/-- An edge labelled `L`, one in the other direction labelled with the symbol that is called like
    `L` with `bar` behind it, and the attribute recorded for both; nothing else. -/
def Paired {N : Type} (g : GrammarBase) (u v : N) (L : Kind) (i : Option ℤ)
    (edges : List (CFLEdge N)) (attrs : List (Kind × Attribute)) : Prop :=
  ∃ name bar f r, (name, L) ∈ g.symbols ∧ (name ++ "bar", bar) ∈ g.symbols ∧
    Labelled f L (i.getD 0) ∧ Labelled r bar (i.getD 0) ∧
    (∀ e, e ∈ edges ↔ e = ⟨u, v, f⟩ ∨ e = ⟨v, u, r⟩) ∧
    ∀ kind attri, (kind, attri) ∈ attrs ↔
      (kind = L ∨ kind = bar) ∧ ∃ j ∈ i, ((attri.toNat : ℕ) : ℤ) = j

/-- The symbol for the other direction is found under the key: it is the label, or its name is as
    good as that of the label. -/
def FindsBar (g : GrammarBase) (L key : Kind) : Prop :=
  ∃ name bar, (name, L) ∈ g.symbols ∧ (name ++ "bar", bar) ∈ g.symbols ∧ bar.toNat < 2 ^ 8 ∧
    (key = L ∨ (name = "" ∧ ∀ n, (n, key) ∉ g.symbols) ∨
      bar = 0 ∧ ∀ kind, (g.labelOf key ++ "bar", kind) ∉ g.symbols)

-- ── The tables

theorem lookup_iff {A B : Type} [BEq A] [LawfulBEq A] {l : List (A × B)}
    (h : (l.map Prod.fst).Nodup) {a : A} {b : B} : l.lookup a = some b ↔ (a, b) ∈ l := by
  induction l with
  | nil => exact iff_of_false nofun not_mem_nil
  | cons p l ih =>
    obtain ⟨a', b'⟩ := p
    obtain ⟨hnew, h⟩ := nodup_cons.mp h
    rw [lookup_cons, mem_cons, Prod.mk_inj]
    by_cases ha : a = a'
    · subst ha
      have hno : (a, b) ∉ l := fun hmem => hnew (mem_map.mpr ⟨(a, b), hmem, rfl⟩)
      rw [beq_self_eq_true, Option.some_inj]
      exact ⟨fun heq => .inl ⟨rfl, heq.symm⟩, fun h => (h.resolve_right hno).2.symm⟩
    · rw [beq_eq_false_iff_ne.mpr ha]
      exact (ih h).trans ⟨.inr, fun h => h.resolve_left fun heq => ha heq.1⟩

namespace GrammarBase

variable {g : GrammarBase} {name name' : String} {kind kind' : Kind}

theorem names_nodup (g : GrammarBase) : (g.symbols.map Prod.fst).Nodup := g.names

theorem swap_nodup (g : GrammarBase) : ((g.symbols.map Prod.swap).map Prod.fst).Nodup := by
  rw [map_map]
  exact g.kinds

theorem mem_swap : (kind, name) ∈ g.symbols.map Prod.swap ↔ (name, kind) ∈ g.symbols := by
  rw [mem_map]
  constructor
  · rintro ⟨p, hp, heq⟩
    obtain ⟨rfl, rfl⟩ := Prod.mk_inj.mp heq
    exact hp
  · exact fun h => ⟨_, h, rfl⟩

theorem kindOf_eq (h : (name, kind) ∈ g.symbols) : g.kindOf name = kind := by
  rw [kindOf, (lookup_iff g.names_nodup).mpr h]
  rfl

theorem kindOf_eq_zero (h : ∀ kind, (name, kind) ∉ g.symbols) : g.kindOf name = 0 := by
  rw [kindOf, Option.eq_none_iff_forall_ne_some.mpr fun kind heq =>
    h kind ((lookup_iff g.names_nodup).mp heq)]
  rfl

theorem labelOf_eq (h : (name, kind) ∈ g.symbols) : g.labelOf kind = name := by
  rw [labelOf, (lookup_iff g.swap_nodup).mpr (mem_swap.mpr h)]
  rfl

theorem labelOf_eq_empty (h : ∀ name, (name, kind) ∉ g.symbols) : g.labelOf kind = "" := by
  rw [labelOf, Option.eq_none_iff_forall_ne_some.mpr fun name heq =>
    h name (mem_swap.mp ((lookup_iff g.swap_nodup).mp heq))]
  rfl

theorem kind_unique (h : (name, kind) ∈ g.symbols) (h' : (name, kind') ∈ g.symbols) :
    kind = kind' := (kindOf_eq h).symm.trans (kindOf_eq h')

theorem name_unique (h : (name, kind) ∈ g.symbols) (h' : (name', kind) ∈ g.symbols) :
    name = name' := (labelOf_eq h).symm.trans (labelOf_eq h')

theorem ne_bar (name : String) : name ≠ name ++ "bar" := by
  intro heq
  have hlen := congrArg String.length heq
  have hbar : "bar".length = 3 := rfl
  rw [String.length_append, hbar] at hlen
  omega

theorem kind_ne_bar (h : (name, kind) ∈ g.symbols) (h' : (name ++ "bar", kind') ∈ g.symbols) :
    kind ≠ kind' := by
  rintro rfl
  exact ne_bar name (name_unique h h')

theorem labelOf_eq_iff (h : (name, kind) ∈ g.symbols) (key : Kind) :
    g.labelOf key = name ↔ key = kind ∨ (name = "" ∧ ∀ n, (n, key) ∉ g.symbols) := by
  by_cases hkey : ∃ n, (n, key) ∈ g.symbols
  · obtain ⟨n, hn⟩ := hkey
    rw [labelOf_eq hn]
    constructor
    · rintro rfl
      exact .inl (kind_unique hn h)
    · rintro (rfl | ⟨-, hno⟩)
      · exact name_unique hn h
      · exact absurd hn (hno n)
  · have hno := not_exists.mp hkey
    rw [labelOf_eq_empty hno]
    constructor
    · exact fun heq => .inr ⟨heq.symm, hno⟩
    · rintro (rfl | ⟨heq, -⟩)
      · exact absurd h (hno name)
      · exact heq.symm

end GrammarBase

-- ── Labels

theorem toNat_getAttributedKind (attri : Attribute) (kind : Kind) :
    (getAttributedKind attri kind).toNat % 2 ^ 8 = kind.toNat % 2 ^ 8 ∧
      (getAttributedKind attri kind).toNat / 2 ^ 8 =
        attri.toNat % 2 ^ 24 ||| kind.toNat / 2 ^ 8 := by
  have hshift : attri.toNat <<< (8 % 32) % 2 ^ 32 = attri.toNat % 2 ^ 24 * 2 ^ 8 := by
    rw [shiftLeft_eq]
    show attri.toNat * 2 ^ 8 % 2 ^ 32 = attri.toNat % 2 ^ 24 * 2 ^ 8
    omega
  rw [getAttributedKind, UInt32.toNat_or, UInt32.toNat_shiftLeft, or_mod_two_pow, or_div_two_pow]
  have height : UInt32.toNat 8 = 8 := rfl
  rw [height, hshift, Nat.mul_mod_left, Nat.zero_or, Nat.mul_div_cancel _ (by decide)]
  exact ⟨rfl, rfl⟩

theorem labelled_attri {attri : Attribute} {kind : Kind} (hkind : kind.toNat < 2 ^ 8) (i : ℤ) :
    Labelled (getAttributedKind attri kind) kind i ↔ ((attri.toNat % 2 ^ 24 : ℕ) : ℤ) = i := by
  obtain ⟨hmod, hdiv⟩ := toNat_getAttributedKind attri kind
  rw [Labelled, hmod, hdiv, div_eq_of_lt hkind, or_zero]
  exact and_iff_right (mod_eq_of_lt hkind)

theorem labelled_plain {kind : Kind} (hkind : kind.toNat < 2 ^ 8) : Labelled kind kind 0 :=
  ⟨mod_eq_of_lt hkind, by rw [div_eq_of_lt hkind]; rfl⟩

namespace Request

variable {N : Type} {g : GrammarBase} {r : Request N}

theorem bar_eq_iff {name : String} {bar : Kind} (hname : (name, r.label) ∈ g.symbols)
    (hbar : (name ++ "bar", bar) ∈ g.symbols) :
    r.bar g = bar ↔ (r.key = r.label ∨ (name = "" ∧ ∀ n, (n, r.key) ∉ g.symbols)) ∨
      bar = 0 ∧ ∀ kind, (g.labelOf r.key ++ "bar", kind) ∉ g.symbols := by
  rw [← GrammarBase.labelOf_eq_iff hname, Request.bar]
  by_cases hkey : ∃ kind, (g.labelOf r.key ++ "bar", kind) ∈ g.symbols
  · obtain ⟨kind, hkind⟩ := hkey
    rw [GrammarBase.kindOf_eq hkind]
    constructor
    · rintro rfl
      refine .inl (String.append_left_inj "bar" |>.mp ?_)
      exact GrammarBase.name_unique hkind hbar
    · rintro (heq | ⟨-, hno⟩)
      · rw [heq] at hkind
        exact GrammarBase.kind_unique hkind hbar
      · exact absurd hkind (hno kind)
  · have hno := not_exists.mp hkey
    rw [GrammarBase.kindOf_eq_zero hno]
    constructor
    · exact fun heq => .inr ⟨heq.symm, hno⟩
    · rintro (heq | ⟨heq, -⟩)
      · rw [heq] at hno
        exact absurd hbar (hno bar)
      · exact heq.symm

theorem findsBar_iff : FindsBar g r.label r.key ↔
    ∃ name, (name, r.label) ∈ g.symbols ∧ (name ++ "bar", r.bar g) ∈ g.symbols ∧
      (r.bar g).toNat < 2 ^ 8 := by
  constructor
  · rintro ⟨name, bar, hname, hbar, hlt, hfinds⟩
    obtain rfl := (bar_eq_iff hname hbar).mpr (or_assoc.mpr hfinds)
    exact ⟨name, hname, hbar, hlt⟩
  · rintro ⟨name, hname, hbar, hlt⟩
    exact ⟨name, r.bar g, hname, hbar, hlt, or_assoc.mp ((bar_eq_iff hname hbar).mp rfl)⟩

theorem labels_of_edges {u v : N} {f1 f2 r1 r2 : Kind} (hne : f1 ≠ r2)
    (h : ∀ e : CFLEdge N, e ∈ [⟨u, v, f1⟩, ⟨v, u, r1⟩] ↔ e = ⟨u, v, f2⟩ ∨ e = ⟨v, u, r2⟩) :
    f1 = f2 ∧ r1 = r2 := by
  have hfirst := (h ⟨u, v, f1⟩).mp mem_cons_self
  have hlast := (h ⟨v, u, r2⟩).mpr (.inr rfl)
  constructor
  · rcases hfirst with heq | heq
    · exact (CFLEdge.mk.inj heq).2.2
    · exact absurd (CFLEdge.mk.inj heq).2.2 hne
  · rcases mem_cons.mp hlast with heq | heq
    · exact absurd (CFLEdge.mk.inj heq).2.2.symm hne
    · exact (CFLEdge.mk.inj (mem_singleton.mp heq)).2.2.symm

theorem label_ne {name : String} {L bar f b : Kind} {i : ℤ} (hL : L.toNat < 2 ^ 8)
    (hname : (name, L) ∈ g.symbols) (hbar : (name ++ "bar", bar) ∈ g.symbols)
    (hf : f.toNat % 2 ^ 8 = L.toNat % 2 ^ 8) (hb : Labelled b bar i) : f ≠ b := by
  rintro rfl
  refine GrammarBase.kind_ne_bar hname hbar (UInt32.toNat_inj.mp ?_)
  rw [← hb.1, hf, mod_eq_of_lt hL]

theorem paired_plain_iff (hattri : r.attri = none) (hL : r.label.toNat < 2 ^ 8) :
    Paired g r.src r.dst r.label none (r.edges g) (r.attrs g) ↔ FindsBar g r.label r.key := by
  have hpack (kind : Kind) : r.pack kind = kind := by rw [pack, hattri]; rfl
  have hattrs : r.attrs g = [] := by rw [attrs, hattri]; rfl
  rw [Paired, edges, hpack, hpack, hattrs, findsBar_iff]
  constructor
  · rintro ⟨name, bar, f, b, hname, hbar, hf, hb, hedges, -⟩
    have hne : r.label ≠ b := label_ne hL hname hbar rfl hb
    obtain ⟨-, rfl⟩ := labels_of_edges hne hedges
    have hlt : (r.bar g).toNat < 2 ^ 8 := by
      have hdiv : (r.bar g).toNat / 2 ^ 8 = 0 := Int.natCast_eq_zero.mp hb.2
      omega
    obtain rfl : r.bar g = bar := UInt32.toNat_inj.mp ((mod_eq_of_lt hlt).symm.trans hb.1)
    exact ⟨name, hname, hbar, hlt⟩
  · rintro ⟨name, hname, hbar, hlt⟩
    refine ⟨name, r.bar g, r.label, r.bar g, hname, hbar, labelled_plain hL, labelled_plain hlt,
      fun e => by rw [mem_cons, mem_singleton], fun kind attri => ?_⟩
    exact iff_of_false not_mem_nil fun ⟨_, j, hj, _⟩ => nomatch hj

/-- An edge with an attribute is paired exactly if the symbol is found and the attribute is in the
    range of its bits. -/
theorem paired_attri_iff {attri : Attribute} (hattri : r.attri = some attri)
    (hL : r.label.toNat < 2 ^ 8) (i : ℤ) :
    Paired g r.src r.dst r.label (some i) (r.edges g) (r.attrs g) ↔
      FindsBar g r.label r.key ∧ ((attri.toNat : ℕ) : ℤ) = i ∧ i < 2 ^ 24 := by
  have hpack (kind : Kind) : r.pack kind = getAttributedKind attri kind := by
    rw [pack, hattri]
    rfl
  have hattrs : r.attrs g = [(r.label, attri), (r.bar g, attri)] := by
    rw [attrs, hattri]
    rfl
  rw [Paired, edges, hpack, hpack, hattrs, findsBar_iff]
  constructor
  · rintro ⟨name, bar, f, b, hname, hbar, hf, hb, hedges, hrecord⟩
    have hne : getAttributedKind attri r.label ≠ b :=
      label_ne hL hname hbar (toNat_getAttributedKind attri r.label).1 hb
    obtain ⟨rfl, rfl⟩ := labels_of_edges hne hedges
    have hmod := (labelled_attri hL i).mp hf
    obtain ⟨-, j, hj, hattri'⟩ := (hrecord r.label attri).mp mem_cons_self
    cases hj
    have hrange : attri.toNat < 2 ^ 24 := by omega
    -- the attribute is recorded for the symbol that is found, and for no other
    have hfound : bar = r.bar g := by
      have hmem := (hrecord bar attri).mpr ⟨.inr rfl, i, rfl, hattri'⟩
      rcases mem_cons.mp hmem with heq | heq
      · exact absurd (Prod.mk.inj heq).1.symm (GrammarBase.kind_ne_bar hname hbar)
      · exact (Prod.mk.inj (mem_singleton.mp heq)).1
    subst hfound
    refine ⟨⟨name, hname, hbar, ?_⟩, hattri', by omega⟩
    rw [← hb.1]
    exact mod_lt _ (by decide)
  · rintro ⟨⟨name, hname, hbar, hlt⟩, hattri', hrange⟩
    have hmod : ((attri.toNat % 2 ^ 24 : ℕ) : ℤ) = i := by omega
    refine ⟨name, r.bar g, _, _, hname, hbar, (labelled_attri hL i).mpr hmod,
      (labelled_attri hlt i).mpr hmod, fun e => by rw [mem_cons, mem_singleton],
      fun kind a => ?_⟩
    rw [mem_cons, mem_singleton, Prod.mk_inj, Prod.mk_inj, ← or_and_right]
    refine and_congr_right fun _ => ?_
    constructor
    · rintro rfl
      exact ⟨i, rfl, hattri'⟩
    · rintro ⟨j, hj, ha⟩
      cases hj
      exact UInt32.toNat_inj.mp (by omega)

end Request

-- ── Building

structure Follows {N : Type} (g : GrammarBase) (b : CFLGraphBuilder N) : Prop where
  kindOf : ∀ label, b.kindOf label = g.kindOf label
  labelOf : ∀ kind, b.labelOf kind = g.labelOf kind

structure Adds {N : Type} (g : GrammarBase) (b b' : CFLGraphBuilder N)
    (requests : List (Request N)) : Prop where
  edges : ∀ e, e ∈ b'.cflEdgeSet ↔ e ∈ b.cflEdgeSet ∨ ∃ r ∈ requests, e ∈ r.edges g
  attrs : ∀ p, p ∈ b'.kindToAttrsMap ↔ p ∈ b.kindToAttrsMap ∨ ∃ r ∈ requests, p ∈ r.attrs g
  kinds : b'.labelToKindMap = b.labelToKindMap
  names : b'.kindToLabelMap = b.kindToLabelMap
  nodes : b'.nodes = b.nodes

section

variable {N : Type} {g : GrammarBase} {b b' b'' : CFLGraphBuilder N}

theorem Adds.follows {requests : List (Request N)} (h : Adds g b b' requests)
    (hb : Follows g b) : Follows g b' where
  kindOf label := by rw [CFLGraphBuilder.kindOf, h.kinds]; exact hb.kindOf label
  labelOf kind := by rw [CFLGraphBuilder.labelOf, h.names]; exact hb.labelOf kind

theorem Adds.refl (b : CFLGraphBuilder N) : Adds g b b [] where
  edges _ := ⟨.inl, fun h => h.resolve_right fun ⟨_, hr, _⟩ => absurd hr not_mem_nil⟩
  attrs _ := ⟨.inl, fun h => h.resolve_right fun ⟨_, hr, _⟩ => absurd hr not_mem_nil⟩
  kinds := rfl
  names := rfl
  nodes := rfl

theorem exists_mem_append {A : Type} {p : A → Prop} {l l' : List A} :
    (∃ a ∈ l ++ l', p a) ↔ (∃ a ∈ l, p a) ∨ ∃ a ∈ l', p a := by
  simp only [mem_append, or_and_right, exists_or]

theorem Adds.trans {rs rs' : List (Request N)} (h : Adds g b b' rs) (h' : Adds g b' b'' rs') :
    Adds g b b'' (rs ++ rs') where
  edges e := by rw [h'.edges, h.edges, exists_mem_append, or_assoc]
  attrs p := by rw [h'.attrs, h.attrs, exists_mem_append, or_assoc]
  kinds := h'.kinds.trans h.kinds
  names := h'.names.trans h.names
  nodes := h'.nodes.trans h.nodes

theorem adds_foldl {E : Type} {f : CFLGraphBuilder N → E → CFLGraphBuilder N}
    {request : E → Request N} (hf : ∀ b e, Follows g b → Adds g b (f b e) [request e]) :
    ∀ (l : List E) (b : CFLGraphBuilder N), Follows g b →
      Adds g b (l.foldl f b) (l.map request) := by
  intro l
  induction l with
  | nil => exact fun b _ => Adds.refl b
  | cons e l ih =>
    intro b hb
    have hstep := hf b e hb
    exact hstep.trans (ih (f b e) (hstep.follows hb))

end

section

variable {N : Type} [DecidableEq N] {g : GrammarBase} {b : CFLGraphBuilder N}

theorem mem_addCFLEdge {src dst : N} {label : Kind} {e : CFLEdge N} :
    e ∈ (b.addCFLEdge src dst label).cflEdgeSet ↔ e ∈ b.cflEdgeSet ∨ e = ⟨src, dst, label⟩ := by
  rw [CFLGraphBuilder.addCFLEdge]
  split_ifs with hmem
  · exact ⟨.inl, fun h => h.elim id fun heq => heq ▸ hmem⟩
  · rw [mem_append, mem_singleton]

omit [DecidableEq N] in
theorem mem_addAttribute {kind : Kind} {attri : Attribute} {p : Kind × Attribute} :
    p ∈ (b.addAttribute kind attri).kindToAttrsMap ↔ p ∈ b.kindToAttrsMap ∨ p = (kind, attri) := by
  rw [CFLGraphBuilder.addAttribute]
  split_ifs with hmem
  · exact ⟨.inl, fun h => h.elim id fun heq => heq ▸ hmem⟩
  · rw [mem_append, mem_singleton]

theorem addCFLEdge_eq (b : CFLGraphBuilder N) (src dst : N) (label : Kind) :
    b.addCFLEdge src dst label =
      { b with cflEdgeSet := (b.addCFLEdge src dst label).cflEdgeSet } := by
  rw [CFLGraphBuilder.addCFLEdge]
  split_ifs <;> rfl

omit [DecidableEq N] in
theorem addAttribute_eq (b : CFLGraphBuilder N) (kind : Kind) (attri : Attribute) :
    b.addAttribute kind attri =
      { b with kindToAttrsMap := (b.addAttribute kind attri).kindToAttrsMap } := by
  rw [CFLGraphBuilder.addAttribute]
  split_ifs <;> rfl

/-- One attribute and two edges, both ways, the second under the symbol that is found: what is done
    for an edge with an attribute. -/
theorem adds_attri (src dst : N) (label key : Kind) (attri : Attribute) : Adds g b
      (((((b.addAttribute label attri).addCFLEdge src dst (getAttributedKind attri label)).addCFLEdge
        dst src (getAttributedKind attri (g.kindOf (g.labelOf key ++ "bar")))).addAttribute
          (g.kindOf (g.labelOf key ++ "bar")) attri)) [⟨src, dst, label, key, some attri⟩] := by
  constructor
  case edges =>
    intro e
    rw [addAttribute_eq]
    rw [mem_addCFLEdge, mem_addCFLEdge, addAttribute_eq, or_assoc]
    simp [Request.edges, Request.pack, Request.bar]
  case attrs =>
    intro p
    rw [mem_addAttribute, addCFLEdge_eq, addCFLEdge_eq]
    rw [mem_addAttribute, or_assoc]
    simp [Request.attrs, Request.bar]
  case kinds => rw [addAttribute_eq, addCFLEdge_eq, addCFLEdge_eq, addAttribute_eq]
  case names => rw [addAttribute_eq, addCFLEdge_eq, addCFLEdge_eq, addAttribute_eq]
  case nodes => rw [addAttribute_eq, addCFLEdge_eq, addCFLEdge_eq, addAttribute_eq]

theorem adds_plain (src dst : N) (label key : Kind) :
    Adds g b ((b.addCFLEdge src dst label).addCFLEdge dst src
      (g.kindOf (g.labelOf key ++ "bar"))) [⟨src, dst, label, key, none⟩] := by
  constructor
  case edges =>
    intro e
    rw [mem_addCFLEdge, mem_addCFLEdge, or_assoc]
    simp [Request.edges, Request.pack, Request.bar]
  case attrs =>
    intro p
    rw [addCFLEdge_eq, addCFLEdge_eq]
    simp [Request.attrs]
  case kinds => rw [addCFLEdge_eq, addCFLEdge_eq]
  case names => rw [addCFLEdge_eq, addCFLEdge_eq]
  case nodes => rw [addCFLEdge_eq, addCFLEdge_eq]

theorem Follows.addCFLEdge (hb : Follows g b) (src dst : N) (label : Kind) :
    Follows g (b.addCFLEdge src dst label) := by
  rw [addCFLEdge_eq]
  exact ⟨hb.kindOf, hb.labelOf⟩

omit [DecidableEq N] in
theorem Follows.addAttribute (hb : Follows g b) (kind : Kind) (attri : Attribute) :
    Follows g (b.addAttribute kind attri) := by
  rw [addAttribute_eq]
  exact ⟨hb.kindOf, hb.labelOf⟩

theorem addCFLEdge_twice (src dst : N) (label : Kind) :
    (b.addCFLEdge src dst label).addCFLEdge src dst label = b.addCFLEdge src dst label := by
  have hmem : (⟨src, dst, label⟩ : CFLEdge N) ∈ (b.addCFLEdge src dst label).cflEdgeSet :=
    mem_addCFLEdge.mpr (.inr rfl)
  rw [CFLGraphBuilder.addCFLEdge, if_pos hmem]

/-- **Step lemma** of the alias graph. -/
theorem AliasCFLGraphBuilder.adds_addEdge (hb : Follows g b) (edge : ConstraintEdge N) :
    Adds g b (addEdge b edge) [request edge] := by
  rw [addEdge, request]
  by_cases hgep : edge.edgeKind = .NormalGep
  · have hedge := (hb.addAttribute edge.edgeKind.toKind
      edge.constantFieldIdx.toUInt64.toUInt32).addCFLEdge edge.src edge.dst
        (getAttributedKind edge.constantFieldIdx.toUInt64.toUInt32 edge.edgeKind.toKind)
    rw [if_pos hgep, if_pos hgep]
    dsimp only
    rw [(hedge.addCFLEdge _ _ _).kindOf, hedge.labelOf, hedge.kindOf]
    exact adds_attri edge.src edge.dst edge.edgeKind.toKind edge.edgeKind.toKind _
  · have hedge := hb.addCFLEdge edge.src edge.dst edge.edgeKind.toKind
    rw [if_neg hgep, if_neg hgep]
    dsimp only
    rw [hedge.labelOf, hedge.kindOf]
    exact adds_plain edge.src edge.dst edge.edgeKind.toKind edge.edgeKind.toKind

namespace VFCFLGraphBuilder

section

variable (hb : Follows g b) (edge : VFGEdge N)
include hb

theorem adds_addIntraEdge : Adds g b (addIntraEdge b edge)
      [⟨edge.src, edge.dst, 0, edge.edgeKind.toKind, none⟩] := by
  have hedge := hb.addCFLEdge edge.src edge.dst 0
  rw [addIntraEdge, addCFLEdge_twice, hedge.labelOf, hedge.kindOf]
  exact adds_plain edge.src edge.dst 0 edge.edgeKind.toKind

theorem adds_addSiteEdge (label : Kind) :
    Adds g b (addSiteEdge b edge label)
      [⟨edge.src, edge.dst, label, getAttributedKind edge.callSiteId label,
        some edge.callSiteId⟩] := by
  have hedge := (hb.addAttribute label edge.callSiteId).addCFLEdge edge.src edge.dst
    (getAttributedKind edge.callSiteId label)
  rw [addSiteEdge, (hedge.addCFLEdge _ _ _).kindOf, hedge.labelOf, hedge.kindOf]
  exact adds_attri edge.src edge.dst label (getAttributedKind edge.callSiteId label) _

/-- **Step lemma** of the value-flow graph. -/
theorem adds_addEdge :
    Adds g b (addEdge b edge) [request edge] := by
  obtain ⟨src, dst, kind, site⟩ := edge
  cases kind with
  | IntraDirectVF => exact adds_addIntraEdge hb _
  | IntraIndirectVF => exact adds_addIntraEdge hb _
  | TheadMHPIndirectVF => exact adds_addIntraEdge hb _
  | CallDirVF => exact adds_addSiteEdge hb _ 1
  | CallIndVF => exact adds_addSiteEdge hb _ 1
  | RetDirVF => exact adds_addSiteEdge hb _ 2
  | RetIndVF => exact adds_addSiteEdge hb _ 2

end

end VFCFLGraphBuilder

section

omit [DecidableEq N]

theorem lookup_concat_of_isNone {A B : Type} [BEq A] [LawfulBEq A] (l : List (A × B)) (a' : A)
    (b' : B) (a : A) :
    (if (l.lookup a').isNone then l ++ [(a', b')] else l).lookup a =
      (l ++ [(a', b')]).lookup a := by
  split_ifs with hnone
  · rfl
  · rw [lookup_append]
    by_cases ha : a = a'
    · subst ha
      cases hl : l.lookup a with
      | none => exact absurd (by rw [hl]; rfl) hnone
      | some b => rfl
    · rw [lookup_cons, beq_eq_false_iff_ne.mpr ha]
      exact Option.or_none.symm

theorem lookup_insertSymbols : ∀ (l : List (String × Kind)) (b : CFLGraphBuilder N),
    (∀ label, (l.foldl CFLGraphBuilder.insertSymbol b).labelToKindMap.lookup label =
      (b.labelToKindMap ++ l).lookup label) ∧
    (∀ kind, (l.foldl CFLGraphBuilder.insertSymbol b).kindToLabelMap.lookup kind =
      (b.kindToLabelMap ++ l.map Prod.swap).lookup kind) ∧
    (l.foldl CFLGraphBuilder.insertSymbol b).cflEdgeSet = b.cflEdgeSet ∧
    (l.foldl CFLGraphBuilder.insertSymbol b).kindToAttrsMap = b.kindToAttrsMap ∧
    (l.foldl CFLGraphBuilder.insertSymbol b).nodes = b.nodes := by
  intro l
  induction l with
  | nil => exact fun b => ⟨fun _ => by rw [append_nil]; rfl,
      fun _ => by rw [map_nil, append_nil]; rfl, rfl, rfl, rfl⟩
  | cons p l ih =>
    intro b
    obtain ⟨hkinds, hnames, hedges, hattrs, hnodes⟩ := ih (b.insertSymbol p)
    refine ⟨fun label => ?_, fun kind => ?_, hedges, hattrs, hnodes⟩
    · have hp := lookup_concat_of_isNone b.labelToKindMap p.1 p.2 label
      rw [foldl_cons, hkinds, append_cons, lookup_append, lookup_append, ← hp]
      rfl
    · have hp := lookup_concat_of_isNone b.kindToLabelMap p.2 p.1 kind
      rw [foldl_cons, hnames, map_cons, append_cons, lookup_append, lookup_append]
      exact congrArg (Option.or · _) hp

theorem start_spec (g : GrammarBase) (nodes : List N) :
    Follows g (CFLGraphBuilder.start g nodes) ∧ (CFLGraphBuilder.start g nodes).cflEdgeSet = [] ∧
      (CFLGraphBuilder.start g nodes).kindToAttrsMap = [] ∧
      (CFLGraphBuilder.start g nodes).nodes = nodes := by
  rw [CFLGraphBuilder.start, CFLGraphBuilder.buildlabelToKindMap, ← foldl_append]
  obtain ⟨hkinds, hnames, hedges, hattrs, hnodes⟩ :=
    lookup_insertSymbols (g.terminals ++ g.nonterminals) (⟨[], [], [], nodes, []⟩ : CFLGraphBuilder N)
  refine ⟨⟨fun label => ?_, fun kind => ?_⟩, hedges, hattrs, hnodes⟩
  · rw [CFLGraphBuilder.kindOf, hkinds]
    rfl
  · rw [CFLGraphBuilder.labelOf, hnames]
    rfl

/-- **Run lemma**: two nested loops whose bodies add what is requested. -/
theorem mem_of_loops {E : Type} {f : CFLGraphBuilder N → E → CFLGraphBuilder N}
    {request : E → Request N} (hf : ∀ b e, Follows g b → Adds g b (f b e) [request e])
    (graph : Graph N E) (built : CFLGraphBuilder N)
    (hbuilt : built = graph.nodes.foldl (fun b node => (graph.getOutEdges node).foldl f b)
      (CFLGraphBuilder.start g graph.nodes)) :
    built.nodes = graph.nodes ∧
    (∀ e, e ∈ built.cflEdgeSet ↔ ∃ edge ∈ graph.edges, e ∈ (request edge).edges g) ∧
    ∀ p, p ∈ built.kindToAttrsMap ↔ ∃ edge ∈ graph.edges, p ∈ (request edge).attrs g := by
  obtain ⟨hfollows, hedges, hattrs, hnodes⟩ := start_spec g graph.nodes
  have hadds := adds_foldl hf graph.edges _ hfollows
  rw [Graph.edges, foldl_flatMap, ← hbuilt] at hadds
  refine ⟨hadds.nodes.trans hnodes, fun e => ?_, fun p => ?_⟩
  · rw [hadds.edges, hedges]
    simp [Graph.edges]
  · rw [hadds.attrs, hattrs]
    simp [Graph.edges]

end

-- ── The theorem

def ConstraintEdge.attribute? (edge : ConstraintEdge N) : Option ℤ :=
  if edge.edgeKind = .NormalGep then some edge.constantFieldIdx.toInt else none

def VFGEdge.attribute? (edge : VFGEdge N) : Option ℤ :=
  if edge.edgeKind.HasSite then some edge.callSiteId.toNat else none

theorem toNat_toUInt32 (x : Int64) : x.toUInt64.toUInt32.toNat = (x.toInt % 2 ^ 32).toNat := by
  have h : x.toUInt64.toNat = (x.toInt % (2 ^ 64 : ℕ)).toNat := by
    have hint : x.toInt = x.toUInt64.toBitVec.toInt := rfl
    have hnat : x.toUInt64.toNat = x.toUInt64.toBitVec.toNat := rfl
    rw [hint, hnat, BitVec.toInt_eq_toNat_bmod, Int.bmod_emod]
    omega
  rw [UInt64.toNat_toUInt32, h]
  omega

theorem ConstraintEdgeK.toKind_lt (kind : ConstraintEdgeK) : kind.toKind.toNat < 2 ^ 8 := by
  cases kind <;> decide

theorem VFGEdgeK.label_lt (kind : VFGEdgeK) : kind.label.toNat < 2 ^ 8 := by
  cases kind <;> decide

omit [DecidableEq N] in
theorem AliasCFLGraphBuilder.paired_iff (edge : ConstraintEdge N) :
    Paired g edge.src edge.dst edge.edgeKind.toKind edge.attribute? ((request edge).edges g)
        ((request edge).attrs g) ↔
      FindsBar g edge.edgeKind.toKind edge.edgeKind.toKind ∧
        ∀ i ∈ edge.attribute?, 0 ≤ i ∧ i < 2 ^ 24 := by
  have hL := edge.edgeKind.toKind_lt
  by_cases hgep : edge.edgeKind = .NormalGep
  · have hi : edge.attribute? = some edge.constantFieldIdx.toInt := if_pos hgep
    have hattri : (request edge).attri = some edge.constantFieldIdx.toUInt64.toUInt32 := if_pos hgep
    rw [hi]
    refine (Request.paired_attri_iff (r := request edge) hattri hL _).trans
      (and_congr_right fun _ => ?_)
    rw [toNat_toUInt32]
    constructor
    · rintro ⟨heq, hlt⟩ i hi
      cases hi
      omega
    · intro h
      obtain ⟨hpos, hlt⟩ := h _ rfl
      omega
  · have hi : edge.attribute? = none := if_neg hgep
    have hattri : (request edge).attri = none := if_neg hgep
    rw [hi]
    refine (Request.paired_plain_iff (r := request edge) hattri hL).trans ?_
    exact (and_iff_left fun i hi => nomatch hi).symm

omit [DecidableEq N] in
theorem VFCFLGraphBuilder.paired_iff (edge : VFGEdge N) :
    Paired g edge.src edge.dst edge.edgeKind.label edge.attribute? ((request edge).edges g)
        ((request edge).attrs g) ↔
      FindsBar g edge.edgeKind.label edge.key ∧ ∀ i ∈ edge.attribute?, i < 2 ^ 24 := by
  have hL := edge.edgeKind.label_lt
  by_cases hsite : edge.edgeKind.HasSite
  · have hi : edge.attribute? = some (edge.callSiteId.toNat : ℤ) := if_pos hsite
    have hattri : (request edge).attri = some edge.callSiteId := if_pos hsite
    rw [hi]
    refine (Request.paired_attri_iff (r := request edge) hattri hL _).trans
      (and_congr_right fun _ => ?_)
    constructor
    · rintro ⟨-, hlt⟩ i hi
      cases hi
      exact hlt
    · exact fun h => ⟨rfl, h _ rfl⟩
  · have hi : edge.attribute? = none := if_neg hsite
    have hattri : (request edge).attri = none := if_neg hsite
    rw [hi]
    refine (Request.paired_plain_iff (r := request edge) hattri hL).trans ?_
    exact (and_iff_left fun i hi => nomatch hi).symm

def Built {E : Type} (g : GrammarBase) (graph : Graph N E) (request : E → Request N)
    (built : CFLGraphBuilder N) : Prop :=
  built.nodes = graph.nodes ∧
  (∀ e, e ∈ built.cflEdgeSet ↔ ∃ edge ∈ graph.edges, e ∈ (request edge).edges g) ∧
  ∀ p, p ∈ built.kindToAttrsMap ↔ ∃ edge ∈ graph.edges, p ∈ (request edge).attrs g

theorem AliasCFLGraphBuilder.mem_buildBigraph (graph : Graph N (ConstraintEdge N)) :
    Built g graph request (buildBigraph graph g) :=
  mem_of_loops (fun _ edge hb => adds_addEdge hb edge) graph _ rfl

theorem VFCFLGraphBuilder.mem_buildBigraph (graph : Graph N (VFGEdge N)) :
    Built g graph request (buildBigraph graph g) :=
  mem_of_loops (fun _ edge hb => adds_addEdge hb edge) graph _ rfl

end

/-- **Bidirected graphs pair** exactly the edges for which the symbol of the other direction is
    found and whose attribute is in the range of its bits. -/
theorem buildBigraph_paired_iff {N : Type} [DecidableEq N] (g : GrammarBase) :
    (∀ graph : Graph N (ConstraintEdge N),
      Built g graph AliasCFLGraphBuilder.request (AliasCFLGraphBuilder.buildBigraph graph g) ∧
      ∀ edge ∈ graph.edges,
        (Paired g edge.src edge.dst edge.edgeKind.toKind edge.attribute?
            ((AliasCFLGraphBuilder.request edge).edges g)
            ((AliasCFLGraphBuilder.request edge).attrs g) ↔
          FindsBar g edge.edgeKind.toKind edge.edgeKind.toKind ∧
            ∀ i ∈ edge.attribute?, 0 ≤ i ∧ i < 2 ^ 24)) ∧
    ∀ graph : Graph N (VFGEdge N),
      Built g graph VFCFLGraphBuilder.request (VFCFLGraphBuilder.buildBigraph graph g) ∧
      ∀ edge ∈ graph.edges,
        (Paired g edge.src edge.dst edge.edgeKind.label edge.attribute?
            ((VFCFLGraphBuilder.request edge).edges g)
            ((VFCFLGraphBuilder.request edge).attrs g) ↔
          FindsBar g edge.edgeKind.label edge.key ∧ ∀ i ∈ edge.attribute?, i < 2 ^ 24) :=
  ⟨fun graph => ⟨AliasCFLGraphBuilder.mem_buildBigraph graph,
      fun edge _ => AliasCFLGraphBuilder.paired_iff edge⟩,
    fun graph => ⟨VFCFLGraphBuilder.mem_buildBigraph graph,
      fun edge _ => VFCFLGraphBuilder.paired_iff edge⟩⟩

def vfgGrammar : GrammarBase where
  terminals := [("a", 0), ("call", 1), ("ret", 2), ("epsilon", 4), ("abar", 7), ("retbar", 8),
    ("callbar", 9)]
  nonterminals := [("A", 3), ("Abar", 6)]
  names := by decide
  kinds := by decide

/-- The other direction of a call edge of call site 1 is an `a` edge with the call site, and that of
    an indirect edge is a `callbar` edge. -/
theorem buildBigraph_not_paired : let call : VFGEdge ℕ := ⟨10, 20, .CallDirVF, 1⟩
    let indirect : VFGEdge ℕ := ⟨10, 20, .IntraIndirectVF, 0⟩
    (VFCFLGraphBuilder.buildBigraph ⟨[10, 20], fun n => if n = 10 then [call] else []⟩
        vfgGrammar).cflEdgeSet =
      [⟨10, 20, getAttributedKind 1 1⟩, ⟨20, 10, getAttributedKind 1 0⟩] ∧
    ¬ Paired vfgGrammar 10 20 1 (some 1) ((VFCFLGraphBuilder.request call).edges vfgGrammar)
      ((VFCFLGraphBuilder.request call).attrs vfgGrammar) ∧
    (VFCFLGraphBuilder.buildBigraph ⟨[10, 20], fun n => if n = 10 then [indirect] else []⟩
        vfgGrammar).cflEdgeSet = [⟨10, 20, 0⟩, ⟨20, 10, 9⟩] ∧
    ¬ Paired vfgGrammar 10 20 0 none ((VFCFLGraphBuilder.request indirect).edges vfgGrammar)
      ((VFCFLGraphBuilder.request indirect).attrs vfgGrammar) := by
  refine ⟨by decide, fun h => ?_, by decide, fun h => ?_⟩
  · have hfinds := ((VFCFLGraphBuilder.paired_iff ⟨10, 20, .CallDirVF, 1⟩).mp h).1
    obtain ⟨name, hname, hbar, -⟩ :=
      (Request.findsBar_iff (r := VFCFLGraphBuilder.request ⟨10, 20, .CallDirVF, 1⟩)).mp hfinds
    obtain rfl := GrammarBase.labelOf_eq hname
    exact absurd hbar (by decide)
  · have hfinds := ((VFCFLGraphBuilder.paired_iff ⟨10, 20, .IntraIndirectVF, 0⟩).mp h).1
    obtain ⟨name, hname, hbar, -⟩ :=
      (Request.findsBar_iff (r := VFCFLGraphBuilder.request ⟨10, 20, .IntraIndirectVF, 0⟩)).mp
        hfinds
    obtain rfl := GrammarBase.labelOf_eq hname
    exact absurd hbar (by decide)

end SvfCFLGraphBuilder
