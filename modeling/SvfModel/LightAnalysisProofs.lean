import SvfModel.LoopProofs
import SvfModel.TextProofs

/-!
# The source editor: `Modification` and its line map

Edits name the line of the original file that they are about. The editor keeps the text it has so
far and `lineOffsetMap`, how many lines it has inserted after which original line, and looks up
where the line is now.

What the file should be is `Layout`: the original lines, replaced or not, and in every gap
between them the snippets that were put there. The heart is `insert_file`: a snippet that is
inserted where the map says goes to the end of its gap. An edit does that (`edit_represents`)
if its snippet is one line, if it is not to be inserted after the last line, and if no key of the
map is past the place of the edit, as the code moves such keys although they count in original
lines. **`edits_exact`** is what holds of every run of such edits, and `moved_key` a run with an
edit that is not.
-/

namespace SvfSyn

open SvfLoop SvfText List Nat
open Function (update update_of_ne update_self)

-- ── The editor

structure ReadWriteContext where
  workText : List Char
  lineOffsetMap : List (ℤ × ℤ)

def sumOffsets (p : ℤ → Bool) (lineOffsetMap : List (ℤ × ℤ)) : ℤ :=
  ((lineOffsetMap.takeWhile fun offset_pair => p offset_pair.1).map Prod.snd).sum

def moveKeys (p : ℤ → Bool) (lineOffsetMap : List (ℤ × ℤ)) : List (ℤ × ℤ) :=
  lineOffsetMap.map fun offset_pair =>
    if p offset_pair.1 then (offset_pair.1 + 1, offset_pair.2) else offset_pair

/-- `lineOffsetMap[key] += 1`. -/
def increment (key : ℤ) : List (ℤ × ℤ) → List (ℤ × ℤ)
  | [] => [(key, 1)]
  | (k, v) :: m =>
    if k < key then (k, v) :: increment key m
    else if k = key then (k, v + 1) :: m
    else (key, 1) :: (k, v) :: m

def insertLine (i : ℕ) (str : Line) (lines : List Line) : List Line :=
  lines.take i ++ str :: lines.drop i

section

variable (context : ReadWriteContext)

def addNewCodeSnippetAfter (targetLine : ℤ) (str : Line) :
    ReadWriteContext :=
  let adjusted_targetLine := targetLine + sumOffsets (· ≤ targetLine) context.lineOffsetMap
  let lines := getlines context.workText
  let lines := if adjusted_targetLine < lines.length then
    insertLine adjusted_targetLine.toNat str lines else lines
  { workText := putlines lines
    lineOffsetMap := increment targetLine
      (moveKeys (· > adjusted_targetLine) context.lineOffsetMap) }

def addNewCodeSnippetBefore (targetLine : ℤ) (str : Line) :
    ReadWriteContext :=
  let adjusted_targetLine := targetLine + sumOffsets (· < targetLine) context.lineOffsetMap
  let lines := getlines context.workText
  let lines := if adjusted_targetLine > 0 then
    insertLine (adjusted_targetLine - 1).toNat str lines else lines
  { workText := putlines lines
    lineOffsetMap := increment (targetLine - 1)
      (moveKeys (· ≥ adjusted_targetLine) context.lineOffsetMap) }

def replace (targetLine : ℤ) (str : Line) : ReadWriteContext :=
  let adjusted_targetLine := targetLine + sumOffsets (· < targetLine) context.lineOffsetMap
  let lines := getlines context.workText
  let lines := if adjusted_targetLine ≤ lines.length then
    lines.set (adjusted_targetLine - 1).toNat str else lines
  { context with workText := putlines lines }

end

/-- An edit, with the line of the original file that its instruction is at. -/
inductive Edit where
  | addNewCodeSnippetAfter (targetLine : ℤ) (str : Line)
  | addNewCodeSnippetBefore (targetLine : ℤ) (str : Line)
  | replace (targetLine : ℤ) (str : Line)
  deriving DecidableEq

def edit (context : ReadWriteContext) : Edit → ReadWriteContext
  | .addNewCodeSnippetAfter targetLine str => addNewCodeSnippetAfter context targetLine str
  | .addNewCodeSnippetBefore targetLine str => addNewCodeSnippetBefore context targetLine str
  | .replace targetLine str => replace context targetLine str

def open_file (text : List Char) : ReadWriteContext := ⟨text, []⟩

-- ── What the file should be

/-- The original lines as they are now, and what has been inserted after each of them: gap 0 is
    before the first line. -/
structure Layout where
  lines : List Line
  gaps : ℕ → List Line

def fileFrom (gaps : ℕ → List Line) : ℕ → List Line → List Line
  | k, [] => gaps k
  | k, l :: lines => gaps k ++ l :: fileFrom gaps (k + 1) lines

def Layout.file (a : Layout) : List Line := fileFrom a.gaps 0 a.lines

/-- A snippet goes to the end of a gap. -/
def Layout.insert (a : Layout) (gap : ℕ) (str : Line) : Layout :=
  { a with gaps := update a.gaps gap (a.gaps gap ++ [str]) }

def Layout.edit (a : Layout) : Edit → Layout
  | .addNewCodeSnippetAfter targetLine str => a.insert targetLine.toNat str
  | .addNewCodeSnippetBefore targetLine str => a.insert (targetLine - 1).toNat str
  | .replace targetLine str =>
    { a with lines := a.lines.set (targetLine - 1).toNat str }

/-- How many lines stand before gap `g` ends and are not original, from gap `k` on. -/
def inserted (gaps : ℕ → List Line) (k g : ℕ) : ℕ :=
  ((List.range g).map fun i => (gaps (k + i)).length).sum

theorem inserted_succ (gaps : ℕ → List Line) (k g : ℕ) :
    inserted gaps k (g + 1) = (gaps k).length + inserted gaps (k + 1) g := by
  rw [inserted, inserted, range_succ_eq_map, map_cons, sum_cons, map_map]
  refine congrArg _ (congrArg List.sum (map_congr_left fun i _ => ?_))
  show (gaps (k + (i + 1))).length = (gaps (k + 1 + i)).length
  rw [add_right_comm, add_assoc]

theorem fileFrom_congr {gaps gaps' : ℕ → List Line} :
    ∀ (lines : List Line) (k : ℕ), (∀ j, k ≤ j → gaps j = gaps' j) →
      fileFrom gaps k lines = fileFrom gaps' k lines := by
  intro lines
  induction lines with
  | nil => exact fun k h => h k le_rfl
  | cons l lines ih =>
    intro k h
    rw [fileFrom, fileFrom, h k le_rfl, ih (k + 1) fun j hj => h j (le_of_succ_le hj)]

theorem insertLine_append (str : Line) (pre post : List Line) (i : ℕ) :
    insertLine (pre.length + i) str (pre ++ post) = pre ++ insertLine i str post := by
  rw [insertLine, insertLine, take_length_add_append, drop_length_add_append, append_assoc]

section

variable (gaps : ℕ → List Line)

/-- **A snippet that is inserted at the end of a gap is in that gap.** -/
theorem insert_file (str : Line) : ∀ (lines : List Line) (k g : ℕ), g ≤ lines.length →
      insertLine (g + inserted gaps k (g + 1)) str (fileFrom gaps k lines) =
        fileFrom (update gaps (k + g) (gaps (k + g) ++ [str])) k lines := by
  intro lines
  induction lines with
  | nil =>
    intro k g hg
    obtain rfl := le_zero.mp hg
    have h := insertLine_append str (gaps k) [] 0
    rw [append_nil] at h
    rw [inserted_succ, fileFrom, fileFrom]
    simp only [zero_add, add_zero, update_self] at h ⊢
    exact h
  | cons l lines ih =>
    intro k g hg
    rw [inserted_succ, fileFrom, fileFrom]
    cases g with
    | zero =>
      have hrest : fileFrom (update gaps k (gaps k ++ [str])) (k + 1) lines =
          fileFrom gaps (k + 1) lines :=
        fileFrom_congr lines (k + 1) fun j hj => update_of_ne (by omega) _ _
      have h := insertLine_append str (gaps k) (l :: fileFrom gaps (k + 1) lines) 0
      simp only [zero_add, add_zero, update_self] at h ⊢
      rw [hrest, append_assoc]
      exact h
    | succ g =>
      have hpre : update gaps (k + (g + 1)) (gaps (k + (g + 1)) ++ [str]) k = gaps k :=
        update_of_ne (by omega) _ _
      have hih := ih (k + 1) g (le_of_succ_le_succ hg)
      rw [show k + 1 + g = k + (g + 1) by omega] at hih
      rw [hpre, ← hih]
      have h := insertLine_append str (gaps k ++ [l]) (fileFrom gaps (k + 1) lines)
        (g + inserted gaps (k + 1) (g + 1))
      rw [length_append, length_singleton, append_assoc, append_assoc] at h
      rw [show g + 1 + ((gaps k).length + inserted gaps (k + 1) (g + 1)) =
        (gaps k).length + 1 + (g + inserted gaps (k + 1) (g + 1)) by omega]
      exact h

theorem inserted_zero (k : ℕ) : inserted gaps k 0 = 0 := rfl

theorem set_file (str : Line) : ∀ (lines : List Line) (k i : ℕ), i < lines.length →
      (fileFrom gaps k lines).set (i + inserted gaps k (i + 1)) str =
        fileFrom gaps k (lines.set i str) := by
  intro lines
  induction lines with
  | nil => exact fun k i hi => absurd hi (not_lt_zero i)
  | cons l lines ih =>
    intro k i hi
    rw [inserted_succ, fileFrom, set_append_right _ _ (by omega)]
    cases i with
    | zero =>
      rw [set_cons_zero, fileFrom, inserted_zero]
      rw [show 0 + ((gaps k).length + 0) - (gaps k).length = 0 by omega, set_cons_zero]
    | succ i =>
      rw [set_cons_succ, fileFrom, ← ih (k + 1) i (lt_of_succ_lt_succ hi)]
      rw [show i + 1 + ((gaps k).length + inserted gaps (k + 1) (i + 1)) - (gaps k).length =
        i + inserted gaps (k + 1) (i + 1) + 1 by omega, set_cons_succ]

theorem getElem_file : ∀ (lines : List Line) (k i : ℕ), i < lines.length →
      (fileFrom gaps k lines)[i + inserted gaps k (i + 1)]? = lines[i]? := by
  intro lines
  induction lines with
  | nil => exact fun k i hi => absurd hi (not_lt_zero i)
  | cons l lines ih =>
    intro k i hi
    rw [inserted_succ, fileFrom, getElem?_append_right (by omega)]
    cases i with
    | zero =>
      rw [inserted_zero, show 0 + ((gaps k).length + 0) - (gaps k).length = 0 by omega]
      rfl
    | succ i =>
      rw [show i + 1 + ((gaps k).length + inserted gaps (k + 1) (i + 1)) - (gaps k).length =
        i + inserted gaps (k + 1) (i + 1) + 1 by omega, getElem?_cons_succ,
        getElem?_cons_succ, ih (k + 1) i (lt_of_succ_lt_succ hi)]

theorem length_fileFrom : ∀ (lines : List Line) (k : ℕ),
      (fileFrom gaps k lines).length = lines.length + inserted gaps k (lines.length + 1) := by
  intro lines
  induction lines with
  | nil =>
    intro k
    rw [fileFrom, inserted_succ]
    exact (zero_add _).symm
  | cons l lines ih =>
    intro k
    rw [inserted_succ, fileFrom, length_append, length_cons, ih (k + 1), length_cons]
    omega

theorem inserted_mono (k : ℕ) {g h : ℕ} (hgh : g ≤ h) : inserted gaps k g ≤ inserted gaps k h := by
  induction hgh with
  | refl => exact le_rfl
  | step _ ih =>
    refine ih.trans ?_
    rw [inserted, inserted, range_succ, map_append, sum_append]
    exact le_add_right _ _

end

-- ── The line map

def total (p : ℤ → Bool) (m : List (ℤ × ℤ)) : ℤ :=
  ((m.filter fun e => p e.1).map Prod.snd).sum

/-- The keys of a `std::map` are in order. -/
def Sorted (m : List (ℤ × ℤ)) : Prop := m.Pairwise fun e f => e.1 < f.1

theorem total_cons (p : ℤ → Bool) (k v : ℤ) (m : List (ℤ × ℤ)) :
    total p ((k, v) :: m) = (if p k then v else 0) + total p m := by
  rw [total, total, filter_cons]
  cases p k <;> simp

/-- The loop sees all keys with `p`, if `p` holds of what is before a key that it holds of. -/
theorem sumOffsets_eq {p : ℤ → Bool} (hp : ∀ k l, k < l → p l → p k) :
    ∀ {m : List (ℤ × ℤ)}, Sorted m → sumOffsets p m = total p m := by
  intro m
  induction m with
  | nil => exact fun _ => rfl
  | cons e m ih =>
    intro hs
    obtain ⟨hlt, hs⟩ := pairwise_cons.mp hs
    rw [total_cons p e.1 e.2 m]
    cases he : p e.1 with
    | true => rw [if_pos rfl, ← ih hs]; simp [sumOffsets, he]
    | false =>
      -- `p` holds of no key after this one
      have hnone : m.filter (fun e => p e.1) = [] := by
        refine filter_eq_nil_iff.mpr fun f hf hpf => ?_
        exact absurd ((hp _ _ (hlt f hf) hpf).symm.trans he) (Bool.false_ne_true ∘ Eq.symm)
      rw [if_neg Bool.false_ne_true, total, hnone]
      simp [sumOffsets, he]

theorem moveKeys_eq {p : ℤ → Bool} {m : List (ℤ × ℤ)} (h : ∀ e ∈ m, ¬ p e.1) : moveKeys p m = m :=
  (map_congr_left fun e he => if_neg (h e he)).trans (map_id m)

theorem total_increment (p : ℤ → Bool) (key : ℤ) :
    ∀ m : List (ℤ × ℤ), total p (increment key m) = total p m + if p key then 1 else 0 := by
  intro m
  induction m with
  | nil =>
    rw [increment, total_cons]
    exact add_comm _ _
  | cons e m ih =>
    obtain ⟨k, v⟩ := e
    rw [increment]
    by_cases hlt : k < key
    · rw [if_pos hlt, total_cons, total_cons, ih]
      ring
    rw [if_neg hlt]
    by_cases heq : k = key
    · rw [if_pos heq, total_cons, total_cons, heq]
      cases p key <;> simp [add_right_comm]
    · rw [if_neg heq, total_cons]
      ring

theorem mem_increment {key : ℤ} {e : ℤ × ℤ} :
    ∀ {m : List (ℤ × ℤ)}, e ∈ increment key m → e.1 = key ∨ ∃ v, (e.1, v) ∈ m := by
  intro m
  induction m with
  | nil =>
    intro h
    rw [increment, mem_singleton] at h
    exact .inl (h ▸ rfl)
  | cons f m ih =>
    obtain ⟨k, v⟩ := f
    intro h
    rw [increment] at h
    by_cases hlt : k < key
    · rw [if_pos hlt] at h
      rcases mem_cons.mp h with rfl | h
      · exact .inr ⟨v, mem_cons_self⟩
      · exact (ih h).imp_right fun ⟨w, hw⟩ => ⟨w, mem_cons_of_mem _ hw⟩
    rw [if_neg hlt] at h
    by_cases heq : k = key
    · rw [if_pos heq] at h
      rcases mem_cons.mp h with rfl | h
      · exact .inl heq
      · exact .inr ⟨e.2, mem_cons_of_mem _ h⟩
    · rw [if_neg heq] at h
      rcases mem_cons.mp h with rfl | h
      · exact .inl rfl
      · exact .inr ⟨e.2, h⟩

theorem Sorted.increment (key : ℤ) : ∀ {m : List (ℤ × ℤ)}, Sorted m → Sorted (increment key m) := by
  intro m
  induction m with
  | nil => exact fun _ => pairwise_singleton _ _
  | cons e m ih =>
    obtain ⟨k, v⟩ := e
    intro hs
    obtain ⟨hlt, hm⟩ := pairwise_cons.mp hs
    rw [SvfSyn.increment]
    by_cases hk : k < key
    · rw [if_pos hk]
      refine pairwise_cons.mpr ⟨fun f hf => ?_, ih hm⟩
      rcases mem_increment hf with heq | ⟨w, hw⟩
      · exact heq ▸ hk
      · exact hlt (f.1, w) hw
    rw [if_neg hk]
    by_cases heq : k = key
    · rw [if_pos heq]
      exact pairwise_cons.mpr ⟨hlt, hm⟩
    · rw [if_neg heq]
      have hlast : key < k := lt_of_le_of_ne (Int.not_lt.mp hk) (Ne.symm heq)
      refine pairwise_cons.mpr ⟨fun f hf => ?_, hs⟩
      rcases mem_cons.mp hf with rfl | hf
      · exact hlast
      · exact hlast.trans (hlt f hf)

-- ── One edit

structure Represents (L : ℕ) (context : ReadWriteContext) (a : Layout) : Prop where
  text : getlines context.workText = a.file
  sorted : Sorted context.lineOffsetMap
  keys : ∀ e ∈ context.lineOffsetMap, 0 ≤ e.1
  gaps : ∀ k : ℕ, total (· = (k : ℤ)) context.lineOffsetMap = (a.gaps k).length
  length : a.lines.length = L

theorem total_lt_succ (m : List (ℤ × ℤ)) (g : ℤ) :
    total (· < g + 1) m = total (· < g) m + total (· = g) m := by
  induction m with
  | nil => rfl
  | cons e m ih =>
    rw [total_cons _ e.1 e.2 m, total_cons _ e.1 e.2 m, total_cons _ e.1 e.2 m, ih]
    rcases lt_trichotomy e.1 g with hlt | heq | hgt
    · simp [hlt, hlt.ne, Int.lt_add_one_of_le hlt.le, add_assoc]
    · simp [heq, add_left_comm]
    · have h1 : ¬ e.1 < g + 1 := by omega
      simp [h1, hgt.ne', hgt.le]

theorem Represents.total_lt {L : ℕ} {context : ReadWriteContext} {a : Layout}
    (h : Represents L context a) (g : ℕ) :
    total (· < (g : ℤ)) context.lineOffsetMap = inserted a.gaps 0 g := by
  induction g with
  | zero =>
    have hnone : context.lineOffsetMap.filter (fun e => decide (e.1 < ((0 : ℕ) : ℤ))) = [] :=
      filter_eq_nil_iff.mpr fun e he hlt =>
        absurd (of_decide_eq_true hlt) (Int.not_lt.mpr (h.keys e he))
    rw [total, hnone]
    rfl
  | succ g ih =>
    rw [cast_succ, total_lt_succ, ih, h.gaps g, inserted, inserted, range_succ,
      map_append, sum_append]
    simp

/-- The edit names a line of the original file, it is a single line, not after the last line, and
    no key of the map is past the line where it is made. -/
def Edit.Fits (L : ℕ) (context : ReadWriteContext) : Edit → Prop
  | .addNewCodeSnippetAfter targetLine str =>
    (1 ≤ targetLine ∧ targetLine < L) ∧ '\n' ∉ str ∧ ∀ e ∈ context.lineOffsetMap,
      ¬ e.1 > targetLine + sumOffsets (· ≤ targetLine) context.lineOffsetMap
  | .addNewCodeSnippetBefore targetLine str =>
    (1 ≤ targetLine ∧ targetLine ≤ L) ∧ '\n' ∉ str ∧ ∀ e ∈ context.lineOffsetMap,
      ¬ e.1 ≥ targetLine + sumOffsets (· < targetLine) context.lineOffsetMap
  | .replace targetLine str =>
    (1 ≤ targetLine ∧ targetLine ≤ L) ∧ '\n' ∉ str

instance instDecidableFits (L : ℕ) (context : ReadWriteContext) :
    ∀ e : Edit, Decidable (e.Fits L context)
  | .addNewCodeSnippetAfter _ _ => inferInstanceAs (Decidable (_ ∧ _ ∧ ∀ e ∈ _, _))
  | .addNewCodeSnippetBefore _ _ => inferInstanceAs (Decidable (_ ∧ _ ∧ ∀ e ∈ _, _))
  | .replace _ _ => inferInstanceAs (Decidable (_ ∧ _))

variable {L : ℕ} {context : ReadWriteContext} {a : Layout}

theorem Represents.insert (h : Represents L context a) {g : ℕ} (hg : g ≤ L) {str : Line}
    (hstr : '\n' ∉ str) :
    Represents L
      { workText := putlines
          (insertLine (g + inserted a.gaps 0 (g + 1)) str (getlines context.workText))
        lineOffsetMap := increment (g : ℤ) context.lineOffsetMap }
      (a.insert g str) where
  text := by
    have hclean : ∀ l ∈ insertLine (g + inserted a.gaps 0 (g + 1)) str
        (getlines context.workText), '\n' ∉ l := by
      intro l hl
      rcases mem_append.mp hl with hl | hl
      · exact newline_notMem_getlines _ l (mem_of_mem_take hl)
      · rcases mem_cons.mp hl with rfl | hl
        · exact hstr
        · exact newline_notMem_getlines _ l (mem_of_mem_drop hl)
    have hfile := insert_file a.gaps str a.lines 0 g (h.length.symm ▸ hg)
    rw [zero_add] at hfile
    show getlines (putlines _) = _
    rw [getlines_putlines _ hclean, h.text]
    exact hfile
  sorted := h.sorted.increment _
  keys e he := by
    rcases mem_increment he with heq | ⟨v, hv⟩
    · rw [heq]
      exact Int.natCast_nonneg g
    · exact h.keys (e.1, v) hv
  gaps k := by
    show total _ (increment (g : ℤ) context.lineOffsetMap) =
      (update a.gaps g (a.gaps g ++ [str]) k).length
    rw [total_increment, h.gaps]
    by_cases hk : k = g
    · simp [hk]
    · have hne : ¬ (g : ℤ) = k := by omega
      rw [update_of_ne hk]
      simp [hne]
  length := h.length

/-- **Step lemma**: an edit that fits does what it should. -/
theorem edit_represents (h : Represents L context a) {e : Edit} (hfit : e.Fits L context) :
    Represents L (edit context e) (a.edit e) := by
  cases e with
  | addNewCodeSnippetAfter targetLine str =>
    obtain ⟨⟨hpos, hlast⟩, hstr, hkeys⟩ := hfit
    obtain ⟨g, rfl⟩ := Int.eq_ofNat_of_zero_le (by omega : 0 ≤ targetLine)
    have hsum : sumOffsets (· ≤ (g : ℤ)) context.lineOffsetMap = inserted a.gaps 0 (g + 1) := by
      rw [sumOffsets_eq (fun k l hkl hl => decide_eq_true
        (hkl.le.trans (of_decide_eq_true hl))) h.sorted, ← h.total_lt]
      refine congrArg (total · _) (funext fun k => decide_eq_decide.mpr ?_)
      omega
    have hlen : g + inserted a.gaps 0 (g + 1) < (getlines context.workText).length := by
      have hmono := inserted_mono a.gaps 0 (by omega : g + 1 ≤ L + 1)
      rw [h.text, Layout.file, length_fileFrom, h.length]
      omega
    have hins := h.insert (by omega : g ≤ L) hstr
    rw [hsum] at hkeys
    show Represents L (addNewCodeSnippetAfter context g str) (a.insert (g : ℤ).toNat str)
    rw [addNewCodeSnippetAfter, hsum, moveKeys_eq fun e he => by simpa using hkeys e he,
      if_pos (by exact_mod_cast hlen), Int.toNat_natCast]
    exact_mod_cast hins
  | addNewCodeSnippetBefore targetLine str =>
    obtain ⟨⟨hpos, hlast⟩, hstr, hkeys⟩ := hfit
    obtain ⟨g, rfl⟩ : ∃ g : ℕ, targetLine = (g : ℤ) + 1 := ⟨(targetLine - 1).toNat, by omega⟩
    have hsum : sumOffsets (· < (g : ℤ) + 1) context.lineOffsetMap = inserted a.gaps 0 (g + 1) := by
      rw [sumOffsets_eq (fun k l hkl hl => decide_eq_true
        (hkl.trans (of_decide_eq_true hl))) h.sorted, ← h.total_lt]
      rfl
    have hins := h.insert (by omega : g ≤ L) hstr
    rw [hsum] at hkeys
    show Represents L (addNewCodeSnippetBefore context ((g : ℤ) + 1) str)
      (a.insert ((g : ℤ) + 1 - 1).toNat str)
    rw [addNewCodeSnippetBefore, hsum, moveKeys_eq fun e he => by simpa using hkeys e he,
      if_pos (by omega)]
    have hidx : ((g : ℤ) + 1 + (inserted a.gaps 0 (g + 1) : ℤ) - 1).toNat =
        g + inserted a.gaps 0 (g + 1) := by omega
    rw [hidx, add_sub_cancel_right, Int.toNat_natCast]
    exact hins
  | replace targetLine str =>
    obtain ⟨⟨hpos, hlast⟩, hstr⟩ := hfit
    obtain ⟨i, rfl⟩ : ∃ i : ℕ, targetLine = (i : ℤ) + 1 := ⟨(targetLine - 1).toNat, by omega⟩
    have hi : i < a.lines.length := by rw [h.length]; omega
    have hsum : sumOffsets (· < (i : ℤ) + 1) context.lineOffsetMap = inserted a.gaps 0 (i + 1) := by
      rw [sumOffsets_eq (fun k l hkl hl => decide_eq_true
        (hkl.trans (of_decide_eq_true hl))) h.sorted, ← h.total_lt]
      rfl
    have hlen : i + 1 + inserted a.gaps 0 (i + 1) ≤ (getlines context.workText).length := by
      have hmono := inserted_mono a.gaps 0 (by omega : i + 1 ≤ a.lines.length + 1)
      rw [h.text, Layout.file, length_fileFrom]
      omega
    have hclean : ∀ l ∈ (getlines context.workText).set (i + inserted a.gaps 0 (i + 1)) str,
        '\n' ∉ l := by
      intro l hl
      rcases mem_or_eq_of_mem_set hl with hl | rfl
      · exact newline_notMem_getlines _ l hl
      · exact hstr
    have hidx : ((i : ℤ) + 1 + (inserted a.gaps 0 (i + 1) : ℤ) - 1).toNat =
        i + inserted a.gaps 0 (i + 1) := by omega
    show Represents L (replace context ((i : ℤ) + 1) str)
      { a with lines := a.lines.set ((i : ℤ) + 1 - 1).toNat str }
    rw [replace, hsum, if_pos (by exact_mod_cast hlen), hidx, add_sub_cancel_right,
      Int.toNat_natCast]
    constructor
    case text =>
      show getlines (putlines _) = fileFrom a.gaps 0 (a.lines.set i str)
      rw [getlines_putlines _ hclean, h.text, Layout.file, set_file a.gaps str a.lines 0 i hi]
    case sorted => exact h.sorted
    case keys => exact h.keys
    case gaps => exact h.gaps
    case length => exact (length_set).trans h.length

-- ── Runs

theorem represents_open (text : List Char) :
    Represents (getlines text).length (open_file text) ⟨getlines text, fun _ => []⟩ where
  text := by
    have hfile : ∀ (lines : List Line) (k : ℕ), fileFrom (fun _ => []) k lines = lines := by
      intro lines
      induction lines with
      | nil => exact fun _ => rfl
      | cons l lines ih =>
        intro k
        rw [fileFrom, ih]
        rfl
    exact (hfile _ 0).symm
  sorted := .nil
  keys e he := absurd he not_mem_nil
  gaps k := rfl
  length := rfl

theorem Layout.lines_edit {n : ℕ} (hn : 1 ≤ n) {e : Edit} (hfit : e.Fits L context)
    (he : ∀ str, e ≠ .replace n str) : (a.edit e).lines[n - 1]? = a.lines[n - 1]? := by
  cases e with
  | addNewCodeSnippetAfter targetLine str => rfl
  | addNewCodeSnippetBefore targetLine str => rfl
  | replace targetLine str =>
    have hpos := hfit.1.1
    have hne : targetLine ≠ n := fun heq => he str (heq ▸ rfl)
    exact getElem?_set_ne (by omega)

/-- **The line map is exact** in every run of edits that fit. The file is the original lines with
    the snippets in their gaps, the map counts the snippets in every gap, and a line that has not
    been replaced is where the map says. -/
theorem edits_exact (text : List Char) (edits : List Edit)
    (hfits : FoldMeets (fun c e => e.Fits (getlines text).length c) (fun c e => some (edit c e))
      (open_file text) edits) :
    ∃ a : Layout, a = edits.foldl Layout.edit ⟨getlines text, fun _ => []⟩ ∧
      getlines (edits.foldl edit (open_file text)).workText = a.file ∧
      (∀ k : ℕ, total (· = (k : ℤ)) (edits.foldl edit (open_file text)).lineOffsetMap =
        (a.gaps k).length) ∧
      ∀ n : ℕ, 1 ≤ n → n ≤ (getlines text).length → (∀ str, .replace n str ∉ edits) →
        (getlines (edits.foldl edit (open_file text)).workText)[(n +
          total (· < (n : ℤ)) (edits.foldl edit (open_file text)).lineOffsetMap - 1).toNat]? =
          (getlines text)[n - 1]? := by
  obtain ⟨a, ha, hrep, -, hlines⟩ := foldl_meets (f := edit)
    (I := fun l c => ∃ a, l.foldl Layout.edit a =
        edits.foldl Layout.edit ⟨getlines text, fun _ => []⟩ ∧
      Represents (getlines text).length c a ∧ (∀ e ∈ l, e ∈ edits) ∧
      ∀ n : ℕ, 1 ≤ n → (∀ str, .replace n str ∉ edits) → a.lines[n - 1]? = (getlines text)[n - 1]?)
    (fun e l c ⟨a, ha, hrep, hl, hlines⟩ hfit => ⟨a.edit e, ha, edit_represents hrep hfit,
      (forall_mem_cons.mp hl).2,
      fun n hn hno => (Layout.lines_edit hn hfit fun str heq =>
        hno str (heq ▸ hl e mem_cons_self)).trans (hlines n hn hno)⟩)
    edits (open_file text) ⟨_, rfl, represents_open text, fun _ he => he, fun _ _ _ => rfl⟩ hfits
  refine ⟨a, ha, hrep.text, hrep.gaps, fun n hn hlen hno => ?_⟩
  obtain ⟨i, rfl⟩ : ∃ i, n = i + 1 := ⟨n - 1, by omega⟩
  have hidx : (((i + 1 : ℕ) : ℤ) + (inserted a.gaps 0 (i + 1) : ℤ) - 1).toNat =
      i + inserted a.gaps 0 (i + 1) := by omega
  have hi : i < a.lines.length := by rw [hrep.length]; omega
  rw [hrep.total_lt, hidx, hrep.text, Layout.file, getElem_file a.gaps a.lines 0 i hi]
  exact hlines (i + 1) hn hno

/-- The theorem at a file of three lines: after the first a line, before the third another, and
    the second replaced. -/
theorem edits_exact_threeLines :
    (getlines (([.addNewCodeSnippetAfter 1 ['x'], .addNewCodeSnippetBefore 3 ['y'],
      .replace 2 ['z']] : List Edit).foldl edit (open_file ['a', '\n', 'b', '\n', 'c'])).workText) =
      [['a'], ['x'], ['z'], ['y'], ['c']] := by
  obtain ⟨a, ha, hfile, -⟩ := edits_exact ['a', '\n', 'b', '\n', 'c']
    [.addNewCodeSnippetAfter 1 ['x'], .addNewCodeSnippetBefore 3 ['y'], .replace 2 ['z']]
    (by decide)
  rw [hfile, ha]
  decide

/-- **A key that is moved.** Of four lines, a snippet goes after the third, then one after the
    first. The second edit moves the key 3 to 4, and the map says that the last line is the
    fifth of the file; it is the sixth. -/
theorem moved_key : ∃ c, c = ([.addNewCodeSnippetAfter 3 ['x'], .addNewCodeSnippetAfter 1 ['y']] :
        List Edit).foldl edit (open_file ['1', '\n', '2', '\n', '3', '\n', '4', '\n']) ∧
      getlines c.workText = [['1'], ['y'], ['2'], ['3'], ['x'], ['4']] ∧
      (getlines c.workText)[(4 + total (· < 4) c.lineOffsetMap - 1).toNat]? ≠ some ['4'] := by
  exact ⟨_, rfl, by decide, by decide⟩

end SvfSyn
