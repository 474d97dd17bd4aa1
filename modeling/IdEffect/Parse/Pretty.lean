import Mathlib.Algebra.BigOperators.Group.List.Basic
import Mathlib.Data.List.TakeWhile
import Mathlib.Data.UInt

set_option autoImplicit false

/-! # Pretty printing: `pretty.rs`

A group is laid out on one line if its flat layout has at most `width` bytes. The budget is for the
whole line and counts characters, but the test neither looks at what is on the line already nor at
how many characters the bytes are: a group behind other text is laid out flat past the end of the
line (`groups_respect_iff`). -/

namespace IdEffect.Parse

/-- The indentation of `nest` is a `usize`, as is the one it is added to. -/
inductive Doc where
  | nil
  | text (text : List Char)
  | line
  | break_
  | cat (left right : Doc)
  | nest (spaces : UInt64) (inner : Doc)
  | group (inner : Doc)
deriving DecidableEq

inductive Mode where
  | flat
  | broken
deriving DecidableEq

namespace Doc

/-- `String::len`, in bytes. -/
def len (s : List Char) : ℕ := (s.map Char.utf8Size).sum

/-- No string is longer than `usize::MAX`, the width that `none` stands for. -/
def Exceeds (n : ℕ) : Option ℕ → Prop
  | none => False
  | some width => width < n

instance (n : ℕ) (width : Option ℕ) : Decidable (Exceeds n width) := by
  cases width <;> unfold Exceeds <;> infer_instance

def newline (indent : UInt64) : List Char := '\n' :: List.replicate indent.toNat ' '

def renderImpl (width : Option ℕ) : Doc → UInt64 → Mode → List Char → List Char
  | nil, _, _, out => out
  | text t, _, _, out => out ++ t
  | line, indent, _, out => out ++ newline indent
  | break_, _, .flat, out => out ++ [' ']
  | break_, indent, .broken, out => out ++ newline indent
  | cat left right, indent, mode, out =>
      renderImpl width right indent mode (renderImpl width left indent mode out)
  | nest spaces inner, indent, mode, out => renderImpl width inner (indent + spaces) mode out
  | group inner, indent, _, out =>
      let flat := renderImpl none inner indent .flat []
      if '\n' ∈ flat ∨ Exceeds (len flat) width then renderImpl width inner indent .broken out
      else out ++ flat

def render (doc : Doc) (width : ℕ) : List Char := doc.renderImpl (some width) 0 .broken []

/-! ## The groups of a layout -/

/-- A group with its output before and after it. -/
structure Laid where
  before : List Char
  inner : Doc
  flat : Bool
  after : List Char

/-- The groups in the order in which `renderImpl` comes to them. Those inside of a group on one line
    are on this line too. -/
def laid (width : Option ℕ) : Doc → UInt64 → Mode → List Char → List Laid
  | cat left right, indent, mode, out =>
      laid width left indent mode out ++
        laid width right indent mode (renderImpl width left indent mode out)
  | nest spaces inner, indent, mode, out => laid width inner (indent + spaces) mode out
  | group inner, indent, _, out =>
      let flat := renderImpl none inner indent .flat []
      if '\n' ∈ flat ∨ Exceeds (len flat) width then
        ⟨out, inner, false, renderImpl width inner indent .broken out⟩ ::
          laid width inner indent .broken out
      else ⟨out, inner, true, out ++ flat⟩ :: laid none inner indent .flat out
  | _, _, _, _ => []

/-- How far the last line goes. -/
def column (out : List Char) : ℕ := (out.reverse.takeWhile (· ≠ '\n')).length

def hasLine : Doc → Bool
  | line => true
  | cat left right => left.hasLine || right.hasLine
  | nest _ inner => inner.hasLine
  | group inner => inner.hasLine
  | _ => false

/-- The texts contain no newline. -/
def NoNewline : Doc → Prop
  | text t => '\n' ∉ t
  | cat left right => left.NoNewline ∧ right.NoNewline
  | nest _ inner => inner.NoNewline
  | group inner => inner.NoNewline
  | _ => True

/-- The document on one line. -/
def flatLayout : Doc → List Char
  | text t => t
  | break_ => [' ']
  | cat left right => left.flatLayout ++ right.flatLayout
  | nest _ inner => inner.flatLayout
  | group inner => inner.flatLayout
  | _ => []

/-- A group on one line is within the width, and one that is broken up has a hard line or would not
    be within the width on one line. -/
def Laid.Respects (width : ℕ) (g : Laid) : Prop :=
  if g.flat then column g.after ≤ width
  else g.inner.hasLine = true ∨ width < column (g.before ++ g.inner.flatLayout)

/-! ## The column -/

/-- The column behind a document that is laid out from the column `c` on, its groups by the test of
    `renderImpl`. -/
def endColumn (width : ℕ) : Doc → UInt64 → ℕ → ℕ
  | nil, _, c => c
  | text t, _, c => c + t.length
  | line, indent, _ => indent.toNat
  | break_, indent, _ => indent.toNat
  | cat left right, indent, c => endColumn width right indent (endColumn width left indent c)
  | nest spaces inner, indent, c => endColumn width inner (indent + spaces) c
  | group inner, indent, c =>
      if inner.hasLine ∨ width < len inner.flatLayout then endColumn width inner indent c
      else c + inner.flatLayout.length

/-- The test is right: where a group without hard lines begins at the column `c`, it has at most
    `width` bytes exactly if it ends within the width. -/
def Suits (width : ℕ) : Doc → UInt64 → ℕ → Prop
  | cat left right, indent, c =>
      Suits width left indent c ∧ Suits width right indent (endColumn width left indent c)
  | nest spaces inner, indent, c => Suits width inner (indent + spaces) c
  | group inner, indent, c =>
      (inner.hasLine = false →
        (len inner.flatLayout ≤ width ↔ c + inner.flatLayout.length ≤ width)) ∧
      (inner.hasLine = true ∨ width < len inner.flatLayout → Suits width inner indent c)
  | _, _, _ => True

@[simp]
theorem column_append {t : List Char} (ht : '\n' ∉ t) (out : List Char) :
    column (out ++ t) = column out + t.length := by
  have hall : ∀ c ∈ t.reverse, decide (c ≠ '\n') = true := by
    intro c hc
    exact decide_eq_true fun h => ht (h ▸ List.mem_reverse.1 hc)
  rw [column, List.reverse_append, List.takeWhile_append_of_pos hall, List.length_append,
    List.length_reverse, Nat.add_comm, column]

@[simp]
theorem column_newline (indent : UInt64) (out : List Char) :
    column (out ++ newline indent) = indent.toNat := by
  have hspaces : '\n' ∉ List.replicate indent.toNat ' ' := by simp
  rw [newline, ← List.singleton_append, ← List.append_assoc, column_append hspaces]
  simp [column]

/-! ## The flat layout -/

theorem renderImpl_append (width : Option ℕ) (doc : Doc) (indent : UInt64) (mode : Mode)
    (out : List Char) :
    renderImpl width doc indent mode out = out ++ renderImpl width doc indent mode [] := by
  induction doc generalizing width indent mode out with
  | nil => simp [renderImpl]
  | text t => simp [renderImpl]
  | line => simp [renderImpl]
  | break_ => cases mode <;> simp [renderImpl]
  | cat left right ihl ihr =>
      rw [renderImpl, ihl, ihr, renderImpl, ihr _ _ _ (renderImpl width left indent mode []),
        List.append_assoc]
  | nest spaces inner ih => rw [renderImpl, ih, renderImpl]
  | group inner ih =>
      simp only [renderImpl]
      split_ifs
      · exact ih ..
      · simp

/-- A hard line is a newline in every layout. -/
theorem newline_mem_of_hasLine {doc : Doc} (h : doc.hasLine = true) (width : Option ℕ)
    (indent : UInt64) (mode : Mode) : '\n' ∈ renderImpl width doc indent mode [] := by
  induction doc generalizing width indent mode with
  | line => simp [renderImpl, newline]
  | cat left right ihl ihr =>
      rw [renderImpl, renderImpl_append, List.mem_append]
      rw [hasLine, Bool.or_eq_true] at h
      exact h.imp (fun h => ihl h ..) fun h => ihr h ..
  | nest spaces inner ih => exact ih h ..
  | group inner ih =>
      simp only [renderImpl]
      split_ifs with hsplit
      · exact ih h ..
      · exact absurd (ih h ..) fun hmem => hsplit (.inl hmem)
  | _ => cases h

theorem newline_notMem_flatLayout {doc : Doc} (h : doc.NoNewline) : '\n' ∉ doc.flatLayout := by
  induction doc with
  | text t => exact h
  | cat left right ihl ihr =>
      rw [flatLayout, List.mem_append]
      exact not_or.2 ⟨ihl h.1, ihr h.2⟩
  | nest spaces inner ih => exact ih h
  | group inner ih => exact ih h
  | _ => simp [flatLayout]

theorem renderImpl_flat {doc : Doc} (h : doc.NoNewline) (hline : doc.hasLine = false)
    (indent : UInt64) (out : List Char) :
    renderImpl none doc indent .flat out = out ++ doc.flatLayout := by
  induction doc generalizing indent out with
  | line => cases hline
  | cat left right ihl ihr =>
      rw [hasLine, Bool.or_eq_false_iff] at hline
      rw [renderImpl, ihl h.1 hline.1, ihr h.2 hline.2, flatLayout, List.append_assoc]
  | nest spaces inner ih => exact ih h hline ..
  | group inner ih =>
      have hinner : inner.NoNewline := h
      have hflat := ih h hline indent []
      rw [List.nil_append] at hflat
      simp only [renderImpl, hflat, Exceeds, or_false,
        if_neg (newline_notMem_flatLayout hinner), flatLayout]
  | _ => simp [renderImpl, flatLayout]

/-- What `renderImpl` tests. -/
theorem test_iff {inner : Doc} (h : inner.NoNewline) (width : Option ℕ) (indent : UInt64) :
    ('\n' ∈ renderImpl none inner indent .flat [] ∨
        Exceeds (len (renderImpl none inner indent .flat [])) width) ↔
      inner.hasLine = true ∨ Exceeds (len inner.flatLayout) width := by
  cases hline : inner.hasLine with
  | true => exact iff_of_true (.inl (newline_mem_of_hasLine hline ..)) (.inl rfl)
  | false =>
      rw [renderImpl_flat h hline, List.nil_append]
      simp [newline_notMem_flatLayout h]

theorem test_some_iff {inner : Doc} (h : inner.NoNewline) (width : ℕ) (indent : UInt64) :
    ('\n' ∈ renderImpl none inner indent .flat [] ∨
        Exceeds (len (renderImpl none inner indent .flat [])) (some width)) ↔
      inner.hasLine = true ∨ width < len inner.flatLayout :=
  test_iff h (some width) indent

theorem column_renderImpl {doc : Doc} (h : doc.NoNewline) (width : ℕ) (indent : UInt64)
    (out : List Char) :
    column (renderImpl (some width) doc indent .broken out) =
      endColumn width doc indent (column out) := by
  induction doc generalizing indent out with
  | nil => rfl
  | text t => exact column_append h out
  | line => exact column_newline indent out
  | break_ => exact column_newline indent out
  | cat left right ihl ihr => rw [renderImpl, ihr h.2, ihl h.1, endColumn]
  | nest spaces inner ih => exact ih h ..
  | group inner ih =>
      have hinner : inner.NoNewline := h
      simp only [renderImpl, endColumn]
      by_cases hsplit : inner.hasLine = true ∨ width < len inner.flatLayout
      · rw [if_pos hsplit, if_pos ((test_some_iff hinner ..).2 hsplit), ih hinner]
      · have hline : inner.hasLine = false := Bool.eq_false_iff.2 fun hl => hsplit (.inl hl)
        rw [if_neg hsplit, if_neg (mt (test_some_iff hinner ..).1 hsplit),
          renderImpl_flat hinner hline, List.nil_append,
          column_append (newline_notMem_flatLayout hinner)]

/-! ## The groups -/

/-- Inside of a group on one line every group is on it, and ends no later. -/
theorem laid_flat {doc : Doc} (h : doc.NoNewline) (hline : doc.hasLine = false)
    (indent : UInt64) (out : List Char) :
    ∀ g ∈ laid none doc indent .flat out,
      g.flat = true ∧ column g.after ≤ column (out ++ doc.flatLayout) := by
  induction doc generalizing indent out with
  | cat left right ihl ihr =>
      rw [hasLine, Bool.or_eq_false_iff] at hline
      intro g hg
      rw [laid, List.mem_append, renderImpl_flat h.1 hline.1] at hg
      rw [flatLayout, ← List.append_assoc]
      rcases hg with hg | hg
      · obtain ⟨hflat, hle⟩ := ihl h.1 hline.1 indent out g hg
        refine ⟨hflat, hle.trans ?_⟩
        rw [column_append (newline_notMem_flatLayout h.2)]
        exact Nat.le_add_right ..
      · exact ihr h.2 hline.2 indent _ g hg
  | nest spaces inner ih => exact ih h hline (indent + spaces) out
  | group inner ih =>
      have hinner : inner.NoNewline := h
      have hno : ¬ (inner.hasLine = true ∨ Exceeds (len inner.flatLayout) none) := by
        simpa [Exceeds, hasLine] using hline
      intro g hg
      simp only [laid, if_neg (mt (test_iff hinner ..).1 hno), List.mem_cons] at hg
      rcases hg with rfl | hg
      · exact ⟨rfl, by rw [renderImpl_flat hinner hline, List.nil_append, flatLayout]⟩
      · exact ih hinner hline indent out g hg
  | _ => simp [laid]

theorem laid_respect_iff {doc : Doc} (h : doc.NoNewline) (width : ℕ) (indent : UInt64)
    (out : List Char) :
    (∀ g ∈ laid (some width) doc indent .broken out, g.Respects width) ↔
      Suits width doc indent (column out) := by
  induction doc generalizing indent out with
  | cat left right ihl ihr =>
      rw [laid, List.forall_mem_append, ihl h.1, ihr h.2, column_renderImpl h.1, Suits]
  | nest spaces inner ih => exact ih h ..
  | group inner ih =>
      have hinner : inner.NoNewline := h
      have hcolumn := column_append (newline_notMem_flatLayout hinner) out
      simp only [laid, Suits]
      by_cases hsplit : inner.hasLine = true ∨ width < len inner.flatLayout
      · rw [if_pos ((test_some_iff hinner ..).2 hsplit), List.forall_mem_cons, ih hinner]
        refine and_congr ?_ (by simp [hsplit])
        show inner.hasLine = true ∨ width < column (out ++ inner.flatLayout) ↔ _
        rw [hcolumn]
        cases hline : inner.hasLine with
        | true => simp
        | false =>
            have hlen : ¬ len inner.flatLayout ≤ width := by
              simpa [hline] using hsplit
            simp [hlen]
      · have hline : inner.hasLine = false := Bool.eq_false_iff.2 fun hl => hsplit (.inl hl)
        have hlen : len inner.flatLayout ≤ width := not_lt.1 fun hlt => hsplit (.inr hlt)
        rw [if_neg (mt (test_some_iff hinner ..).1 hsplit), List.forall_mem_cons,
          renderImpl_flat hinner hline, List.nil_append]
        have hflat : (⟨out, inner, true, out ++ inner.flatLayout⟩ : Laid).Respects width ↔
            column out + inner.flatLayout.length ≤ width := by
          rw [← hcolumn]
          exact Iff.rfl
        have hinside : column out + inner.flatLayout.length ≤ width →
            ∀ g ∈ laid none inner indent .flat out, g.Respects width := by
          intro hfits g hg
          obtain ⟨hgflat, hle⟩ := laid_flat hinner hline indent out g hg
          rw [Laid.Respects, if_pos hgflat]
          exact hle.trans (hcolumn ▸ hfits)
        rw [hflat]
        simp only [hline, hlen, forall_const, true_iff, false_or, not_lt.2 hlen,
          Bool.false_eq_true, IsEmpty.forall_iff, and_true]
        exact ⟨And.left, fun hfits => ⟨hfits, hinside hfits⟩⟩
  | _ => simp [laid, Suits]

/-- **Groups and the line budget.** The groups of a layout respect the width exactly if the number
    of bytes is the right test for each of them where it begins. -/
theorem groups_respect_iff (doc : Doc) (h : doc.NoNewline) (width : ℕ) :
    (∀ g ∈ laid (some width) doc 0 .broken [], g.Respects width) ↔ doc.Suits width 0 0 :=
  laid_respect_iff h width 0 []

/-- A group at the beginning of the line, in ASCII. -/
theorem groups_respect_short :
    (group (cat (text ['a', 'b']) (cat break_ (text ['c'])))).NoNewline ∧
      ∀ g ∈ laid (some 4) (group (cat (text ['a', 'b']) (cat break_ (text ['c'])))) 0 .broken [],
        g.Respects 4 := by
  have hno : (group (cat (text ['a', 'b']) (cat break_ (text ['c'])))).NoNewline := by
    simp [NoNewline]
  refine ⟨hno, (groups_respect_iff _ hno 4).2 ⟨fun _ => ?_, fun _ => ⟨trivial, trivial, trivial⟩⟩⟩
  decide

/-- The group has two bytes and is laid out from the column 2 to the column 4, in a width of 3. -/
theorem group_past_width :
    (cat (text ['a', 'b']) (group (text ['c', 'd']))).NoNewline ∧
      render (cat (text ['a', 'b']) (group (text ['c', 'd']))) 3 = ['a', 'b', 'c', 'd'] ∧
      ¬ ∀ g ∈ laid (some 3) (cat (text ['a', 'b']) (group (text ['c', 'd']))) 0 .broken [],
        g.Respects 3 := by
  have hno : (cat (text ['a', 'b']) (group (text ['c', 'd']))).NoNewline := by simp [NoNewline]
  refine ⟨hno, by decide, fun hall => ?_⟩
  obtain ⟨-, htest, -⟩ := (laid_respect_iff hno 3 0 []).1 hall
  exact absurd ((htest rfl).1 (by decide)) (by decide)

end Doc

end IdEffect.Parse
