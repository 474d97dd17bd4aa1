import IdEffect.Optics.Rfc6902

set_option autoImplicit false

/-! # How the code reads a pointer

A pointer whose first token is not empty is split into its tokens, each decoded and classified by
itself (`parsePath_render`). The dotted rendering of its segments is read back to the same segments
when no token holds a dot and the first does not start with a slash
(`parsePath_segmentsToDot`). -/

namespace IdEffect.Optics

open Rfc6902 (Token Pointer escape render arrayIndex)

/-! ## Tokens -/

/-- Undoing the second escape leaves the first. -/
theorem replacePair_slash (t : Token) :
    replacePair '~' '1' '/' (escape t)
      = t.flatMap fun c => if c = '~' then ['~', '0'] else [c] := by
  induction t with
  | nil => rfl
  | cons c t ih =>
      rw [escape] at ih ⊢
      rw [List.flatMap_cons, List.flatMap_cons]
      by_cases hc : c = '~'
      · rw [if_pos hc, if_pos hc]
        -- the `0` that follows the tilde begins no pair
        have hzero : ∀ text, replacePair '~' '1' '/' ('0' :: text)
            = '0' :: replacePair '~' '1' '/' text := by
          intro text
          cases text with
          | nil => rfl
          | cons d text => rw [replacePair, if_neg (fun h => absurd h.1 (by decide))]
        rw [List.cons_append, List.singleton_append, replacePair, if_neg (by decide), hzero, ih]
        rfl
      · rw [if_neg hc, if_neg hc]
        by_cases hs : c = '/'
        · rw [if_pos hs, List.cons_append, List.singleton_append, replacePair,
            if_pos (by decide), ih, hs]
          rfl
        · rw [if_neg hs, List.singleton_append, List.singleton_append]
          cases htext : t.flatMap fun c =>
              if c = '~' then ['~', '0'] else if c = '/' then ['~', '1'] else [c] with
          | nil =>
              rw [htext] at ih
              rw [← ih]
              rfl
          | cons d text => rw [replacePair, if_neg (fun h => hc h.1), ← htext, ih]

theorem replacePair_tilde (t : Token) :
    replacePair '~' '0' '~' (t.flatMap fun c => if c = '~' then ['~', '0'] else [c]) = t := by
  induction t with
  | nil => rfl
  | cons c t ih =>
      rw [List.flatMap_cons]
      by_cases hc : c = '~'
      · rw [if_pos hc, List.cons_append, List.singleton_append, replacePair, if_pos (by decide),
          ih, hc]
      · rw [if_neg hc, List.singleton_append]
        cases htext : t.flatMap fun c => if c = '~' then ['~', '0'] else [c] with
        | nil =>
            rw [htext] at ih
            rw [← ih]
            rfl
        | cons d text => rw [replacePair, if_neg (fun h => hc h.1), ← htext, ih]

/-- **Decoding undoes the escapes of a token.** -/
theorem decodeJsonPointerSegment_escape (t : Token) :
    decodeJsonPointerSegment (escape t) = t := by
  rw [decodeJsonPointerSegment, replacePair_slash, replacePair_tilde]

theorem slash_notMem_escape (t : Token) : '/' ∉ escape t := by
  intro h
  obtain ⟨c, -, hc⟩ := List.mem_flatMap.mp h
  split_ifs at hc with htilde hslash
  · simp at hc
  · simp at hc
  · exact hslash (List.mem_singleton.mp hc).symm

theorem escape_ne_nil {t : Token} (h : t ≠ []) : escape t ≠ [] := by
  intro he
  apply h
  rw [← decodeJsonPointerSegment_escape t, he]
  rfl

/-! ## Pointers -/

theorem render_cons (t : Token) (p : Pointer) :
    render (t :: p) = '/' :: ['/'].intercalate ((t :: p).map escape) := by
  induction p generalizing t with
  | nil =>
      rw [List.map_cons, List.map_nil, List.intercalate_singleton]
      exact congrArg _ (List.append_nil _)
  | cons u p ih =>
      rw [List.map_cons, List.map_cons, List.intercalate_cons_cons, ← List.map_cons]
      rw [render, List.flatMap_cons, ← render, ih u]
      simp

/-- **Reading a pointer** classifies its tokens one by one. -/
theorem parsePath_render {p : Pointer} (h : p.head? ≠ some []) :
    parsePath (render p) = p.map parseSegment := by
  cases p with
  | nil => rfl
  | cons t p =>
      have ht : t ≠ [] := fun ht => h (congrArg some ht)
      have hsep : ∀ l ∈ (t :: p).map escape, '/' ∉ l := by
        intro l hl
        obtain ⟨u, -, rfl⟩ := List.mem_map.mp hl
        exact slash_notMem_escape u
      -- escaped tokens hold no slash, so splitting gives them back
      have hsplit := List.splitOn_intercalate '/' hsep (by simp)
      -- trimming slashes from the front takes the first one only
      obtain ⟨c, text, hc⟩ := List.exists_cons_of_ne_nil (escape_ne_nil ht)
      have hslash : c ≠ '/' := by
        rintro rfl
        exact slash_notMem_escape t (hc ▸ List.mem_cons_self ..)
      have hjoin : ['/'].intercalate ((t :: p).map escape)
          = c :: ['/'].intercalate (text :: p.map escape) := by
        rw [List.map_cons, hc, List.intercalate_cons_cons_left]
      rw [render_cons, parsePath, if_neg (by simp), if_pos List.head?_cons, parseJsonPointer, hjoin,
        if_neg (by simp), List.dropWhile_cons_of_pos (by decide),
        List.dropWhile_cons_of_neg (by simpa using hslash), ← hjoin, hsplit, List.map_map]
      exact List.map_congr_left fun u _ => congrArg _ (decodeJsonPointerSegment_escape u)

/-- Slashes at the beginning are trimmed. -/
theorem parsePath_slash_slash {text : List Char} (h : text ≠ []) :
    parsePath ('/' :: '/' :: text) = parsePath ('/' :: text) := by
  rw [parsePath, if_neg (by simp), if_pos List.head?_cons, parsePath, if_neg (by simp),
    if_pos List.head?_cons, parseJsonPointer, if_neg (by simp), parseJsonPointer,
    if_neg (by simpa using h), List.dropWhile_cons_of_pos (by decide)]

/-! ## Indices -/

theorem head?_toDigits_ne {c : Char} (hc : c.isDigit = false) (i : ℕ) :
    (Nat.toDigits 10 i).head? ≠ some c := by
  intro hh
  have hd := Nat.isDigit_of_mem_toDigits (by decide) (by decide) (List.mem_of_head? hh)
  rw [hc] at hd
  cases hd

theorem parseUsize_toDigits {i : ℕ} (h : i < 18446744073709551616) :
    parseUsize (Nat.toDigits 10 i) = some i := by
  have hall : (Nat.toDigits 10 i).all Char.isDigit := by
    rw [List.all_eq_true]
    exact fun c hc => Nat.isDigit_of_mem_toDigits (by decide) (by decide) hc
  rw [parseUsize, if_neg (head?_toDigits_ne (by decide) i), Nat.ofDigitChars_ten_toDigits,
    if_pos ⟨Nat.toDigits_ne_nil, hall, h⟩]

theorem parseUsize_toDigits_eq_none {i : ℕ} (h : ¬ i < 18446744073709551616) :
    parseUsize (Nat.toDigits 10 i) = none := by
  rw [parseUsize, if_neg (head?_toDigits_ne (by decide) i), Nat.ofDigitChars_ten_toDigits,
    if_neg fun hd => h hd.2.2]

theorem parseUsize_lt {t : List Char} {i : ℕ} (h : parseUsize t = some i) :
    i < 18446744073709551616 := by
  unfold parseUsize at h
  dsimp only at h
  generalize (if t.head? = some '+' then t.tail else t) = digits at h
  split_ifs at h with hd
  rw [← Option.some.inj h]
  exact hd.2.2

theorem toDigits_ne_dash (i : ℕ) : Nat.toDigits 10 i ≠ ['-'] := by
  intro hd
  exact head?_toDigits_ne (by decide) i (congrArg List.head? hd)

theorem parseSegment_toDigits {i : ℕ} (h : i < 18446744073709551616) :
    parseSegment (Nat.toDigits 10 i) = .index i := by
  rw [parseSegment, if_neg (toDigits_ne_dash i), parseUsize_toDigits h]

/-- What a token can be read as. -/
theorem parseSegment_cases (t : List Char) :
    (t = ['-'] ∧ parseSegment t = .append)
      ∨ (t ≠ ['-'] ∧ ∃ i, i < 18446744073709551616 ∧ parseSegment t = .index i)
      ∨ (t ≠ ['-'] ∧ parseSegment t = .field (String.ofList t)) := by
  by_cases ht : t = ['-']
  · exact .inl ⟨ht, by rw [parseSegment, if_pos ht]⟩
  · rw [parseSegment, if_neg ht]
    cases hi : parseUsize t with
    | some i => exact .inr (.inl ⟨ht, i, parseUsize_lt hi, rfl⟩)
    | none => exact .inr (.inr ⟨ht, rfl⟩)

/-! ## Dotted paths -/

/-- Rendering a segment and reading it again gives the segment. -/
theorem parseSegment_toDot (t : Token) :
    parseSegment (parseSegment t).toDot = parseSegment t := by
  rcases parseSegment_cases t with ⟨-, ht⟩ | ⟨-, i, hi, ht⟩ | ⟨-, ht⟩
  · rw [ht]
    rfl
  · rw [ht, PathSegment.toDot, parseSegment_toDigits hi]
  · conv_lhs => rw [ht, PathSegment.toDot, String.toList_ofList]

/-- What a path is read as is what its tokens are read as. -/
theorem exists_parsePath_eq (path : List Char) :
    ∃ tokens : List Token, parsePath path = tokens.map parseSegment := by
  rw [parsePath]
  split_ifs with hnil hslash
  · exact ⟨[], rfl⟩
  · rw [parseJsonPointer]
    split_ifs
    · exact ⟨[], rfl⟩
    · exact ⟨_, (List.map_map (g := parseSegment) (f := decodeJsonPointerSegment)).symm⟩
  · exact ⟨_, rfl⟩

theorem notMem_of_mem_splitOn {α : Type} [BEq α] [LawfulBEq α] {a : α} {l part : List α}
    (h : part ∈ l.splitOn a) : a ∉ part := by
  induction l generalizing part with
  | nil => simp_all
  | cons x l ih =>
      rw [List.splitOn_cons_eq_if_modifyHead] at h
      split_ifs at h with hx
      · rcases List.mem_cons.mp h with rfl | h
        · simp
        · exact ih h
      · obtain ⟨first, rest, hsplit⟩ := List.exists_cons_of_ne_nil (List.splitOn_ne_nil a l)
        rw [hsplit] at h ih
        rcases List.mem_cons.mp h with rfl | h
        · have hne : a ≠ x := fun heq => hx (beq_iff_eq.mpr heq.symm)
          simpa [hne] using ih (List.mem_cons_self ..)
        · exact ih (List.mem_cons_of_mem _ h)

theorem length_replacePair_le (a b out : Char) (text : List Char) :
    (replacePair a b out text).length ≤ text.length := by
  fun_induction replacePair a b out text with
  | case1 c d text h ih => simp; omega
  | case2 c d text h ih => simp at ih ⊢; omega
  | case3 text h => exact le_rfl

theorem length_decodeJsonPointerSegment_le (t : List Char) :
    (decodeJsonPointerSegment t).length ≤ t.length :=
  (length_replacePair_le ..).trans (length_replacePair_le ..)

theorem ofDigitChars_lt {digits : List Char} (h : digits.all Char.isDigit) :
    Nat.ofDigitChars 10 digits 0 < 10 ^ digits.length := by
  induction digits with
  | nil => simp
  | cons c digits ih =>
      rw [List.all_cons, Bool.and_eq_true] at h
      have hc : c.toNat - '0'.toNat ≤ 9 := by
        have := h.1
        simp [Char.isDigit, UInt32.le_iff_toNat_le] at this
        have hc : c.toNat = c.val.toNat := rfl
        simp
        omega
      rw [Nat.ofDigitChars_cons, Nat.ofDigitChars_eq_ofDigitChars_zero, Nat.mul_zero, Nat.zero_add,
        List.length_cons, Nat.pow_succ]
      calc 10 ^ digits.length * (c.toNat - '0'.toNat) + Nat.ofDigitChars 10 digits 0
          < 10 ^ digits.length * (c.toNat - '0'.toNat) + 10 ^ digits.length :=
            Nat.add_lt_add_left (ih h.2) _
        _ = 10 ^ digits.length * (c.toNat - '0'.toNat + 1) := (Nat.mul_succ ..).symm
        _ ≤ 10 ^ digits.length * 10 := Nat.mul_le_mul_left _ (Nat.succ_le_succ hc)

/-- Digits without leading zeros and without a sign are the shortest. -/
theorem length_toDigits_parseUsize_le {t : List Char} {i : ℕ} (h : parseUsize t = some i) :
    (Nat.toDigits 10 i).length ≤ t.length := by
  unfold parseUsize at h
  dsimp only at h
  have hle : (if t.head? = some '+' then t.tail else t).length ≤ t.length := by
    split_ifs <;> simp
  generalize (if t.head? = some '+' then t.tail else t) = digits at h hle
  split_ifs at h with hd
  obtain rfl := Option.some.inj h
  have hpos : 0 < digits.length := List.length_pos_of_ne_nil hd.1
  exact ((Nat.length_toDigits_le_iff (by decide) hpos).mpr (ofDigitChars_lt hd.2.1)).trans hle

theorem length_toDot_parseSegment_le (t : List Char) :
    (parseSegment t).toDot.length ≤ t.length := by
  rw [parseSegment]
  split_ifs with hdash
  · rw [hdash]
    rfl
  · cases hi : parseUsize t with
    | some i => exact length_toDigits_parseUsize_le hi
    | none => rw [PathSegment.toDot, String.toList_ofList]

theorem length_intercalate_map_le {α β : Type} {f : List α → List β} {l : List (List α)}
    (hf : ∀ t, (f t).length ≤ t.length) (a : α) (b : β) :
    ([b].intercalate (l.map f)).length ≤ ([a].intercalate l).length := by
  induction l with
  | nil => exact le_rfl
  | cons t l ih =>
      cases l with
      | nil => simpa using hf t
      | cons u l =>
          rw [List.map_cons, List.map_cons, List.intercalate_cons_cons, List.intercalate_cons_cons]
          rw [List.map_cons] at ih
          have ht := hf t
          simp at ih ⊢
          omega

theorem toList_of_parseSegment {t : Token} {name : String} (h : parseSegment t = .field name) :
    name.toList = t := by
  rcases parseSegment_cases t with ⟨-, ht⟩ | ⟨-, i, -, ht⟩ | ⟨-, ht⟩
  · cases h.symm.trans ht
  · cases h.symm.trans ht
  · rw [PathSegment.field.inj (h.symm.trans ht), String.toList_ofList]

theorem PathSegment.dot_notMem_toDot {s : PathSegment}
    (h : ∀ name, s = .field name → '.' ∉ name.toList) : '.' ∉ s.toDot := by
  cases s with
  | field name => exact h name rfl
  | index i =>
      intro hm
      exact absurd (Nat.isDigit_of_mem_toDigits (by decide) (by decide) hm) (by decide)
  | append => decide

theorem PathSegment.head?_toDot_ne {s : PathSegment}
    (h : ∀ name, s = .field name → name.toList.head? ≠ some '/') : s.toDot.head? ≠ some '/' := by
  cases s with
  | field name => exact h name rfl
  | index i => exact head?_toDigits_ne (by decide) i
  | append => decide

theorem PathSegment.toDot_eq_nil {s : PathSegment} (h : s.toDot = []) : s = .field "" := by
  cases s with
  | field name => rw [String.toList_eq_nil_iff.mp h]
  | index i => exact absurd h Nat.toDigits_ne_nil
  | append => cases h

/-- The segments can be joined by dots and split again: no name holds a dot, the first does not look
    like the beginning of a JSON Pointer, and they are not the empty name alone, which is rendered
    like the root. -/
def DotSeparable (segments : List PathSegment) : Prop :=
  (∀ name, .field name ∈ segments → '.' ∉ name.toList)
    ∧ (∀ name, segments.head? = some (.field name) → name.toList.head? ≠ some '/')
    ∧ segments ≠ [.field ""]

/-- Such a rendering is not taken for a JSON Pointer. -/
theorem segmentsToDot_cons {s : PathSegment} {segments : List PathSegment}
    (hslash : s.toDot.head? ≠ some '/') (hne : s :: segments ≠ [.field ""]) :
    ∃ c text, segmentsToDot (s :: segments) = c :: text ∧ c ≠ '/' := by
  cases hs : s.toDot with
  | nil =>
      cases segments with
      | nil => exact absurd (by rw [PathSegment.toDot_eq_nil hs]) hne
      | cons u segments =>
          refine ⟨'.', ['.'].intercalate ((u :: segments).map PathSegment.toDot), ?_, by decide⟩
          rw [segmentsToDot, List.map_cons, hs]
          exact List.intercalate_cons_cons
  | cons c text =>
      refine ⟨c, ['.'].intercalate (text :: segments.map PathSegment.toDot), ?_, ?_⟩
      · rw [segmentsToDot, List.map_cons, hs, List.intercalate_cons_cons_left]
      · rintro rfl
        exact hslash (by rw [hs]; rfl)

/-- What a JSON Pointer is read as takes fewer characters than it, once a slash is trimmed. -/
theorem length_segmentsToDot_parseJsonPointer {text : List Char} (h : text.head? = some '/') :
    (segmentsToDot (parseJsonPointer text)).length < text.length := by
  obtain ⟨text, rfl⟩ : ∃ rest, text = '/' :: rest := by
    cases text with
    | nil => cases h
    | cons c rest => exact ⟨rest, by rw [Option.some.inj h]⟩
  rw [parseJsonPointer]
  split_ifs with hroot
  · exact Nat.succ_pos _
  · rw [segmentsToDot, List.map_map]
    refine (length_intercalate_map_le (fun t => ?_) '/' '.').trans_lt ?_
    · exact (length_toDot_parseSegment_le _).trans (length_decodeJsonPointerSegment_le t)
    · rw [List.intercalate_splitOn, List.dropWhile_cons_of_pos (by decide)]
      exact Nat.lt_succ_of_le (List.dropWhile_suffix _).length_le

theorem parsePath_of_ne_slash {c : Char} (h : c ≠ '/') (text : List Char) :
    parsePath (c :: text) = ((c :: text).splitOn '.').map parseSegment := by
  rw [parsePath, if_neg (by simp), if_neg (by simpa using h), parseDotPath]

/-- **The dotted rendering of what was read from a path is read back to it exactly when it can be
    split at its dots.** -/
theorem parsePath_segmentsToDot_iff (tokens : List Token) :
    parsePath (segmentsToDot (tokens.map parseSegment)) = tokens.map parseSegment
      ↔ DotSeparable (tokens.map parseSegment) := by
  cases tokens with
  | nil => simp [DotSeparable, segmentsToDot, parsePath]
  | cons t tokens =>
      rw [List.map_cons]
      constructor
      · intro h
        have hne : parseSegment t :: tokens.map parseSegment ≠ [.field ""] := by
          intro he
          rw [he] at h
          cases h
        have hslash : ∀ name, parseSegment t = .field name → name.toList.head? ≠ some '/' := by
          intro name hname hhead
          have htext :
              (segmentsToDot (parseSegment t :: tokens.map parseSegment)).head? = some '/' := by
            obtain ⟨rest, hrest⟩ := List.head?_eq_some_iff.mp hhead
            rw [segmentsToDot, List.map_cons, hname, PathSegment.toDot, hrest,
              List.intercalate_cons_cons_left]
            rfl
          -- what comes back from the pointer is too short
          have hlt := length_segmentsToDot_parseJsonPointer htext
          rw [parsePath, if_neg (fun hnil => by rw [hnil] at htext; cases htext),
            if_pos htext] at h
          rw [h] at hlt
          exact lt_irrefl _ hlt
        refine ⟨fun name hname => ?_, fun name hname => hslash name (Option.some.inj hname), hne⟩
        obtain ⟨c, text, htext, hc⟩ := segmentsToDot_cons (PathSegment.head?_toDot_ne hslash) hne
        rw [htext, parsePath_of_ne_slash hc] at h
        rw [← h] at hname
        obtain ⟨part, hpart, hfield⟩ := List.mem_map.mp hname
        rw [toList_of_parseSegment hfield]
        exact notMem_of_mem_splitOn hpart
      · rintro ⟨hdot, hslash, hne⟩
        obtain ⟨c, text, htext, hc⟩ := segmentsToDot_cons
          (PathSegment.head?_toDot_ne fun name hname => hslash name (congrArg some hname)) hne
        have hsep : ∀ l ∈ (parseSegment t :: tokens.map parseSegment).map PathSegment.toDot,
            '.' ∉ l := by
          intro l hl
          obtain ⟨s, hs, rfl⟩ := List.mem_map.mp hl
          exact PathSegment.dot_notMem_toDot fun name hname => hdot name (hname ▸ hs)
        rw [htext, parsePath_of_ne_slash hc, ← htext, segmentsToDot,
          List.splitOn_intercalate '.' hsep (by simp), ← List.map_cons, List.map_map, List.map_map]
        exact List.map_congr_left fun u _ => parseSegment_toDot u

/-- The tokens of a pointer survive being joined by dots. -/
def DotSafe (p : Pointer) : Prop :=
  (∀ t ∈ p, '.' ∉ t) ∧ ∀ t, p.head? = some t → t ≠ [] ∧ t.head? ≠ some '/'

/-- **The dotted rendering of a pointer's segments is read back to them.** -/
theorem parsePath_segmentsToDot {p : Pointer} (h : DotSafe p) :
    parsePath (segmentsToDot (p.map parseSegment)) = p.map parseSegment := by
  rw [parsePath_segmentsToDot_iff]
  refine ⟨fun name hname => ?_, fun name hname => ?_, fun hempty => ?_⟩
  · obtain ⟨t, ht, hfield⟩ := List.mem_map.mp hname
    rw [toList_of_parseSegment hfield]
    exact h.1 t ht
  · cases p with
    | nil => cases hname
    | cons t p =>
        rw [toList_of_parseSegment (Option.some.inj hname)]
        exact (h.2 t rfl).2
  · cases p with
    | nil => cases hempty
    | cons t p => exact (h.2 t rfl).1 (toList_of_parseSegment (List.cons.inj hempty).1).symm

end IdEffect.Optics
