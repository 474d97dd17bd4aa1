import IdEffect.Parse.Integers

set_option autoImplicit false

/-! # Codecs: `codec.rs`

A codec is a parser with a printer. It keeps what it prints apart from whatever follows if the
parser gives back every value in front of every other input (`Codec.RoundTrips`). Quoted strings do
that by their escapes (`quotedString_parse_print`), and pairs inherit it. A list does not quite: the
empty vector is printed as nothing, but the parser of a list begins with an item
(`pair_list_roundTrip_iff`). -/

namespace IdEffect.Parse

structure Codec (I O E : Type) where
  parser : Parser I O E
  print : O → I

variable {A B E U : Type}

namespace Codec

def map {I O : Type} (c : Codec I O E) (forth : O → U) (back : U → O) : Codec I U E where
  parser := c.parser.map forth
  print value := c.print (back value)

/-- What is printed is read back in front of any input. -/
def RoundTrips (c : Codec (List Char) A E) : Prop :=
  ∀ v r, c.parser (c.print v ++ r) = some (.ok (v, r))

theorem RoundTrips.map {c : Codec (List Char) A E} (h : c.RoundTrips) {forth : A → U}
    {back : U → A} (hinv : ∀ u, forth (back u) = u) : (c.map forth back).RoundTrips := by
  intro v r
  simp only [Codec.map, Parser.map, h (back v) r, Option.map_some, Except.map, hinv]

end Codec

/-! ## Quoted strings -/

/-- The character that an escaped `ch` pushes. -/
def unescape (ch : Char) : Char :=
  if ch = 'n' then '\n'
  else if ch = 't' then '\t'
  else if ch = '\\' then '\\'
  else if ch = '"' then '"'
  else ch

/-- The loop over the characters after the opening quote. -/
def quotedLoop : List Char → Bool → List Char → Except ParseFailure (List Char × List Char)
  | _, _, [] => .error ⟨"unterminated quoted string"⟩
  | out, true, ch :: rest => quotedLoop (out ++ [unescape ch]) false rest
  | out, false, ch :: rest =>
      if ch = '\\' then quotedLoop out true rest
      else if ch = '"' then .ok (out, rest)
      else quotedLoop (out ++ [ch]) false rest

/-- `str::replace` of one character. -/
def replace (c : Char) (replacement value : List Char) : List Char :=
  value.flatMap fun x => if x = c then replacement else [x]

def escape (value : List Char) : List Char :=
  replace '\t' ['\\', 't']
    (replace '\n' ['\\', 'n']
      (replace '"' ['\\', '"']
        (replace '\\' ['\\', '\\'] value)))

def quotedString : Codec (List Char) (List Char) ParseFailure where
  parser
    | '"' :: rest => some (quotedLoop [] false rest)
    | _ => some (.error ⟨"expected opening quote"⟩)
  print value := '"' :: (escape value ++ ['"'])

@[simp]
theorem replace_append (c : Char) (replacement l l' : List Char) :
    replace c replacement (l ++ l') = replace c replacement l ++ replace c replacement l' :=
  List.flatMap_append

/-- No replacement looks at more than one character. -/
theorem escape_cons (c : Char) (value : List Char) :
    escape (c :: value) = escape [c] ++ escape value := by
  rw [← List.singleton_append]
  simp only [escape, replace_append]

/-- The later replacements leave alone what the earlier ones put in, except for what they are for:
    no character of an escape is replaced once more. -/
theorem escape_singleton (c : Char) :
    escape [c] = if c = '\\' ∨ c = '"' then ['\\', c]
      else if c = '\n' then ['\\', 'n']
      else if c = '\t' then ['\\', 't']
      else [c] := by
  split_ifs with hself hn ht
  · rcases hself with rfl | rfl <;> rfl
  · rw [hn]; rfl
  · rw [ht]; rfl
  · rw [not_or] at hself
    simp [escape, replace, hself.1, hself.2, hn, ht]

/-- One character, however it is escaped. -/
theorem quotedLoop_escape (c : Char) (out rest : List Char) :
    quotedLoop out false (escape [c] ++ rest) = quotedLoop (out ++ [c]) false rest := by
  rw [escape_singleton]
  split_ifs with hself hn ht
  · rcases hself with rfl | rfl <;> rfl
  · rw [hn]; rfl
  · rw [ht]; rfl
  · rw [not_or] at hself
    rw [List.singleton_append, quotedLoop, if_neg hself.1, if_neg hself.2]

theorem quotedLoop_print (value out rest : List Char) :
    quotedLoop out false (escape value ++ '"' :: rest) = .ok (out ++ value, rest) := by
  induction value generalizing out with
  | nil => simp [escape, replace, quotedLoop]
  | cons c value ih =>
      rw [escape_cons, List.append_assoc, quotedLoop_escape, ih, List.append_assoc,
        List.singleton_append]

/-- **Quoted strings delimit themselves**, whatever they contain and whatever follows. -/
theorem quotedString_parse_print (s r : List Char) :
    quotedString.parser (quotedString.print s ++ r) = some (.ok (s, r)) := by
  show some (quotedLoop [] false (escape s ++ ['"'] ++ r)) = _
  rw [List.append_assoc, List.singleton_append, quotedLoop_print, List.nil_append]

/-! ## Literals -/

def intCodec : Codec (List Char) Int64 ParseFailure where
  parser := signedInt
  print := i64ToString

def boolCodec : Codec (List Char) Bool ParseFailure where
  parser := boolLit
  print value := if value then ['t', 'r', 'u', 'e'] else ['f', 'a', 'l', 's', 'e']

theorem boolCodec_roundTrips : boolCodec.RoundTrips := by
  intro v r
  cases v <;> rfl

/-! ## Pairs and lists -/

/-- Pair two codecs in sequence. -/
def pair (left : Codec (List Char) A E) (right : Codec (List Char) B E) :
    Codec (List Char) (A × B) E where
  parser := left.parser.andThen fun a => right.parser.map fun b => (a, b)
  print v := left.print v.1 ++ right.print v.2

/-- Comma-separated list codec. -/
def list (item : Codec (List Char) A ParseFailure) : Codec (List Char) (List A) ParseFailure where
  parser := sepBy item.parser (void (char ','))
  print items := [','].intercalate (items.map item.print)

theorem pair_roundTrips {left : Codec (List Char) A E} {right : Codec (List Char) B E}
    (hl : left.RoundTrips) (hr : right.RoundTrips) : (pair left right).RoundTrips := by
  intro v r
  simp only [pair, Parser.andThen, Parser.map, List.append_assoc, hl v.1, hr v.2, Option.bind_some,
    Option.map_some, Except.map]

section list

variable {item : Codec (List Char) A ParseFailure} (hitem : item.RoundTrips)
include hitem

/-- The loop reads the items that are left, each behind a comma, and stops where no comma comes. -/
theorem sepByLoop_print {r : List Char} (hr : r.head? ≠ some ',') (items out : List A) :
    item.parser.sepByLoop (void (char ',')) out
        (items.flatMap (fun v => ',' :: item.print v) ++ r) =
      some (.ok (out ++ items, r)) := by
  induction items generalizing out with
  | nil =>
      obtain ⟨e, he⟩ := void_char_error hr
      rw [List.flatMap_nil, List.nil_append, sepByLoop_stop he, List.append_nil]
  | cons v items ih =>
      rw [List.flatMap_cons, List.append_assoc, List.cons_append,
        sepByLoop_next (void_char_self _ _) (hitem v _), ih, List.append_assoc,
        List.singleton_append]

omit hitem in
theorem intercalate_print (v : A) (items : List A) :
    [','].intercalate ((v :: items).map item.print) =
      item.print v ++ items.flatMap fun v => ',' :: item.print v := by
  induction items generalizing v with
  | nil => simp
  | cons w items ih =>
      rw [List.map_cons, List.intercalate_cons_of_ne_nil (by simp), ih, List.flatMap_cons]
      simp

/-- A vector with an item is read back. -/
theorem list_parse_print {r : List Char} (hr : r.head? ≠ some ',') {vs : List A} (hvs : vs ≠ []) :
    (list item).parser ((list item).print vs ++ r) = some (.ok (vs, r)) := by
  obtain ⟨v, items, rfl⟩ := List.exists_cons_of_ne_nil hvs
  show sepBy _ _ ([','].intercalate ((v :: items).map item.print) ++ r) = _
  rw [intercalate_print, List.append_assoc, sepBy, hitem v, Option.bind_some]
  exact sepByLoop_print hitem hr items [v]

end list

/-- **Round trips of pairs and lists.** A pair of codecs that give their values back gives the pair
    back. A list gives a vector back, in front of anything but a comma, exactly if the vector has an
    item: the parser never returns the empty one. -/
theorem pair_list_roundTrip_iff {C : Type} {left : Codec (List Char) A E}
    {right : Codec (List Char) B E} {item : Codec (List Char) C ParseFailure}
    (hl : left.RoundTrips) (hr : right.RoundTrips) (hitem : item.RoundTrips) :
    (pair left right).RoundTrips ∧
      ∀ (vs : List C) (r : List Char), r.head? ≠ some ',' →
        ((list item).parser ((list item).print vs ++ r) = some (.ok (vs, r)) ↔ vs ≠ []) := by
  refine ⟨pair_roundTrips hl hr, fun vs r hcomma => ⟨?_, ?_⟩⟩
  · exact fun h => sepBy_ne_nil h
  · exact fun hvs => list_parse_print hitem hcomma hvs

theorem pair_list_roundTrip_bool :
    (pair boolCodec boolCodec).RoundTrips ∧
      ((list boolCodec).parser ((list boolCodec).print [true, false] ++ [';']) =
        some (.ok ([true, false], [';'])) ↔ [true, false] ≠ []) := by
  obtain ⟨hpair, hlist⟩ := pair_list_roundTrip_iff boolCodec_roundTrips boolCodec_roundTrips
    boolCodec_roundTrips
  exact ⟨hpair, hlist [true, false] [';'] (by decide)⟩

/-- The empty vector of booleans is printed as nothing, which is no list of booleans. -/
theorem list_empty_not_read :
    boolCodec.RoundTrips ∧ (∀ v, boolCodec.print v ≠ []) ∧
      ¬ ∀ (vs : List Bool) (r : List Char), r.head? ≠ some ',' →
        (list boolCodec).parser ((list boolCodec).print vs ++ r) = some (.ok (vs, r)) := by
  refine ⟨boolCodec_roundTrips, by decide, fun h => ?_⟩
  have hread : sepBy boolLit (void (char ',')) [] = some (.ok ([], [])) := h [] [] (by decide)
  exact sepBy_ne_nil hread rfl

end IdEffect.Parse
