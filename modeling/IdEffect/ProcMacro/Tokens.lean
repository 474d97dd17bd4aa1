import Mathlib.Data.List.Basic

set_option autoImplicit false

/-! # Token streams

What a procedural macro is given: identifiers, punctuation, literals and groups of tokens between
delimiters. Identifiers are compared with their `r#`. A string literal is a token of its own, and
names may be used inside of it: a format string captures the names between its braces
(`captures`). -/

namespace IdEffect.ProcMacro

inductive Delimiter where
  | parenthesis
  | brace
  | bracket
  | none
  deriving DecidableEq, Repr

structure Ident where
  name : String
  raw : Bool
  deriving DecidableEq, Repr

inductive TokenTree where
  | ident (id : Ident)
  | punct (c : Char)
  | str (text : String)
  | literal (text : String)
  | group (delimiter : Delimiter) (stream : List TokenTree)

abbrev TokenStream : Type := List TokenTree

/-- An identifier that is written without `r#`. -/
def word (name : String) : TokenTree := .ident ⟨name, false⟩

/-- `id == name` for a string. -/
def Ident.is (id : Ident) (name : String) : Bool := !id.raw && id.name == name

/-- Induction over all the tokens of a stream, those in its groups included. -/
theorem streamInduction {P : TokenStream → Prop} (nil : P [])
    (leaf : ∀ t ts, (∀ d s, t ≠ .group d s) → P ts → P (t :: ts))
    (group : ∀ d s ts, P s → P ts → P (.group d s :: ts)) : ∀ ts, P ts
  | [] => nil
  | .group d s :: ts =>
      group d s ts (streamInduction nil leaf group s) (streamInduction nil leaf group ts)
  | .ident _ :: ts => leaf _ ts (fun _ _ h => by cases h) (streamInduction nil leaf group ts)
  | .punct _ :: ts => leaf _ ts (fun _ _ h => by cases h) (streamInduction nil leaf group ts)
  | .str _ :: ts => leaf _ ts (fun _ _ h => by cases h) (streamInduction nil leaf group ts)
  | .literal _ :: ts => leaf _ ts (fun _ _ h => by cases h) (streamInduction nil leaf group ts)

/-! ## Text -/

def Ident.text (id : Ident) : String := if id.raw then "r#" ++ id.name else id.name

def Delimiter.opening : Delimiter → String
  | .parenthesis => "("
  | .brace => "\x7b"
  | .bracket => "["
  | .none => ""

def Delimiter.closing : Delimiter → String
  | .parenthesis => ")"
  | .brace => "\x7d"
  | .bracket => "]"
  | .none => ""

/-- `replace` with nothing, for the characters in `blanks`. -/
def squeeze (blanks : List Char) (text : String) : String :=
  String.ofList (text.toList.filter fun c => !blanks.contains c)

mutual

/-- `to_string`, of which the blanks are taken out. -/
def TokenTree.text (blanks : List Char) : TokenTree → String
  | .ident id => id.text
  | .punct c => c.toString
  | .str text => "\"" ++ squeeze blanks text ++ "\""
  | .literal text => squeeze blanks text
  | .group d stream => d.opening ++ streamText blanks stream ++ d.closing

def streamText (blanks : List Char) : List TokenTree → String
  | [] => ""
  | t :: ts => t.text blanks ++ streamText blanks ts

end

/-! ## Names in format strings -/

/-- The placeholders of a format string: what stands between single braces. The first argument is
    what has been read of the current one, backwards. -/
def placeholders : Option (List Char) → List Char → List (List Char)
  | _, [] => []
  | none, '\x7b' :: '\x7b' :: cs => placeholders none cs
  | none, '\x7b' :: cs => placeholders (some []) cs
  | none, _ :: cs => placeholders none cs
  | some cur, '\x7d' :: cs => cur.reverse :: placeholders none cs
  | some cur, c :: cs => placeholders (some (c :: cur)) cs

/-- The names before a `$` in a format specification, for a width or a precision. -/
def dollarNames : List Char → List Char → List String
  | _, [] => []
  | cur, '$' :: cs => String.ofList cur.reverse :: dollarNames [] cs
  | cur, c :: cs =>
      dollarNames (if c.isAlphanum || c == '_' || 128 ≤ c.toNat then c :: cur else []) cs

/-- The names captured inline by a format string. -/
def captures (text : String) : List String :=
  (placeholders none text.toList).flatMap fun p =>
    String.ofList ((p.takeWhile fun c => c != ':').filter fun c => c != ' ')
      :: dollarNames [] (p.dropWhile fun c => c != ':')

example : captures "\x7ba\x7d and \x7b\x7bb\x7d\x7d, \x7bc:>d$\x7d" = ["a", "c", "d"] := by decide

/-! ## Names -/

mutual

/-- The identifier `name` occurs, spelled the same way. -/
def TokenTree.references (name : Ident) : TokenTree → Bool
  | .ident id => id == name
  | .group _ stream => tokensReferenceIdent name stream
  | .punct _ | .str _ | .literal _ => false

def tokensReferenceIdent (name : Ident) : List TokenTree → Bool
  | [] => false
  | t :: ts => t.references name || tokensReferenceIdent name ts

end

mutual

/-- The name occurs where a comparison of identifiers does not see it: with `r#` when it is bound
    without, or the other way round, or captured by a string literal. -/
def TokenTree.hides (name : Ident) : TokenTree → Bool
  | .ident id => id.name == name.name && id.raw != name.raw
  | .str text => (captures text).contains name.name
  | .group _ stream => hidesName name stream
  | .punct _ | .literal _ => false

def hidesName (name : Ident) : List TokenTree → Bool
  | [] => false
  | t :: ts => t.hides name || hidesName name ts

end

mutual

/-- The name is used, however it is spelled, or captured by a string literal. -/
def TokenTree.uses (name : String) : TokenTree → Bool
  | .ident id => id.name == name
  | .str text => (captures text).contains name
  | .group _ stream => usesName name stream
  | .punct _ | .literal _ => false

def usesName (name : String) : List TokenTree → Bool
  | [] => false
  | t :: ts => t.uses name || usesName name ts

end

theorem usesName_eq (name : Ident) (ts : TokenStream) :
    usesName name.name ts = (tokensReferenceIdent name ts || hidesName name ts) := by
  induction ts using streamInduction with
  | nil => rfl
  | group d s ts ihs ih =>
      rw [usesName, tokensReferenceIdent, hidesName, ih, TokenTree.uses, TokenTree.references,
        TokenTree.hides, ihs]
      ac_rfl
  | leaf t ts hleaf ih =>
      have ht : t.uses name.name = (t.references name || t.hides name) := by
        cases t with
        | ident id =>
            obtain ⟨n, raw⟩ := id
            obtain ⟨m, raw'⟩ := name
            rw [Bool.eq_iff_iff]
            simp only [TokenTree.uses, TokenTree.references, TokenTree.hides, Bool.or_eq_true,
              Bool.and_eq_true, beq_iff_eq, bne_iff_ne, Ident.mk.injEq]
            by_cases hraw : raw = raw'
            · simp [hraw]
            · simp [hraw]
        | punct c | str text | literal text => rfl
        | group d s => exact absurd rfl (hleaf d s)
      rw [usesName, tokensReferenceIdent, hidesName, ih, ht]
      ac_rfl

end IdEffect.ProcMacro
