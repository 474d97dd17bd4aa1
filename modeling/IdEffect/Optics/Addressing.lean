import Mathlib.Data.List.TakeWhile
import IdEffect.Optics.Lens

set_option autoImplicit false

/-! # Locations and their pointers

A location of a document is a list of object keys and array indices, and its pointer is the list of
their tokens, escaped. What the code takes a token for is decided without the document, so that it
may read another step than the one meant (`Step.readAs`), and slashes at the beginning are trimmed,
with them the empty keys the location begins with. -/

namespace IdEffect.Optics

open Schema (Unknown)
open Rfc6902 (Token Pointer escape render)

/-- A step to a part of a value. -/
inductive Step where
  | key (k : String)
  | index (i : ℕ)
  deriving DecidableEq, Repr

def part : Unknown → Step → Option Unknown
  | .object map, .key k => Assoc.get k map
  | .array items, .index i => items[i]?
  | _, _ => none

/-- The value at a location. -/
def valueAt (doc : Unknown) (l : List Step) : Option Unknown := Navigate.locate part doc l

def Step.token : Step → Token
  | .key k => k.toList
  | .index i => Nat.toDigits 10 i

/-- The JSON Pointer of a location. -/
def pointer (l : List Step) : List Char := render (l.map Step.token)

/-! ## Steps as the code reads them -/

/-- What the code takes the token of a step for. -/
def Step.readAs (s : Step) : Option Step :=
  match parseSegment s.token with
  | .field name => some (.key name)
  | .index i => some (.index i)
  | .append => none

/-- The key is no numeral, and not the dash that stands for the end of an array; the index is a
    `usize`. -/
def Step.Plain : Step → Prop
  | .key k => k ≠ "-" ∧ parseUsize k.toList = none
  | .index i => i < 18446744073709551616

theorem Step.readAs_eq_self {s : Step} (h : s.Plain) : s.readAs = some s := by
  cases s with
  | key k =>
      have hdash : k.toList ≠ ['-'] := fun hk => h.1 (String.toList_inj.mp hk)
      rw [readAs, token, parseSegment, if_neg hdash, h.2, String.ofList_toList]
  | index i => rw [readAs, token, parseSegment_toDigits h]

theorem childSegment_parseSegment (v : Unknown) (s : Step) :
    childSegment v (parseSegment s.token) = s.readAs.bind (part v) := by
  rw [Step.readAs]
  cases parseSegment s.token <;> cases v <;> rfl

/-- Only as itself is a step read that leads to a part. -/
theorem Step.plain_of_reads {v c : Unknown} {s : Step} (hc : part v s = some c)
    (h : (childSegment v (parseSegment s.token)).isSome) : s.Plain := by
  cases v with
  | object map =>
      cases s with
      | key k =>
          rw [token, parseSegment] at h
          refine ⟨?_, ?_⟩
          · rintro rfl
            cases h
          · cases hk : parseUsize k.toList with
            | none => rfl
            | some i =>
                rw [hk] at h
                split_ifs at h <;> cases h
      | index i => cases hc
  | array items =>
      cases s with
      | key k => cases hc
      | index i =>
          by_contra hi
          rw [token, parseSegment, if_neg (toDigits_ne_dash i),
            parseUsize_toDigits_eq_none hi] at h
          cases h
  | _ => cases s <;> cases hc

/-! ## Locations as the code reads them -/

theorem locate_map_token (doc : Unknown) (l : List Step) :
    Navigate.locate childSegment doc (l.map fun s => parseSegment s.token)
      = (l.mapM Step.readAs).bind (valueAt doc) := by
  induction l generalizing doc with
  | nil => rfl
  | cons s l ih =>
      rw [List.map_cons, Navigate.locate, childSegment_parseSegment, List.mapM_cons]
      cases s.readAs with
      | none => rfl
      | some s' =>
          rw [Option.bind_some]
          cases hl : l.mapM Step.readAs with
          | none =>
              have hnone : ∀ c, Navigate.locate childSegment c
                  (l.map fun s => parseSegment s.token) = none := by
                intro c
                rw [ih, hl]
                rfl
              rw [funext hnone, Option.bind_fun_none]
              rfl
          | some l' =>
              refine congrArg _ (funext fun c => ?_)
              rw [ih, hl]
              rfl

/-- A location that is read at all, token by token, is read as itself exactly if each step is. -/
theorem locate_map_token_eq_iff {doc v : Unknown} {l : List Step} (h : valueAt doc l = some v) :
    Navigate.locate childSegment doc (l.map fun s => parseSegment s.token) = some v
      ↔ ∀ s ∈ l, s.Plain := by
  constructor
  · intro hread
    induction l generalizing doc with
    | nil => simp
    | cons s l ih =>
        obtain ⟨c, hc, hl⟩ := Option.bind_eq_some_iff.mp h
        obtain ⟨c', hc', hread⟩ := Option.bind_eq_some_iff.mp hread
        have hplain : s.Plain := Step.plain_of_reads hc (by rw [hc']; rfl)
        rw [childSegment_parseSegment, Step.readAs_eq_self hplain, Option.bind_some, hc] at hc'
        obtain rfl := Option.some.inj hc'
        exact List.forall_mem_cons.mpr ⟨hplain, ih hl hread⟩
  · intro hplain
    have hself : l.mapM Step.readAs = some l := by
      clear h
      induction l with
      | nil => rfl
      | cons s l ih =>
          rw [List.forall_mem_cons] at hplain
          rw [List.mapM_cons, Step.readAs_eq_self hplain.1, ih hplain.2]
          rfl
    rw [locate_map_token, hself]
    exact h

/-! ## Leading empty keys -/

theorem pointer_cons (s : Step) (l : List Step) :
    pointer (s :: l) = '/' :: (escape s.token ++ pointer l) := rfl

theorem Step.token_ne_nil {s : Step} (h : s ≠ .key "") : s.token ≠ [] := by
  cases s with
  | key k =>
      rw [token]
      exact fun hk => h (congrArg _ (String.toList_eq_nil_iff.mp hk))
  | index i => exact Nat.toDigits_ne_nil

theorem parsePath_pointer {l : List Step} (h : l.head? ≠ some (.key "")) :
    parsePath (pointer l) = l.map fun s => parseSegment s.token := by
  rw [pointer, parsePath_render, List.map_map]
  · rfl
  · cases l with
    | nil => simp
    | cons s l =>
        intro hnil
        exact Step.token_ne_nil (fun hs => h (congrArg some hs)) (Option.some.inj hnil)

/-- The empty keys at the beginning are lost. -/
theorem parsePath_pointer_dropWhile {l : List Step} (h : l.dropWhile (· = .key "") ≠ []) :
    parsePath (pointer l)
      = (l.dropWhile (· = .key "")).map fun s => parseSegment s.token := by
  induction l with
  | nil => exact absurd rfl h
  | cons s l ih =>
      by_cases hs : s = .key ""
      · subst hs
        rw [List.dropWhile_cons_of_pos (by simp)] at h ⊢
        rw [← ih h]
        cases l with
        | nil => exact absurd rfl h
        | cons t l =>
            rw [pointer_cons, pointer_cons]
            refine parsePath_slash_slash fun hnil => h ?_
            -- then `t` is an empty key and the last step
            obtain ⟨ht, hl⟩ := List.append_eq_nil_iff.mp hnil
            obtain rfl : t = .key "" :=
              Decidable.of_not_not fun hne => escape_ne_nil (Step.token_ne_nil hne) ht
            cases l with
            | nil => rfl
            | cons u l => cases hl
      · rw [List.dropWhile_cons_of_neg (by simpa using hs)]
        exact parsePath_pointer fun hhead => hs (Option.some.inj hhead)

theorem sizeOf_part_lt {v c : Unknown} {s : Step} (h : part v s = some c) :
    sizeOf c < sizeOf v := by
  cases s with
  | key k =>
      refine sizeOf_childSegment_lt (s := .field k) (h ▸ ?_)
      cases v <;> rfl
  | index i =>
      refine sizeOf_childSegment_lt (s := .index i) (h ▸ ?_)
      cases v <;> rfl

theorem sizeOf_valueAt_le {v w : Unknown} {l : List Step} (h : valueAt v l = some w) :
    sizeOf w ≤ sizeOf v := by
  induction l generalizing v with
  | nil => rw [Option.some.inj h]
  | cons s l ih =>
      obtain ⟨c, hc, hl⟩ := Option.bind_eq_some_iff.mp h
      exact (ih hl).trans (sizeOf_part_lt hc).le

/-- No value is a proper part of itself. -/
theorem valueAt_cons_ne_self (v : Unknown) (s : Step) (l : List Step) :
    valueAt v (s :: l) ≠ some v := by
  intro h
  obtain ⟨c, hc, hl⟩ := Option.bind_eq_some_iff.mp h
  exact absurd (sizeOf_valueAt_le hl) (not_le.mpr (sizeOf_part_lt hc))

theorem parsePath_empty_keys (n : ℕ) :
    parsePath ('/' :: '/' :: List.replicate n '/') = [.field ""] := by
  induction n with
  | zero => rfl
  | succ n ih => rw [List.replicate_succ, parsePath_slash_slash (by simp), ih]

theorem pointer_replicate (n : ℕ) :
    pointer (List.replicate n (.key "")) = List.replicate n '/' := by
  induction n with
  | zero => rfl
  | succ n ih =>
      rw [List.replicate_succ, pointer_cons, ih]
      rfl

/-- A location of empty keys alone is read as the document or as its member of that name. -/
theorem getAtPath_empty_keys {debug : DebugText} {doc v : Unknown} {l : List Step} (hl : l ≠ [])
    (hkeys : l.dropWhile (· = .key "") = []) (h : valueAt doc l = some v) :
    getAtPath debug doc (pointer l) ≠ .ok v := by
  rw [Ne, getAtPath_eq_ok]
  have hempty : ∀ s ∈ l, s = .key "" := by simpa [List.dropWhile_eq_nil_iff] using hkeys
  rw [List.eq_replicate_of_mem hempty] at h ⊢
  rw [pointer_replicate]
  match hn : l.length with
  | 0 => exact absurd (List.eq_nil_of_length_eq_zero hn) hl
  | 1 =>
      intro hread
      obtain rfl := Option.some.inj hread
      rw [hn] at h
      exact valueAt_cons_ne_self doc _ _ h
  | n + 2 =>
      rw [hn] at h
      obtain ⟨c, hc, hrest⟩ := Option.bind_eq_some_iff.mp h
      intro hread
      rw [List.replicate_succ, List.replicate_succ, parsePath_empty_keys] at hread
      obtain ⟨c', hc', hread⟩ := Option.bind_eq_some_iff.mp hread
      obtain rfl := Option.some.inj hread
      -- the first empty key is read, and the value is a proper part of what it leads to
      have hfirst : childSegment doc (.field "") = part doc (.key "") := by cases doc <;> rfl
      obtain rfl := Option.some.inj ((hfirst.symm.trans hc').symm.trans hc)
      exact valueAt_cons_ne_self _ _ _ hrest

/-! ## Addressing -/

/-- The steps behind the empty keys at the beginning lead, as they are read, to an equal value. -/
def Coincides (doc : Unknown) (l : List Step) (v : Unknown) : Prop :=
  ∃ l', (l.dropWhile (· = .key "")).mapM Step.readAs = some l' ∧ l' ≠ [] ∧ valueAt doc l' = some v

/-- **The pointer of a location leads to its value exactly when the location does not begin with an
    empty key and its steps are read as meant**, or when the steps that are left of it lead to an
    equal value elsewhere. -/
theorem getAtPath_pointer_iff (debug : DebugText) (doc v : Unknown) (l : List Step)
    (h : valueAt doc l = some v) :
    getAtPath debug doc (pointer l) = .ok v
      ↔ (l.head? ≠ some (.key "") ∧ ∀ s ∈ l, s.Plain)
        ∨ (l.head? = some (.key "") ∧ Coincides doc l v) := by
  by_cases hhead : l.head? = some (.key "")
  · rw [or_iff_right fun hno => hno.1 hhead, and_iff_right hhead]
    by_cases hrest : l.dropWhile (· = .key "") = []
    · have hl : l ≠ [] := by
        rintro rfl
        cases hhead
      refine iff_of_false (getAtPath_empty_keys hl hrest h) ?_
      rintro ⟨l', hl', hne, -⟩
      rw [hrest] at hl'
      exact hne (Option.some.inj hl').symm
    · rw [getAtPath_eq_ok, parsePath_pointer_dropWhile hrest, locate_map_token,
        Option.bind_eq_some_iff]
      refine exists_congr fun l' => and_congr_right fun hl' => (and_iff_right ?_).symm
      -- a step that is left is read as a step
      rintro rfl
      obtain ⟨s, rest, hcons⟩ := List.exists_cons_of_ne_nil hrest
      rw [hcons, List.mapM_cons] at hl'
      obtain ⟨s', -, hl'⟩ := Option.bind_eq_some_iff.mp hl'
      obtain ⟨rest', -, hl'⟩ := Option.bind_eq_some_iff.mp hl'
      cases hl'
  · rw [or_iff_left fun hno => hhead hno.1, and_iff_right hhead, getAtPath_eq_ok,
      parsePath_pointer hhead]
    exact locate_map_token_eq_iff h

/-- The only member of an object. -/
theorem getAtPath_pointer_member :
    valueAt (.object [("a/b", .null)]) [.key "a/b"] = some .null ∧
      ∀ debug, getAtPath debug (.object [("a/b", .null)]) (pointer [.key "a/b"]) = .ok .null := by
  refine ⟨rfl, fun debug => ?_⟩
  refine (getAtPath_pointer_iff debug _ _ _ rfl).mpr (.inl ⟨by decide, fun s hs => ?_⟩)
  rw [List.mem_singleton.mp hs]
  exact ⟨by decide, by decide⟩

/-- A numeral is taken for an index. -/
theorem getAtPath_pointer_numeral :
    valueAt (.object [("5", .null)]) [.key "5"] = some .null ∧
      ∀ debug, getAtPath debug (.object [("5", .null)]) (pointer [.key "5"]) ≠ .ok .null := by
  refine ⟨rfl, fun debug h => ?_⟩
  cases h

end IdEffect.Optics
