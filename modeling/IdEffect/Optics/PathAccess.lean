import IdEffect.Optics.PathReading

set_option autoImplicit false

/-! # Access at a path, compared with JSON Pointers

Reading, setting and creating at a path, less their error texts, are walks over segments. The code
decides from the characters of a token whether it is a name or an index; a pointer is `Readable` in
a document when each of its tokens is read as what it is there, and then walking over the segments
and walking over the tokens is the same (`ReadsAlong.follows`). -/

namespace IdEffect.Optics

open Schema (Unknown)
open Rfc6902 (Token Pointer escape render arrayIndex child put insertPart removePart locate)

/-! ## The access functions without their error texts -/

theorem toOption_bind {E A B : Type} (r : Except E A) (f : A → Except E B) :
    (r >>= f).toOption = r.toOption.bind fun a => (f a).toOption := by
  cases r <;> rfl

theorem toOption_ofPath (r : Except SchemaPathError Unknown) :
    (Patched.ofPath r).toOption = r.toOption := by
  cases r <;> rfl

/-- The part of a value that a segment selects. -/
def childSegment : Unknown → PathSegment → Option Unknown
  | .object map, .field name => Assoc.get name map
  | .array items, .index i => items[i]?
  | _, _ => none

/-- What `assignSegment` builds. -/
def putSegment (allowAppend : Bool) (v : Unknown) (segment : PathSegment) (x : Unknown) :
    Option Unknown :=
  match v, segment with
  | .object map, .field name => some (.object (Assoc.insert name x map))
  | .array items, .index i =>
      if items.length < i ∨ (¬ allowAppend ∧ items.length ≤ i) then none
      else if i = items.length then some (.array (items ++ [x]))
      else some (.array (items.set i x))
  | .array items, .append => if allowAppend then some (.array (items ++ [x])) else none
  | _, _ => none

variable {debug : DebugText} {path : List Char}

theorem getAtSegments_toOption (visited segments : List PathSegment) (v : Unknown) :
    (getAtSegments debug path visited v segments).toOption
      = Navigate.locate childSegment v segments := by
  induction segments generalizing visited v with
  | nil => rw [getAtSegments, Navigate.locate]; rfl
  | cons s segments ih =>
      cases v with
      | object map =>
          cases s with
          | field name =>
              rw [getAtSegments, Navigate.locate, childSegment]
              cases Assoc.get name map with
              | none => rfl
              | some c => exact ih _ c
          | _ => rfl
      | array items =>
          cases s with
          | index i =>
              rw [getAtSegments, Navigate.locate, childSegment]
              cases items[i]? with
              | none => rfl
              | some c => exact ih _ c
          | _ => rfl
      | _ => cases s <;> rfl

theorem assignSegment_toOption (v : Unknown) (s : PathSegment) (x : Unknown) (allow : Bool) :
    (assignSegment debug v s x path allow).toOption = putSegment allow v s x := by
  cases v with
  | array items =>
      cases s with
      | index i =>
          rw [assignSegment, putSegment]
          split_ifs <;> rfl
      | append =>
          rw [assignSegment, putSegment]
          split_ifs <;> rfl
      | field name => rfl
  | _ => cases s <;> rfl

theorem setAtReversed_toOption (v x : Unknown) (r : List PathSegment) :
    (setAtReversed debug path v r x).toOption
      = Navigate.ascend childSegment (putSegment false) v r x := by
  induction r generalizing x with
  | nil => rfl
  | cons s r ih =>
      rw [setAtReversed, Navigate.ascend, toOption_bind, getAtSegments_toOption]
      refine congrArg _ (funext fun w => ?_)
      rw [toOption_bind, assignSegment_toOption]
      exact congrArg _ (funext fun w' => ih w')

theorem eq_ok_of_toOption {E A : Type} {r : Except E A} {a : A} (h : r.toOption = some a) :
    r = .ok a := by
  cases r with
  | error e => cases h
  | ok b => exact congrArg _ (Option.some.inj h)

theorem exists_error_of_toOption {E A : Type} {r : Except E A} (h : r.toOption = none) :
    ∃ e, r = .error e := by
  cases r with
  | error e => exact ⟨e, rfl⟩
  | ok a => cases h

/-- On an existing parent nothing is created. -/
theorem createAtReversed_toOption {v : Unknown} {s : PathSegment} {r : List PathSegment}
    (h : (Navigate.locate childSegment v r.reverse).isSome) (x : Unknown) :
    (createAtReversed debug path v (s :: r) x).toOption
      = Navigate.ascend childSegment (putSegment true) v (s :: r) x := by
  induction r generalizing s x with
  | nil =>
      rw [createAtReversed, Navigate.ascend]
      refine (toOption_bind _ _).trans (congrArg _ (funext fun w => ?_))
      rw [toOption_bind, assignSegment_toOption]
      rfl
  | cons t r ih =>
      have hparent : (Navigate.locate childSegment v r.reverse).isSome := by
        rw [List.reverse_cons, Navigate.locate_snoc] at h
        exact Option.isSome_of_isSome_bind h
      -- the parent is read, so the branch that creates it is not taken
      obtain ⟨w, hw⟩ := Option.isSome_iff_exists.mp h
      have hget : getAtSegments debug path [] v (t :: r).reverse = .ok w :=
        eq_ok_of_toOption ((getAtSegments_toOption ..).trans hw)
      rw [createAtReversed, hget, Navigate.ascend, hw, Option.bind_some]
      refine (toOption_bind _ _).trans ?_
      refine (Option.bind_some ..).trans ?_
      rw [toOption_bind, assignSegment_toOption]
      exact congrArg _ (funext fun w' => ih hparent w')

theorem getAtPath_toOption (v : Unknown) :
    (getAtPath debug v path).toOption = Navigate.locate childSegment v (parsePath path) := by
  rw [getAtPath]
  split_ifs with hp
  · rw [hp]
    rfl
  · exact getAtSegments_toOption ..

theorem setAtPath_toOption (v x : Unknown) :
    (setAtPath debug v path x).toOption
      = Navigate.ascend childSegment (putSegment false) v (parsePath path).reverse x := by
  rw [setAtPath]
  split_ifs with hp
  · rw [hp]
    rfl
  · exact setAtReversed_toOption ..

/-! ## Pointers the code reads as such -/

/-- At the value `v` the token is read as JSON Pointer does: as a name on an object, and as an index
    of an array exactly when it is one. -/
def ReadsAs (v : Unknown) (t : Token) : Prop :=
  match v with
  | .object _ => parseSegment t = .field (String.ofList t)
  | .array items => ∀ i ≤ items.length, parseSegment t = .index i ↔ arrayIndex t = some i
  | _ => True

/-- Every token is, at the value it is applied to. -/
def ReadsAlong : Unknown → Pointer → Prop
  | _, [] => True
  | v, t :: p => ReadsAs v t ∧ ∀ c, child v t = some c → ReadsAlong c p

/-- The code splits the pointer into its tokens and reads each of them as it is meant. -/
def Readable (doc : Unknown) (p : Pointer) : Prop :=
  p.head? ≠ some [] ∧ ReadsAlong doc p

theorem ReadsAlong.snoc {v : Unknown} {p : Pointer} {t : Token} (h : ReadsAlong v (p ++ [t])) :
    ReadsAlong v p ∧ ∀ w, locate v p = some w → ReadsAs w t := by
  induction p generalizing v with
  | nil =>
      refine ⟨trivial, fun w hw => ?_⟩
      obtain rfl : v = w := Option.some.inj hw
      exact h.1
  | cons s p ih =>
      refine ⟨⟨h.1, fun c hc => (ih (h.2 c hc)).1⟩, fun w hw => ?_⟩
      obtain ⟨c, hc, hw⟩ := Option.bind_eq_some_iff.mp hw
      exact (ih (h.2 c hc)).2 w hw

/-- On an array a token is an index in range, the place behind the elements, or neither for both. -/
theorem ReadsAs.array_cases {items : List Unknown} {t : Token} (h : ReadsAs (.array items) t) :
    (t ≠ ['-'] ∧ ∃ i ≤ items.length, parseSegment t = .index i ∧ arrayIndex t = some i)
      ∨ (t = ['-'] ∧ parseSegment t = .append)
      ∨ (t ≠ ['-'] ∧ (∀ i, arrayIndex t = some i → items.length < i)
        ∧ ((∃ j, items.length < j ∧ parseSegment t = .index j)
          ∨ parseSegment t = .field (String.ofList t))) := by
  have hread : ∀ i ≤ items.length, parseSegment t = .index i ↔ arrayIndex t = some i := h
  rcases parseSegment_cases t with hdash | ⟨ht, j, -, hs⟩ | ⟨ht, hs⟩
  · exact .inr (.inl hdash)
  · by_cases hj : j ≤ items.length
    · exact .inl ⟨ht, j, hj, hs, (hread j hj).mp hs⟩
    -- both readings are out of range, though they may be different numbers
    · refine .inr (.inr ⟨ht, fun i hi => ?_, .inl ⟨j, not_le.mp hj, hs⟩⟩)
      by_contra hle
      have hs' := (hread i (not_lt.mp hle)).mpr hi
      rw [hs] at hs'
      cases hs'
      exact hle (not_le.mp hj)
  · refine .inr (.inr ⟨ht, fun i hi => ?_, .inr hs⟩)
    by_contra hle
    have hs' := (hread i (not_lt.mp hle)).mpr hi
    rw [hs] at hs'
    cases hs'

/-- A token that is no index in range selects no element. -/
theorem child_array_eq_none {items : List Unknown} {t : Token}
    (h : ∀ i, arrayIndex t = some i → items.length ≤ i) : child (.array items) t = none := by
  rw [child, Option.bind_eq_none_iff]
  exact fun i hi => List.getElem?_eq_none (h i hi)

theorem ReadsAs.child_eq {v : Unknown} {t : Token} (h : ReadsAs v t) :
    childSegment v (parseSegment t) = child v t := by
  cases v with
  | object map =>
      have hs : parseSegment t = .field (String.ofList t) := h
      rw [hs, childSegment, child]
  | array items =>
      rcases h.array_cases with ⟨-, i, -, hs, hi⟩ | ⟨rfl, hs⟩ | ⟨-, hout, ⟨j, hj, hs⟩ | hs⟩
      · rw [hs, childSegment, child, hi, Option.bind_some]
      · rw [hs, child, Rfc6902.arrayIndex_dash]
        rfl
      · rw [child_array_eq_none fun i hi => (hout i hi).le, hs]
        exact List.getElem?_eq_none hj.le
      · rw [child_array_eq_none fun i hi => (hout i hi).le, hs]
        rfl
  | _ => cases parseSegment t <;> rfl

/-- An existing part is replaced, whether or not appending is allowed. -/
theorem ReadsAs.put_eq {v c x : Unknown} {t : Token} {allow : Bool} (h : ReadsAs v t)
    (hc : child v t = some c) : putSegment allow v (parseSegment t) x = put v t x := by
  cases v with
  | object map =>
      have hs : parseSegment t = .field (String.ofList t) := h
      rw [hs, putSegment, put]
  | array items =>
      obtain ⟨i, hi, hc⟩ := Option.bind_eq_some_iff.mp hc
      have hlt : i < items.length := (List.getElem?_eq_some_iff.mp hc).1
      rw [(h i hlt.le).mpr hi, putSegment, put, hi, Option.bind_some, if_pos hlt,
        if_neg (by omega), if_neg (by omega)]
  | _ => exact absurd hc (by simp [child])

/-- Where there is no part yet, the code adds one as it should. -/
theorem ReadsAs.insert_eq {v x : Unknown} {t : Token} (h : ReadsAs v t) (hc : child v t = none) :
    putSegment true v (parseSegment t) x = insertPart v t x := by
  cases v with
  | object map =>
      have hs : parseSegment t = .field (String.ofList t) := h
      rw [hs, putSegment, insertPart]
  | array items =>
      rcases h.array_cases with ⟨ht, i, hle, hs, hi⟩ | ⟨ht, hs⟩ | ⟨ht, hout, hs⟩
      -- an index in range without an element is the one behind the last
      · have hlen : i = items.length := by
          rw [child, hi, Option.bind_some, List.getElem?_eq_none_iff] at hc
          omega
        subst hlen
        rw [hs, putSegment, insertPart, if_neg (by simp), if_pos rfl, if_neg ht, hi,
          Option.bind_some, if_pos le_rfl, List.insertIdx_length_self]
      · rw [hs, putSegment, insertPart, if_pos rfl, if_pos ht]
      · have hnone : insertPart (.array items) t x = none := by
          rw [insertPart, if_neg ht, Option.bind_eq_none_iff]
          exact fun i hi => if_neg (not_le.mpr (hout i hi))
        rw [hnone]
        rcases hs with ⟨j, hj, hs⟩ | hs
        · rw [hs, putSegment, if_pos (.inl hj)]
        · rw [hs]
          rfl
  | _ => cases parseSegment t <;> rfl

theorem ReadsAlong.follows {v : Unknown} {p : Pointer} (h : ReadsAlong v p) (allow : Bool) :
    Navigate.Follows childSegment (putSegment allow) child put v (p.map parseSegment) p := by
  induction p generalizing v with
  | nil => exact .nil v
  | cons t p ih =>
      have hchild := h.1.child_eq
      refine .cons hchild (fun c x hc => h.1.put_eq (hchild.symm.trans hc)) fun c hc => ?_
      exact ih (h.2 c (hchild.symm.trans hc))

end IdEffect.Optics
