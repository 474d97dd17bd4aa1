import IdEffect.Lib.Navigate
import IdEffect.Optics.JsonPatch

set_option autoImplicit false

/-! # What a patch operation should do

JSON Pointers and the six operations on a document as RFC 6902 describes them, independent of the
code. A pointer is its list of tokens; what a token selects depends on the value it is applied to: a
member of an object, by name, or an element of an array, by a decimal index without leading zeros.

`Spares` names the locations an operation does not affect, and `locate_apply` is the frame
condition. -/

namespace IdEffect.Optics

open Schema (Unknown)

/-- The same operation with its paths given in another form. -/
def PatchOp.map {P Q : Type} (f : P → Q) : PatchOp P → PatchOp Q
  | .add path value => .add (f path) value
  | .replace path value => .replace (f path) value
  | .remove path => .remove (f path)
  | .move from_ path => .move (f from_) (f path)
  | .copy from_ path => .copy (f from_) (f path)
  | .test path value => .test (f path) value

/-- The path whose location the operation changes or tests. -/
def PatchOp.target {P : Type} : PatchOp P → P
  | .add path _ => path
  | .replace path _ => path
  | .remove path => path
  | .move _ path => path
  | .copy _ path => path
  | .test path _ => path

namespace Rfc6902

/-! ## Pointers -/

abbrev Token : Type := List Char

abbrev Pointer : Type := List Token

def escape (t : Token) : List Char :=
  t.flatMap fun c => if c = '~' then ['~', '0'] else if c = '/' then ['~', '1'] else [c]

/-- The string form of a pointer. -/
def render (p : Pointer) : List Char :=
  p.flatMap fun t => '/' :: escape t

/-- An array index is a decimal numeral without sign and without leading zeros. -/
def arrayIndex (t : Token) : Option ℕ :=
  let i := Nat.ofDigitChars 10 t 0
  if t = Nat.toDigits 10 i then some i else none

theorem arrayIndex_eq_some {t : Token} {i : ℕ} :
    arrayIndex t = some i ↔ t = Nat.toDigits 10 i := by
  constructor
  · intro h
    rw [arrayIndex] at h
    split_ifs at h with ht
    exact ht.trans (congrArg _ (Option.some.inj h))
  · rintro rfl
    rw [arrayIndex, Nat.ofDigitChars_ten_toDigits, if_pos rfl]

theorem arrayIndex_dash : arrayIndex ['-'] = none := by decide

theorem ne_dash_of_arrayIndex {t : Token} {i : ℕ} (h : arrayIndex t = some i) : t ≠ ['-'] := by
  rintro rfl
  rw [arrayIndex_dash] at h
  cases h

/-! ## Parts of a value -/

def child : Unknown → Token → Option Unknown
  | .object map, t => Assoc.get (String.ofList t) map
  | .array items, t => (arrayIndex t).bind (items[·]?)
  | _, _ => none

/-- The value with another part in the place of an element, or of a member, that it has. -/
def put : Unknown → Token → Unknown → Option Unknown
  | .object map, t, x => some (.object (Assoc.insert (String.ofList t) x map))
  | .array items, t, x =>
      (arrayIndex t).bind fun i => if i < items.length then some (.array (items.set i x)) else none
  | _, _, _ => none

/-- The value with a new part: a member is set, an element is inserted before the one that has its
    index, or behind all others. -/
def insertPart (v : Unknown) (t : Token) (x : Unknown) : Option Unknown :=
  match v with
  | .object map => some (.object (Assoc.insert (String.ofList t) x map))
  | .array items =>
      if t = ['-'] then some (.array (items ++ [x]))
      else
        (arrayIndex t).bind fun i =>
          if i ≤ items.length then some (.array (items.insertIdx i x)) else none
  | _ => none

/-- The value without a part that it has. -/
def removePart (v : Unknown) (t : Token) : Option Unknown :=
  match v with
  | .object map =>
      (Assoc.get (String.ofList t) map).map fun _ => .object (Assoc.erase (String.ofList t) map)
  | .array items =>
      (arrayIndex t).bind fun i =>
        if i < items.length then some (.array (items.eraseIdx i)) else none
  | _ => none

/-! ## Operations -/

def locate : Unknown → Pointer → Option Unknown := Navigate.locate child

/-- Change the parent of the location by the last token; `root` is the answer for the document
    itself. -/
def editParent (f : Unknown → Token → Option Unknown) (root : Option Unknown) (doc : Unknown)
    (p : Pointer) : Option Unknown :=
  match p.getLast? with
  | none => root
  | some t => Navigate.modify child put (f · t) doc p.dropLast

theorem editParent_snoc (f : Unknown → Token → Option Unknown) (root : Option Unknown)
    (doc : Unknown) (p : Pointer) (t : Token) :
    editParent f root doc (p ++ [t]) = Navigate.modify child put (f · t) doc p := by
  rw [editParent, List.getLast?_concat, List.dropLast_concat]

def add (doc : Unknown) (p : Pointer) (x : Unknown) : Option Unknown :=
  editParent (insertPart · · x) (some x) doc p

/-- The location must exist. -/
def replace (doc : Unknown) (p : Pointer) (x : Unknown) : Option Unknown :=
  Navigate.modify child put (fun _ => some x) doc p

/-- The document itself is not removed. -/
def remove (doc : Unknown) (p : Pointer) : Option Unknown :=
  editParent removePart none doc p

def apply (doc : Unknown) : PatchOp Pointer → Option Unknown
  | .add p x => add doc p x
  | .replace p x => replace doc p x
  | .remove p => remove doc p
  | .move from_ p =>
      if from_ <+: p ∧ from_ ≠ p then none
      else (locate doc from_).bind fun x => (remove doc from_).bind fun d => add d p x
  | .copy from_ p => (locate doc from_).bind fun x => add doc p x
  | .test p x => (locate doc p).bind fun v => if eqUnknown v x then some doc else none

/-! ## Frame -/

/-- Replacing the part `t` keeps all other parts. -/
def OtherPart (t : Token) (_ : Unknown) : Pointer → Prop
  | [] => False
  | s :: _ => t ≠ s

/-- Adding or removing the part `t` keeps the other members of an object, but of an array only the
    elements before the position. -/
def EarlierPart (t : Token) : Unknown → Pointer → Prop
  | _, [] => False
  | .array items, s :: _ =>
      ∀ j, arrayIndex s = some j → if t = ['-'] then j < items.length else
        ∀ i, arrayIndex t = some i → j < i
  | _, s :: _ => t ≠ s

/-- The locations beside the edit of the part that `p` points to. -/
def BesideEdit (Keeps : Token → Unknown → Pointer → Prop) (doc : Unknown) (p q : Pointer) : Prop :=
  match p.getLast? with
  | none => False
  | some t => Navigate.Beside child (Keeps t) doc p.dropLast q

/-- The operation does not affect the location `q`. -/
def Spares (doc : Unknown) : PatchOp Pointer → Pointer → Prop
  | .add p _, q => BesideEdit EarlierPart doc p q
  | .replace p _, q => BesideEdit OtherPart doc p q
  | .remove p, q => BesideEdit EarlierPart doc p q
  | .move from_ p, q =>
      BesideEdit EarlierPart doc from_ q
        ∧ ∀ d, remove doc from_ = some d → BesideEdit EarlierPart d p q
  | .copy _ p, q => BesideEdit EarlierPart doc p q
  | .test _ _, _ => True

theorem ofList_ne {s t : Token} (h : s ≠ t) : String.ofList s ≠ String.ofList t :=
  fun he => h (String.ofList_injective he)

theorem lawful : Navigate.Lawful child put where
  child_put {v v' x t} h := by
    cases v with
    | object map =>
        obtain rfl := Option.some.inj h
        rw [child, Assoc.get_insert, if_pos rfl]
    | array items =>
        rw [put, Option.bind_eq_some_iff] at h
        obtain ⟨i, hi, h⟩ := h
        split_ifs at h with hlt
        obtain rfl := Option.some.inj h
        rw [child, hi, Option.bind_some, List.getElem?_set_self hlt]
    | _ => exact absurd h (by simp [put])
  child_put_ne {v v' x s t} h hne := by
    cases v with
    | object map =>
        obtain rfl := Option.some.inj h
        rw [child, child, Assoc.get_insert, if_neg (ofList_ne hne.symm)]
    | array items =>
        rw [put, Option.bind_eq_some_iff] at h
        obtain ⟨i, hi, h⟩ := h
        split_ifs at h with hlt
        obtain rfl := Option.some.inj h
        rw [child, child]
        -- an index has one token, so other tokens have other indices
        refine Option.bind_congr fun j hj => List.getElem?_set_ne fun hij => hne ?_
        rw [arrayIndex_eq_some.mp hi, arrayIndex_eq_some.mp hj, hij]
    | _ => exact absurd h (by simp [put])
  put_isSome {v c t} x h := by
    cases v with
    | object map => rfl
    | array items =>
        rw [child, Option.bind_eq_some_iff] at h
        obtain ⟨i, hi, h⟩ := h
        rw [put, hi, Option.bind_some, if_pos (List.getElem?_eq_some_iff.mp h).1]
        rfl
    | _ => exact absurd h (by simp [child])

/-- Locations that start with parts that did not change have not changed. -/
theorem locate_cons_congr {v w : Unknown} {s : Token} {q : Pointer} (h : child v s = child w s) :
    Navigate.locate child v (s :: q) = Navigate.locate child w (s :: q) := by
  rw [Navigate.locate, Navigate.locate, h]

theorem locate_insertPart {t : Token} {x v v' : Unknown} {q : Pointer}
    (h : insertPart v t x = some v') (hq : EarlierPart t v q) :
    Navigate.locate child v' q = Navigate.locate child v q := by
  cases q with
  | nil => exact hq.elim
  | cons s q =>
      refine locate_cons_congr ?_
      cases v with
      | object map =>
          obtain rfl := Option.some.inj h
          rw [child, child, Assoc.get_insert, if_neg (ofList_ne (Ne.symm hq))]
      | array items =>
          rw [insertPart] at h
          split_ifs at h with ht
          -- appended behind the elements, or inserted behind the earlier ones
          · obtain rfl := Option.some.inj h
            rw [child, child]
            refine Option.bind_congr fun j hj => List.getElem?_append_left ?_
            have hj := hq j hj
            rwa [if_pos ht] at hj
          · obtain ⟨i, hi, h⟩ := Option.bind_eq_some_iff.mp h
            split_ifs at h with hle
            obtain rfl := Option.some.inj h
            rw [child, child]
            refine Option.bind_congr fun j hj => List.getElem?_insertIdx_of_lt ?_
            have hj := hq j hj
            rw [if_neg ht] at hj
            exact hj i hi
      | _ => exact absurd h (by simp [insertPart])

theorem locate_removePart {t : Token} {v v' : Unknown} {q : Pointer}
    (h : removePart v t = some v') (hq : EarlierPart t v q) :
    Navigate.locate child v' q = Navigate.locate child v q := by
  cases q with
  | nil => exact hq.elim
  | cons s q =>
      refine locate_cons_congr ?_
      cases v with
      | object map =>
          obtain ⟨_, _, rfl⟩ := Option.map_eq_some_iff.mp h
          rw [child, child, Assoc.get_erase, if_neg (ofList_ne (Ne.symm hq))]
      | array items =>
          obtain ⟨i, hi, h⟩ := Option.bind_eq_some_iff.mp h
          split_ifs at h with hlt
          obtain rfl := Option.some.inj h
          rw [child, child]
          refine Option.bind_congr fun j hj => List.getElem?_eraseIdx_of_lt ?_
          have hj := hq j hj
          rw [if_neg (ne_dash_of_arrayIndex hi)] at hj
          exact hj i hi
      | _ => exact absurd h (by simp [removePart])

/-- A change of the parent that keeps its earlier parts. -/
theorem locate_editParent {f : Unknown → Token → Option Unknown} {root : Option Unknown}
    {doc doc' : Unknown} {p q : Pointer}
    (hf : ∀ t v v' r, f v t = some v' → EarlierPart t v r →
      Navigate.locate child v' r = Navigate.locate child v r)
    (h : editParent f root doc p = some doc') (hq : BesideEdit EarlierPart doc p q) :
    locate doc' q = locate doc q := by
  rw [BesideEdit] at hq
  rw [editParent] at h
  cases hp : p.getLast? with
  | none =>
      -- the document itself is changed, and nothing lies beside it
      rw [hp] at hq
      exact hq.elim
  | some t =>
      rw [hp] at hq h
      exact hq.locate_modify lawful (hf t) h

theorem locate_add {doc doc' x : Unknown} {p q : Pointer} (h : add doc p x = some doc')
    (hq : BesideEdit EarlierPart doc p q) : locate doc' q = locate doc q :=
  locate_editParent (fun _ _ _ _ => locate_insertPart) h hq

theorem locate_remove {doc doc' : Unknown} {p q : Pointer} (h : remove doc p = some doc')
    (hq : BesideEdit EarlierPart doc p q) : locate doc' q = locate doc q :=
  locate_editParent (fun _ _ _ _ => locate_removePart) h hq

theorem locate_replace {doc doc' x : Unknown} {p q : Pointer} (h : replace doc p x = some doc')
    (hq : BesideEdit OtherPart doc p q) : locate doc' q = locate doc q := by
  rw [BesideEdit] at hq
  rw [replace] at h
  rcases List.eq_nil_or_concat p with rfl | ⟨p, t, rfl⟩
  · exact hq.elim
  · rw [List.concat_eq_append, List.getLast?_concat, List.dropLast_concat] at hq
    rw [List.concat_eq_append, Navigate.modify_snoc] at h
    refine hq.locate_modify lawful (fun w w' r hw hr => ?_) h
    cases r with
    | nil => exact hr.elim
    | cons s r =>
        obtain ⟨c, hc, hw⟩ := Option.bind_eq_some_iff.mp hw
        exact locate_cons_congr (lawful.child_put_ne hw hr)

/-- **The frame condition**: an operation keeps the value of every location it does not affect. -/
theorem locate_apply {doc doc' : Unknown} {op : PatchOp Pointer} {q : Pointer}
    (h : apply doc op = some doc') (hq : Spares doc op q) : locate doc' q = locate doc q := by
  cases op with
  | add p x => exact locate_add h hq
  | replace p x => exact locate_replace h hq
  | remove p => exact locate_remove h hq
  | move from_ p =>
      rw [apply] at h
      split_ifs at h with hpre
      obtain ⟨x, _, h⟩ := Option.bind_eq_some_iff.mp h
      obtain ⟨d, hd, h⟩ := Option.bind_eq_some_iff.mp h
      rw [locate_add h (hq.2 d hd), locate_remove hd hq.1]
  | copy from_ p =>
      obtain ⟨x, _, h⟩ := Option.bind_eq_some_iff.mp h
      exact locate_add h hq
  | test p x =>
      obtain ⟨v, _, h⟩ := Option.bind_eq_some_iff.mp h
      split_ifs at h with heq
      rw [Option.some.inj h]

end Rfc6902

end IdEffect.Optics
