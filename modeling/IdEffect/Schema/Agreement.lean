import IdEffect.Schema.Parse

set_option autoImplicit false

/-! # The two decoders of a schema agree

`decode` reads a typed wire value and `decodeUnknown` a dynamic one. `Expr.image` turns the wire
values of a schema expression into dynamic ones: positional parts become arrays, named parts become
objects, an absent optional becomes null. On images the two decoders agree: the same value, or a
failure at the same path.

The one thing that can come between them is null, which `optional` keeps for the absent value
before the schema underneath is asked. So no schema under an `optional` may have a wire value
whose image is null; that it rejects null is not enough, since the wire value is still there. -/

namespace IdEffect.Schema

variable {A B I W A0 A1 A2 A3 I0 I1 I2 I3 : Type}

/-! ## Images of wire values -/

/-- The dynamic value that stands for a wire value. -/
def Expr.image {A I : Type} : Expr A I → I → Unknown
  | .i64 => .i64
  | .string => .string
  | .bool_ => .bool
  | .f64 => .f64
  | .literalString _ _ => .string
  | .literalI64 _ => .i64
  | .transform e _ _ => e.image
  | .filter e _ _ => e.image
  | .refine e _ _ => e.image
  | .optional e => fun
      | none => .null
      | some i => e.image i
  | .array e => fun is => .array (is.map e.image)
  | .tuple e0 e1 => fun (i0, i1) => .array [e0.image i0, e1.image i1]
  | .tuple3 e0 e1 e2 => fun (i0, i1, i2) => .array [e0.image i0, e1.image i1, e2.image i2]
  | .tuple4 e0 e1 e2 e3 => fun (i0, i1, i2, i3) =>
      .array [e0.image i0, e1.image i1, e2.image i2, e3.image i3]
  | .struct_ name0 e0 name1 e1 => fun (i0, i1) =>
      .object (Assoc.ofList [(name0, e0.image i0), (name1, e1.image i1)])
  | .struct3 name0 e0 name1 e1 name2 e2 => fun (i0, i1, i2) =>
      .object (Assoc.ofList [(name0, e0.image i0), (name1, e1.image i1), (name2, e2.image i2)])
  | .struct4 name0 e0 name1 e1 name2 e2 name3 e3 => fun (i0, i1, i2, i3) =>
      .object (Assoc.ofList [(name0, e0.image i0), (name1, e1.image i1), (name2, e2.image i2),
        (name3, e3.image i3)])
  | .record e => fun m => .object (m.entries.map fun p => (p.1, e.image p.2))
  | .suspend thunk => (thunk 0).image

/-- The field names of every struct in the expression are distinct. -/
def Expr.DistinctFields {A I : Type} : Expr A I → Prop
  | .i64 | .string | .bool_ | .f64 | .literalString _ _ | .literalI64 _ => True
  | .transform e _ _ | .filter e _ _ | .refine e _ _ | .optional e | .array e | .record e =>
      e.DistinctFields
  | .tuple e0 e1 => e0.DistinctFields ∧ e1.DistinctFields
  | .tuple3 e0 e1 e2 => e0.DistinctFields ∧ e1.DistinctFields ∧ e2.DistinctFields
  | .tuple4 e0 e1 e2 e3 =>
      e0.DistinctFields ∧ e1.DistinctFields ∧ e2.DistinctFields ∧ e3.DistinctFields
  | .struct_ name0 e0 name1 e1 =>
      [name0, name1].Nodup ∧ e0.DistinctFields ∧ e1.DistinctFields
  | .struct3 name0 e0 name1 e1 name2 e2 =>
      [name0, name1, name2].Nodup ∧ e0.DistinctFields ∧ e1.DistinctFields ∧ e2.DistinctFields
  | .struct4 name0 e0 name1 e1 name2 e2 name3 e3 =>
      [name0, name1, name2, name3].Nodup ∧
        e0.DistinctFields ∧ e1.DistinctFields ∧ e2.DistinctFields ∧ e3.DistinctFields
  | .suspend thunk => (thunk 0).DistinctFields

/-- Every schema under an `optional` in the expression obeys `guard`. -/
def Expr.EachOptional (guard : ∀ A I : Type, Expr A I → Prop) {A I : Type} : Expr A I → Prop
  | .i64 | .string | .bool_ | .f64 | .literalString _ _ | .literalI64 _ => True
  | .optional e => e.EachOptional guard ∧ guard _ _ e
  | .transform e _ _ | .filter e _ _ | .refine e _ _ | .array e | .record e => e.EachOptional guard
  | .tuple e0 e1 | .struct_ _ e0 _ e1 => e0.EachOptional guard ∧ e1.EachOptional guard
  | .tuple3 e0 e1 e2 | .struct3 _ e0 _ e1 _ e2 =>
      e0.EachOptional guard ∧ e1.EachOptional guard ∧ e2.EachOptional guard
  | .tuple4 e0 e1 e2 e3 | .struct4 _ e0 _ e1 _ e2 _ e3 =>
      e0.EachOptional guard ∧ e1.EachOptional guard ∧ e2.EachOptional guard ∧
        e3.EachOptional guard
  | .suspend thunk => (thunk 0).EachOptional guard

/-- The schema does not accept null. -/
def RejectsNull (A I : Type) (e : Expr A I) : Prop :=
  ∀ a, e.schema.decodeUnknown .null ≠ .ok a

/-- No wire value of the schema stands for null. -/
def NeverNull (A I : Type) (e : Expr A I) : Prop :=
  ∀ i, e.image i ≠ .null

/-! ## Agreement -/

/-- The same value, or failures at the same path. -/
def Agree : Outcome A → Outcome A → Prop
  | .ok a, .ok b => a = b
  | .error e, .error e' => e.path = e'.path
  | _, _ => False

namespace Agree

theorem refl (r : Outcome A) : Agree r r := by
  cases r <;> rfl

/-- Prefixing looks at nothing but the path. -/
theorem under {r r' : Outcome A} (h : Agree r r') (segment : String) :
    Agree (Outcome.under r segment) (Outcome.under r' segment) := by
  match r, r', h with
  | .ok _, .ok _, h => exact h
  | .error e, .error e', h =>
      have hpath : e.path = e'.path := h
      show (e.withPrefix segment).path = (e'.withPrefix segment).path
      rw [ParseError.withPrefix, ParseError.withPrefix, hpath]

theorem bind {r r' : Outcome A} {f f' : A → Outcome B} (h : Agree r r')
    (hf : ∀ a, Agree (f a) (f' a)) : Agree (r >>= f) (r' >>= f') := by
  match r, r', h with
  | .ok a, .ok _, h =>
      obtain rfl := h
      exact hf a
  | .error _, .error _, h => exact h

/-- A pure function after both. -/
theorem map {r r' : Outcome A} (f : A → B) (h : Agree r r') : Agree (f <$> r) (f <$> r') := by
  match r, r', h with
  | .ok _, .ok _, h => exact congrArg f h
  | .error _, .error _, h => exact h

variable {d : W → Outcome A} {du : Unknown → Outcome A} {image : W → Unknown}

/-- The loops of an array stop at the same item, if at all. -/
theorem decodeItems (h : ∀ w, Agree (du (image w)) (d w)) (idx : ℕ) (out : List A)
    (items : List W) :
    Agree (decodeItems du idx out (items.map image)) (decodeItems d idx out items) := by
  induction items generalizing idx out with
  | nil => exact Agree.refl _
  | cons w items ih =>
      rw [List.map_cons, decodeItems_cons, decodeItems_cons]
      exact ((h w).under (toString idx)).bind fun a => ih (idx + 1) (out ++ [a])

/-- The loops of a record stop at the same key, if at all. -/
theorem decodeEntries (h : ∀ w, Agree (du (image w)) (d w)) (out : Assoc.Map String A)
    (l : List (String × W)) :
    Agree (decodeEntries du out (l.map fun p => (p.1, image p.2))) (decodeEntries d out l) := by
  induction l generalizing out with
  | nil => exact Agree.refl _
  | cons p l ih => exact ((h p.2).under p.1).bind fun a => ih (out.insert p.1 a)

section Products

variable {d0 : I0 → Outcome A0} {d1 : I1 → Outcome A1} {d2 : I2 → Outcome A2} {d3 : I3 → Outcome A3}

theorem decode2 {r0 : Outcome A0} {r1 : Outcome A1} {n0 n1 : String} {i0 : I0} {i1 : I1}
    (h0 : Agree r0 (d0 i0)) (h1 : Agree r1 (d1 i1)) :
    Agree (do return (← Outcome.under r0 n0, ← Outcome.under r1 n1))
      (decode2 n0 n1 d0 d1 (i0, i1)) :=
  (h0.under n0).bind fun _ => (h1.under n1).bind fun _ => Agree.refl _

theorem decode3 {r0 : Outcome A0} {r1 : Outcome A1} {r2 : Outcome A2} {n0 n1 n2 : String}
    {i0 : I0} {i1 : I1} {i2 : I2} (h0 : Agree r0 (d0 i0)) (h1 : Agree r1 (d1 i1))
    (h2 : Agree r2 (d2 i2)) :
    Agree (do return (← Outcome.under r0 n0, ← Outcome.under r1 n1, ← Outcome.under r2 n2))
      (decode3 n0 n1 n2 d0 d1 d2 (i0, i1, i2)) :=
  (h0.under n0).bind fun _ => (h1.under n1).bind fun _ => (h2.under n2).bind fun _ => Agree.refl _

theorem decode4 {r0 : Outcome A0} {r1 : Outcome A1} {r2 : Outcome A2} {r3 : Outcome A3}
    {n0 n1 n2 n3 : String} {i0 : I0} {i1 : I1} {i2 : I2} {i3 : I3} (h0 : Agree r0 (d0 i0))
    (h1 : Agree r1 (d1 i1)) (h2 : Agree r2 (d2 i2)) (h3 : Agree r3 (d3 i3)) :
    Agree (do return (← Outcome.under r0 n0, ← Outcome.under r1 n1, ← Outcome.under r2 n2,
        ← Outcome.under r3 n3))
      (decode4 n0 n1 n2 n3 d0 d1 d2 d3 (i0, i1, i2, i3)) :=
  (h0.under n0).bind fun _ => (h1.under n1).bind fun _ => (h2.under n2).bind fun _ =>
    (h3.under n3).bind fun _ => Agree.refl _

end Products

end Agree

/-- A field of an object collected from distinct names is decoded under its name. -/
theorem field_ofList {s : Schema A I} {l : List (String × Unknown)} (hl : (l.map Prod.fst).Nodup)
    {name : String} {u : Unknown} (hm : (name, u) ∈ l) :
    field s (Assoc.ofList l) name = Outcome.under (s.decodeUnknown u) name := by
  rw [field, Assoc.get_ofList hl hm]

/-- What an `optional` makes of an image that is not null. -/
theorem optional_decodeUnknown_of_ne_null (s : Schema A I) {u : Unknown} (h : u ≠ .null) :
    (optional s).decodeUnknown u = some <$> s.decodeUnknown u := by
  cases u with
  | null => exact absurd rfl h
  | _ => rfl

/-! ## Every schema expression -/

/-- **The two decoders agree.** On the image of a wire value `decodeUnknown` gives what `decode`
    gives on the wire value itself: the same value, or a failure at the same path. -/
theorem Expr.decodeUnknown_image (e : Expr A I) (hd : e.DistinctFields)
    (hn : e.EachOptional NeverNull) (i : I) :
    Agree (e.schema.decodeUnknown (e.image i)) (e.schema.decode i) := by
  induction e with
  | i64 | string | bool_ | f64 => exact Agree.refl _
  | literalString debug s =>
      show Agree (if i = s then _ else _) (if i = s then _ else _)
      split <;> rfl
  | literalI64 n =>
      show Agree (if i = n then _ else _) (if i = n then _ else _)
      split <;> rfl
  | transform e decode encode ih => exact (ih hd hn i).bind fun a => Agree.refl _
  | filter e pred message ih => exact (ih hd hn i).bind fun a => Agree.refl _
  | refine e pred message ih => exact (ih hd hn i).bind fun a => Agree.refl _
  | optional e ih =>
      cases i with
      | none => exact Agree.refl _
      | some i =>
          -- an image that is null would be taken for the absent value
          show Agree ((Schema.optional e.schema).decodeUnknown (e.image i)) _
          rw [optional_decodeUnknown_of_ne_null _ (hn.2 i)]
          exact (ih hd hn.1 i).map some
  | array e ih => exact Agree.decodeItems (ih hd hn) 0 [] i
  | tuple e0 e1 ih0 ih1 => exact Agree.decode2 (ih0 hd.1 hn.1 i.1) (ih1 hd.2 hn.2 i.2)
  | tuple3 e0 e1 e2 ih0 ih1 ih2 =>
      exact Agree.decode3 (ih0 hd.1 hn.1 i.1) (ih1 hd.2.1 hn.2.1 i.2.1)
        (ih2 hd.2.2 hn.2.2 i.2.2)
  | tuple4 e0 e1 e2 e3 ih0 ih1 ih2 ih3 =>
      exact Agree.decode4 (ih0 hd.1 hn.1 i.1) (ih1 hd.2.1 hn.2.1 i.2.1)
        (ih2 hd.2.2.1 hn.2.2.1 i.2.2.1) (ih3 hd.2.2.2 hn.2.2.2 i.2.2.2)
  | struct_ name0 e0 name1 e1 ih0 ih1 =>
      -- with distinct names every field is found again in the object
      obtain ⟨hnames, hd⟩ := hd
      obtain ⟨i0, i1⟩ := i
      have hl : ([(name0, e0.image i0), (name1, e1.image i1)].map Prod.fst).Nodup := hnames
      show Agree (do return (← field e0.schema _ name0, ← field e1.schema _ name1)) _
      rw [field_ofList hl (.head _), field_ofList hl (.tail _ (.head _))]
      exact Agree.decode2 (ih0 hd.1 hn.1 i0) (ih1 hd.2 hn.2 i1)
  | struct3 name0 e0 name1 e1 name2 e2 ih0 ih1 ih2 =>
      obtain ⟨hnames, hd⟩ := hd
      obtain ⟨i0, i1, i2⟩ := i
      have hl : ([(name0, e0.image i0), (name1, e1.image i1), (name2, e2.image i2)].map
        Prod.fst).Nodup := hnames
      show Agree (do return (← field e0.schema _ name0, ← field e1.schema _ name1,
        ← field e2.schema _ name2)) _
      rw [field_ofList hl (.head _), field_ofList hl (.tail _ (.head _)),
        field_ofList hl (.tail _ (.tail _ (.head _)))]
      exact Agree.decode3 (ih0 hd.1 hn.1 i0) (ih1 hd.2.1 hn.2.1 i1) (ih2 hd.2.2 hn.2.2 i2)
  | struct4 name0 e0 name1 e1 name2 e2 name3 e3 ih0 ih1 ih2 ih3 =>
      obtain ⟨hnames, hd⟩ := hd
      obtain ⟨i0, i1, i2, i3⟩ := i
      have hl : ([(name0, e0.image i0), (name1, e1.image i1), (name2, e2.image i2),
        (name3, e3.image i3)].map Prod.fst).Nodup := hnames
      show Agree (do return (← field e0.schema _ name0, ← field e1.schema _ name1,
        ← field e2.schema _ name2, ← field e3.schema _ name3)) _
      rw [field_ofList hl (.head _), field_ofList hl (.tail _ (.head _)),
        field_ofList hl (.tail _ (.tail _ (.head _))),
        field_ofList hl (.tail _ (.tail _ (.tail _ (.head _))))]
      exact Agree.decode4 (ih0 hd.1 hn.1 i0) (ih1 hd.2.1 hn.2.1 i1)
        (ih2 hd.2.2.1 hn.2.2.1 i2) (ih3 hd.2.2.2 hn.2.2.2 i3)
  | record e ih => exact Agree.decodeEntries (ih hd hn) .empty i.entries
  | suspend thunk ih => exact ih 0 hd hn i

/-- A struct with an optional field in an array: both decoders accept the one value, and both
    reject the other at the same path. -/
theorem Expr.decodeUnknown_image_struct :
    let e : Expr (String × List (Option Int64)) (String × List (Option Int64)) :=
      .struct_ "name" .string "ages" (.array (.optional (.filter .i64 (0 ≤ ·) "negative")))
    Agree (e.schema.decodeUnknown (e.image ("a", [some 3, none])))
        (e.schema.decode ("a", [some 3, none])) ∧
      Agree (e.schema.decodeUnknown (e.image ("a", [none, some (-1)])))
        (e.schema.decode ("a", [none, some (-1)])) := by
  intro e
  have hd : e.DistinctFields := ⟨by decide, trivial, trivial⟩
  have hn : e.EachOptional NeverNull := ⟨trivial, trivial, fun i h => by cases h⟩
  exact ⟨Expr.decodeUnknown_image e hd hn _, Expr.decodeUnknown_image e hd hn _⟩

/-- An `optional` whose inner schema has a wire value that stands for null never agrees on it: the
    dynamic decoder takes the null for the absent value. -/
theorem optional_disagrees (e : Expr A I) {i : I} (h : e.image i = .null) :
    ¬ Agree ((Expr.optional e).schema.decodeUnknown ((Expr.optional e).image (some i)))
      ((Expr.optional e).schema.decode (some i)) := by
  have hu : (Expr.optional e).schema.decodeUnknown ((Expr.optional e).image (some i))
      = .ok none := by
    show (Schema.optional e.schema).decodeUnknown (e.image i) = _
    rw [h]
    rfl
  rw [hu]
  show ¬ Agree (.ok none) (some <$> e.schema.decode i)
  cases e.schema.decode i with
  | ok a => exact fun hagree => by cases hagree
  | error err => exact id

/-- A schema that rejects null can still have a wire value that stands for it: an optional number
    that has to be present, made optional. -/
theorem Expr.decodeUnknown_image_present :
    ∃ e : Expr (Option (Option Int64)) (Option (Option Int64)),
      e = .optional (.filter (.optional .i64) (fun oa => oa.isSome) "required") ∧
        e.DistinctFields ∧ e.EachOptional RejectsNull ∧
        ¬ Agree (e.schema.decodeUnknown (e.image (some none))) (e.schema.decode (some none)) := by
  refine ⟨_, rfl, trivial, ⟨⟨trivial, fun a h => ?_⟩, fun a h => ?_⟩, optional_disagrees _ rfl⟩
  · cases h
  · cases h

end IdEffect.Schema
