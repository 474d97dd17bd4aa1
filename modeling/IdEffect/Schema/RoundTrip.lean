import IdEffect.Schema.Parse
import Mathlib.Data.List.Forall2

set_option autoImplicit false

/-! # Schemas round-trip

What a schema decodes, it decodes again after encoding it (`Stable`), and a schema that loses
nothing encodes it to the wire value it came from (`Faithful`). For every combinator one lemma says
which wire values its decoder accepts and as what, in terms of the decoders of its parts; the two
laws are read off these lemmas, and an induction over schema expressions gives them for every
nesting. A `transform` is the one combinator that can break them, so each law comes with what it
asks of the functions of a transform: `DecodesBack` and `EncodesBack`. -/

namespace IdEffect.Schema

variable {A B I W A0 A1 A2 A3 I0 I1 I2 I3 : Type}

/-! ## What the decoders accept -/

theorem Outcome.under_eq_ok {r : Outcome A} {segment : String} {a : A} :
    Outcome.under r segment = .ok a ↔ r = .ok a := by
  cases r <;> simp [Outcome.under, Except.mapError]

theorem checked_eq_ok {pred : A → Bool} {message : String} {a b : A} :
    checked pred message a = .ok b ↔ pred a = true ∧ a = b := by
  by_cases h : pred a = true <;> simp [checked, h]

theorem filter_decode_eq_ok {s : Schema A I} {pred : A → Bool} {message : String} {i : I} {a : A} :
    (filter s pred message).decode i = .ok a ↔ s.decode i = .ok a ∧ pred a = true := by
  rw [filter, Outcome.bind_eq_ok]
  constructor
  · rintro ⟨a', hi, hc⟩
    obtain ⟨hp, rfl⟩ := checked_eq_ok.mp hc
    exact ⟨hi, hp⟩
  · rintro ⟨hi, hp⟩
    exact ⟨a, hi, checked_eq_ok.mpr ⟨hp, rfl⟩⟩

theorem optional_decode_some_eq_ok {s : Schema A I} {i : I} {oa : Option A} :
    (optional s).decode (some i) = .ok oa ↔ ∃ a, s.decode i = .ok a ∧ some a = oa := by
  show some <$> s.decode i = .ok oa ↔ _
  cases s.decode i <;> simp [Functor.map, Except.map]

theorem decodeItems_eq_ok {decode : W → Outcome A} {idx : ℕ} {out as : List A} {items : List W} :
    decodeItems decode idx out items = .ok as ↔
      ∃ l, as = out ++ l ∧ List.Forall₂ (fun w a => decode w = .ok a) items l := by
  induction items generalizing idx out with
  | nil => simp [decodeItems, eq_comm]
  | cons w items ih =>
      rw [decodeItems_cons, Outcome.bind_eq_ok]
      constructor
      · rintro ⟨a, hw, hrest⟩
        obtain ⟨l, rfl, hl⟩ := ih.mp hrest
        exact ⟨a :: l, by simp, .cons (Outcome.under_eq_ok.mp hw) hl⟩
      · rintro ⟨_, rfl, hl⟩
        obtain ⟨a, l, hw, hrest, rfl⟩ := List.forall₂_cons_left_iff.mp hl
        exact ⟨a, Outcome.under_eq_ok.mpr hw, ih.mpr ⟨l, by simp, hrest⟩⟩

theorem array_decode_eq_ok {s : Schema A I} {is : List I} {as : List A} :
    (array s).decode is = .ok as ↔ List.Forall₂ (fun i a => s.decode i = .ok a) is as := by
  rw [array, decodeItems_eq_ok]
  constructor
  · rintro ⟨l, rfl, hl⟩
    exact hl
  · exact fun h => ⟨as, rfl, h⟩

theorem decode2_eq_ok {n0 n1 : String} {d0 : I0 → Outcome A0} {d1 : I1 → Outcome A1}
    {i0 : I0} {i1 : I1} {a : A0 × A1} :
    decode2 n0 n1 d0 d1 (i0, i1) = .ok a ↔ d0 i0 = .ok a.1 ∧ d1 i1 = .ok a.2 := by
  simp only [decode2, Outcome.bind_eq_ok, Outcome.under_eq_ok]
  constructor
  · rintro ⟨a0, h0, a1, h1, heq⟩
    obtain rfl := Except.ok.inj heq
    exact ⟨h0, h1⟩
  · rintro ⟨h0, h1⟩
    exact ⟨a.1, h0, a.2, h1, rfl⟩

theorem decode3_eq_ok {n0 n1 n2 : String} {d0 : I0 → Outcome A0} {d1 : I1 → Outcome A1}
    {d2 : I2 → Outcome A2} {i0 : I0} {i1 : I1} {i2 : I2} {a : A0 × A1 × A2} :
    decode3 n0 n1 n2 d0 d1 d2 (i0, i1, i2) = .ok a ↔
      d0 i0 = .ok a.1 ∧ d1 i1 = .ok a.2.1 ∧ d2 i2 = .ok a.2.2 := by
  simp only [decode3, Outcome.bind_eq_ok, Outcome.under_eq_ok]
  constructor
  · rintro ⟨a0, h0, a1, h1, a2, h2, heq⟩
    obtain rfl := Except.ok.inj heq
    exact ⟨h0, h1, h2⟩
  · rintro ⟨h0, h1, h2⟩
    exact ⟨a.1, h0, a.2.1, h1, a.2.2, h2, rfl⟩

theorem decode4_eq_ok {n0 n1 n2 n3 : String} {d0 : I0 → Outcome A0} {d1 : I1 → Outcome A1}
    {d2 : I2 → Outcome A2} {d3 : I3 → Outcome A3} {i0 : I0} {i1 : I1} {i2 : I2} {i3 : I3}
    {a : A0 × A1 × A2 × A3} :
    decode4 n0 n1 n2 n3 d0 d1 d2 d3 (i0, i1, i2, i3) = .ok a ↔
      d0 i0 = .ok a.1 ∧ d1 i1 = .ok a.2.1 ∧ d2 i2 = .ok a.2.2.1 ∧ d3 i3 = .ok a.2.2.2 := by
  simp only [decode4, Outcome.bind_eq_ok, Outcome.under_eq_ok]
  constructor
  · rintro ⟨a0, h0, a1, h1, a2, h2, a3, h3, heq⟩
    obtain rfl := Except.ok.inj heq
    exact ⟨h0, h1, h2, h3⟩
  · rintro ⟨h0, h1, h2, h3⟩
    exact ⟨a.1, h0, a.2.1, h1, a.2.2.1, h2, a.2.2.2, h3, rfl⟩

/-- Two entries under one key, the second the decoded first. -/
def EntryDecodes (decode : W → Outcome A) (p : String × W) (q : String × A) : Prop :=
  p.1 = q.1 ∧ decode p.2 = .ok q.2

/-- The loop of a record appends the decoded entries, as long as they arrive in key order. -/
theorem decodeEntries_eq_ok {decode : W → Outcome A} {l : List (String × W)}
    (hl : Assoc.Ascending l) {out m : Assoc.Map String A}
    (hout : ∀ p ∈ out.entries, ∀ q ∈ l, p.1 < q.1) :
    decodeEntries decode out l = .ok m ↔
      ∃ l', m.entries = out.entries ++ l' ∧ List.Forall₂ (EntryDecodes decode) l l' := by
  induction l generalizing out with
  | nil =>
      simp only [decodeEntries, List.forall₂_nil_left_iff, exists_eq_right, List.append_nil]
      exact ⟨fun h => congrArg Assoc.Map.entries (Except.ok.inj h).symm,
        fun h => congrArg Except.ok (Assoc.Map.ext h.symm)⟩
  | cons p l ih =>
      obtain ⟨k, w⟩ := p
      have hk : ∀ p ∈ out.entries, p.1 < k := fun p hp => hout p hp (k, w) (List.mem_cons_self ..)
      -- an entry behind all others is inserted at the end
      have hins : ∀ a, (out.insert k a).entries = out.entries ++ [(k, a)] := fun a =>
        Assoc.insert_of_forall_lt hk
      have hnext : ∀ a, ∀ p ∈ (out.insert k a).entries, ∀ q ∈ l, p.1 < q.1 := by
        intro a p hp q hq
        rw [hins a] at hp
        rcases List.mem_append.mp hp with hp | hp
        · exact hout p hp q (List.mem_cons_of_mem _ hq)
        · rw [List.mem_singleton.mp hp]
          exact hl.lt_of_mem hq
      rw [decodeEntries, Outcome.bind_eq_ok]
      constructor
      · rintro ⟨a, hw, hrest⟩
        obtain ⟨l', hm, hl'⟩ := (ih hl.tail (hnext a)).mp hrest
        refine ⟨(k, a) :: l', ?_, .cons ⟨rfl, Outcome.under_eq_ok.mp hw⟩ hl'⟩
        rw [hm, hins a, List.append_assoc, List.singleton_append]
      · rintro ⟨_, hm, hl'⟩
        obtain ⟨⟨k', a⟩, l', ⟨hkk, hw⟩, hrest, rfl⟩ := List.forall₂_cons_left_iff.mp hl'
        obtain rfl : k = k' := hkk
        refine ⟨a, Outcome.under_eq_ok.mpr hw, (ih hl.tail (hnext a)).mpr ⟨l', ?_, hrest⟩⟩
        rw [hm, hins a, List.append_assoc, List.singleton_append]

theorem record_decode_eq_ok {value : Schema A I} {m : Assoc.Map String I}
    {m' : Assoc.Map String A} :
    (record value).decode m = .ok m' ↔
      List.Forall₂ (EntryDecodes value.decode) m.entries m'.entries := by
  rw [record, decodeEntries_eq_ok m.ascending (by simp [Assoc.Map.empty])]
  constructor
  · rintro ⟨l, hm, hl⟩
    rwa [hm]
  · exact fun h => ⟨m'.entries, rfl, h⟩

theorem record_encode_entries (value : Schema A I) (m : Assoc.Map String A) :
    ((record value).encode m).entries = m.entries.map fun p => (p.1, value.encode p.2) :=
  (m.ascending.map value.encode).ofList_eq

/-! ## The two laws, combinator by combinator -/

/-- What the schema decoded, it decodes again from its own encoding. -/
def Stable (s : Schema A I) : Prop :=
  ∀ i a, s.decode i = .ok a → s.decode (s.encode a) = .ok a

/-- What the schema decoded, it encodes to the wire value it came from. -/
def Faithful (s : Schema A I) : Prop :=
  ∀ i a, s.decode i = .ok a → s.encode a = i

/-- What is asked of the schema under a transform and of the transform's two functions. -/
abbrev TransformLaw : Type 1 :=
  ∀ A B I : Type, Schema A I → (A → Outcome B) → (B → A) → Prop

/-- The functions are inverse on the values the transform accepts: such a value goes back to one
    that the schema underneath accepts, and that one is decoded to the value again. -/
def DecodesBack : TransformLaw := fun _ _ _ s decode encode =>
  ∀ i b, (transform s decode encode).decode i = .ok b →
    (∃ j, s.decode j = .ok (encode b)) ∧ decode (encode b) = .ok b

/-- The functions are inverse in the other direction too: what the schema underneath accepts is
    recovered from what it is decoded to. -/
def EncodesBack : TransformLaw := fun _ _ _ s decode encode =>
  ∀ i a b, s.decode i = .ok a → decode a = .ok b → encode b = a

/-- A schema that accepts every wire value as itself, or only some of them. -/
theorem Faithful.stable {s : Schema A I} (h : Faithful s) : Stable s := by
  intro i a hi
  rw [h i a hi, hi]

theorem Stable.transform {s : Schema A I} {decode : A → Outcome B} {encode : B → A}
    (hs : Stable s) (h : DecodesBack A B I s decode encode) :
    Stable (transform s decode encode) := by
  intro i b hi
  obtain ⟨⟨j, hj⟩, hb⟩ := h i b hi
  exact Outcome.bind_eq_ok.mpr ⟨encode b, hs j (encode b) hj, hb⟩

theorem Faithful.transform {s : Schema A I} {decode : A → Outcome B} {encode : B → A}
    (hs : Faithful s) (h : EncodesBack A B I s decode encode) :
    Faithful (transform s decode encode) := by
  intro i b hi
  obtain ⟨a, ha, hb⟩ := Outcome.bind_eq_ok.mp hi
  have hback : encode b = a := h i a b ha hb
  show s.encode (encode b) = i
  rw [hback, hs i a ha]

theorem Stable.filter {s : Schema A I} (hs : Stable s) (pred : A → Bool) (message : String) :
    Stable (filter s pred message) := by
  intro i a hi
  obtain ⟨hi, hp⟩ := filter_decode_eq_ok.mp hi
  exact filter_decode_eq_ok.mpr ⟨hs i a hi, hp⟩

theorem Faithful.filter {s : Schema A I} (hs : Faithful s) (pred : A → Bool) (message : String) :
    Faithful (filter s pred message) :=
  fun i a hi => hs i a (filter_decode_eq_ok.mp hi).1

theorem Stable.optional {s : Schema A I} (hs : Stable s) : Stable (optional s) := by
  rintro (_ | i) oa hi
  · obtain rfl : none = oa := Except.ok.inj hi
    rfl
  · obtain ⟨a, ha, rfl⟩ := optional_decode_some_eq_ok.mp hi
    exact optional_decode_some_eq_ok.mpr ⟨a, hs i a ha, rfl⟩

theorem Faithful.optional {s : Schema A I} (hs : Faithful s) : Faithful (optional s) := by
  rintro (_ | i) oa hi
  · obtain rfl : none = oa := Except.ok.inj hi
    rfl
  · obtain ⟨a, ha, rfl⟩ := optional_decode_some_eq_ok.mp hi
    exact congrArg some (hs i a ha)

theorem Stable.array {s : Schema A I} (hs : Stable s) : Stable (array s) := by
  intro is as hi
  rw [array_decode_eq_ok] at hi ⊢
  show List.Forall₂ _ (as.map s.encode) as
  induction hi with
  | nil => exact .nil
  | cons ha _ ih => exact .cons (hs _ _ ha) ih

theorem Faithful.array {s : Schema A I} (hs : Faithful s) : Faithful (array s) := by
  intro is as hi
  rw [array_decode_eq_ok] at hi
  show as.map s.encode = is
  induction hi with
  | nil => rfl
  | cons ha _ ih => rw [List.map_cons, ih, hs _ _ ha]

theorem Stable.record {value : Schema A I} (hv : Stable value) : Stable (record value) := by
  intro m m' hm
  rw [record_decode_eq_ok] at hm ⊢
  rw [record_encode_entries]
  generalize m.entries = l, m'.entries = l' at hm ⊢
  induction hm with
  | nil => exact .nil
  | cons hp _ ih => exact .cons ⟨rfl, hv _ _ hp.2⟩ ih

theorem Faithful.record {value : Schema A I} (hv : Faithful value) : Faithful (record value) := by
  intro m m' hm
  rw [record_decode_eq_ok] at hm
  apply Assoc.Map.ext
  rw [record_encode_entries]
  generalize m.entries = l, m'.entries = l' at hm ⊢
  induction hm with
  | nil => rfl
  | cons hp _ ih => rw [List.map_cons, ih, hv _ _ hp.2, ← hp.1]

section Products

variable {s0 : Schema A0 I0} {s1 : Schema A1 I1} {s2 : Schema A2 I2} {s3 : Schema A3 I3}

-- Tuples and structs decode and encode alike, up to the segments of their errors.

theorem Stable.decode2 (h0 : Stable s0) (h1 : Stable s1) {n0 n1 : String} (i : I0 × I1)
    (a : A0 × A1) (hi : decode2 n0 n1 s0.decode s1.decode i = .ok a) :
    Schema.decode2 n0 n1 s0.decode s1.decode (s0.encode a.1, s1.encode a.2) = .ok a := by
  obtain ⟨ha0, ha1⟩ := decode2_eq_ok.mp hi
  exact decode2_eq_ok.mpr ⟨h0 _ _ ha0, h1 _ _ ha1⟩

theorem Faithful.decode2 (h0 : Faithful s0) (h1 : Faithful s1) {n0 n1 : String} (i : I0 × I1)
    (a : A0 × A1) (hi : decode2 n0 n1 s0.decode s1.decode i = .ok a) :
    (s0.encode a.1, s1.encode a.2) = i := by
  obtain ⟨ha0, ha1⟩ := decode2_eq_ok.mp hi
  rw [h0 _ _ ha0, h1 _ _ ha1]

theorem Stable.decode3 (h0 : Stable s0) (h1 : Stable s1) (h2 : Stable s2) {n0 n1 n2 : String}
    (i : I0 × I1 × I2) (a : A0 × A1 × A2)
    (hi : decode3 n0 n1 n2 s0.decode s1.decode s2.decode i = .ok a) :
    Schema.decode3 n0 n1 n2 s0.decode s1.decode s2.decode
      (s0.encode a.1, s1.encode a.2.1, s2.encode a.2.2) = .ok a := by
  obtain ⟨ha0, ha1, ha2⟩ := decode3_eq_ok.mp hi
  exact decode3_eq_ok.mpr ⟨h0 _ _ ha0, h1 _ _ ha1, h2 _ _ ha2⟩

theorem Faithful.decode3 (h0 : Faithful s0) (h1 : Faithful s1) (h2 : Faithful s2)
    {n0 n1 n2 : String} (i : I0 × I1 × I2) (a : A0 × A1 × A2)
    (hi : decode3 n0 n1 n2 s0.decode s1.decode s2.decode i = .ok a) :
    (s0.encode a.1, s1.encode a.2.1, s2.encode a.2.2) = i := by
  obtain ⟨ha0, ha1, ha2⟩ := decode3_eq_ok.mp hi
  rw [h0 _ _ ha0, h1 _ _ ha1, h2 _ _ ha2]

theorem Stable.decode4 (h0 : Stable s0) (h1 : Stable s1) (h2 : Stable s2) (h3 : Stable s3)
    {n0 n1 n2 n3 : String} (i : I0 × I1 × I2 × I3) (a : A0 × A1 × A2 × A3)
    (hi : decode4 n0 n1 n2 n3 s0.decode s1.decode s2.decode s3.decode i = .ok a) :
    Schema.decode4 n0 n1 n2 n3 s0.decode s1.decode s2.decode s3.decode
      (s0.encode a.1, s1.encode a.2.1, s2.encode a.2.2.1, s3.encode a.2.2.2) = .ok a := by
  obtain ⟨ha0, ha1, ha2, ha3⟩ := decode4_eq_ok.mp hi
  exact decode4_eq_ok.mpr ⟨h0 _ _ ha0, h1 _ _ ha1, h2 _ _ ha2, h3 _ _ ha3⟩

theorem Faithful.decode4 (h0 : Faithful s0) (h1 : Faithful s1) (h2 : Faithful s2)
    (h3 : Faithful s3) {n0 n1 n2 n3 : String} (i : I0 × I1 × I2 × I3) (a : A0 × A1 × A2 × A3)
    (hi : decode4 n0 n1 n2 n3 s0.decode s1.decode s2.decode s3.decode i = .ok a) :
    (s0.encode a.1, s1.encode a.2.1, s2.encode a.2.2.1, s3.encode a.2.2.2) = i := by
  obtain ⟨ha0, ha1, ha2, ha3⟩ := decode4_eq_ok.mp hi
  rw [h0 _ _ ha0, h1 _ _ ha1, h2 _ _ ha2, h3 _ _ ha3]

end Products

/-! ## Every schema expression -/

/-- Every transform in the expression obeys `law` over the schema it transforms. -/
def Expr.EachTransform (law : TransformLaw) {A I : Type} : Expr A I → Prop
  | .i64 | .string | .bool_ | .f64 | .literalString _ _ | .literalI64 _ => True
  | .transform e decode encode => e.EachTransform law ∧ law _ _ _ e.schema decode encode
  | .filter e _ _ | .refine e _ _ | .optional e | .array e | .record e => e.EachTransform law
  | .tuple e0 e1 | .struct_ _ e0 _ e1 => e0.EachTransform law ∧ e1.EachTransform law
  | .tuple3 e0 e1 e2 | .struct3 _ e0 _ e1 _ e2 =>
      e0.EachTransform law ∧ e1.EachTransform law ∧ e2.EachTransform law
  | .tuple4 e0 e1 e2 e3 | .struct4 _ e0 _ e1 _ e2 _ e3 =>
      e0.EachTransform law ∧ e1.EachTransform law ∧ e2.EachTransform law ∧ e3.EachTransform law
  | .suspend thunk => (thunk 0).EachTransform law

theorem literalString_faithful (debug : String → String) (s : String) :
    Faithful (literalString debug s) := by
  intro w a hw
  by_cases h : w = s
  · simp only [literalString, h, if_true] at hw
    rw [h]
    exact (Except.ok.inj hw).symm
  · simp [literalString, h] at hw

theorem literalI64_faithful (n : Int64) : Faithful (literalI64 n) := by
  intro w a hw
  by_cases h : w = n
  · simp only [literalI64, h, if_true] at hw
    rw [h]
    exact (Except.ok.inj hw).symm
  · simp [literalI64, h] at hw

theorem Expr.stable (e : Expr A I) (h : e.EachTransform DecodesBack) : Stable e.schema := by
  induction e with
  | i64 | string | bool_ | f64 => exact fun _ _ _ => rfl
  | literalString debug s => exact (literalString_faithful debug s).stable
  | literalI64 n => exact (literalI64_faithful n).stable
  | transform e decode encode ih => exact (ih h.1).transform h.2
  | filter e pred message ih => exact (ih h).filter pred message
  | refine e pred message ih => exact (ih h).filter pred message
  | optional e ih => exact (ih h).optional
  | array e ih => exact (ih h).array
  | tuple e0 e1 ih0 ih1 => exact Stable.decode2 (ih0 h.1) (ih1 h.2)
  | struct_ _ e0 _ e1 ih0 ih1 => exact Stable.decode2 (ih0 h.1) (ih1 h.2)
  | tuple3 e0 e1 e2 ih0 ih1 ih2 => exact Stable.decode3 (ih0 h.1) (ih1 h.2.1) (ih2 h.2.2)
  | struct3 _ e0 _ e1 _ e2 ih0 ih1 ih2 =>
      exact Stable.decode3 (ih0 h.1) (ih1 h.2.1) (ih2 h.2.2)
  | tuple4 e0 e1 e2 e3 ih0 ih1 ih2 ih3 =>
      exact Stable.decode4 (ih0 h.1) (ih1 h.2.1) (ih2 h.2.2.1) (ih3 h.2.2.2)
  | struct4 _ e0 _ e1 _ e2 _ e3 ih0 ih1 ih2 ih3 =>
      exact Stable.decode4 (ih0 h.1) (ih1 h.2.1) (ih2 h.2.2.1) (ih3 h.2.2.2)
  | record e ih => exact (ih h).record
  | suspend thunk ih => exact ih 0 h

theorem Expr.faithful (e : Expr A I) (h : e.EachTransform EncodesBack) : Faithful e.schema := by
  induction e with
  | i64 | string | bool_ | f64 => exact fun _ _ hi => (Except.ok.inj hi).symm
  | literalString debug s => exact literalString_faithful debug s
  | literalI64 n => exact literalI64_faithful n
  | transform e decode encode ih => exact (ih h.1).transform h.2
  | filter e pred message ih => exact (ih h).filter pred message
  | refine e pred message ih => exact (ih h).filter pred message
  | optional e ih => exact (ih h).optional
  | array e ih => exact (ih h).array
  | tuple e0 e1 ih0 ih1 => exact Faithful.decode2 (ih0 h.1) (ih1 h.2)
  | struct_ _ e0 _ e1 ih0 ih1 => exact Faithful.decode2 (ih0 h.1) (ih1 h.2)
  | tuple3 e0 e1 e2 ih0 ih1 ih2 => exact Faithful.decode3 (ih0 h.1) (ih1 h.2.1) (ih2 h.2.2)
  | struct3 _ e0 _ e1 _ e2 ih0 ih1 ih2 =>
      exact Faithful.decode3 (ih0 h.1) (ih1 h.2.1) (ih2 h.2.2)
  | tuple4 e0 e1 e2 e3 ih0 ih1 ih2 ih3 =>
      exact Faithful.decode4 (ih0 h.1) (ih1 h.2.1) (ih2 h.2.2.1) (ih3 h.2.2.2)
  | struct4 _ e0 _ e1 _ e2 _ e3 ih0 ih1 ih2 ih3 =>
      exact Faithful.decode4 (ih0 h.1) (ih1 h.2.1) (ih2 h.2.2.1) (ih3 h.2.2.2)
  | record e ih => exact (ih h).record
  | suspend thunk ih => exact ih 0 h

/-- **Schemas round-trip.** Whatever a schema expression decodes, it decodes again from its own
    encoding, provided the functions of every transform in it are inverse on the values the
    transform accepts; and the encoding is the wire value itself where they are inverse in both
    directions. -/
theorem Expr.decode_encode (e : Expr A I) (h : e.EachTransform DecodesBack) :
    (∀ i a, e.schema.decode i = .ok a → e.schema.decode (e.schema.encode a) = .ok a) ∧
      (e.EachTransform EncodesBack →
        ∀ i a, e.schema.decode i = .ok a → e.schema.encode a = i) :=
  ⟨e.stable h, e.faithful⟩

/-- A struct with a renamed flag in an array: both parts of the law at one of its wire values. -/
theorem Expr.decode_encode_struct :
    let e : Expr (String × List Bool) (String × List Bool) :=
      .struct_ "name" .string "hidden" (.array (.transform .bool_ (fun b => .ok (!b)) (!·)))
    e.schema.decode ("a", [true, false]) = .ok ("a", [false, true]) ∧
      e.schema.decode (e.schema.encode ("a", [false, true])) = .ok ("a", [false, true]) ∧
      e.schema.encode ("a", [false, true]) = ("a", [true, false]) := by
  intro e
  have hd : e.EachTransform DecodesBack := by
    refine ⟨trivial, trivial, fun i b _ => ⟨⟨!b, rfl⟩, ?_⟩⟩
    exact congrArg Except.ok (Bool.not_not b)
  have he : e.EachTransform EncodesBack := by
    refine ⟨trivial, trivial, fun i a b _ hb => ?_⟩
    rw [← Except.ok.inj hb]
    exact Bool.not_not a
  have hok : e.schema.decode ("a", [true, false]) = .ok ("a", [false, true]) := rfl
  obtain ⟨hstable, hfaithful⟩ := Expr.decode_encode e hd
  exact ⟨hok, hstable _ _ hok, hfaithful he _ _ hok⟩

end IdEffect.Schema
