import IdEffect.Optics.Trimmed

set_option autoImplicit false

/-! # When a patch does what it should

`applyPatch` is compared with `Rfc6902.apply`, operation by operation. Where the code reads the
pointers it comes to as such (`Followed`) the two agree, except that `add`, and with it `copy` and
`move`, overwrites an array element where it should insert before it (`Overwrites`), and that `move`
creates what the removal took away (`Slips`). What both accept is read as such if the code splits
the pointers into their tokens (`followed_of_accepts`); if it does not, the two agree only where
there is nothing to change, or where a copy goes astray twice (`ByChance`). What both refuse they
agree on. -/

namespace IdEffect.Optics

open Schema (Unknown)
open Rfc6902 (Token Pointer render arrayIndex child put insertPart removePart locate)

variable {debug : DebugText} {doc : Unknown}

/-! ## All operations -/

/-- The code reads the pointers that it comes to as such: those it removes at also through the
    dotted path of the parent, the target of a copy only if there is something to copy, and the
    target of a move in the document that is left once the value is taken out. -/
def Followed (doc : Unknown) : PatchOp Pointer → Prop
  | .add p _ => Readable doc p
  | .replace p _ => Readable doc p
  | .remove p => Readable doc p ∧ DotSafe p.dropLast
  | .move from_ p =>
      Readable doc from_ ∧ ((locate doc from_).isSome →
        DotSafe from_.dropLast ∧ ∀ d, Rfc6902.remove doc from_ = some d → Readable d p)
  | .copy from_ p => Readable doc from_ ∧ ((locate doc from_).isSome → Readable doc p)
  | .test p _ => Readable doc p

/-- The operation adds at an element that an array has. -/
def Overwrites (doc : Unknown) : PatchOp Pointer → Prop
  | .add p _ => IsElement doc p
  | .move from_ p =>
      (locate doc from_).isSome ∧ ∃ d, Rfc6902.remove doc from_ = some d ∧ IsElement d p
  | .copy from_ p => (locate doc from_).isSome ∧ IsElement doc p
  | _ => False

/-- A value is moved below itself, or to where the parent of the target was taken away with it, and
    the code can create what is missing. -/
def Slips (doc : Unknown) : PatchOp Pointer → Prop
  | .move from_ p =>
      (locate doc from_).isSome ∧ ∃ d, Rfc6902.remove doc from_ = some d
        ∧ ((from_ <+: p ∧ from_ ≠ p) ∨ ¬ ParentExists d p)
        ∧ creatable d (parsePath (render p)).reverse
  | _ => False

/-- The code finds what the operation needs, where it reads the pointers to lead. -/
def Accepts (doc : Unknown) : PatchOp Pointer → Prop
  | .add p _ => creatable doc (parsePath (render p)).reverse
  | .replace p _ => (Navigate.locate childSegment doc (parsePath (render p))).isSome
  | .remove p => (removeAt doc (removalPlace (render p))).isSome
  | .move from_ p =>
      (Navigate.locate childSegment doc (parsePath (render from_))).isSome
        ∧ ∃ d, removeAt doc (removalPlace (render from_)) = some d
          ∧ creatable d (parsePath (render p)).reverse
  | .copy from_ p =>
      (Navigate.locate childSegment doc (parsePath (render from_))).isSome
        ∧ creatable doc (parsePath (render p)).reverse
  | .test p x =>
      ∃ v, Navigate.locate childSegment doc (parsePath (render p)) = some v ∧ eqUnknown v x

/-- The code splits the pointers into their tokens. -/
def Split : PatchOp Pointer → Prop
  | .add p _ => p.head? ≠ some []
  | .replace p _ => p.head? ≠ some []
  | .remove p => p.head? ≠ some [] ∧ DotSafe p.dropLast
  | .move from_ p => from_.head? ≠ some [] ∧ DotSafe from_.dropLast ∧ p.head? ≠ some []
  | .copy from_ p => from_.head? ≠ some [] ∧ p.head? ≠ some []
  | .test p _ => p.head? ≠ some []

/-- A pointer begins with an empty token, so that the code looks elsewhere, and all the same the
    operation gives what it should: the value that is set is there already at both places, the value
    that is tested for is at both, or the value that is copied is added alike. -/
def ByChance (doc : Unknown) : PatchOp Pointer → Prop
  | .add p x => p.head? = some [] ∧ Finds doc p x x ∧ ¬ IsElement doc p
  | .replace p x => p.head? = some [] ∧ Finds doc p x x
  | .remove _ => False
  | .move from_ p =>
      p.head? = some [] ∧ Readable doc from_ ∧ DotSafe from_.dropLast
        ∧ ∃ x d, locate doc from_ = some x ∧ Rfc6902.remove doc from_ = some d
          ∧ Finds d p x x ∧ ¬ IsElement d p
  | .copy from_ p =>
      (from_.head? = some [] ∨ p.head? = some [])
        ∧ ∃ x y, Finds doc from_ x y
          ∧ ((Readable doc p ∧ x = y ∧ ¬ IsElement doc p) ∨ AddsAlike doc p x y)
  | .test p x => p.head? = some [] ∧ ∃ v w, Finds doc p v w ∧ eqUnknown v x ∧ eqUnknown w x

/-- The code does what the operation asks for, or should not do it and finds nothing to accept. -/
def Right (doc : Unknown) (op : PatchOp Pointer) : Prop :=
  (Followed doc op ∧ ¬ Overwrites doc op ∧ ¬ Slips doc op)
    ∨ ByChance doc op
    ∨ (¬ Accepts doc op ∧ Rfc6902.apply doc op = none)

/-- A move takes its value away where the pointer leads: the code splits `from`, and reads the
    dotted path of its parent back. -/
def TakesAsNamed : PatchOp Pointer → Prop
  | .move from_ _ => from_.head? ≠ some [] ∧ DotSafe from_.dropLast
  | _ => True

/-- The code does what the operation should do: it answers with the same document, or refuses where
    it should, and keeps the value of every location the operation does not affect. -/
structure Conforms (debug : DebugText) (doc : Unknown) (op : PatchOp Pointer) : Prop where
  result : (applyPatch debug doc (op.map render)).toOption = Rfc6902.apply doc op
  frame : ∀ doc', applyPatch debug doc (op.map render) = .ok doc' →
    ∀ q, Rfc6902.Spares doc op q → locate doc' q = locate doc q

theorem Conforms.of_result {op : PatchOp Pointer}
    (h : (applyPatch debug doc (op.map render)).toOption = Rfc6902.apply doc op) :
    Conforms debug doc op := by
  refine ⟨h, fun doc' hdoc' q hq => Rfc6902.locate_apply ?_ hq⟩
  rw [← h, hdoc']
  rfl

/-! ### What is accepted -/

theorem isSome_applyReplace (path : List Char) (x : Unknown) :
    (applyReplace debug doc path x).toOption.isSome
      = (Navigate.locate childSegment doc (parsePath path)).isSome := by
  rw [applyReplace_toOption, putSegment_lawful.isSome_modify]
  cases Navigate.locate childSegment doc (parsePath path) <;> rfl

theorem isSome_applyAdd (path : List Char) (x : Unknown) :
    (applyAdd debug doc path x).toOption.isSome = creatable doc (parsePath path).reverse := by
  by_cases hthere : (Navigate.locate childSegment doc (parsePath path)).isSome
  · rw [applyAdd_of_located x hthere, isSome_applyReplace, hthere,
      creatable_of_located (by rwa [List.reverse_reverse])]
  · have hpath : path ≠ [] := by
      rintro rfl
      exact hthere rfl
    rw [applyAdd, if_neg hpath]
    cases hget : getAtPath debug doc path with
    | ok c => exact absurd (by rw [getAtPath_eq_ok.mp hget]; rfl) hthere
    | error e =>
        refine (congrArg Option.isSome (toOption_ofPath _)).trans ?_
        rw [createAtPath, if_neg hpath, isSome_createAtReversed]

theorem applyMove_toOption (from_ path : List Char) :
    (applyMove debug doc from_ path).toOption
      = (Navigate.locate childSegment doc (parsePath from_)).bind fun x =>
          (removeAt doc (removalPlace from_)).bind fun d =>
            (applyAdd debug d path x).toOption := by
  rw [applyMove, toOption_bind, toOption_ofPath, getAtPath_toOption]
  refine congrArg _ (funext fun x => ?_)
  rw [toOption_bind, applyRemove_toOption]

theorem applyCopy_toOption (from_ path : List Char) :
    (applyCopy debug doc from_ path).toOption
      = (Navigate.locate childSegment doc (parsePath from_)).bind fun x =>
          (applyAdd debug doc path x).toOption := by
  rw [applyCopy, toOption_bind, toOption_ofPath, getAtPath_toOption]

theorem applyTest_toOption (path : List Char) (x : Unknown) :
    (applyTest debug doc path x).toOption
      = (Navigate.locate childSegment doc (parsePath path)).bind fun v =>
          if eqUnknown v x then some doc else none := by
  rw [applyTest, toOption_bind, toOption_ofPath, getAtPath_toOption]
  refine congrArg _ (funext fun v => ?_)
  cases eqUnknown v x <;> rfl

/-- **The code accepts what it finds.** -/
theorem isSome_applyPatch (op : PatchOp Pointer) :
    (applyPatch debug doc (op.map render)).toOption.isSome ↔ Accepts doc op := by
  cases op with
  | add p x => exact iff_of_eq (congrArg (· = true) (isSome_applyAdd (render p) x))
  | replace p x => exact iff_of_eq (congrArg (· = true) (isSome_applyReplace (render p) x))
  | remove p => exact iff_of_eq (congrArg (·.isSome = true) (applyRemove_toOption doc))
  | move from_ p =>
      refine (iff_of_eq (congrArg (·.isSome = true) (applyMove_toOption ..))).trans ?_
      cases hfrom : Navigate.locate childSegment doc (parsePath (render from_)) with
      | none => simp [Accepts, hfrom]
      | some x =>
          cases hd : removeAt doc (removalPlace (render from_)) with
          | none => simp [Accepts, hd]
          | some d => simp [Accepts, hfrom, hd, isSome_applyAdd]
  | copy from_ p =>
      refine (iff_of_eq (congrArg (·.isSome = true) (applyCopy_toOption ..))).trans ?_
      cases hfrom : Navigate.locate childSegment doc (parsePath (render from_)) with
      | none => simp [Accepts, hfrom]
      | some x => simp [Accepts, hfrom, isSome_applyAdd]
  | test p x =>
      refine (iff_of_eq (congrArg (·.isSome = true) (applyTest_toOption ..))).trans ?_
      simp [Accepts, Option.isSome_iff_exists, Option.bind_eq_some_iff]

/-- **What both accept the code reads as such**, if it splits the pointers into their tokens. -/
theorem followed_of_accepts {op : PatchOp Pointer} (hsplit : Split op) (hcode : Accepts doc op)
    (hop : (Rfc6902.apply doc op).isSome) : Followed doc op := by
  cases op with
  | add p x => exact readable_of_added hsplit hcode hop
  | replace p x =>
      refine readable_of_located hsplit hcode ?_
      rw [Rfc6902.apply, Rfc6902.replace, Rfc6902.lawful.isSome_modify] at hop
      exact Option.isSome_of_isSome_bind hop
  | remove p =>
      have hp : p ≠ [] := by
        rintro rfl
        cases hop
      have hsegments : p.map parseSegment ≠ [] := mt List.map_eq_nil_iff.mp hp
      refine ⟨readable_of_located hsplit.1 ?_ (isSome_locate_of_remove hop), hsplit.2⟩
      rwa [parsePath_render hsplit.1, ← isSome_removeAt hsegments,
        ← removalPlace_render hsplit.1 hsplit.2]
  | move from_ p =>
      obtain ⟨hfrom, d, hd, hadd⟩ := hcode
      obtain ⟨d', hd'⟩ := Option.isSome_iff_exists.mp hop
      rw [Rfc6902.apply] at hd'
      split_ifs at hd'
      obtain ⟨x, hx, hd'⟩ := Option.bind_eq_some_iff.mp hd'
      obtain ⟨d₁, hd₁, hd'⟩ := Option.bind_eq_some_iff.mp hd'
      have hread : Readable doc from_ := readable_of_located hsplit.1 hfrom (by rw [hx]; rfl)
      refine ⟨hread, fun _ => ⟨hsplit.2.1, fun d₂ hd₂ => ?_⟩⟩
      obtain rfl := Option.some.inj (hd₁.symm.trans hd₂)
      rw [removeAt_render hread hsplit.2.1, hd₁] at hd
      obtain rfl := Option.some.inj hd
      exact readable_of_added hsplit.2.2 hadd (Option.isSome_iff_exists.mpr ⟨d', hd'⟩)
  | copy from_ p =>
      obtain ⟨d', hd'⟩ := Option.isSome_iff_exists.mp hop
      obtain ⟨x, hx, hadd⟩ := Option.bind_eq_some_iff.mp hd'
      exact ⟨readable_of_located hsplit.1 hcode.1 (by rw [hx]; rfl),
        fun _ => readable_of_added hsplit.2 hcode.2 (Option.isSome_iff_exists.mpr ⟨d', hadd⟩)⟩
  | test p x =>
      obtain ⟨v, hv, -⟩ := hcode
      refine readable_of_located hsplit (by rw [hv]; rfl) ?_
      exact Option.isSome_of_isSome_bind hop

/-! ### Where the pointers are followed -/

/-- An element that the code would overwrite is there for it. -/
theorem creatable_of_isElement {p : Pointer} (h : Readable doc p) (hp : IsElement doc p) :
    creatable doc (parsePath (render p)).reverse := by
  rcases List.eq_nil_or_concat' p with rfl | ⟨p, t, rfl⟩
  · cases hp
  · rw [IsElement, List.getLast?_concat, List.dropLast_concat] at hp
    obtain ⟨items, i, hw, hi, hlt⟩ := hp
    refine creatable_of_located ?_
    rw [List.reverse_reverse, parsePath_render h.1, (h.2.follows true).locate_eq,
      Navigate.locate_snoc, ← locate, hw, Option.bind_some, child, hi, Option.bind_some,
      List.getElem?_eq_getElem hlt]
    rfl

theorem applyMove_eq_iff {from_ p : Pointer} (h : Followed doc (.move from_ p)) :
    (applyMove debug doc (render from_) (render p)).toOption = Rfc6902.apply doc (.move from_ p)
      ↔ ¬ Overwrites doc (.move from_ p) ∧ ¬ Slips doc (.move from_ p) := by
  obtain ⟨hfrom, hrest⟩ := h
  rw [applyMove_toOption, locate_render hfrom, Rfc6902.apply, Overwrites, Slips]
  cases hx : locate doc from_ with
  | none => simp
  | some x =>
      obtain ⟨hdot, hpath⟩ := hrest (by rw [hx]; rfl)
      rw [Option.bind_some, Option.bind_some, removeAt_render hfrom hdot]
      cases hd : Rfc6902.remove doc from_ with
      | none => simp
      | some d =>
          -- with `from` removed the rest is an add to the document that is left
          have hread := hpath d hd
          rw [Option.bind_some, Option.bind_some]
          by_cases hproper : (from_ <+: p ∧ from_ ≠ p) ∨ ¬ ParentExists d p
          · have hrefused :
                (if from_ <+: p ∧ from_ ≠ p then none else Rfc6902.add d p x) = none := by
              split_ifs with hpre
              · rfl
              · exact add_eq_none (hproper.resolve_left hpre) x
            rw [hrefused, ← Option.not_isSome_iff_eq_none, isSome_applyAdd]
            have himp := mt (creatable_of_isElement hread)
            simp only [Option.isSome_some, Option.some.injEq, exists_eq_left', true_and, hproper]
            exact ⟨fun hno => ⟨himp hno, hno⟩, fun hno => hno.2⟩
          · obtain ⟨hpre, hparent⟩ := not_or.mp hproper
            rw [if_neg hpre, applyAdd_eq_iff hread (not_not.mp hparent) x]
            simp [hproper]

theorem applyCopy_eq_iff {from_ p : Pointer} (h : Followed doc (.copy from_ p))
    (hp : ParentExists doc p) :
    (applyCopy debug doc (render from_) (render p)).toOption = Rfc6902.apply doc (.copy from_ p)
      ↔ ¬ Overwrites doc (.copy from_ p) := by
  obtain ⟨hfrom, hpath⟩ := h
  rw [applyCopy_toOption, locate_render hfrom, Rfc6902.apply, Overwrites]
  cases hx : locate doc from_ with
  | none => simp
  | some x =>
      rw [Option.bind_some, Option.bind_some, applyAdd_eq_iff (hpath (by rw [hx]; rfl)) hp x]
      simp

theorem applyTest_render {p : Pointer} (h : Readable doc p) (x : Unknown) :
    (applyTest debug doc (render p) x).toOption = Rfc6902.apply doc (.test p x) := by
  rw [applyTest_toOption, locate_render h, Rfc6902.apply]

/-- The answers agree, unless an element is overwritten or a move slips. -/
theorem applyPatch_eq_iff {op : PatchOp Pointer} (hp : ParentExists doc op.target)
    (hf : Followed doc op) :
    (applyPatch debug doc (op.map render)).toOption = Rfc6902.apply doc op
      ↔ ¬ Overwrites doc op ∧ ¬ Slips doc op := by
  cases op with
  | add p x => exact (applyAdd_eq_iff hf hp x).trans (and_iff_left (fun h => h)).symm
  | replace p x => exact iff_of_true (applyReplace_render hf x) ⟨fun h => h, fun h => h⟩
  | remove p => exact iff_of_true (applyRemove_render hf.1 hf.2) ⟨fun h => h, fun h => h⟩
  | move from_ p => exact applyMove_eq_iff hf
  | copy from_ p => exact (applyCopy_eq_iff hf hp).trans (and_iff_left (fun h => h)).symm
  | test p x => exact iff_of_true (applyTest_render hf x) ⟨fun h => h, fun h => h⟩

/-! ### Where a pointer loses its beginning -/

/-- What happens by chance is what should. -/
theorem ByChance.agrees {op : PatchOp Pointer} (h : ByChance doc op) (hdoc : MapsOrdered doc)
    (hp : ParentExists doc op.target) :
    (applyPatch debug doc (op.map render)).toOption = Rfc6902.apply doc op := by
  cases op with
  | add p x =>
      obtain ⟨d, hcode, hop⟩ := @AddsAlike.added debug doc p x x (.inl h.2) hdoc
      exact (congrArg Except.toOption hcode).trans hop.symm
  | replace p x =>
      obtain ⟨-, hcode, hop⟩ := h
      refine (congrArg Except.toOption ((applyReplace_self_iff hdoc).mpr hcode)).trans ?_
      exact ((replace_self_iff hdoc).mpr hop).symm
  | remove p => exact h.elim
  | move from_ p =>
      obtain ⟨hhead, hfrom, hdot, x, d, hx, hd, hthere⟩ := h
      have hpre : ¬ (from_ <+: p ∧ from_ ≠ p) := by
        rintro ⟨⟨rest, rfl⟩, -⟩
        cases from_ with
        | nil => cases hd
        | cons t from_ => exact hfrom.1 hhead
      have hdord : MapsOrdered d := by
        rw [← removeAt_render hfrom hdot] at hd
        exact hdoc.removeAt hd
      obtain ⟨d', hcode, hop⟩ := @AddsAlike.added debug d p x x (.inl hthere) hdord
      refine (applyMove_toOption ..).trans ?_
      rw [locate_render hfrom, removeAt_render hfrom hdot, Rfc6902.apply, if_neg hpre, hx,
        Option.bind_some, Option.bind_some, hd, Option.bind_some, Option.bind_some, hop]
      exact congrArg Except.toOption hcode
  | copy from_ p =>
      obtain ⟨-, x, y, ⟨hx, hy⟩, hadds⟩ := h
      refine (applyCopy_toOption ..).trans ?_
      rw [hx, Rfc6902.apply, hy, Option.bind_some, Option.bind_some]
      rcases hadds with ⟨hread, rfl, hno⟩ | halike
      · exact (applyAdd_eq_iff hread hp x).mpr hno
      · obtain ⟨d, hcode, hop⟩ := @AddsAlike.added debug doc p x y halike hdoc
        exact (congrArg Except.toOption hcode).trans hop.symm
  | test p x =>
      obtain ⟨-, v, w, ⟨hv, hw⟩, hvx, hwx⟩ := h
      refine (applyTest_toOption ..).trans ?_
      rw [hv, Rfc6902.apply, hw, Option.bind_some, Option.bind_some, if_pos hvx, if_pos hwx]

/-- Nothing else does, where an operation that is not followed gives what it should. -/
theorem byChance_of_agreed {op : PatchOp Pointer} {d : Unknown} (hdoc : MapsOrdered doc)
    (htaken : TakesAsNamed op) (hcode : (applyPatch debug doc (op.map render)).toOption = some d)
    (hop : Rfc6902.apply doc op = some d) (hsplit : ¬ Split op) : ByChance doc op := by
  cases op with
  | add p x =>
      have hhead : p.head? = some [] := not_not.mp hsplit
      obtain ⟨rest, rfl⟩ := List.head?_eq_some_iff.mp hhead
      exact ⟨hhead, (addsAlike_of_added hdoc (eq_ok_of_toOption hcode) hop).same⟩
  | replace p x =>
      have hhead : p.head? = some [] := not_not.mp hsplit
      obtain ⟨rest, rfl⟩ := List.head?_eq_some_iff.mp hhead
      exact ⟨hhead, finds_of_replaced hdoc (eq_ok_of_toOption hcode) hop⟩
  | remove p => exact hsplit (split_of_removed ((applyRemove_toOption doc).symm.trans hcode) hop)
  | move from_ p =>
      obtain ⟨hfrom, hdot⟩ := htaken
      have hhead : p.head? = some [] := not_not.mp fun hp => hsplit ⟨hfrom, hdot, hp⟩
      have hmoved := (applyMove_toOption ..).symm.trans hcode
      obtain ⟨x, hx, hmoved⟩ := Option.bind_eq_some_iff.mp hmoved
      obtain ⟨d₁, hd₁, hadd⟩ := Option.bind_eq_some_iff.mp hmoved
      rw [Rfc6902.apply] at hop
      split_ifs at hop
      obtain ⟨y, hy, hop⟩ := Option.bind_eq_some_iff.mp hop
      obtain ⟨d₂, hd₂, hop⟩ := Option.bind_eq_some_iff.mp hop
      -- the code takes the value away where it should
      have hread : Readable doc from_ :=
        readable_of_located hfrom (by rw [hx]; rfl) (by rw [hy]; rfl)
      rw [locate_render hread, hy] at hx
      obtain rfl := Option.some.inj hx
      have hdord := hdoc.removeAt hd₁
      rw [removeAt_render hread hdot, hd₂] at hd₁
      obtain rfl := Option.some.inj hd₁
      obtain ⟨rest, rfl⟩ := List.head?_eq_some_iff.mp hhead
      exact ⟨hhead, hread, hdot, y, d₂, hy, hd₂,
        (addsAlike_of_added hdord (eq_ok_of_toOption hadd) hop).same⟩
  | copy from_ p =>
      have hheads : from_.head? = some [] ∨ p.head? = some [] := by
        by_contra hno
        exact hsplit (not_or.mp hno)
      have hcopied := (applyCopy_toOption ..).symm.trans hcode
      obtain ⟨x, hx, hadd⟩ := Option.bind_eq_some_iff.mp hcopied
      obtain ⟨y, hy, hop⟩ := Option.bind_eq_some_iff.mp hop
      refine ⟨hheads, x, y, ⟨hx, hy⟩, ?_⟩
      by_cases hhead : p.head? = some []
      · obtain ⟨rest, rfl⟩ := List.head?_eq_some_iff.mp hhead
        exact .inr (addsAlike_of_added hdoc (eq_ok_of_toOption hadd) hop)
      · have hcreatable : creatable doc (parsePath (render p)).reverse := by
          rw [← @isSome_applyAdd debug doc (render p) x, hadd]
          rfl
        have hread := readable_of_added hhead hcreatable (by rw [hop]; rfl)
        exact .inl ⟨hread, eq_of_added hread (eq_ok_of_toOption hadd) hop⟩
  | test p x =>
      have hhead : p.head? = some [] := not_not.mp hsplit
      have htested := (applyTest_toOption ..).symm.trans hcode
      obtain ⟨v, hv, htested⟩ := Option.bind_eq_some_iff.mp htested
      obtain ⟨w, hw, hop⟩ := Option.bind_eq_some_iff.mp hop
      split_ifs at htested with hvx
      split_ifs at hop with hwx
      exact ⟨hhead, v, w, ⟨hv, hw⟩, hvx, hwx⟩

/-- **A patch does what it should exactly when the code reads the pointers that it comes to as such,
    and neither overwrites an element nor lets a move slip**; or when the code trims a pointer and
    there is nothing to change; or when the operation should be refused, and the code finds nothing
    to accept. That this is enough holds of every operation; that nothing else does, of all but the
    moves that both accept though the code takes the value away at another place. -/
theorem applyPatch_conforms_iff (debug : DebugText) (doc : Unknown) (hdoc : MapsOrdered doc)
    (op : PatchOp Pointer) (hp : ParentExists doc op.target) :
    (Right doc op → Conforms debug doc op)
      ∧ ((Accepts doc op → (Rfc6902.apply doc op).isSome → TakesAsNamed op) →
        Conforms debug doc op → Right doc op) := by
  have haccepts := @isSome_applyPatch debug doc op
  constructor
  · rintro (⟨hf, hright⟩ | hchance | ⟨hcode, hop⟩)
    · exact .of_result ((applyPatch_eq_iff hp hf).mpr hright)
    · exact .of_result (hchance.agrees hdoc hp)
    · refine .of_result ?_
      rw [hop, ← Option.not_isSome_iff_eq_none, haccepts]
      exact hcode
  · intro htaken h
    cases hop : Rfc6902.apply doc op with
    | none => exact .inr (.inr ⟨by rw [← haccepts, h.result, hop]; exact Bool.false_ne_true, hop⟩)
    | some doc' =>
        have hresult := h.result.trans hop
        have hcode : Accepts doc op := haccepts.mp (by rw [hresult]; rfl)
        have hsome : (Rfc6902.apply doc op).isSome := by rw [hop]; rfl
        by_cases hsplit : Split op
        · have hf := followed_of_accepts hsplit hcode hsome
          exact .inl ⟨hf, (applyPatch_eq_iff hp hf).mp h.result⟩
        · exact .inr (.inl (byChance_of_agreed hdoc (htaken hcode hsome) hresult hop hsplit))

/-- Appending to an array inside an object. -/
theorem applyPatch_conforms_append :
    MapsOrdered (.object [("a", .array [.i64 1])])
      ∧ ParentExists (.object [("a", .array [.i64 1])]) [['a'], ['-']]
      ∧ ∀ debug, Conforms debug (.object [("a", .array [.i64 1])])
        (.add [['a'], ['-']] (.i64 2)) := by
  have hnumber : MapsOrdered (.i64 1) := .leaf (by simp) fun s => by cases s <;> rfl
  have hdoc : MapsOrdered (.object [("a", .array [.i64 1])]) :=
    .object (List.pairwise_singleton ..) (by simpa using MapsOrdered.array (by simpa using hnumber))
  refine ⟨hdoc, fun _ => rfl, fun debug => ?_⟩
  have hread : Readable (.object [("a", .array [.i64 1])]) [['a'], ['-']] := by
    refine ⟨by decide, rfl, fun c hc => ?_⟩
    obtain rfl : Unknown.array [.i64 1] = c := Option.some.inj hc
    refine ⟨fun i _ => ?_, fun c hc => trivial⟩
    rw [Rfc6902.arrayIndex_dash]
    exact ⟨fun h => PathSegment.noConfusion h, fun h => by cases h⟩
  refine (applyPatch_conforms_iff debug _ hdoc (.add _ _) fun _ => rfl).1 ?_
  refine .inl ⟨hread, ?_, fun h => h⟩
  rintro ⟨items, i, -, hi, -⟩
  have hdash : arrayIndex ['-'] = some i := hi
  rw [Rfc6902.arrayIndex_dash] at hdash
  cases hdash

/-- Adding before the only element of an array replaces it. -/
theorem applyPatch_add_element :
    ParentExists (.array [.i64 1]) [['0']]
      ∧ ∀ debug, ¬ Conforms debug (.array [.i64 1]) (.add [['0']] (.i64 2)) := by
  refine ⟨fun _ => rfl, fun debug h => ?_⟩
  have hcode : (applyPatch debug (.array [.i64 1]) (.add (render [['0']]) (.i64 2))).toOption
      = some (.array [.i64 2]) := rfl
  have hspec : Rfc6902.apply (.array [.i64 1]) (.add [['0']] (.i64 2))
      = some (.array [.i64 2, .i64 1]) := rfl
  have heq := hcode.symm.trans (h.result.trans hspec)
  have hlen := congrArg List.length (Unknown.array.inj (Option.some.inj heq))
  exact absurd hlen (by decide)

/-- A value that is moved below itself is refused by neither `get_at_path` nor `create_at_path`. -/
example (debug : DebugText) :
    applyPatch debug (.object [("a", .null)]) (.move (render [['a']]) (render [['a'], ['b']]))
      = .ok (.object [("a", .object [("b", .null)])]) :=
  rfl

/-! ## Patches of several operations -/

/-- Every operation meets a document on which it is followed, overwrites no element and does not
    slip. -/
def Sound : Unknown → List (PatchOp Pointer) → Prop
  | _, [] => True
  | doc, op :: ops =>
      ParentExists doc op.target ∧ Followed doc op ∧ (¬ Overwrites doc op ∧ ¬ Slips doc op)
        ∧ ∀ doc', Rfc6902.apply doc op = some doc' → Sound doc' ops

/-- **A whole patch** then gives the document that its operations should give one after another, or
    fails where one of them should. -/
theorem applyPatches_render {ops : List (PatchOp Pointer)} (h : Sound doc ops) :
    (applyPatches debug doc (ops.map (·.map render))).toOption
      = ops.foldlM Rfc6902.apply doc := by
  induction ops generalizing doc with
  | nil => rfl
  | cons op ops ih =>
      obtain ⟨hp, hf, ho, hrest⟩ := h
      have hop := (@applyPatch_eq_iff debug doc op hp hf).mpr ho
      rw [List.map_cons, applyPatches, List.foldlM_cons, List.foldlM_cons, toOption_bind, hop]
      exact Option.bind_congr fun doc' hdoc' => ih (hrest doc' hdoc')

end IdEffect.Optics
