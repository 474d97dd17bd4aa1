import IdEffect.Optics.Lens

set_option autoImplicit false

/-! # Removing what is read

`apply_remove` reads the path, but goes to the parent through the dotted rendering of its segments,
which it reads again. Where that leads elsewhere, another location is removed or none
(`applyPatch_remove_iff`). -/

namespace IdEffect.Optics

open Schema (Unknown)

variable {debug : DebugText} {path : List Char}

/-! ## What removing should do -/

/-- The value without the part that the segment selects. -/
def withoutPart (v : Unknown) (segment : PathSegment) : Option Unknown :=
  match v, segment with
  | .object map, .field name => (Assoc.get name map).map fun _ => .object (Assoc.erase name map)
  | .array items, .index i =>
      if i < items.length then some (.array (items.eraseIdx i)) else none
  | _, _ => none

/-- The document without the location; the document itself is not removed. -/
def removeAt (doc : Unknown) (segments : List PathSegment) : Option Unknown :=
  match segments.getLast? with
  | none => none
  | some last =>
      Navigate.modify childSegment (putSegment false) (withoutPart · last) doc segments.dropLast

/-- Taking the part `last` out of a value keeps its other parts; of an array, those before it. -/
def Spared (last : PathSegment) (_ : Unknown) : List PathSegment → Prop
  | [] => False
  | s :: _ => s ≠ last ∧ ∀ i j, last = .index i → s = .index j → j < i

theorem removeAt_snoc (doc : Unknown) (p : List PathSegment) (last : PathSegment) :
    removeAt doc (p ++ [last])
      = Navigate.modify childSegment (putSegment false) (withoutPart · last) doc p := by
  rw [removeAt, List.getLast?_concat, List.dropLast_concat]

theorem isSome_withoutPart (v : Unknown) (s : PathSegment) :
    (withoutPart v s).isSome = (childSegment v s).isSome := by
  cases v with
  | object map =>
      cases s with
      | field name => rw [withoutPart, childSegment, Option.isSome_map]
      | _ => rfl
  | array items =>
      cases s with
      | index i =>
          rw [withoutPart, childSegment]
          by_cases hi : i < items.length
          · rw [if_pos hi, List.getElem?_eq_getElem hi]
            rfl
          · rw [if_neg hi, List.getElem?_eq_none (not_lt.mp hi)]
      | _ => rfl
  | _ => cases s <;> rfl

/-- A value without a part has fewer parts: no member of that name, or no last element. -/
theorem exists_child_lost {v v' : Unknown} {last : PathSegment} (h : withoutPart v last = some v') :
    ∃ s, (childSegment v s).isSome ∧ childSegment v' s = none := by
  cases v with
  | object map =>
      cases last with
      | field name =>
          obtain ⟨c, hc, rfl⟩ := Option.map_eq_some_iff.mp h
          refine ⟨.field name, by rw [childSegment, hc]; rfl, ?_⟩
          rw [childSegment, Assoc.get_erase, if_pos rfl]
      | _ => cases h
  | array items =>
      cases last with
      | index i =>
          rw [withoutPart] at h
          split_ifs at h with hi
          obtain rfl := Option.some.inj h
          refine ⟨.index (items.length - 1), ?_, ?_⟩
          · rw [childSegment, List.getElem?_eq_getElem (by omega)]
            rfl
          · rw [childSegment, List.getElem?_eq_none]
            rw [List.length_eraseIdx_of_lt hi]
      | _ => cases h
  | _ => cases last <;> cases h

theorem locate_withoutPart {v v' : Unknown} {last : PathSegment} {q : List PathSegment}
    (h : withoutPart v last = some v') (hq : Spared last v q) :
    Navigate.locate childSegment v' q = Navigate.locate childSegment v q := by
  cases q with
  | nil => exact hq.elim
  | cons s q =>
      have hchild : childSegment v' s = childSegment v s := by
        cases v with
        | object map =>
            cases last with
            | field name =>
                obtain ⟨c, -, rfl⟩ := Option.map_eq_some_iff.mp h
                cases s with
                | field other =>
                    have hne : other ≠ name := fun heq => hq.1 (congrArg _ heq)
                    rw [childSegment, childSegment, Assoc.get_erase, if_neg hne]
                | _ => rfl
            | _ => cases h
        | array items =>
            cases last with
            | index i =>
                rw [withoutPart] at h
                split_ifs at h
                obtain rfl := Option.some.inj h
                cases s with
                | index j =>
                    rw [childSegment, childSegment,
                      List.getElem?_eraseIdx_of_lt (hq.2 i j rfl rfl)]
                | _ => rfl
            | _ => cases h
        | _ => cases last <;> cases h
      rw [Navigate.locate, Navigate.locate, hchild]

/-- A location can be removed exactly if there is one. -/
theorem isSome_removeAt {doc : Unknown} {p : List PathSegment} (hp : p ≠ []) :
    (removeAt doc p).isSome = (Navigate.locate childSegment doc p).isSome := by
  obtain ⟨p, last, rfl⟩ := (List.eq_nil_or_concat' p).resolve_left hp
  rw [removeAt_snoc, putSegment_lawful.isSome_modify, Navigate.locate_snoc]
  cases Navigate.locate childSegment doc p with
  | none => rfl
  | some w => exact isSome_withoutPart w last

theorem removeAt_eq_none {doc : Unknown} {p : List PathSegment}
    (h : Navigate.locate childSegment doc p = none) : removeAt doc p = none := by
  have hp : p ≠ [] := by
    rintro rfl
    cases h
  rw [← Option.not_isSome_iff_eq_none, isSome_removeAt hp, h]
  exact Bool.false_ne_true

/-- Removing at two places does not give the same document. -/
theorem removeAt_injective {doc doc' : Unknown} {p q : List PathSegment} {last : PathSegment}
    (hp : removeAt doc (p ++ [last]) = some doc') (hq : removeAt doc (q ++ [last]) = some doc') :
    p = q := by
  rw [removeAt_snoc] at hp hq
  exact putSegment_lawful.modify_injective exists_child_lost exists_child_lost hp hq

theorem MapsOrdered.withoutPart {v v' : Unknown} {s : PathSegment} (h : MapsOrdered v)
    (hv : withoutPart v s = some v') : MapsOrdered v' := by
  cases v with
  | object map =>
      cases s with
      | field name =>
          have hmap : Assoc.Ascending map := h [] map rfl
          obtain ⟨c, -, rfl⟩ := Option.map_eq_some_iff.mp hv
          refine .object (hmap.erase name) fun entry hentry => ?_
          exact h.child (s := .field entry.1) (hmap.get_of_mem (List.mem_of_mem_filter hentry))
      | _ => cases hv
  | array items =>
      cases s with
      | index i =>
          rw [IdEffect.Optics.withoutPart] at hv
          split_ifs at hv
          obtain rfl := Option.some.inj hv
          refine .array fun c hc => ?_
          obtain ⟨j, hj⟩ := List.getElem?_of_mem (List.mem_of_mem_eraseIdx hc)
          exact h.child (s := .index j) hj
      | _ => cases hv
  | _ => cases s <;> cases hv

theorem MapsOrdered.removeAt {doc d : Unknown} {p : List PathSegment} (h : MapsOrdered doc)
    (hd : removeAt doc p = some d) : MapsOrdered d := by
  rcases List.eq_nil_or_concat' p with rfl | ⟨p, last, rfl⟩
  · cases hd
  · rw [removeAt_snoc] at hd
    exact Navigate.modify_preserves h (fun hw hc => hw.child hc) (fun hw hx hput => hw.put hx hput)
      (fun hw hw' => hw.withoutPart hw') hd

/-! ## What the code does -/

theorem removeSegment_toOption (v : Unknown) (s : PathSegment) :
    (removeSegment debug path v s).toOption = withoutPart v s := by
  cases v with
  | object map =>
      cases s with
      | field name =>
          rw [removeSegment, withoutPart]
          cases Assoc.get name map <;> rfl
      | _ => rfl
  | array items =>
      cases s with
      | index i =>
          rw [removeSegment, withoutPart]
          by_cases hi : i < items.length
          · rw [if_neg (not_le.mpr hi), if_pos hi]
            rfl
          · rw [if_pos (not_lt.mp hi), if_neg hi]
            rfl
      | _ => rfl
  | _ => cases s <;> rfl

/-- The parent's segments once they are rendered with dots and read again. -/
def reread (segments : List PathSegment) : List PathSegment := parsePath (segmentsToDot segments)

/-- Where `apply_remove` removes. -/
def removalPlace (path : List Char) : List PathSegment :=
  reread (parsePath path).dropLast ++ (parsePath path).getLast?.toList

theorem rereadParent_toOption (doc : Unknown) (p : List PathSegment) :
    (if p = [] then (.ok doc : Patched)
      else Patched.ofPath (getAtPath debug doc (segmentsToDot p))).toOption
      = Navigate.locate childSegment doc (reread p) := by
  split_ifs with hp
  · rw [hp]
    rfl
  · rw [toOption_ofPath, getAtPath_toOption, reread]

theorem setRereadParent_toOption {doc w : Unknown} {p : List PathSegment}
    (hw : Navigate.locate childSegment doc (reread p) = some w) (u : Unknown) :
    (if p = [] then (.ok u : Patched)
      else Patched.ofPath (setAtPath debug doc (segmentsToDot p) u)).toOption
      = Navigate.modify childSegment (putSegment false) (fun _ => some u) doc (reread p) := by
  split_ifs with hp
  · rw [hp]
    rfl
  · rw [toOption_ofPath, setAtPath_of_read (getAtPath_eq_ok.mpr hw), reread]

theorem applyRemove_toOption (doc : Unknown) :
    (applyRemove debug doc path).toOption = removeAt doc (removalPlace path) := by
  rw [applyRemove, removalPlace]
  rcases List.eq_nil_or_concat' (parsePath path) with hroot | ⟨p, last, hp⟩
  · rw [hroot]
    rfl
  · rw [hp, List.reverse_append, List.reverse_singleton, List.singleton_append,
      List.dropLast_concat, List.getLast?_concat, Option.toList_some, removeAt_snoc]
    -- the parent is read, the part taken out of it, and the parent set
    refine (toOption_bind _ _).trans (Eq.trans ?_ (Navigate.modify_eq_bind ..).symm)
    rw [List.reverse_reverse, rereadParent_toOption]
    refine Option.bind_congr fun w hw => ?_
    rw [toOption_bind, removeSegment_toOption]
    exact congrArg _ (funext fun u => setRereadParent_toOption hw u)

/-! ## When it removes what is read -/

/-- Reading and removing go to the same location: what is read is removed, and nothing beside it
    changes; what cannot be read cannot be removed. -/
structure RemovesWhatIsRead (debug : DebugText) (doc : Unknown) (path : List Char) : Prop where
  removed : ∀ x, getAtPath debug doc path = .ok x → parsePath path ≠ [] →
    ∃ doc', applyPatch debug doc (.remove path) = .ok doc'
      ∧ removeAt doc (parsePath path) = some doc'
      ∧ ∀ p last q, parsePath path = p ++ [last] →
        Navigate.Beside childSegment (Spared last) doc p q →
        Navigate.locate childSegment doc' q = Navigate.locate childSegment doc q
  refused : ∀ e, getAtPath debug doc path = .error e →
    ∃ e', applyPatch debug doc (.remove path) = .error e'

/-- There is nothing to remove, neither at the path nor where the code removes. -/
def NothingToRemove (doc : Unknown) (path : List Char) : Prop :=
  Navigate.locate childSegment doc (parsePath path) = none
    ∧ Navigate.locate childSegment doc (removalPlace path) = none

/-- What is beside the removed location keeps its value. -/
theorem locate_removeAt {doc doc' : Unknown} {p q : List PathSegment} {last : PathSegment}
    (h : removeAt doc (p ++ [last]) = some doc')
    (hq : Navigate.Beside childSegment (Spared last) doc p q) :
    Navigate.locate childSegment doc' q = Navigate.locate childSegment doc q := by
  rw [removeAt_snoc] at h
  exact hq.locate_modify putSegment_lawful (fun _ _ _ => locate_withoutPart) h

theorem locate_eq_none {doc : Unknown} {e : SchemaPathError}
    (h : getAtPath debug doc path = .error e) :
    Navigate.locate childSegment doc (parsePath path) = none := by
  rw [← @getAtPath_toOption debug path doc, h]
  rfl

theorem removalPlace_eq_iff :
    removalPlace path = parsePath path ↔ DotSeparable (parsePath path).dropLast := by
  obtain ⟨tokens, htokens⟩ := exists_parsePath_eq path
  rw [removalPlace, htokens, ← List.map_dropLast, ← parsePath_segmentsToDot_iff, ← reread]
  rcases List.eq_nil_or_concat' tokens with rfl | ⟨init, last, rfl⟩
  · exact iff_of_true rfl rfl
  · rw [List.dropLast_concat, List.map_append, List.map_singleton, List.getLast?_concat,
      Option.toList_some]
    exact ⟨fun h => List.append_cancel_right h, fun h => by rw [h]⟩

/-- **Remove goes to the location that is read exactly when the dotted rendering of the parent is
    read back to the parent**, unless there is nothing to remove at either. -/
theorem applyPatch_remove_iff (debug : DebugText) (doc : Unknown) (path : List Char) :
    RemovesWhatIsRead debug doc path
      ↔ DotSeparable (parsePath path).dropLast ∨ NothingToRemove doc path := by
  have hcode : (applyPatch debug doc (.remove path)).toOption = removeAt doc (removalPlace path) :=
    applyRemove_toOption doc
  constructor
  · intro h
    by_contra hno
    obtain ⟨hdot, hthere⟩ := not_or.mp hno
    have hplace : removalPlace path ≠ parsePath path := mt removalPlace_eq_iff.mp hdot
    rcases List.eq_nil_or_concat' (parsePath path) with hroot | ⟨p, last, hp⟩
    · exact hdot (removalPlace_eq_iff.mp (by rw [removalPlace, hroot]; rfl))
    have hlast : removalPlace path = reread p ++ [last] := by
      rw [removalPlace, hp, List.dropLast_concat, List.getLast?_concat, Option.toList_some]
    cases hread : getAtPath debug doc path with
    | ok x =>
        -- the two removals give one document, so they are at one place
        obtain ⟨doc', hok, hremoved, -⟩ := h.removed x hread (by simp [hp])
        rw [hok, hlast] at hcode
        rw [hp] at hremoved
        exact hplace (by rw [hlast, removeAt_injective hcode.symm hremoved, hp])
    | error e =>
        obtain ⟨e', herr⟩ := h.refused e hread
        rw [herr] at hcode
        refine hthere ⟨locate_eq_none hread, ?_⟩
        rw [← Option.not_isSome_iff_eq_none, ← isSome_removeAt (by simp [hlast]), ← hcode]
        exact Bool.false_ne_true
  · rintro (hdot | ⟨hread, hplace⟩)
    · rw [removalPlace_eq_iff.mpr hdot] at hcode
      refine ⟨fun x hx hroot => ?_, fun e he => ?_⟩
      · have hsome := @isSome_removeAt doc _ hroot
        rw [getAtPath_eq_ok.mp hx] at hsome
        obtain ⟨doc', hdoc'⟩ := Option.isSome_iff_exists.mp hsome
        refine ⟨doc', eq_ok_of_toOption (hcode.trans hdoc'), hdoc', fun p last q hp hq => ?_⟩
        rw [hp] at hdoc'
        exact locate_removeAt hdoc' hq
      · exact exists_error_of_toOption (hcode.trans (removeAt_eq_none (locate_eq_none he)))
    · refine ⟨fun x hx => ?_, fun e _ => ?_⟩
      · cases hread.symm.trans (getAtPath_eq_ok.mp hx)
      · exact exists_error_of_toOption (hcode.trans (removeAt_eq_none hplace))

/-- The member `x` of `a.b` is read, and the one of `b` in `a` is removed. -/
theorem remove_other_location :
    ¬ ∃ debug, RemovesWhatIsRead debug
      (.object [("a", .object [("b", .object [("x", .null)])]), ("a.b", .object [("x", .null)])])
      ['/', 'a', '.', 'b', '/', 'x'] := by
  rintro ⟨debug, h⟩
  obtain ⟨doc', hcode, hremoved, -⟩ := h.removed .null rfl (by decide)
  have hb : applyPatch debug
      (.object [("a", .object [("b", .object [("x", .null)])]), ("a.b", .object [("x", .null)])])
      (.remove ['/', 'a', '.', 'b', '/', 'x'])
      = .ok (.object [("a", .object [("b", .object [])]), ("a.b", .object [("x", .null)])]) := rfl
  have hab : removeAt
      (.object [("a", .object [("b", .object [("x", .null)])]), ("a.b", .object [("x", .null)])])
      [.field "a.b", .field "x"]
      = some (.object [("a", .object [("b", .object [("x", .null)])]), ("a.b", .object [])]) := rfl
  obtain rfl := Except.ok.inj (hcode.symm.trans hb)
  have hdoc := Option.some.inj (hremoved.symm.trans hab)
  simp at hdoc

end IdEffect.Optics
