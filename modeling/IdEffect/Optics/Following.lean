import IdEffect.Optics.Removal

set_option autoImplicit false

/-! # Operations at pointers that are read as such

Where the code reads every token of a pointer as it applies to the value it has come to
(`Readable`), replacing and removing are right, and adding is right except at an element of an
array, which it overwrites where it should insert before it. Of a pointer that the code splits into
its tokens, what both the code and the pointer find is read as such (`readable_of_located`), and so
is what both can add (`readable_of_added`). -/

namespace IdEffect.Optics

open Schema (Unknown)
open Rfc6902 (Token Pointer render arrayIndex child put insertPart removePart locate)

variable {debug : DebugText} {doc : Unknown} {path : List Char}

/-! ## Reading and replacing -/

theorem locate_render {p : Pointer} (h : Readable doc p) :
    Navigate.locate childSegment doc (parsePath (render p)) = locate doc p := by
  rw [parsePath_render h.1]
  exact (h.2.follows true).locate_eq

theorem getAtPath_render {p : Pointer} (h : Readable doc p) :
    (getAtPath debug doc (render p)).toOption = locate doc p :=
  (getAtPath_toOption doc).trans (locate_render h)

theorem reverse_parsePath_render {p : Pointer} {t : Token} (h : (p ++ [t]).head? ≠ some []) :
    (parsePath (render (p ++ [t]))).reverse = parseSegment t :: (p.map parseSegment).reverse := by
  rw [parsePath_render h, List.map_append, List.map_singleton, List.reverse_append,
    List.reverse_singleton, List.singleton_append]

/-- Assigning the last segment from the bottom up changes the parent that the pointer names. -/
theorem ascend_render {p : Pointer} {t : Token} (allow : Bool) (h : Readable doc (p ++ [t]))
    (x : Unknown) :
    Navigate.ascend childSegment (putSegment allow) doc (parsePath (render (p ++ [t]))).reverse x
      = Navigate.modify child put (putSegment allow · (parseSegment t) x) doc p := by
  rw [reverse_parsePath_render h.1, Navigate.ascend_eq_modify, List.reverse_reverse]
  exact (h.2.snoc.1.follows allow).modify_eq

theorem applyReplace_toOption (x : Unknown) :
    (applyReplace debug doc path x).toOption
      = Navigate.modify childSegment (putSegment false) (fun _ => some x) doc (parsePath path) := by
  cases hget : getAtPath debug doc path with
  | error e =>
      rw [applyReplace, hget, Navigate.modify_eq_none (locate_eq_none hget)]
      rfl
  | ok c =>
      rw [applyReplace, hget]
      exact (toOption_ofPath _).trans (setAtPath_of_read hget x)

theorem applyAdd_of_located (x : Unknown)
    (h : (Navigate.locate childSegment doc (parsePath path)).isSome) :
    applyAdd debug doc path x = applyReplace debug doc path x := by
  rw [applyAdd]
  split_ifs with hpath
  · subst hpath
    rfl
  · cases hget : getAtPath debug doc path with
    | ok c => rfl
    | error e =>
        rw [locate_eq_none hget] at h
        cases h

theorem applyReplace_render {p : Pointer} (h : Readable doc p) (x : Unknown) :
    (applyReplace debug doc (render p) x).toOption = Rfc6902.replace doc p x := by
  rw [applyReplace_toOption, parsePath_render h.1]
  exact (h.2.follows false).modify_eq

/-! ## Adding -/

/-- The parent of the location exists; the document itself has none to ask for. -/
def ParentExists (doc : Unknown) (p : Pointer) : Prop :=
  p ≠ [] → (locate doc p.dropLast).isSome

/-- The pointer leads to an element that an array of the document has. -/
def IsElement (doc : Unknown) (p : Pointer) : Prop :=
  match p.getLast? with
  | none => False
  | some t => ∃ items i, locate doc p.dropLast = some (.array items) ∧ arrayIndex t = some i
      ∧ i < items.length

theorem isElement_snoc {p : Pointer} {t : Token} :
    IsElement doc (p ++ [t]) ↔ ∃ items i, locate doc p = some (.array items)
      ∧ arrayIndex t = some i ∧ i < items.length := by
  rw [IsElement, List.getLast?_concat, List.dropLast_concat]

/-- Nothing should be added without a parent. -/
theorem add_eq_none {p : Pointer} (hp : ¬ ParentExists doc p) (x : Unknown) :
    Rfc6902.add doc p x = none := by
  rcases List.eq_nil_or_concat' p with rfl | ⟨p, t, rfl⟩
  · exact absurd (fun h => absurd rfl h) hp
  · have hnone : locate doc p = none := by
      rw [← Option.not_isSome_iff_eq_none]
      intro hsome
      refine hp fun _ => ?_
      rwa [List.dropLast_concat]
    rw [Rfc6902.add, Rfc6902.editParent_snoc, Navigate.modify_eq_none hnone]

theorem render_snoc_ne_nil (p : Pointer) (t : Token) : render (p ++ [t]) ≠ [] := by
  simp [render]

theorem createAtPath_render {p : Pointer} {t : Token} (h : Readable doc (p ++ [t]))
    (hp : (locate doc p).isSome) (x : Unknown) :
    (createAtPath debug doc (render (p ++ [t])) x).toOption
      = Navigate.modify child put (putSegment true · (parseSegment t) x) doc p := by
  rw [← ascend_render true h, createAtPath, if_neg (render_snoc_ne_nil p t),
    reverse_parsePath_render h.1]
  refine createAtReversed_toOption ?_ x
  rw [List.reverse_reverse, (h.2.snoc.1.follows true).locate_eq]
  exact hp

/-- Where the location is not there yet, it is added. -/
theorem applyAdd_new {p : Pointer} {t : Token} {w : Unknown} (h : Readable doc (p ++ [t]))
    (hw : locate doc p = some w) (hc : child w t = none) (x : Unknown) :
    (applyAdd debug doc (render (p ++ [t])) x).toOption = Rfc6902.add doc (p ++ [t]) x := by
  have hget : (getAtPath debug doc (render (p ++ [t]))).toOption = none := by
    rw [getAtPath_render h, locate, Navigate.locate_snoc, ← locate, hw, Option.bind_some, hc]
  rw [applyAdd, if_neg (render_snoc_ne_nil p t)]
  cases hg : getAtPath debug doc (render (p ++ [t])) with
  | ok c =>
      rw [hg] at hget
      cases hget
  | error e =>
      refine (toOption_ofPath _).trans ((createAtPath_render h (by rw [hw]; rfl) x).trans ?_)
      rw [Rfc6902.add, Rfc6902.editParent_snoc]
      refine Navigate.modify_congr fun u hu => ?_
      obtain rfl : w = u := Option.some.inj (hw.symm.trans hu)
      exact (h.2.snoc.2 w hw).insert_eq hc

/-- Where it is there, it is replaced. -/
theorem applyAdd_existing {p : Pointer} {t : Token} {c : Unknown} (h : Readable doc (p ++ [t]))
    (hc : locate doc (p ++ [t]) = some c) (x : Unknown) :
    (applyAdd debug doc (render (p ++ [t])) x).toOption = Rfc6902.replace doc (p ++ [t]) x := by
  have hget : getAtPath debug doc (render (p ++ [t])) = .ok c :=
    eq_ok_of_toOption ((getAtPath_render h).trans hc)
  rw [applyAdd, if_neg (render_snoc_ne_nil p t), hget]
  exact applyReplace_render h x

/-- For a member of an object, replacing it is adding it. -/
theorem replace_eq_add {p : Pointer} {t : Token} {map : List (String × Unknown)} {c : Unknown}
    (hw : locate doc p = some (.object map)) (hc : child (.object map) t = some c) (x : Unknown) :
    Rfc6902.replace doc (p ++ [t]) x = Rfc6902.add doc (p ++ [t]) x := by
  rw [Rfc6902.replace, Navigate.modify_snoc, Rfc6902.add, Rfc6902.editParent_snoc]
  refine Navigate.modify_congr fun u hu => ?_
  obtain rfl := Option.some.inj (hw.symm.trans hu)
  rw [hc]
  rfl

/-- **For an element of an array it is not**: the array that is added to grows. -/
theorem replace_ne_add {p : Pointer} {t : Token} {items : List Unknown} {i : ℕ}
    (hw : locate doc p = some (.array items)) (hi : arrayIndex t = some i)
    (hlt : i < items.length) (x y : Unknown) :
    Rfc6902.replace doc (p ++ [t]) x ≠ Rfc6902.add doc (p ++ [t]) y := by
  rw [Rfc6902.replace, Navigate.modify_snoc, Rfc6902.add, Rfc6902.editParent_snoc]
  intro heq
  have hinsert : insertPart (.array items) t y = some (.array (items.insertIdx i y)) := by
    rw [insertPart, if_neg (Rfc6902.ne_dash_of_arrayIndex hi), hi, Option.bind_some, if_pos hlt.le]
  obtain ⟨d, hd⟩ := Option.isSome_iff_exists.mp
    (Rfc6902.lawful.modify_isSome (f := (insertPart · t y)) hw (by rw [hinsert]; rfl))
  -- the parent of the location is the same in both documents, but its lengths differ
  have hparent := Rfc6902.lawful.locate_modify hd
  rw [Rfc6902.lawful.locate_modify (heq.trans hd), ← locate, hw, Option.bind_some, Option.bind_some,
    Option.bind_some, hinsert, child, hi, Option.bind_some, List.getElem?_eq_getElem hlt,
    Option.bind_some, put, hi, Option.bind_some, if_pos hlt] at hparent
  have hlen := congrArg List.length (Unknown.array.inj (Option.some.inj hparent))
  rw [List.length_set, List.length_insertIdx_of_le_length hlt.le] at hlen
  omega

/-- **Adding** is right exactly where it does not hit an element of an array. -/
theorem applyAdd_eq_iff {p : Pointer} (h : Readable doc p) (hp : ParentExists doc p)
    (x : Unknown) :
    (applyAdd debug doc (render p) x).toOption = Rfc6902.add doc p x ↔ ¬ IsElement doc p := by
  rcases List.eq_nil_or_concat p with rfl | ⟨p, t, rfl⟩
  · exact ⟨fun _ h => h, fun _ => rfl⟩
  · rw [List.concat_eq_append] at h hp ⊢
    have hparent := hp (by simp)
    rw [List.dropLast_concat] at hparent
    obtain ⟨w, hw⟩ := Option.isSome_iff_exists.mp hparent
    rw [isElement_snoc]
    cases hc : child w t with
    | none =>
        refine ⟨fun _ => ?_, fun _ => applyAdd_new h hw hc x⟩
        rintro ⟨items, i, hitems, hi, hlt⟩
        obtain rfl := Option.some.inj (hw.symm.trans hitems)
        rw [child, hi, Option.bind_some, List.getElem?_eq_none_iff] at hc
        omega
    | some c =>
        -- the code replaces what is there, which for an object is the same
        have hloc : locate doc (p ++ [t]) = some c := by
          rw [locate, Navigate.locate_snoc, ← locate, hw, Option.bind_some, hc]
        rw [applyAdd_existing h hloc]
        constructor
        · rintro heq ⟨items, i, hitems, hi, hlt⟩
          exact replace_ne_add hitems hi hlt x x heq
        · intro hno
          cases w with
          | object map => exact replace_eq_add hw hc x
          | array items =>
              obtain ⟨i, hi, hci⟩ := Option.bind_eq_some_iff.mp hc
              exact absurd ⟨items, i, hw, hi, (List.getElem?_eq_some_iff.mp hci).1⟩ hno
          | _ => exact absurd hc (by simp [child])

theorem insertPart_injective {v v' x y : Unknown} {t : Token} (hx : insertPart v t x = some v')
    (hy : insertPart v t y = some v') : x = y := by
  have heq := hx.trans hy.symm
  cases v with
  | object map =>
      have hmap := Unknown.object.inj (Option.some.inj heq)
      have hget := congrArg (Assoc.get (String.ofList t)) hmap
      rw [Assoc.get_insert, if_pos rfl, Assoc.get_insert, if_pos rfl] at hget
      exact Option.some.inj hget
  | array items =>
      rw [insertPart] at hx
      rw [insertPart, insertPart] at heq
      split_ifs at heq hx with ht
      · have hitems := Unknown.array.inj (Option.some.inj heq)
        exact (List.cons.inj (List.append_cancel_left hitems)).1
      · obtain ⟨i, hi, hx⟩ := Option.bind_eq_some_iff.mp hx
        split_ifs at hx with hle
        rw [hi, Option.bind_some, Option.bind_some, if_pos hle, if_pos hle] at heq
        have hget := congrArg (·[i]?) (Unknown.array.inj (Option.some.inj heq))
        simpa [List.getElem?_insertIdx_self, hle] using hget
  | _ => cases hx

theorem add_injective {d x y : Unknown} {p : Pointer} (hx : Rfc6902.add doc p x = some d)
    (hy : Rfc6902.add doc p y = some d) : x = y := by
  rcases List.eq_nil_or_concat' p with rfl | ⟨p, t, rfl⟩
  · exact Option.some.inj (hx.trans hy.symm)
  · rw [Rfc6902.add, Rfc6902.editParent_snoc] at hx hy
    obtain ⟨w, w', hw, hwx, hparent⟩ := Rfc6902.lawful.exists_of_modify hx
    rw [Rfc6902.lawful.locate_modify hy, hw, Option.bind_some] at hparent
    exact insertPart_injective hwx hparent

/-- Where adding one value and adding another give the same, the values are the same, and there is
    no element to overwrite. -/
theorem eq_of_added {p : Pointer} {d x y : Unknown} (h : Readable doc p)
    (hcode : applyAdd debug doc (render p) x = .ok d) (hop : Rfc6902.add doc p y = some d) :
    x = y ∧ ¬ IsElement doc p := by
  have hparent : ParentExists doc p := by
    by_contra hno
    rw [add_eq_none hno] at hop
    cases hop
  have hopt : (applyAdd debug doc (render p) x).toOption = some d := congrArg _ hcode
  have hno : ¬ IsElement doc p := by
    rcases List.eq_nil_or_concat' p with rfl | ⟨p, t, rfl⟩
    · exact fun h => h
    · rw [isElement_snoc]
      rintro ⟨items, i, hw, hi, hlt⟩
      have hloc : locate doc (p ++ [t]) = some items[i] := by
        rw [locate, Navigate.locate_snoc, ← locate, hw, Option.bind_some, child, hi,
          Option.bind_some, List.getElem?_eq_getElem hlt]
      rw [applyAdd_existing h hloc] at hopt
      exact replace_ne_add hw hi hlt x y (hopt.trans hop.symm)
  rw [(applyAdd_eq_iff h hparent x).mpr hno] at hopt
  exact ⟨add_injective hopt hop, hno⟩

/-! ## Removing -/

theorem ReadsAs.without_eq {v : Unknown} {t : Token} (h : ReadsAs v t) :
    withoutPart v (parseSegment t) = removePart v t := by
  cases v with
  | object map =>
      have hs : parseSegment t = .field (String.ofList t) := h
      rw [hs, withoutPart, removePart]
  | array items =>
      rcases h.array_cases with ⟨ht, i, hle, hs, hi⟩ | ⟨rfl, hs⟩ | ⟨ht, hout, hs⟩
      · rw [hs, withoutPart, removePart, hi, Option.bind_some]
      · rw [hs, removePart, Rfc6902.arrayIndex_dash]
        rfl
      · have hnone : removePart (.array items) t = none := by
          rw [removePart, Option.bind_eq_none_iff]
          exact fun i hi => if_neg (not_lt.mpr (hout i hi).le)
        rw [hnone]
        rcases hs with ⟨j, hj, hs⟩ | hs
        · rw [hs, withoutPart, if_neg (not_lt.mpr hj.le)]
        · rw [hs]
          rfl
  | _ => cases parseSegment t <;> rfl

theorem removalPlace_render {p : Pointer} (hsplit : p.head? ≠ some []) (hdot : DotSafe p.dropLast) :
    removalPlace (render p) = p.map parseSegment := by
  rw [← parsePath_render hsplit, removalPlace_eq_iff, parsePath_render hsplit, ← List.map_dropLast,
    ← parsePath_segmentsToDot_iff]
  exact parsePath_segmentsToDot hdot

/-- The location that the code removes is the one that the pointer names. -/
theorem removeAt_render {p : Pointer} (h : Readable doc p) (hdot : DotSafe p.dropLast) :
    removeAt doc (removalPlace (render p)) = Rfc6902.remove doc p := by
  rw [removalPlace_render h.1 hdot]
  rcases List.eq_nil_or_concat' p with rfl | ⟨p, t, rfl⟩
  · rfl
  · obtain ⟨hreads, hlast⟩ := h.2.snoc
    rw [List.map_append, List.map_singleton, removeAt_snoc, (hreads.follows false).modify_eq,
      Rfc6902.remove, Rfc6902.editParent_snoc]
    exact Navigate.modify_congr fun w hw => (hlast w hw).without_eq

/-- **Removing** deletes the location. -/
theorem applyRemove_render {p : Pointer} (h : Readable doc p) (hdot : DotSafe p.dropLast) :
    (applyRemove debug doc (render p)).toOption = Rfc6902.remove doc p :=
  (applyRemove_toOption doc).trans (removeAt_render h hdot)

/-- What can be removed is there. -/
theorem isSome_locate_of_remove {p : Pointer} (h : (Rfc6902.remove doc p).isSome) :
    (locate doc p).isSome := by
  rcases List.eq_nil_or_concat' p with rfl | ⟨p, t, rfl⟩
  · rfl
  · rw [Rfc6902.remove, Rfc6902.editParent_snoc, Rfc6902.lawful.isSome_modify] at h
    obtain ⟨w, hw⟩ := Option.isSome_iff_exists.mp (Option.isSome_of_isSome_bind h)
    rw [hw, Option.bind_some] at h
    rw [locate, Navigate.locate_snoc, hw, Option.bind_some]
    cases w with
    | object map => simpa [removePart, child] using h
    | array items =>
        obtain ⟨v, hv⟩ := Option.isSome_iff_exists.mp h
        obtain ⟨i, hi, hv⟩ := Option.bind_eq_some_iff.mp hv
        split_ifs at hv with hlt
        rw [child, hi, Option.bind_some, List.getElem?_eq_getElem hlt]
        rfl
    | _ => cases h

/-! ## What is read otherwise

A token that is no name on an object, or no index on an array, for one of the two readings only,
selects nothing for the other, and can be added for one of them at most. -/

/-- If both readings can add at the token, they read it alike. -/
theorem readsAs_of_accepted {v x : Unknown} {t : Token}
    (hput : (putSegment true v (parseSegment t) .null).isSome)
    (hinsert : (insertPart v t x).isSome) : ReadsAs v t := by
  cases v with
  | object map =>
      rcases parseSegment_cases t with ⟨-, hs⟩ | ⟨-, i, -, hs⟩ | ⟨-, hs⟩
      · rw [hs] at hput
        cases hput
      · rw [hs] at hput
        cases hput
      · exact hs
  | array items =>
      by_cases ht : t = ['-']
      · subst ht
        intro i _
        rw [Rfc6902.arrayIndex_dash]
        exact ⟨fun h => PathSegment.noConfusion h, fun h => by cases h⟩
      · rw [insertPart, if_neg ht] at hinsert
        obtain ⟨i, hi⟩ := Option.isSome_iff_exists.mp (Option.isSome_of_isSome_bind hinsert)
        obtain rfl := Rfc6902.arrayIndex_eq_some.mp hi
        intro j _
        rw [hi]
        by_cases hlarge : i < 18446744073709551616
        · rw [parseSegment_toDigits hlarge, PathSegment.index.injEq, Option.some.injEq]
        -- the index is too large for the code, which takes it for a name
        · rw [parseSegment, if_neg ht, parseUsize_toDigits_eq_none hlarge] at hput
          cases hput
  | _ => trivial

theorem isSome_insertPart_of_child {v c : Unknown} {t : Token} (x : Unknown)
    (hc : child v t = some c) : (insertPart v t x).isSome := by
  cases v with
  | object map => rfl
  | array items =>
      obtain ⟨i, hi, hc⟩ := Option.bind_eq_some_iff.mp hc
      rw [insertPart, if_neg (Rfc6902.ne_dash_of_arrayIndex hi), hi, Option.bind_some,
        if_pos (List.getElem?_eq_some_iff.mp hc).1.le]
      rfl
  | _ => cases hc

/-- If the code can create something at or below a location, it reads the location as such. -/
theorem readsAlong_of_creatable {v : Unknown} {p : Pointer} {r : List PathSegment}
    (hp : (locate v p).isSome) (hr : creatable v (r ++ (p.map parseSegment).reverse)) :
    ReadsAlong v p ∧ ∀ w, locate v p = some w → creatable w r := by
  induction p generalizing v with
  | nil =>
      refine ⟨trivial, fun w hw => ?_⟩
      obtain rfl : v = w := Option.some.inj hw
      simpa using hr
  | cons t p ih =>
      rw [List.map_cons, List.reverse_cons, ← List.append_assoc] at hr
      obtain ⟨w, hw⟩ := Option.isSome_iff_exists.mp hp
      obtain ⟨c, hc, hw⟩ := Option.bind_eq_some_iff.mp hw
      have hreads : ReadsAs v t := readsAs_of_accepted (isSome_putSegment_of_creatable hr)
        (isSome_insertPart_of_child .null hc)
      rw [creatable_concat (hreads.child_eq.trans hc)] at hr
      obtain ⟨halong, hrest⟩ := ih (Option.isSome_iff_exists.mpr ⟨w, hw⟩) hr
      refine ⟨⟨hreads, fun c' hc' => ?_⟩, fun w' hw' => ?_⟩
      · obtain rfl := Option.some.inj (hc.symm.trans hc')
        exact halong
      · obtain ⟨c', hc', hw'⟩ := Option.bind_eq_some_iff.mp hw'
        obtain rfl := Option.some.inj (hc.symm.trans hc')
        exact hrest w' hw'

theorem ReadsAlong.concat {v : Unknown} {p : Pointer} {t : Token} (h : ReadsAlong v p)
    (ht : ∀ w, locate v p = some w → ReadsAs w t) : ReadsAlong v (p ++ [t]) := by
  induction p generalizing v with
  | nil => exact ⟨ht v rfl, fun _ _ => trivial⟩
  | cons s p ih =>
      refine ⟨h.1, fun c hc => ih (h.2 c hc) fun w hw => ht w ?_⟩
      exact Option.bind_eq_some_iff.mpr ⟨c, hc, hw⟩

/-- What is there for both readings is there for the same reason. -/
theorem readable_of_located {p : Pointer} (hsplit : p.head? ≠ some [])
    (hcode : (Navigate.locate childSegment doc (parsePath (render p))).isSome)
    (hp : (locate doc p).isSome) : Readable doc p := by
  rw [parsePath_render hsplit] at hcode
  have hcreatable : creatable doc (p.map parseSegment).reverse :=
    creatable_of_located (by rwa [List.reverse_reverse])
  exact ⟨hsplit, (readsAlong_of_creatable (r := []) hp hcreatable).1⟩

/-- So is what can be added for both. -/
theorem readable_of_added {p : Pointer} {x : Unknown} (hsplit : p.head? ≠ some [])
    (hcode : creatable doc (parsePath (render p)).reverse)
    (hp : (Rfc6902.add doc p x).isSome) : Readable doc p := by
  rw [parsePath_render hsplit] at hcode
  refine ⟨hsplit, ?_⟩
  rcases List.eq_nil_or_concat' p with rfl | ⟨p, t, rfl⟩
  · trivial
  · rw [Rfc6902.add, Rfc6902.editParent_snoc, Rfc6902.lawful.isSome_modify] at hp
    obtain ⟨w, hw⟩ := Option.isSome_iff_exists.mp (Option.isSome_of_isSome_bind hp)
    rw [hw, Option.bind_some] at hp
    rw [List.map_append, List.reverse_append] at hcode
    obtain ⟨halong, hrest⟩ := readsAlong_of_creatable (Option.isSome_iff_exists.mpr ⟨w, hw⟩) hcode
    refine halong.concat fun w' hw' => ?_
    obtain rfl := Option.some.inj (hw.symm.trans hw')
    exact readsAs_of_accepted (hrest w hw) hp

end IdEffect.Optics
