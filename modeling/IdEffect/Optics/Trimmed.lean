import IdEffect.Lib.Phases
import IdEffect.Optics.Following

set_option autoImplicit false

/-! # Pointers that lose their beginning

Slashes at the beginning of a pointer are trimmed, and with them its leading empty tokens, so that
the code edits another location than the pointer names. The two edits still give one document where
the values are there already, or where the value that is copied is what the rest of the pointer
should make of the place that the code writes to (`AddsAlike`); for replacing, and for adding one
value, only where it is there already (`finds_of_replaced`, `AddsAlike.same`). Removing gives one
document only at one place, with a parent whose dotted path is read back (`split_of_removed`). -/

namespace IdEffect.Optics

open Schema (Unknown)
open Rfc6902 (Token Pointer escape render arrayIndex child put insertPart removePart locate)

variable {debug : DebugText} {doc : Unknown} {path : List Char}

/-! ## Leading empty tokens -/

/-- A pointer that begins with an empty token is read as the document, as its member with the empty
    name, or from its first other token on. -/
theorem parsePath_render_empty (p : Pointer) :
    (p = [] ∧ parsePath (render ([] :: p)) = [])
      ∨ (p ≠ [] ∧ parsePath (render ([] :: p)) = [.field ""])
      ∨ ∃ k t q, t ≠ [] ∧ p = List.replicate k [] ++ t :: q
        ∧ parsePath (render ([] :: p)) = (t :: q).map parseSegment := by
  induction p with
  | nil => exact .inl ⟨rfl, rfl⟩
  | cons t p ih =>
      have hrender : render ([] :: t :: p) = '/' :: '/' :: (escape t ++ render p) := rfl
      by_cases hempty : t = []
      · subst hempty
        cases p with
        | nil => exact .inr (.inl ⟨by simp, rfl⟩)
        | cons u p =>
            rw [hrender, parsePath_slash_slash (by simp [escape, render])]
            rcases ih with ⟨h, -⟩ | ⟨-, h⟩ | ⟨k, v, q, hv, hp, h⟩
            · cases h
            · exact .inr (.inl ⟨by simp, h⟩)
            · exact .inr (.inr ⟨k + 1, v, q, hv, by rw [hp]; rfl, h⟩)
      · have ht : escape t ≠ [] := escape_ne_nil hempty
        rw [hrender, parsePath_slash_slash (by simp [ht])]
        refine .inr (.inr ⟨0, t, p, hempty, rfl, ?_⟩)
        exact parsePath_render (p := t :: p) (by simpa using hempty)

/-! ## The segments of a pointer -/

/-- The segment is what the token stands for, on an object or on an array. -/
def Names (t : Token) (s : PathSegment) : Prop :=
  s = .field (String.ofList t) ∨ ∃ i, arrayIndex t = some i ∧ s = .index i

theorem Names.toDot_eq {t : Token} {s : PathSegment} (h : Names t s) : s.toDot = t := by
  rcases h with rfl | ⟨i, hi, rfl⟩
  · rw [PathSegment.toDot, String.toList_ofList]
  · exact (Rfc6902.arrayIndex_eq_some.mp hi).symm

theorem exists_names_of_child {v c : Unknown} {t : Token} (h : child v t = some c) :
    ∃ s, Names t s ∧ childSegment v s = some c ∧ ∀ x, put v t x = putSegment false v s x := by
  cases v with
  | object map => exact ⟨.field (String.ofList t), .inl rfl, h, fun x => rfl⟩
  | array items =>
      obtain ⟨i, hi, h⟩ := Option.bind_eq_some_iff.mp h
      refine ⟨.index i, .inr ⟨i, hi, rfl⟩, h, fun x => ?_⟩
      rw [put, hi, Option.bind_some, putSegment_index]
  | _ => cases h

theorem exists_withoutPart_of_removePart {v v' : Unknown} {t : Token}
    (h : removePart v t = some v') : ∃ s, withoutPart v s = some v' := by
  cases v with
  | object map => exact ⟨.field (String.ofList t), h⟩
  | array items =>
      obtain ⟨i, hi, h⟩ := Option.bind_eq_some_iff.mp h
      exact ⟨.index i, h⟩
  | _ => cases h

/-- A change at a pointer is one at the segments that its tokens stand for. -/
theorem exists_modify_of_tokens {f : Unknown → Option Unknown} {v d : Unknown} {p : Pointer}
    (h : Navigate.modify child put f v p = some d) :
    ∃ segments, List.Forall₂ Names p segments
      ∧ Navigate.modify childSegment (putSegment false) f v segments = some d := by
  induction p generalizing v d with
  | nil => exact ⟨[], .nil, h⟩
  | cons t p ih =>
      obtain ⟨c, hc, h⟩ := Option.bind_eq_some_iff.mp h
      obtain ⟨c', hc', hput⟩ := Option.bind_eq_some_iff.mp h
      obtain ⟨s, hnames, hs, hsame⟩ := exists_names_of_child hc
      obtain ⟨segments, hall, hmodify⟩ := ih hc'
      refine ⟨s :: segments, .cons hnames hall, ?_⟩
      rw [Navigate.modify, hs, Option.bind_some, hmodify, Option.bind_some, ← hsame]
      exact hput

/-! ## Sizes -/

theorem sizeOf_lt_of_locate {v c : Unknown} {p : Pointer} (hp : p ≠ [])
    (h : locate v p = some c) : sizeOf c < sizeOf v := by
  induction p generalizing v with
  | nil => exact absurd rfl hp
  | cons t p ih =>
      obtain ⟨w, hw, h⟩ := Option.bind_eq_some_iff.mp h
      obtain ⟨s, -, hs, -⟩ := exists_names_of_child hw
      rcases eq_or_ne p [] with rfl | hp
      · obtain rfl := Option.some.inj h
        exact sizeOf_childSegment_lt hs
      · exact (ih hp h).trans (sizeOf_childSegment_lt hs)

theorem sizeOf_lt_of_insertPart {v v' x : Unknown} {t : Token} (h : insertPart v t x = some v') :
    sizeOf x < sizeOf v' := by
  obtain ⟨s, hs⟩ : ∃ s, childSegment v' s = some x := by
    cases v with
    | object map =>
        obtain rfl := Option.some.inj h
        exact ⟨.field (String.ofList t), by rw [childSegment, Assoc.get_insert, if_pos rfl]⟩
    | array items =>
        rw [insertPart] at h
        split_ifs at h with ht
        · obtain rfl := Option.some.inj h
          exact ⟨.index items.length, List.getElem?_concat_length ..⟩
        · obtain ⟨i, -, h⟩ := Option.bind_eq_some_iff.mp h
          split_ifs at h with hle
          obtain rfl := Option.some.inj h
          exact ⟨.index i, List.getElem?_insertIdx_self.trans (if_pos hle)⟩
    | _ => cases h
  exact sizeOf_childSegment_lt hs

/-- What was added is a part of the document. -/
theorem sizeOf_lt_of_add {v d x : Unknown} {p : Pointer} (hp : p ≠ [])
    (h : Rfc6902.add v p x = some d) : sizeOf x < sizeOf d := by
  obtain ⟨p, t, rfl⟩ := (List.eq_nil_or_concat' p).resolve_left hp
  rw [Rfc6902.add, Rfc6902.editParent_snoc] at h
  obtain ⟨w, w', -, hinsert, hparent⟩ := Rfc6902.lawful.exists_of_modify h
  have hlt := sizeOf_lt_of_insertPart hinsert
  rcases eq_or_ne p [] with rfl | hp
  · obtain rfl := Option.some.inj hparent
    exact hlt
  · exact hlt.trans (sizeOf_lt_of_locate hp hparent)

/-! ## Where nothing is to change -/

/-- The code finds `x` at the pointer, which leads to `y`. -/
def Finds (doc : Unknown) (p : Pointer) (x y : Unknown) : Prop :=
  Navigate.locate childSegment doc (parsePath (render p)) = some x ∧ locate doc p = some y

theorem locate_of_applyReplace {x d : Unknown} (h : applyReplace debug doc path x = .ok d) :
    Navigate.locate childSegment d (parsePath path) = some x := by
  have hmodify := (applyReplace_toOption x).symm.trans (congrArg Except.toOption h)
  obtain ⟨w, w', -, hw', hloc⟩ := putSegment_lawful.exists_of_modify hmodify
  rwa [← hw'] at hloc

/-- **Replacing changes nothing exactly if the value is there already.** -/
theorem applyReplace_self_iff (hdoc : MapsOrdered doc) {x : Unknown} :
    applyReplace debug doc path x = .ok doc
      ↔ Navigate.locate childSegment doc (parsePath path) = some x := by
  refine ⟨locate_of_applyReplace, fun h => ?_⟩
  refine eq_ok_of_toOption ((applyReplace_toOption x).trans ?_)
  exact Navigate.modify_self hdoc (fun hw hc => ⟨hw.child hc, hw.put_self hc⟩) h

/-- What is created and changes nothing was there. -/
theorem createAtReversed_self {x : Unknown} {r : List PathSegment}
    (h : createAtReversed debug path doc r x = .ok doc) :
    Navigate.locate childSegment doc r.reverse = some x := by
  cases r with
  | nil => exact congrArg some (Except.ok.inj h).symm
  | cons last r =>
      have hcreatable : creatable doc (last :: r) := by
        rw [← @isSome_createAtReversed debug path doc x, h]
        rfl
      obtain ⟨w, w', hw, hput, hcreate⟩ := createAtReversed_cons h
      have happend : PathSegment.append ∉ r := by
        intro hmem
        rw [creatable, locate_eq_none_of_append (List.mem_reverse.mpr hmem)] at hcreatable
        simp [hmem] at hcreatable
      have hparent := (createAtReversed_spec happend hcreate).1
      obtain rfl := hw w' hparent
      rw [List.reverse_cons, Navigate.locate_snoc, hparent, Option.bind_some]
      by_cases hlast : last = .append
      -- an array does not stay the same when something is appended
      · subst hlast
        cases w' with
        | array items =>
            exact absurd (congrArg List.length (Unknown.array.inj (Option.some.inj hput))) (by simp)
        | _ => cases hput
      · exact child_putSegment hlast hput

/-- **So does adding.** -/
theorem applyAdd_self_iff (hdoc : MapsOrdered doc) {x : Unknown} :
    applyAdd debug doc path x = .ok doc
      ↔ Navigate.locate childSegment doc (parsePath path) = some x := by
  by_cases hthere : (Navigate.locate childSegment doc (parsePath path)).isSome
  · rw [applyAdd_of_located x hthere]
    exact applyReplace_self_iff hdoc
  · have hnone := Option.not_isSome_iff_eq_none.mp hthere
    have hpath : path ≠ [] := by
      rintro rfl
      cases hnone
    rw [hnone, applyAdd, if_neg hpath]
    refine iff_of_false (fun h => ?_) (by simp)
    cases hget : getAtPath debug doc path with
    | ok c => exact hthere (by rw [getAtPath_eq_ok.mp hget]; rfl)
    | error e =>
        rw [hget] at h
        have hcreate : createAtPath debug doc path x = .ok doc :=
          eq_ok_of_toOption ((toOption_ofPath _).symm.trans (congrArg _ h))
        rw [createAtPath, if_neg hpath] at hcreate
        have hx := createAtReversed_self hcreate
        rw [List.reverse_reverse, hnone] at hx
        cases hx

theorem MapsOrdered.part_self {v c : Unknown} {t : Token} (h : MapsOrdered v)
    (hc : Rfc6902.child v t = some c) : MapsOrdered c ∧ Rfc6902.put v t c = some v := by
  obtain ⟨s, -, hs, hput⟩ := exists_names_of_child hc
  exact ⟨h.child hs, (hput c).trans (h.put_self hs)⟩

theorem locate_of_replace {d x : Unknown} {p : Pointer} (h : Rfc6902.replace doc p x = some d) :
    locate d p = some x := by
  obtain ⟨w, w', -, hw', hloc⟩ := Rfc6902.lawful.exists_of_modify h
  rwa [← hw'] at hloc

theorem replace_self_iff (hdoc : MapsOrdered doc) {p : Pointer} {x : Unknown} :
    Rfc6902.replace doc p x = some doc ↔ locate doc p = some x :=
  ⟨locate_of_replace, Navigate.modify_self hdoc fun hw hc => hw.part_self hc⟩

theorem add_self_iff (hdoc : MapsOrdered doc) {p : Pointer} {x : Unknown} :
    Rfc6902.add doc p x = some doc ↔ locate doc p = some x ∧ ¬ IsElement doc p := by
  rcases List.eq_nil_or_concat' p with rfl | ⟨p, t, rfl⟩
  · exact ⟨fun h => ⟨Eq.symm h, fun h => h⟩, fun h => Eq.symm h.1⟩
  · rw [isElement_snoc, locate, Navigate.locate_snoc, ← locate]
    constructor
    · intro h
      rw [Rfc6902.add, Rfc6902.editParent_snoc] at h
      obtain ⟨w, w', hw, hinsert, hparent⟩ := Rfc6902.lawful.exists_of_modify h
      obtain rfl : w = w' := Option.some.inj (hw.symm.trans hparent)
      rw [locate, hw, Option.bind_some]
      cases w with
      | object map =>
          constructor
          · have hmap := Unknown.object.inj (Option.some.inj hinsert)
            rw [child, ← hmap, Assoc.get_insert, if_pos rfl]
          · rintro ⟨items, i, hitems, -⟩
            cases hitems
      -- an array grows
      | array items =>
          rw [insertPart] at hinsert
          split_ifs at hinsert with ht
          · have := congrArg List.length (Unknown.array.inj (Option.some.inj hinsert))
            simp at this
          · obtain ⟨i, -, hinsert⟩ := Option.bind_eq_some_iff.mp hinsert
            split_ifs at hinsert with hle
            have hlen := congrArg List.length (Unknown.array.inj (Option.some.inj hinsert))
            rw [List.length_insertIdx_of_le_length hle] at hlen
            omega
      | _ => cases hinsert
    · rintro ⟨hx, hno⟩
      obtain ⟨w, hw, hc⟩ := Option.bind_eq_some_iff.mp hx
      cases w with
      | object map =>
          rw [← replace_eq_add hw hc, replace_self_iff hdoc, locate, Navigate.locate_snoc]
          exact hx
      | array items =>
          obtain ⟨i, hi, hget⟩ := Option.bind_eq_some_iff.mp hc
          exact absurd ⟨items, i, hw, hi, (List.getElem?_eq_some_iff.mp hget).1⟩ hno
      | _ => cases hc

/-! ## Adding and replacing elsewhere -/

theorem exists_putSegment_of_create {x d : Unknown} {s : PathSegment} {r : List PathSegment}
    (h : createAtReversed debug path doc (r ++ [s]) x = .ok d) :
    ∃ w, putSegment true doc s w = some d := by
  induction r generalizing x with
  | nil =>
      obtain ⟨w, w', hw, hput, hd⟩ := createAtReversed_cons h
      obtain rfl := hw doc rfl
      obtain rfl := Except.ok.inj hd
      exact ⟨x, hput⟩
  | cons last r ih =>
      obtain ⟨w, w', -, -, hd⟩ := createAtReversed_cons h
      exact ih hd

/-- The code edits the part that the first segment selects. -/
theorem exists_putSegment_of_applyReplace {x d : Unknown} {s : PathSegment}
    {q : List PathSegment} (hpath : parsePath path = s :: q)
    (h : applyReplace debug doc path x = .ok d) :
    ∃ allow w, putSegment allow doc s w = some d := by
  have hd := (applyReplace_toOption x).symm.trans (congrArg Except.toOption h)
  rw [hpath] at hd
  obtain ⟨c, -, hd⟩ := Option.bind_eq_some_iff.mp hd
  obtain ⟨c', -, hd⟩ := Option.bind_eq_some_iff.mp hd
  exact ⟨false, c', hd⟩

theorem exists_putSegment_of_applyAdd {x d : Unknown} {s : PathSegment}
    {q : List PathSegment} (hpath : parsePath path = s :: q)
    (h : applyAdd debug doc path x = .ok d) :
    ∃ allow w, putSegment allow doc s w = some d := by
  have hne : path ≠ [] := by
    rintro rfl
    cases hpath
  rw [applyAdd, if_neg hne] at h
  cases hget : getAtPath debug doc path with
  | ok c =>
      rw [hget] at h
      exact exists_putSegment_of_applyReplace hpath h
  | error e =>
      rw [hget] at h
      have hcreate : createAtPath debug doc path x = .ok d :=
        eq_ok_of_toOption ((toOption_ofPath _).symm.trans (congrArg _ h))
      rw [createAtPath, if_neg hne, hpath, List.reverse_cons] at hcreate
      exact ⟨true, exists_putSegment_of_create hcreate⟩

theorem locate_of_applyAdd {x d : Unknown} (h : applyAdd debug doc path x = .ok d)
    (hthere : (Navigate.locate childSegment doc (parsePath path)).isSome) :
    Navigate.locate childSegment d (parsePath path) = some x := by
  rw [applyAdd_of_located x hthere] at h
  exact locate_of_applyReplace h

theorem object_of_insertPart {v w d : Unknown} (h : insertPart v [] w = some d) :
    ∃ map, v = .object map ∧ d = .object (Assoc.insert "" w map) := by
  cases v with
  | object map => exact ⟨map, rfl, (Option.some.inj h).symm⟩
  | array items =>
      have hindex : arrayIndex [] = none := by decide
      rw [insertPart, if_neg (by simp), hindex] at h
      cases h
  | _ => cases h

theorem insertPart_of_put {v c w d : Unknown} (hc : child v [] = some c)
    (h : put v [] w = some d) : insertPart v [] w = some d := by
  cases v with
  | object map => exact h
  | array items =>
      have hindex : arrayIndex [] = none := by decide
      rw [child, hindex] at hc
      cases hc
  | _ => cases hc

theorem add_cons {v x : Unknown} {t : Token} {p : Pointer} (hp : p ≠ []) :
    Rfc6902.add v (t :: p) x = (child v t).bind fun c => (Rfc6902.add c p x).bind (put v t) := by
  obtain ⟨q, u, rfl⟩ := (List.eq_nil_or_concat' p).resolve_left hp
  rw [← List.cons_append, Rfc6902.add, Rfc6902.editParent_snoc, Navigate.modify]
  refine congrArg _ (funext fun c => ?_)
  rw [Rfc6902.add, Rfc6902.editParent_snoc]

/-- The pointer edits the member with the empty name, which is there if it goes on below it. -/
structure EditsEmpty (doc d : Unknown) (p : Pointer) : Prop where
  part : ∃ w, insertPart doc [] w = some d
  there : p ≠ [] → (child doc []).isSome

theorem EditsEmpty.of_add {x d : Unknown} {p : Pointer}
    (h : Rfc6902.add doc ([] :: p) x = some d) : EditsEmpty doc d p := by
  by_cases hp : p = []
  · subst hp
    exact ⟨⟨x, h⟩, fun hne => absurd rfl hne⟩
  · rw [add_cons hp] at h
    obtain ⟨c, hc, h⟩ := Option.bind_eq_some_iff.mp h
    obtain ⟨c', -, hput⟩ := Option.bind_eq_some_iff.mp h
    exact ⟨⟨c', insertPart_of_put hc hput⟩, fun _ => by rw [hc]; rfl⟩

theorem EditsEmpty.of_replace {x d : Unknown} {p : Pointer}
    (h : Rfc6902.replace doc ([] :: p) x = some d) : EditsEmpty doc d p := by
  obtain ⟨c, hc, h⟩ := Option.bind_eq_some_iff.mp h
  obtain ⟨c', -, hput⟩ := Option.bind_eq_some_iff.mp h
  exact ⟨⟨c', insertPart_of_put hc hput⟩, fun _ => by rw [hc]; rfl⟩

/-- Where the code gives the same, it sets the document, or its member with the empty name, to `x`;
    or it changes nothing. -/
theorem EditsEmpty.cases {x d : Unknown} {p : Pointer} (h : EditsEmpty doc d p)
    (hdoc : MapsOrdered doc)
    (hput : ∀ s q, parsePath (render ([] :: p)) = s :: q →
      ∃ allow w, putSegment allow doc s w = some d)
    (hloc : (Navigate.locate childSegment doc (parsePath (render ([] :: p)))).isSome →
      Navigate.locate childSegment d (parsePath (render ([] :: p))) = some x) :
    (p = [] ∧ d = x)
      ∨ (p ≠ [] ∧ parsePath (render ([] :: p)) = [.field ""] ∧ child d [] = some x)
      ∨ d = doc := by
  obtain ⟨w, hw⟩ := h.part
  obtain ⟨map, rfl, rfl⟩ := object_of_insertPart hw
  rcases parsePath_render_empty p with ⟨hp, hread⟩ | ⟨hp, hread⟩ | ⟨k, t, q, ht, -, hread⟩
  · rw [hread] at hloc
    exact .inl ⟨hp, Option.some.inj (hloc rfl)⟩
  · obtain ⟨c, hc⟩ := Option.isSome_iff_exists.mp (h.there hp)
    rw [hread] at hloc
    have hthere : Navigate.locate childSegment (.object map) [.field ""] = some c :=
      Option.bind_eq_some_iff.mpr ⟨c, hc, rfl⟩
    obtain ⟨c', hc', hx⟩ := Option.bind_eq_some_iff.mp (hloc (by rw [hthere]; rfl))
    obtain rfl := Option.some.inj hx
    exact .inr (.inl ⟨hp, hread, hc'⟩)
  -- the two edits are in different members
  · obtain ⟨allow, w', hw'⟩ := hput _ _ hread
    have hmap : Assoc.Ascending map := hdoc [] map rfl
    refine .inr (.inr ?_)
    rcases parseSegment_cases t with ⟨-, hs⟩ | ⟨-, i, -, hs⟩ | ⟨-, hs⟩
    · rw [hs] at hw'
      cases hw'
    · rw [hs] at hw'
      cases hw'
    · rw [hs] at hw'
      have heq := Unknown.object.inj (Option.some.inj hw')
      have hname : "" ≠ String.ofList t :=
        fun h => ht (by simpa using congrArg String.toList h.symm)
      have hget : Assoc.get "" map = some w := by
        have hsame := congrArg (Assoc.get "") heq
        rwa [Assoc.get_insert, if_neg hname, Assoc.get_insert, if_pos rfl] at hsame
      rw [hmap.insert_self hget]

/-- The values are there already, where the code looks and where the pointer leads; or the code
    comes to the place of a beginning `q` of the pointer, and `x` is what adding `y` at the rest of
    it makes of the value there. -/
def AddsAlike (doc : Unknown) (p : Pointer) (x y : Unknown) : Prop :=
  (Finds doc p x y ∧ ¬ IsElement doc p)
    ∨ ∃ q rest c, p = q ++ rest ∧ rest ≠ [] ∧ parsePath (render p) = q.map parseSegment
        ∧ locate doc q = some c ∧ Rfc6902.add c rest y = some x

/-- One value is never added alike, unless it is there. -/
theorem AddsAlike.same {p : Pointer} {x : Unknown} (h : AddsAlike doc p x x) :
    Finds doc p x x ∧ ¬ IsElement doc p := by
  rcases h with h | ⟨q, rest, c, -, hrest, -, -, hadd⟩
  · exact h
  · exact absurd (sizeOf_lt_of_add hrest hadd) (lt_irrefl _)

/-- **Adding at a pointer that begins with an empty token**: the code gives what adding `y` gives
    only if the two are added alike. -/
theorem addsAlike_of_added {p : Pointer} {x y d : Unknown} (hdoc : MapsOrdered doc)
    (hcode : applyAdd debug doc (render ([] :: p)) x = .ok d)
    (hop : Rfc6902.add doc ([] :: p) y = some d) : AddsAlike doc ([] :: p) x y := by
  rcases (EditsEmpty.of_add hop).cases hdoc
    (fun s q hread => exists_putSegment_of_applyAdd hread hcode) (locate_of_applyAdd hcode)
    with ⟨rfl, rfl⟩ | ⟨hp, hread, hx⟩ | rfl
  · exact .inr ⟨[], [[]], doc, rfl, by simp, rfl, rfl, hop⟩
  · rw [add_cons hp] at hop
    obtain ⟨c, hc, hop⟩ := Option.bind_eq_some_iff.mp hop
    obtain ⟨c', hc', hput⟩ := Option.bind_eq_some_iff.mp hop
    obtain rfl := Option.some.inj ((Rfc6902.lawful.child_put hput).symm.trans hx)
    exact .inr ⟨[[]], p, c, rfl, hp, hread, Option.bind_eq_some_iff.mpr ⟨c, hc, rfl⟩, hc'⟩
  · obtain ⟨hy, hno⟩ := (add_self_iff hdoc).mp hop
    exact .inl ⟨⟨(applyAdd_self_iff hdoc).mp hcode, hy⟩, hno⟩

/-- And then it does give it. -/
theorem AddsAlike.added {p : Pointer} {x y : Unknown} (h : AddsAlike doc p x y)
    (hdoc : MapsOrdered doc) :
    ∃ d, applyAdd debug doc (render p) x = .ok d ∧ Rfc6902.add doc p y = some d := by
  rcases h with ⟨⟨hx, hy⟩, hno⟩ | ⟨q, rest, c, hp, hrest, hread, hc, hadd⟩
  · exact ⟨doc, (applyAdd_self_iff hdoc).mpr hx, (add_self_iff hdoc).mpr ⟨hy, hno⟩⟩
  · by_cases hhead : p.head? = some []
    · obtain ⟨p, rfl⟩ := List.head?_eq_some_iff.mp hhead
      rcases parsePath_render_empty p with ⟨rfl, hread'⟩ | ⟨hne, hread'⟩ | ⟨k, t, r, ht, -, hread'⟩
      -- the code sets the document
      · rw [hread', eq_comm, List.map_eq_nil_iff] at hread
        subst hread
        obtain rfl := Option.some.inj hc
        subst hp
        exact ⟨x, rfl, hadd⟩
      -- it sets the member with the empty name
      · rw [hread'] at hread
        cases q with
        | nil => cases hread
        | cons t q =>
            obtain rfl : q = [] := List.map_eq_nil_iff.mp (List.cons.inj hread).2.symm
            obtain ⟨rfl, rfl⟩ := List.cons.inj hp
            obtain ⟨c', hc', hlast⟩ := Option.bind_eq_some_iff.mp hc
            obtain rfl := Option.some.inj hlast
            cases doc with
            | object map =>
                refine ⟨.object (Assoc.insert "" x map), ?_, ?_⟩
                · have hthere : Navigate.locate childSegment (.object map) [.field ""] = some c' :=
                    hc
                  rw [applyAdd_of_located x (by rw [hread', hthere]; rfl)]
                  refine eq_ok_of_toOption ((applyReplace_toOption x).trans ?_)
                  rw [hread']
                  exact Option.bind_eq_some_iff.mpr ⟨c', hc', rfl⟩
                · rw [add_cons hne, hc', Option.bind_some, hadd]
                  rfl
            | array items =>
                have hindex : arrayIndex [] = none := by decide
                rw [child, hindex] at hc'
                cases hc'
            | _ => cases hc'
      · rw [hread'] at hread
        cases q with
        | nil => cases hread
        | cons u q =>
            obtain rfl := (List.cons.inj hp).1
            exact absurd (toList_of_parseSegment (List.cons.inj hread).1).symm ht
    -- a pointer that is split is not read as a beginning of it
    · rw [parsePath_render hhead, hp] at hread
      have hlen := congrArg List.length hread
      rw [List.length_map, List.length_map, List.length_append] at hlen
      exact absurd (List.length_eq_zero_iff.mp (by omega)) hrest

/-- **Replacing at a pointer that begins with an empty token** gives what it should only if the
    value is there already, where the code looks and where the pointer leads. -/
theorem finds_of_replaced {p : Pointer} {x d : Unknown} (hdoc : MapsOrdered doc)
    (hcode : applyReplace debug doc (render ([] :: p)) x = .ok d)
    (hop : Rfc6902.replace doc ([] :: p) x = some d) : Finds doc ([] :: p) x x := by
  have hx := locate_of_replace hop
  rcases (EditsEmpty.of_replace hop).cases hdoc
    (fun s q hread => exists_putSegment_of_applyReplace hread hcode)
    (fun _ => locate_of_applyReplace hcode) with ⟨rfl, rfl⟩ | ⟨hp, hread, hd⟩ | rfl
  -- a value is no proper part of itself
  · exact absurd (sizeOf_lt_of_locate (by simp) hx) (lt_irrefl _)
  · rw [locate, Navigate.locate, hd, Option.bind_some] at hx
    exact absurd (sizeOf_lt_of_locate hp hx) (lt_irrefl _)
  · exact ⟨(applyReplace_self_iff hdoc).mp hcode, hx⟩

/-! ## Removing elsewhere -/

/-- Where the code removes what the pointer removes, its parent is the pointer's. -/
theorem names_of_removed {p : Pointer} {d : Unknown}
    (hcode : removeAt doc (removalPlace path) = some d) (hop : Rfc6902.remove doc p = some d) :
    List.Forall₂ Names p.dropLast (reread (parsePath path).dropLast) := by
  rcases List.eq_nil_or_concat' p with rfl | ⟨p, t, rfl⟩
  · cases hop
  rcases List.eq_nil_or_concat' (parsePath path) with hroot | ⟨q, last, hpath⟩
  · rw [removalPlace, hroot] at hcode
    cases hcode
  · rw [Rfc6902.remove, Rfc6902.editParent_snoc] at hop
    obtain ⟨segments, hnames, hmodify⟩ := exists_modify_of_tokens hop
    rw [removalPlace, hpath, List.dropLast_concat, List.getLast?_concat, Option.toList_some,
      removeAt_snoc] at hcode
    rw [List.dropLast_concat, hpath, List.dropLast_concat]
    have hlost : ∀ {w w'}, removePart w t = some w' →
        ∃ s, (childSegment w s).isSome ∧ childSegment w' s = none := by
      intro w w' hw
      obtain ⟨s, hs⟩ := exists_withoutPart_of_removePart hw
      exact exists_child_lost hs
    rw [← putSegment_lawful.modify_injective hlost exists_child_lost hmodify hcode]
    exact hnames

/-- What a path is read as takes no more characters than it, and fewer if it is a pointer. -/
theorem length_segmentsToDot_parsePath (text : List Char) :
    (segmentsToDot (parsePath text)).length ≤ text.length
      ∧ (text.head? = some '/' → (segmentsToDot (parsePath text)).length < text.length) := by
  by_cases hslash : text.head? = some '/'
  · have hlt := length_segmentsToDot_parseJsonPointer hslash
    have hne : text ≠ [] := by
      rintro rfl
      cases hslash
    rw [parsePath, if_neg hne, if_pos hslash]
    exact ⟨hlt.le, fun _ => hlt⟩
  · refine ⟨?_, fun h => absurd h hslash⟩
    cases text with
    | nil => exact le_rfl
    | cons c text =>
        rw [parsePath_of_ne_slash (by simpa using hslash), segmentsToDot, List.map_map]
        refine (length_intercalate_map_le length_toDot_parseSegment_le '.' '.').trans ?_
        rw [List.intercalate_splitOn]

theorem segmentsToDot_of_names {p : Pointer} {segments : List PathSegment}
    (h : List.Forall₂ Names p segments) : segmentsToDot segments = ['.'].intercalate p := by
  rw [segmentsToDot]
  congr 1
  induction h with
  | nil => rfl
  | cons hs _ ih => rw [List.map_cons, hs.toDot_eq, ih]

theorem length_segmentsToDot_le (p : Pointer) :
    (segmentsToDot (p.map parseSegment)).length ≤ (['.'].intercalate p).length := by
  rw [segmentsToDot, List.map_map]
  exact length_intercalate_map_le length_toDot_parseSegment_le '.' '.'

theorem length_intercalate_empty_lt {q : Pointer} (hq : q ≠ []) (k : ℕ) :
    (['.'].intercalate q).length
      < (['.'].intercalate ([] :: (List.replicate k [] ++ q))).length := by
  have hcons : ∀ {l : Pointer}, l ≠ [] →
      (['.'].intercalate ([] :: l)).length = (['.'].intercalate l).length + 1 := by
    intro l hl
    obtain ⟨t, l, rfl⟩ := List.exists_cons_of_ne_nil hl
    rw [List.intercalate_cons_cons]
    simp
  induction k with
  | zero =>
      rw [List.replicate_zero, List.nil_append, hcons hq]
      exact Nat.lt_succ_self _
  | succ k ih =>
      rw [List.replicate_succ, List.cons_append, hcons (by simp)]
      exact ih.trans (Nat.lt_succ_self _)

/-- A token that starts with a slash is no number. -/
theorem parseSegment_slash (t : Token) :
    parseSegment ('/' :: t) = .field (String.ofList ('/' :: t)) := by
  have hnone : parseUsize ('/' :: t) = none := by
    rw [parseUsize, if_neg (by simp)]
  rw [parseSegment, if_neg (by simp), hnone]

/-- Tokens that are what their dotted path is read back to hold no dots, and the first does not
    start with a slash. -/
theorem dotSafe_of_names {p : Pointer} (hhead : p.head? ≠ some [])
    (h : List.Forall₂ Names p (reread (p.map parseSegment))) : DotSafe p := by
  have hdots := segmentsToDot_of_names h
  have hle := length_segmentsToDot_le p
  -- the dotted path is not a pointer, which would lose a slash
  have hslash : (segmentsToDot (p.map parseSegment)).head? ≠ some '/' := by
    intro hslash
    have hlt := (length_segmentsToDot_parsePath _).2 hslash
    rw [← reread, hdots] at hlt
    exact absurd hlt (not_lt.mpr hle)
  refine ⟨fun t ht hdot => ?_, fun t ht => ⟨?_, fun hstart => ?_⟩⟩
  · obtain ⟨s, hs, hname⟩ := Phases.exists_of_mem_forall₂ h t ht
    rcases hname with rfl | ⟨i, hi, -⟩
    · rw [reread] at hs
      cases htext : segmentsToDot (p.map parseSegment) with
      | nil =>
          rw [htext] at hs
          cases hs
      | cons c text =>
          rw [htext] at hs hslash
          rw [parsePath_of_ne_slash (by simpa using hslash)] at hs
          obtain ⟨part, hpart, hfield⟩ := List.mem_map.mp hs
          have hpart' := notMem_of_mem_splitOn hpart
          rw [← toList_of_parseSegment hfield, String.toList_ofList] at hpart'
          exact hpart' hdot
    · rw [Rfc6902.arrayIndex_eq_some.mp hi] at hdot
      exact absurd (Nat.isDigit_of_mem_toDigits (by decide) (by decide) hdot) (by decide)
  · rintro rfl
    exact hhead ht
  · obtain ⟨rest, rfl⟩ := List.head?_eq_some_iff.mp ht
    obtain ⟨t, rfl⟩ := List.head?_eq_some_iff.mp hstart
    refine hslash ?_
    rw [List.map_cons, parseSegment_slash, segmentsToDot, List.map_cons, PathSegment.toDot,
      String.toList_ofList, List.intercalate_cons_cons_left]
    rfl

/-- **Both remove the same only where the code splits the pointer**, and the dotted path of the
    parent is read back to it. -/
theorem split_of_removed {p : Pointer} {d : Unknown}
    (hcode : removeAt doc (removalPlace (render p)) = some d)
    (hop : Rfc6902.remove doc p = some d) : p.head? ≠ some [] ∧ DotSafe p.dropLast := by
  have hnames := names_of_removed hcode hop
  have hsplit : p.head? ≠ some [] := by
    intro hhead
    obtain ⟨p, rfl⟩ := List.head?_eq_some_iff.mp hhead
    rcases parsePath_render_empty p with ⟨-, hread⟩ | ⟨hp, hread⟩ | ⟨k, t, q, ht, rfl, hread⟩
    · rw [removalPlace, hread] at hcode
      cases hcode
    · rw [hread, List.dropLast_cons_of_ne_nil hp] at hnames
      cases hnames
    -- the tokens that are left are too short
    · rw [hread, ← List.map_dropLast, List.dropLast_cons_of_ne_nil (by simp),
        List.dropLast_append_of_ne_nil (by simp)] at hnames
      by_cases hq : (t :: q).dropLast = []
      · rw [hq, List.map_nil] at hnames
        cases hnames
      · have hle := (length_segmentsToDot_parsePath
          (segmentsToDot ((t :: q).dropLast.map parseSegment))).1
        rw [← reread, segmentsToDot_of_names hnames] at hle
        exact absurd (length_intercalate_empty_lt hq k)
          (not_lt.mpr (hle.trans (length_segmentsToDot_le _)))
  refine ⟨hsplit, dotSafe_of_names ?_ ?_⟩
  · cases p with
    | nil => simp
    | cons t p =>
        cases p with
        | nil => simp
        | cons u p =>
            rw [List.dropLast_cons_cons]
            exact hsplit
  · rw [parsePath_render hsplit, ← List.map_dropLast] at hnames
    exact hnames

end IdEffect.Optics
