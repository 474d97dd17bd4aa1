import IdEffect.Optics.PathAccess

set_option autoImplicit false

/-! # Get, set and create

`set_at_path` and `create_at_path` write from the bottom up: each level reads its parent in the
original document, assigns one segment of it and writes the parent. The laws relate what is written
to what `get_at_path` reads, at the path itself and at those apart from it, neither of which begins
with the other as lists of segments. -/

namespace IdEffect.Optics

open Schema (Unknown)

variable {debug : DebugText} {path : List Char}

/-! ## One segment -/

theorem child_putSegment {allow : Bool} {v v' x : Unknown} {s : PathSegment} (hs : s ≠ .append)
    (h : putSegment allow v s x = some v') : childSegment v' s = some x := by
  cases v with
  | object map =>
      cases s with
      | field name =>
          obtain rfl := Option.some.inj h
          rw [childSegment, Assoc.get_insert, if_pos rfl]
      | _ => cases h
  | array items =>
      cases s with
      | index i =>
          rw [putSegment] at h
          split_ifs at h with hout hlen
          · obtain rfl := Option.some.inj h
            rw [childSegment, hlen, List.getElem?_concat_length]
          · obtain rfl := Option.some.inj h
            have hlt : i < items.length := by omega
            rw [childSegment, List.getElem?_set_self hlt]
      | append => exact absurd rfl hs
      | field name => cases h
  | _ => cases s <;> cases h

theorem child_putSegment_ne {allow : Bool} {v v' x c : Unknown} {s t : PathSegment}
    (h : putSegment allow v s x = some v') (hst : s ≠ t) (hc : childSegment v t = some c) :
    childSegment v' t = some c := by
  cases v with
  | object map =>
      cases s with
      | field name =>
          obtain rfl := Option.some.inj h
          cases t with
          | field other =>
              have hne : other ≠ name := fun heq => hst (congrArg _ heq.symm)
              rw [childSegment, Assoc.get_insert, if_neg hne]
              exact hc
          | _ => cases hc
      | _ => cases h
  | array items =>
      cases t with
      | index j =>
          have hj : j < items.length := (List.getElem?_eq_some_iff.mp hc).1
          cases s with
          | index i =>
              have hne : i ≠ j := fun heq => hst (congrArg _ heq)
              rw [putSegment] at h
              split_ifs at h
              · obtain rfl := Option.some.inj h
                rw [childSegment, List.getElem?_append_left hj]
                exact hc
              · obtain rfl := Option.some.inj h
                rw [childSegment, List.getElem?_set_ne hne]
                exact hc
          | append =>
              rw [putSegment] at h
              split_ifs at h
              obtain rfl := Option.some.inj h
              rw [childSegment, List.getElem?_append_left hj]
              exact hc
          | field name => cases h
      | _ => cases hc
  | _ => cases s <;> cases h

/-- Without appending, an element is only ever replaced. -/
theorem putSegment_index (items : List Unknown) (i : ℕ) (x : Unknown) :
    putSegment false (.array items) (.index i) x
      = if i < items.length then some (.array (items.set i x)) else none := by
  rw [putSegment]
  by_cases hi : i < items.length
  · rw [if_neg (by simp; omega), if_neg hi.ne, if_pos hi]
  · rw [if_pos (.inr ⟨by decide, not_lt.mp hi⟩), if_neg hi]

/-- A part that is there can be assigned. -/
theorem isSome_putSegment_of_child {v c : Unknown} {s : PathSegment} (allow : Bool) (x : Unknown)
    (hc : childSegment v s = some c) : (putSegment allow v s x).isSome := by
  cases v with
  | object map =>
      cases s with
      | field name => rfl
      | _ => cases hc
  | array items =>
      cases s with
      | index i =>
          have hi : i < items.length := (List.getElem?_eq_some_iff.mp hc).1
          rw [putSegment, if_neg (by omega), if_neg hi.ne]
          rfl
      | _ => cases hc
  | _ => cases s <;> cases hc

theorem putSegment_lawful : Navigate.Lawful childSegment (putSegment false) where
  child_put {v v' x s} h := by
    refine child_putSegment ?_ h
    rintro rfl
    cases v <;> cases h
  child_put_ne {v v' x s t} h hne := by
    cases v with
    | object map =>
        cases s with
        | field name =>
            obtain rfl := Option.some.inj h
            cases t with
            | field other =>
                have hother : other ≠ name := fun heq => hne (congrArg _ heq.symm)
                rw [childSegment, childSegment, Assoc.get_insert, if_neg hother]
            | _ => rfl
        | _ => cases h
    | array items =>
        cases s with
        | index i =>
            rw [putSegment_index] at h
            split_ifs at h
            obtain rfl := Option.some.inj h
            cases t with
            | index j =>
                have hij : i ≠ j := fun heq => hne (congrArg _ heq)
                rw [childSegment, childSegment, List.getElem?_set_ne hij]
            | _ => rfl
        | _ => cases h
    | _ => cases s <;> cases h
  put_isSome x h := isSome_putSegment_of_child false x h

theorem putSegment_put {w w' x : Unknown} {s : PathSegment} (y : Unknown)
    (h : putSegment false w s x = some w') : putSegment false w' s y = putSegment false w s y := by
  cases w with
  | object map =>
      cases s with
      | field name =>
          obtain rfl := Option.some.inj h
          rw [putSegment, putSegment, Assoc.insert_insert]
      | _ => cases h
  | array items =>
      cases s with
      | index i =>
          rw [putSegment_index] at h
          split_ifs at h with hi
          obtain rfl := Option.some.inj h
          rw [putSegment_index, putSegment_index, List.length_set, List.set_set]
      | _ => cases h
  | _ => cases s <;> cases h

/-- The objects of a value, however deep, have their keys in order, as maps do. -/
def MapsOrdered (v : Unknown) : Prop :=
  ∀ p map, Navigate.locate childSegment v p = some (.object map) → Assoc.Ascending map

theorem MapsOrdered.child {v c : Unknown} {s : PathSegment} (h : MapsOrdered v)
    (hc : childSegment v s = some c) : MapsOrdered c := by
  intro p map hp
  refine h (s :: p) map ?_
  rw [Navigate.locate, hc]
  exact hp

theorem MapsOrdered.put_self {v c : Unknown} {s : PathSegment} (h : MapsOrdered v)
    (hc : childSegment v s = some c) : putSegment false v s c = some v := by
  cases v with
  | object map =>
      cases s with
      | field name =>
          have hmap : Assoc.Ascending map := h [] map rfl
          rw [putSegment, hmap.insert_self hc]
      | _ => cases hc
  | array items =>
      cases s with
      | index i =>
          obtain ⟨hi, hget⟩ := List.getElem?_eq_some_iff.mp hc
          rw [putSegment_index, if_pos hi, ← hget, List.set_getElem_self]
      | _ => cases hc
  | _ => cases s <;> cases hc

theorem mapsOrdered_iff {v : Unknown} :
    MapsOrdered v ↔ (∀ map, v = .object map → Assoc.Ascending map)
      ∧ ∀ s c, childSegment v s = some c → MapsOrdered c := by
  constructor
  · refine fun h => ⟨fun map hv => ?_, fun s c hc => h.child hc⟩
    exact h [] map (congrArg some hv)
  · rintro ⟨hroot, hparts⟩ p map hp
    cases p with
    | nil => exact hroot map (Option.some.inj hp)
    | cons s p =>
        obtain ⟨c, hc, hp⟩ := Option.bind_eq_some_iff.mp hp
        exact hparts s c hc p map hp

theorem MapsOrdered.object {map : List (String × Unknown)} (h : Assoc.Ascending map)
    (hparts : ∀ entry ∈ map, MapsOrdered entry.2) : MapsOrdered (.object map) := by
  refine mapsOrdered_iff.mpr ⟨fun map' hmap => ?_, fun s c hc => ?_⟩
  · rwa [← Unknown.object.inj hmap]
  · cases s with
    | field name => exact hparts (name, c) (Assoc.mem_of_get hc)
    | _ => cases hc

theorem MapsOrdered.array {items : List Unknown} (h : ∀ v ∈ items, MapsOrdered v) :
    MapsOrdered (.array items) := by
  refine mapsOrdered_iff.mpr ⟨fun map hmap => Unknown.noConfusion hmap, fun s c hc => ?_⟩
  cases s with
  | index i => exact h c (List.mem_of_getElem? hc)
  | _ => cases hc

theorem MapsOrdered.leaf {v : Unknown} (hmap : ∀ map, v ≠ .object map)
    (hparts : ∀ s, childSegment v s = none) : MapsOrdered v := by
  refine mapsOrdered_iff.mpr ⟨fun map h => absurd h (hmap map), fun s c hc => ?_⟩
  rw [hparts] at hc
  cases hc

theorem MapsOrdered.put {v v' x : Unknown} {s : PathSegment} (h : MapsOrdered v)
    (hx : MapsOrdered x) (hput : putSegment false v s x = some v') : MapsOrdered v' := by
  cases v with
  | object map =>
      cases s with
      | field name =>
          have hmap : Assoc.Ascending map := h [] map rfl
          obtain rfl := Option.some.inj hput
          refine .object (hmap.insert name x) fun entry hentry => ?_
          rcases Assoc.mem_insert hentry with rfl | hentry
          · exact hx
          · exact h.child (s := .field entry.1) (hmap.get_of_mem hentry)
      | _ => cases hput
  | array items =>
      cases s with
      | index i =>
          rw [putSegment_index] at hput
          split_ifs at hput
          obtain rfl := Option.some.inj hput
          refine .array fun c hc => ?_
          rcases List.mem_or_eq_of_mem_set hc with hc | rfl
          · obtain ⟨j, hj⟩ := List.getElem?_of_mem hc
            exact h.child (s := .index j) hj
          · exact hx
      | _ => cases hput
  | _ => cases s <;> cases hput

/-- A part is smaller than the value. -/
theorem sizeOf_childSegment_lt {v c : Unknown} {s : PathSegment} (h : childSegment v s = some c) :
    sizeOf c < sizeOf v := by
  cases v with
  | object map =>
      cases s with
      | field name =>
          have hm := List.sizeOf_lt_of_mem (Assoc.mem_of_get h)
          simp only [Prod.mk.sizeOf_spec] at hm
          simp only [Unknown.object.sizeOf_spec]
          omega
      | _ => cases h
  | array items =>
      cases s with
      | index i =>
          have hm := List.sizeOf_lt_of_mem (List.mem_of_getElem? h)
          simp only [Unknown.array.sizeOf_spec]
          omega
      | _ => cases h
  | _ => cases s <;> cases h

/-! ## Setting -/

theorem getAtPath_eq_ok {doc x : Unknown} :
    getAtPath debug doc path = .ok x
      ↔ Navigate.locate childSegment doc (parsePath path) = some x := by
  rw [← @getAtPath_toOption debug path doc]
  exact ⟨congrArg Except.toOption, eq_ok_of_toOption⟩

/-- On a path that is read, setting is a change from the top down. -/
theorem setAtPath_of_read {doc x : Unknown} (h : getAtPath debug doc path = .ok x) (y : Unknown) :
    (setAtPath debug doc path y).toOption
      = Navigate.modify childSegment (putSegment false) (fun _ => some y) doc (parsePath path) := by
  rw [setAtPath_toOption, Navigate.ascend_eq_modify_of_exists, List.reverse_reverse]
  rw [List.reverse_reverse, getAtPath_eq_ok.mp h]
  rfl

theorem setAtPath_self {doc x : Unknown} (hdoc : MapsOrdered doc)
    (h : getAtPath debug doc path = .ok x) : setAtPath debug doc path x = .ok doc := by
  refine eq_ok_of_toOption ((setAtPath_of_read h x).trans ?_)
  exact Navigate.modify_self hdoc (fun hw hc => ⟨hw.child hc, hw.put_self hc⟩)
    (getAtPath_eq_ok.mp h)

theorem exists_setAtPath {doc x : Unknown} (h : getAtPath debug doc path = .ok x) (y : Unknown) :
    ∃ doc', setAtPath debug doc path y = .ok doc'
      ∧ Navigate.modify childSegment (putSegment false) (fun _ => some y) doc (parsePath path)
        = some doc' := by
  obtain ⟨doc', hdoc'⟩ := Option.isSome_iff_exists.mp
    (putSegment_lawful.modify_isSome (getAtPath_eq_ok.mp h) (f := fun _ => some y) rfl)
  exact ⟨doc', eq_ok_of_toOption ((setAtPath_of_read h y).trans hdoc'), hdoc'⟩

theorem getAtPath_set {doc doc' x y : Unknown} (h : getAtPath debug doc path = .ok x)
    (hset : Navigate.modify childSegment (putSegment false) (fun _ => some y) doc (parsePath path)
      = some doc') : getAtPath debug doc' path = .ok y := by
  rw [getAtPath_eq_ok, putSegment_lawful.locate_modify hset, getAtPath_eq_ok.mp h]
  rfl

/-- The second value is set as if the first had not been. -/
theorem setAtPath_set {doc doc' x y : Unknown} (h : getAtPath debug doc path = .ok x)
    (hset : Navigate.modify childSegment (putSegment false) (fun _ => some y) doc (parsePath path)
      = some doc') (z : Unknown) : setAtPath debug doc' path z = setAtPath debug doc path z := by
  obtain ⟨doc₂, hok, hmodify⟩ := exists_setAtPath h z
  rw [hok]
  refine eq_ok_of_toOption ((setAtPath_of_read (getAtPath_set h hset) z).trans ?_)
  rw [putSegment_lawful.modify_overwrites putSegment_put hset, hmodify]

/-! ## Creating -/

/-- The parent that a segment is assigned to: the one that is read, or where there is none what
    creating a container there leads to. -/
theorem createAtReversed_cons {doc doc' x : Unknown} {s : PathSegment} {r : List PathSegment}
    (h : createAtReversed debug path doc (s :: r) x = .ok doc') :
    ∃ w w', (∀ u, Navigate.locate childSegment doc r.reverse = some u → u = w)
      ∧ putSegment true w s x = some w' ∧ createAtReversed debug path doc r w' = .ok doc' := by
  have hopt := congrArg Except.toOption h
  rw [createAtReversed] at hopt
  obtain ⟨w, hw, hopt⟩ := Option.bind_eq_some_iff.mp ((toOption_bind _ _).symm.trans hopt)
  rw [toOption_bind, assignSegment_toOption] at hopt
  obtain ⟨w', hw', hopt⟩ := Option.bind_eq_some_iff.mp hopt
  refine ⟨w, w', fun u hu => ?_, hw', eq_ok_of_toOption hopt⟩
  have hread : getAtSegments debug path [] doc r.reverse = .ok u :=
    eq_ok_of_toOption ((getAtSegments_toOption ..).trans hu)
  rw [hread] at hw
  exact Option.some.inj hw

/-- What was created at a path is there, and what was there apart from it still is. -/
theorem createAtReversed_spec {doc doc' x : Unknown} {r : List PathSegment}
    (happend : PathSegment.append ∉ r) (h : createAtReversed debug path doc r x = .ok doc') :
    Navigate.locate childSegment doc' r.reverse = some x
      ∧ ∀ q y, Navigate.Apart r.reverse q → Navigate.locate childSegment doc q = some y →
        Navigate.locate childSegment doc' q = some y := by
  induction r generalizing x doc' with
  | nil =>
      obtain rfl := Except.ok.inj h
      exact ⟨rfl, fun q y hq => absurd List.nil_prefix hq.1⟩
  | cons s r ih =>
      rw [List.mem_cons, not_or] at happend
      obtain ⟨w, w', hw, hput, hcreate⟩ := createAtReversed_cons h
      obtain ⟨hparent, hrest⟩ := ih happend.2 hcreate
      rw [List.reverse_cons]
      refine ⟨?_, fun q y hq hy => ?_⟩
      · rw [Navigate.locate_snoc, hparent, Option.bind_some]
        exact child_putSegment (Ne.symm happend.1) hput
      by_cases hunder : r.reverse <+: q
      -- beside the segment, in the parent that was read
      · obtain ⟨q, rfl⟩ := hunder
        cases q with
        | nil =>
            rw [List.append_nil] at hq
            exact absurd (List.prefix_append ..) hq.2
        | cons t q =>
            have hst : s ≠ t := by
              rintro rfl
              exact hq.1 ⟨q, by rw [List.append_assoc, List.singleton_append]⟩
            rw [Navigate.locate_append, Option.bind_eq_some_iff] at hy
            obtain ⟨u, hu, hy⟩ := hy
            obtain rfl := hw u hu
            obtain ⟨c, hc, hy⟩ := Option.bind_eq_some_iff.mp hy
            rw [Navigate.locate_append, hparent, Option.bind_some, Navigate.locate,
              child_putSegment_ne hput hst hc]
            exact hy
      · exact hrest q y ⟨hunder, fun hpre => hq.2 (hpre.trans (List.prefix_append ..))⟩ hy

theorem isSome_putSegment (allow : Bool) (v : Unknown) (s : PathSegment) (x y : Unknown) :
    (putSegment allow v s x).isSome = (putSegment allow v s y).isSome := by
  cases v with
  | array items =>
      cases s with
      | index i =>
          rw [putSegment, putSegment]
          split_ifs <;> rfl
      | append =>
          rw [putSegment, putSegment]
          split_ifs <;> rfl
      | field name => rfl
  | _ => cases s <;> rfl

theorem locate_eq_none_of_append {segments : List PathSegment} (h : .append ∈ segments)
    (v : Unknown) : Navigate.locate childSegment v segments = none := by
  induction segments generalizing v with
  | nil => cases h
  | cons s segments ih =>
      rw [Navigate.locate, Option.bind_eq_none_iff]
      intro c hc
      rcases List.mem_cons.mp h with rfl | h
      · cases v <;> cases hc
      · exact ih h c

/-- Whether creating succeeds; the segments are given last one first. The parent is there and takes
    the segment, or it can be created itself, is read again, and takes the segment when empty. -/
def creatable (doc : Unknown) : List PathSegment → Bool
  | [] => true
  | last :: parentSegments =>
      match Navigate.locate childSegment doc parentSegments.reverse with
      | some parent => (putSegment true parent last .null).isSome
      | none =>
          creatable doc parentSegments && !parentSegments.contains .append
            && (putSegment true (defaultContainerFor last) last .null).isSome

/-- What is there can be created. -/
theorem creatable_of_located {doc : Unknown} {r : List PathSegment}
    (h : (Navigate.locate childSegment doc r.reverse).isSome) : creatable doc r := by
  cases r with
  | nil => rfl
  | cons s r =>
      rw [List.reverse_cons, Navigate.locate_snoc] at h
      obtain ⟨w, hw⟩ := Option.isSome_iff_exists.mp (Option.isSome_of_isSome_bind h)
      rw [hw, Option.bind_some] at h
      obtain ⟨c, hc⟩ := Option.isSome_iff_exists.mp h
      rw [creatable, hw]
      exact isSome_putSegment_of_child true .null hc

/-- Creating goes through the first segment where there is something. -/
theorem creatable_concat {v c : Unknown} {s : PathSegment} (hc : childSegment v s = some c)
    (r : List PathSegment) : creatable v (r ++ [s]) = creatable c r := by
  have hs : s ≠ .append := by
    rintro rfl
    cases v <;> cases hc
  induction r with
  | nil =>
      show (putSegment true v s .null).isSome = true
      exact isSome_putSegment_of_child true .null hc
  | cons last r ih =>
      have hloc : Navigate.locate childSegment v (r ++ [s]).reverse
          = Navigate.locate childSegment c r.reverse := by
        rw [List.reverse_append, List.reverse_singleton, List.singleton_append, Navigate.locate, hc,
          Option.bind_some]
      rw [List.cons_append, creatable, creatable, hloc, ih]
      simp [hs.symm]

/-- The first segment is assigned in any case. -/
theorem isSome_putSegment_of_creatable {v : Unknown} {s : PathSegment} {r : List PathSegment}
    (h : creatable v (r ++ [s])) : (putSegment true v s .null).isSome := by
  induction r with
  | nil => exact h
  | cons last r ih =>
      rw [List.cons_append, creatable] at h
      cases hloc : Navigate.locate childSegment v (r ++ [s]).reverse with
      | some w =>
          rw [List.reverse_append, List.reverse_singleton, List.singleton_append] at hloc
          obtain ⟨c, hc, -⟩ := Option.bind_eq_some_iff.mp hloc
          exact isSome_putSegment_of_child true .null hc
      | none =>
          rw [hloc, Bool.and_eq_true, Bool.and_eq_true] at h
          exact ih h.1.1

/-- **Creating succeeds exactly on creatable paths.** -/
theorem isSome_createAtReversed (doc x : Unknown) (r : List PathSegment) :
    (createAtReversed debug path doc r x).toOption.isSome = creatable doc r := by
  induction r generalizing x with
  | nil => rfl
  | cons last r ih =>
      have hassign : ∀ w, (do
            let w' ← assignSegment debug w last x path true
            createAtReversed debug path doc r w').toOption.isSome
          = ((putSegment true w last .null).isSome && creatable doc r) := by
        intro w
        rw [toOption_bind, assignSegment_toOption, isSome_putSegment true w last .null x]
        cases putSegment true w last x with
        | none => rfl
        | some w' => rw [Option.bind_some, ih, Option.isSome_some, Bool.true_and]
      rw [createAtReversed, creatable]
      refine (congrArg Option.isSome (toOption_bind _ _)).trans ?_
      cases hloc : Navigate.locate childSegment doc r.reverse with
      | some w =>
          have hget : getAtSegments debug path [] doc r.reverse = .ok w :=
            eq_ok_of_toOption ((getAtSegments_toOption ..).trans hloc)
          rw [hget]
          refine (hassign w).trans ?_
          rw [creatable_of_located (by rw [hloc]; rfl), Bool.and_true]
      | none =>
          obtain ⟨e, he⟩ := exists_error_of_toOption
            ((@getAtSegments_toOption debug path [] r.reverse doc).trans hloc)
          rw [he, ← ih (defaultContainerFor last)]
          cases hensured : createAtReversed debug path doc r (defaultContainerFor last) with
          | error e' => rfl
          | ok ensured =>
              refine (congrArg (fun o => (Option.bind o _).isSome)
                (getAtSegments_toOption [] r.reverse ensured)).trans ?_
              by_cases happend : .append ∈ r
              · rw [locate_eq_none_of_append (List.mem_reverse.mpr happend)]
                simp [happend]
              · rw [(createAtReversed_spec happend hensured).1, Option.bind_some, hassign,
                  ← ih (defaultContainerFor last), hensured]
                simp [happend, Except.toOption]

/-! ## The laws -/

/-- **Reading, setting and creating obey the lens laws.** What a path reads can be set: setting it
    to itself changes nothing, another value is then read there, a second value replaces it, and no
    path apart from it reads anything else. What is created without appending is read at its path,
    and what paths apart from it read they still read. -/
theorem getAtPath_setAtPath (debug : DebugText) (doc : Unknown) (hdoc : MapsOrdered doc)
    (path : List Char) (v w : Unknown) :
    (∀ x, getAtPath debug doc path = .ok x →
      setAtPath debug doc path x = .ok doc
        ∧ ∃ doc', setAtPath debug doc path v = .ok doc' ∧ getAtPath debug doc' path = .ok v
          ∧ setAtPath debug doc' path w = setAtPath debug doc path w
          ∧ ∀ q, Navigate.Apart (parsePath path) (parsePath q) →
            (getAtPath debug doc' q).toOption = (getAtPath debug doc q).toOption)
      ∧ ∀ doc', createAtPath debug doc path v = .ok doc' → PathSegment.append ∉ parsePath path →
        getAtPath debug doc' path = .ok v
          ∧ ∀ q y, Navigate.Apart (parsePath path) (parsePath q) →
            getAtPath debug doc q = .ok y → getAtPath debug doc' q = .ok y := by
  constructor
  · intro x hx
    obtain ⟨doc', hok, hset⟩ := exists_setAtPath hx v
    refine ⟨setAtPath_self hdoc hx, doc', hok, getAtPath_set hx hset, setAtPath_set hx hset w,
      fun q hq => ?_⟩
    rw [getAtPath_toOption, getAtPath_toOption, putSegment_lawful.locate_modify_apart hset hq]
  · intro doc' h happend
    rw [createAtPath] at h
    split_ifs at h with hpath
    -- the empty path is the document itself
    · subst hpath
      obtain rfl := Except.ok.inj h
      exact ⟨rfl, fun q y hq => absurd List.nil_prefix hq.1⟩
    · obtain ⟨hat, hapart⟩ := createAtReversed_spec (mt List.mem_reverse.mp happend) h
      rw [List.reverse_reverse] at hat hapart
      refine ⟨getAtPath_eq_ok.mpr hat, fun q y hq hy => ?_⟩
      exact getAtPath_eq_ok.mpr (hapart _ y hq (getAtPath_eq_ok.mp hy))

/-- Replacing one of two members. -/
theorem getAtPath_setAtPath_member :
    MapsOrdered (.object [("a", .null), ("b", .null)]) ∧ ∀ debug,
      ∃ doc', setAtPath debug (.object [("a", .null), ("b", .null)]) ['a'] (.i64 1) = .ok doc'
        ∧ getAtPath debug doc' ['a'] = .ok (.i64 1) ∧ getAtPath debug doc' ['b'] = .ok .null := by
  have hnull : MapsOrdered .null := .leaf (by simp) fun s => by cases s <;> rfl
  have hdoc : MapsOrdered (.object [("a", .null), ("b", .null)]) :=
    .object (List.pairwise_pair.mpr (by decide)) (by simp [hnull])
  refine ⟨hdoc, fun debug => ?_⟩
  obtain ⟨-, doc', hset, hget, -, hrest⟩ :=
    (getAtPath_setAtPath debug _ hdoc ['a'] (.i64 1) .null).1 .null rfl
  refine ⟨doc', hset, hget, eq_ok_of_toOption (hrest ['b'] ?_)⟩
  exact ⟨by decide, by decide⟩

end IdEffect.Optics
