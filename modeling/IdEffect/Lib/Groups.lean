import Mathlib.Data.List.Dedup
import Mathlib.Data.List.Sort

set_option autoImplicit false

/-! # Groups by a key, in ascending order

`groupsBy f l` has a group for every key of `l`, ascending, each with its elements in the order of
`l`. The groups do not depend on the keys themselves, only on how they compare the elements
(`groupsBy_eq_iff`). -/

variable {A κ κ' : Type*} [LinearOrder κ] [LinearOrder κ']

/-- The keys of the elements, each once, in ascending order. -/
def keysAscending (f : A → κ) (l : List A) : List κ := (l.map f).dedup.insertionSort (· ≤ ·)

/-- The elements of each key, the keys in ascending order. -/
def groupsBy (f : A → κ) (l : List A) : List (List A) :=
  (keysAscending f l).map fun k => l.filter fun x => f x = k

section

variable {f : A → κ} {g : A → κ'} {l : List A}

theorem mem_keysAscending {k : κ} : k ∈ keysAscending f l ↔ ∃ x ∈ l, f x = k := by
  rw [keysAscending, List.mem_insertionSort, List.mem_dedup, List.mem_map]

theorem sortedLT_keysAscending (f : A → κ) (l : List A) : (keysAscending f l).SortedLT := by
  have hle : (keysAscending f l).SortedLE :=
    List.sortedLE_iff_pairwise.2 (List.pairwise_insertionSort (· ≤ ·) _)
  refine hle.sortedLT_of_nodup ?_
  exact (List.perm_insertionSort (· ≤ ·) _).nodup_iff.2 (List.nodup_dedup _)

/-- A list of the keys, each once and in ascending order, is this one. -/
theorem eq_keysAscending {ks : List κ} (hks : ks.Pairwise (· < ·))
    (hmem : ∀ k, k ∈ ks ↔ ∃ x ∈ l, f x = k) : ks = keysAscending f l :=
  hks.eq_of_mem_iff (List.sortedLT_iff_pairwise.1 (sortedLT_keysAscending f l)) fun k =>
    (hmem k).trans mem_keysAscending.symm

theorem mem_groupsBy {group : List A} :
    group ∈ groupsBy f l ↔ ∃ x ∈ l, group = l.filter fun y => f y = f x := by
  rw [groupsBy, List.mem_map]
  constructor
  · rintro ⟨k, hk, rfl⟩
    obtain ⟨x, hx, rfl⟩ := mem_keysAscending.1 hk
    exact ⟨x, hx, rfl⟩
  · rintro ⟨x, hx, rfl⟩
    exact ⟨f x, mem_keysAscending.2 ⟨x, hx, rfl⟩, rfl⟩

/-- The elements of one group have one key. -/
theorem key_eq_of_mem_groupsBy {group : List A} (h : group ∈ groupsBy f l) {x y : A}
    (hx : x ∈ group) (hy : y ∈ group) : f x = f y := by
  obtain ⟨z, -, rfl⟩ := mem_groupsBy.1 h
  rw [of_decide_eq_true (List.mem_filter.1 hx).2, of_decide_eq_true (List.mem_filter.1 hy).2]

theorem keysAscending_map {B : Type*} (g : B → A) (l : List B) :
    keysAscending f (l.map g) = keysAscending (f ∘ g) l := by
  rw [keysAscending, List.map_map, keysAscending]

/-- The groups of other elements that have the keys of these. -/
theorem groupsBy_map {B : Type*} (g : B → A) (l : List B) :
    groupsBy f (l.map g) = (groupsBy (f ∘ g) l).map (List.map g) := by
  rw [groupsBy, groupsBy, keysAscending_map, List.map_map]
  refine List.map_congr_left fun k _ => ?_
  rw [List.filter_map]
  rfl

/-- Keys that compare the elements alike make the same groups. -/
theorem groupsBy_congr (hle : ∀ x ∈ l, ∀ y ∈ l, f x ≤ f y ↔ g x ≤ g y) :
    groupsBy f l = groupsBy g l := by
  by_cases hl : l = []
  · rw [hl]
    rfl
  · obtain ⟨x₀, -⟩ := List.exists_mem_of_ne_nil l hl
    have heq : ∀ x ∈ l, ∀ y ∈ l, f x = f y ↔ g x = g y := by
      intro x hx y hy
      rw [le_antisymm_iff, le_antisymm_iff, hle x hx y hy, hle y hy x hx]
    have hlt : ∀ x ∈ l, ∀ y ∈ l, f x < f y ↔ g x < g y := by
      intro x hx y hy
      rw [lt_iff_not_ge, lt_iff_not_ge, hle y hy x hx]
    -- The keys of one kind are those of the other, renamed.
    have hrename : ∀ k, ∃ c, ∀ x ∈ l, f x = k → g x = c := by
      intro k
      by_cases hk : ∃ x ∈ l, f x = k
      · obtain ⟨x, hx, rfl⟩ := hk
        exact ⟨g x, fun y hy hyx => (heq y hy x hx).1 hyx⟩
      · exact ⟨g x₀, fun x hx hxk => absurd ⟨x, hx, hxk⟩ hk⟩
    choose φ hφ using hrename
    have hkeys : (keysAscending f l).map φ = keysAscending g l := by
      refine eq_keysAscending ?_ fun c => ?_
      · rw [List.pairwise_map]
        refine (List.sortedLT_iff_pairwise.1 (sortedLT_keysAscending f l)).imp_of_mem ?_
        intro k k' hk hk' hkk'
        obtain ⟨x, hx, rfl⟩ := mem_keysAscending.1 hk
        obtain ⟨y, hy, rfl⟩ := mem_keysAscending.1 hk'
        rw [← hφ _ x hx rfl, ← hφ _ y hy rfl]
        exact (hlt x hx y hy).1 hkk'
      · rw [List.mem_map]
        constructor
        · rintro ⟨k, hk, rfl⟩
          obtain ⟨x, hx, rfl⟩ := mem_keysAscending.1 hk
          exact ⟨x, hx, hφ _ x hx rfl⟩
        · rintro ⟨x, hx, rfl⟩
          exact ⟨f x, mem_keysAscending.2 ⟨x, hx, rfl⟩, (hφ _ x hx rfl).symm⟩
    rw [groupsBy, groupsBy, ← hkeys, List.map_map]
    refine List.map_congr_left fun k hk => List.filter_congr fun y hy => ?_
    obtain ⟨x, hx, rfl⟩ := mem_keysAscending.1 hk
    rw [← hφ _ x hx rfl, decide_eq_decide]
    exact heq y hy x hx

/-- If the groups are the same, an element has its keys at the same place. -/
theorem exists_getElem_of_groupsBy_eq (h : groupsBy f l = groupsBy g l) {x : A} (hx : x ∈ l) :
    ∃ i, ∃ hf : i < (keysAscending f l).length, ∃ hg : i < (keysAscending g l).length,
      (keysAscending f l)[i] = f x ∧ (keysAscending g l)[i] = g x := by
  obtain ⟨i, hf, hfx⟩ := List.getElem_of_mem (mem_keysAscending.2 ⟨x, hx, rfl⟩ :
    f x ∈ keysAscending f l)
  have hlen : (keysAscending f l).length = (keysAscending g l).length := by
    simpa only [groupsBy, List.length_map] using congrArg List.length h
  have hg : i < (keysAscending g l).length := hlen ▸ hf
  refine ⟨i, hf, hg, hfx, ?_⟩
  have hgroup : l.filter (fun y => f y = (keysAscending f l)[i]) =
      l.filter fun y => g y = (keysAscending g l)[i] := by
    have hi := congrArg (fun gs : List (List A) => gs[i]?) h
    simpa [groupsBy, hf, hg] using hi
  have hmem : x ∈ l.filter fun y => f y = (keysAscending f l)[i] :=
    List.mem_filter.2 ⟨hx, decide_eq_true hfx.symm⟩
  rw [hgroup] at hmem
  exact (of_decide_eq_true (List.mem_filter.1 hmem).2).symm

/-- **The groups are the order of the elements**: two keys make the same groups exactly if they
    compare the elements alike. -/
theorem groupsBy_eq_iff :
    groupsBy f l = groupsBy g l ↔ ∀ x ∈ l, ∀ y ∈ l, f x ≤ f y ↔ g x ≤ g y := by
  refine ⟨fun h x hx y hy => ?_, groupsBy_congr⟩
  obtain ⟨i, hfi, hgi, hfx, hgx⟩ := exists_getElem_of_groupsBy_eq h hx
  obtain ⟨j, hfj, hgj, hfy, hgy⟩ := exists_getElem_of_groupsBy_eq h hy
  rw [← hfx, ← hgx, ← hfy, ← hgy]
  exact ((sortedLT_keysAscending f l).getElem_le_getElem_iff).trans
    ((sortedLT_keysAscending g l).getElem_le_getElem_iff).symm

end

/-! ## Sorting by a key -/

/-- The entries in ascending order of their keys; those with one key stay in their order. -/
def sortByKey (entries : List (κ × A)) : List (κ × A) :=
  entries.insertionSort fun x y => x.1 ≤ y.1

theorem sortByKey_perm (entries : List (κ × A)) : (sortByKey entries).Perm entries :=
  List.perm_insertionSort (fun x y : κ × A => x.1 ≤ y.1) entries

theorem pairwise_sortByKey (entries : List (κ × A)) :
    (sortByKey entries).Pairwise fun x y => x.1 ≤ y.1 :=
  List.pairwise_insertionSort (fun x y : κ × A => x.1 ≤ y.1) entries

/-- What has its keys in ascending order, each once, comes out of every rearrangement of it. -/
theorem sortByKey_eq_of_perm {entries sorted : List (κ × A)} (hperm : entries.Perm sorted)
    (hsorted : sorted.Pairwise fun x y => x.1 < y.1) : sortByKey entries = sorted := by
  have hkeys : (sorted.map Prod.fst).Nodup := by
    rw [List.Nodup, List.pairwise_map]
    exact hsorted.imp fun h => ne_of_lt h
  have hsort : (sortByKey entries).Perm sorted := (sortByKey_perm entries).trans hperm
  refine hsort.eq_of_pairwise (fun x y hx hy hxy hyx => ?_) (pairwise_sortByKey entries)
    (hsorted.imp le_of_lt)
  exact List.inj_on_of_nodup_map hkeys (hsort.mem_iff.1 hx) hy (le_antisymm hxy hyx)
