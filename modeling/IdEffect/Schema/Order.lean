import IdEffect.Scheduling.Backoff
import Mathlib.Data.Set.Function

set_option autoImplicit false

/-! # Comparators: `schema/order.rs`

Whatever is built from the comparators of the module by `reverse`, `combine` and `map_input` is a
total preorder where its floats are: a lexicographic order of comparisons of values. For the floats
that takes a set without a NaN, or one in which no two differ (`totalPreorder_iff`): `partial_cmp`
has a NaN tie with everything.

An `f64` is a `Float`. -/

namespace IdEffect.Schema

open Scheduling (CoreDuration clamp)

/-! ## `ordering` and `order` -/

abbrev DynOrder (A : Type) := A → A → Ordering

/-- `ordering::combine` -/
def Ordering.combine (first second : Ordering) : Ordering :=
  match first with
  | .eq => second
  | other => other

/-- `f64::partial_cmp` -/
def partialCmp (a b : Float) : Option Ordering := a.toModel.compare b.toModel

namespace DynOrder

variable {A B : Type}

def duration : DynOrder CoreDuration := CoreDuration.cmp

def string : DynOrder String := compare

def numberF64 : DynOrder Float := fun a b => (partialCmp a b).getD .eq

def numberI64 : DynOrder Int64 := compare

def numberU64 : DynOrder UInt64 := compare

def numberUsize : DynOrder USize := compare

def reverse (ord : DynOrder A) : DynOrder A := fun a b => ord b a

def combine (first second : DynOrder A) : DynOrder A :=
  fun a b => Ordering.combine (first a b) (second a b)

def mapInput (ord : DynOrder A) (f : B → A) : DynOrder B := fun a b => ord (f a) (f b)

section

variable (ord : DynOrder A)

def lessThanOrEqualTo (a b : A) : Bool := ord a b != .gt

protected def min (a b : A) : A := if ord a b ≠ .gt then a else b

protected def max (a b : A) : A := if ord a b ≠ .lt then a else b

def between (value minimum maximum : A) : Bool :=
  ord value minimum != .lt && ord value maximum != .gt

/-- `slice::sort_by`, which is stable. -/
def sortWithSerial (arr : List A) : List A := arr.mergeSort ord.lessThanOrEqualTo

/-- `parSortBy` is the sort of rayon, and `parallelize` what the settings say for this length. -/
def sortWith (parSortBy : DynOrder A → List A → List A) (parallelize : ℕ → Bool)
    (arr : List A) : List A :=
  if parallelize arr.length then parSortBy ord arr else sortWithSerial ord arr

end

end DynOrder

/-! ## What is built from them -/

/-- The comparators that the module has to offer. -/
inductive Comparator : Type → Type 1
  | duration : Comparator CoreDuration
  | string : Comparator String
  | numberF64 : Comparator Float
  | numberI64 : Comparator Int64
  | numberU64 : Comparator UInt64
  | numberUsize : Comparator USize
  | reverse {A : Type} (ord : Comparator A) : Comparator A
  | combine {A : Type} (first second : Comparator A) : Comparator A
  | mapInput {A B : Type} (ord : Comparator A) (f : B → A) : Comparator B

namespace Comparator

def toDynOrder {A : Type} : Comparator A → DynOrder A
  | .duration => DynOrder.duration
  | .string => DynOrder.string
  | .numberF64 => DynOrder.numberF64
  | .numberI64 => DynOrder.numberI64
  | .numberU64 => DynOrder.numberU64
  | .numberUsize => DynOrder.numberUsize
  | .reverse ord => ord.toDynOrder.reverse
  | .combine first second => first.toDynOrder.combine second.toDynOrder
  | .mapInput ord f => ord.toDynOrder.mapInput f

/-- The floats that it compares values by, one for each `number_f64` in it. -/
def floats {A : Type} : Comparator A → List (A → Float)
  | .numberF64 => [id]
  | .reverse ord => ord.floats
  | .combine first second => first.floats ++ second.floats
  | .mapInput ord f => ord.floats.map (· ∘ f)
  | _ => []

end Comparator

/-! ## Total preorders -/

/-- `ord` is consistent on the values with `p`. -/
structure TotalPreorder {A : Type} (ord : DynOrder A) (p : A → Prop) : Prop where
  swap (a b : A) (ha : p a) (hb : p b) : ord b a = (ord a b).swap
  trans (a b c : A) (ha : p a) (hb : p b) (hc : p c) (hab : ord a b ≠ .gt) (hbc : ord b c ≠ .gt) :
    ord a c ≠ .gt

/-- `ord` on the values with `p` -/
abbrev DynOrder.on {A : Type} (ord : DynOrder A) (p : A → Prop) : DynOrder { a // p a } :=
  fun a b => ord a b

section

variable {A B : Type} {ord first second : DynOrder A} {p : A → Prop}

theorem isLE_iff {o : Ordering} : o.isLE ↔ o ≠ .gt := by
  cases o <;> simp

theorem eq_swap (cmp : A → A → Ordering) [Std.OrientedCmp cmp] {a b : A} :
    cmp a b = (cmp b a).swap :=
  Std.OrientedCmp.eq_swap

theorem totalPreorder_iff_transCmp : TotalPreorder ord p ↔ Std.TransCmp (ord.on p) := by
  constructor
  · intro h
    exact
      { eq_swap := fun {a b} => h.swap b a b.2 a.2
        isLE_trans := fun {a b c} hab hbc =>
          isLE_iff.2 (h.trans a b c a.2 b.2 c.2 (isLE_iff.1 hab) (isLE_iff.1 hbc)) }
  · intro h
    constructor
    · intro a b ha hb
      exact h.eq_swap (a := ⟨b, hb⟩) (b := ⟨a, ha⟩)
    · intro a b c ha hb hc hab hbc
      exact isLE_iff.1 (h.isLE_trans (a := ⟨a, ha⟩) (b := ⟨b, hb⟩) (c := ⟨c, hc⟩)
        (isLE_iff.2 hab) (isLE_iff.2 hbc))

theorem combine_eq (first second : DynOrder A) (a b : A) :
    first.combine second a b = compareLex first second a b := by
  unfold DynOrder.combine Ordering.combine compareLex
  cases first a b <;> rfl

namespace TotalPreorder

theorem of_transCmp (ord : DynOrder A) [h : Std.TransCmp ord] : TotalPreorder ord p where
  swap _ _ _ _ := h.eq_swap
  trans _ _ _ _ _ _ hab hbc := isLE_iff.1 (h.isLE_trans (isLE_iff.2 hab) (isLE_iff.2 hbc))

theorem reverse (h : TotalPreorder ord p) : TotalPreorder ord.reverse p where
  swap a b ha hb := h.swap b a hb ha
  trans a b c ha hb hc hab hbc := h.trans c b a hc hb ha hbc hab

/-- A tie of the first comparator on either side leaves the second to decide on that side only. -/
theorem combine (hfirst : TotalPreorder first p) (hsecond : TotalPreorder second p) :
    TotalPreorder (first.combine second) p := by
  rw [totalPreorder_iff_transCmp] at hfirst hsecond ⊢
  have heq : (first.combine second).on p = compareLex (first.on p) (second.on p) := by
    funext a b
    exact combine_eq first second a b
  rw [heq]
  infer_instance

theorem mapInput {q : B → Prop} {f : B → A} (h : TotalPreorder ord p) (hf : ∀ b, q b → p (f b)) :
    TotalPreorder (ord.mapInput f) q where
  swap a b ha hb := h.swap (f a) (f b) (hf a ha) (hf b hb)
  trans a b c ha hb hc := h.trans (f a) (f b) (f c) (hf a ha) (hf b hb) (hf c hc)

end TotalPreorder

end

/-! ## What rests on it -/

section

variable {A : Type} {ord : DynOrder A} {p : A → Prop} {a b c : A}

theorem TotalPreorder.refl (h : TotalPreorder ord p) (ha : p a) : ord a a = .eq := by
  have hswap := h.swap a a ha ha
  cases hord : ord a a <;> simp [hord] at hswap ⊢

theorem TotalPreorder.le_of_not_le (h : TotalPreorder ord p) (ha : p a) (hb : p b)
    (hgt : ¬ ord a b ≠ .gt) : ord b a ≠ .gt := by
  rw [h.swap a b ha hb, not_not.1 hgt]
  decide

theorem TotalPreorder.min_le (h : TotalPreorder ord p) (ha : p a) (hb : p b) :
    ord (ord.min a b) a ≠ .gt ∧ ord (ord.min a b) b ≠ .gt := by
  unfold DynOrder.min
  split_ifs with hle
  · exact ⟨by rw [h.refl ha]; decide, hle⟩
  · exact ⟨h.le_of_not_le ha hb hle, by rw [h.refl hb]; decide⟩

theorem TotalPreorder.le_max (h : TotalPreorder ord p) (ha : p a) (hb : p b) :
    ord a (ord.max a b) ≠ .gt ∧ ord b (ord.max a b) ≠ .gt := by
  unfold DynOrder.max
  split_ifs with hge
  · refine ⟨by rw [h.refl ha]; decide, ?_⟩
    rw [h.swap a b ha hb]
    simpa using hge
  · rw [not_not.1 hge, h.refl hb]
    decide

/-- Between the bounds, if these are in order. -/
theorem TotalPreorder.between_clamp (h : TotalPreorder ord p) (hb : p b) (hc : p c)
    (hbc : ord b c ≠ .gt) : ord.between (clamp ord a b c) b c = true := by
  unfold DynOrder.between clamp
  split_ifs with hlt hgt
  · simp [h.refl hb, hbc]
  · have hcb := h.swap b c hb hc
    cases hord : ord b c <;> simp_all [h.refl hc]
  · simp [hlt, hgt]

/-- A permutation in order. -/
def Sorts (ord : DynOrder A) (arr out : List A) : Prop :=
  out.Perm arr ∧ out.Pairwise fun a b => ord a b ≠ .gt

theorem TotalPreorder.sorts {arr : List A} (h : TotalPreorder ord p) (harr : ∀ a ∈ arr, p a) :
    Sorts ord arr (ord.sortWithSerial arr) := by
  refine ⟨List.mergeSort_perm arr _, ?_⟩
  -- sorted among the values with `p`
  let le (a b : { a // p a }) : Bool := ord.lessThanOrEqualTo a b
  have hmap : ord.sortWithSerial arr = ((arr.attachWith p harr).mergeSort le).map (·.1) := by
    rw [List.map_mergeSort (s := ord.lessThanOrEqualTo) fun _ _ _ _ => rfl,
      List.attachWith_map_subtype_val]
    rfl
  have hle {a b : { a // p a }} : le a b = true ↔ ord a b ≠ .gt := by
    simp [le, DynOrder.lessThanOrEqualTo]
  rw [hmap, List.pairwise_map]
  refine (List.pairwise_mergeSort ?_ ?_ _).imp hle.1
  · intro a b c hab hbc
    exact hle.2 (h.trans a b c a.2 b.2 c.2 (hle.1 hab) (hle.1 hbc))
  · intro a b
    rw [Bool.or_eq_true, hle, hle]
    by_contra hno
    rw [not_or] at hno
    exact hno.2 (h.le_of_not_le a.2 b.2 hno.1)

/-- The parallel sort sorts too, if that of rayon does by a comparator that is consistent. -/
theorem TotalPreorder.sorts_parallel {parSortBy : DynOrder A → List A → List A}
    {parallelize : ℕ → Bool} {arr : List A} (h : TotalPreorder ord p) (harr : ∀ a ∈ arr, p a)
    (hpar : Sorts ord arr (parSortBy ord arr)) :
    Sorts ord arr (ord.sortWith parSortBy parallelize arr) := by
  unfold DynOrder.sortWith
  split_ifs
  · exact hpar
  · exact h.sorts harr

end

/-! ## The floats -/

section

open Float.Model (UnpackedFloat)
open Float.Model.UnpackedFloat

/-- The place of a number among the numbers: which kind it is, its exponent and its mantissa. -/
def rank : UnpackedFloat → ℤ × ℤ × ℤ
  | .infinity .negative => (-2, 0, 0)
  | .finite .negative m e _ => (-1, -e, -m)
  | .notANumber | .zero _ => (0, 0, 0)
  | .finite .positive m e _ => (1, e, m)
  | .infinity .positive => (2, 0, 0)

/-- The lexicographic order of the places -/
def cmpRank : UnpackedFloat → UnpackedFloat → Ordering :=
  compareLex (compareOn fun x => (rank x).1)
    (compareLex (compareOn fun x => (rank x).2.1) (compareOn fun x => (rank x).2.2))

theorem compare_neg (a b : ℤ) : compare (-a) (-b) = (compare a b).swap := by
  simp only [Int.compare_eq_ite_lt, Int.neg_lt_neg_iff]
  split_ifs <;> first | rfl | omega

theorem compare_natCast (a b : ℕ) : compare (a : ℤ) (b : ℤ) = compare a b := by
  simp only [Nat.compare_eq_ite_lt, Int.compare_eq_ite_lt, Int.ofNat_lt]

theorem compare_eq_cmpRank {a b : UnpackedFloat} (ha : a ≠ .notANumber) (hb : b ≠ .notANumber) :
    a.compare b = some (cmpRank a b) := by
  rcases a with ⟨_ | _⟩ | _ | ⟨_ | _⟩ | ⟨_ | _, m, e, hm⟩ <;>
  rcases b with ⟨_ | _⟩ | _ | ⟨_ | _⟩ | ⟨_ | _, n, f, hn⟩ <;>
  first
  | exact absurd rfl ha
  | exact absurd rfl hb
  | rfl
  | dsimp only [cmpRank, compareLex, compareOn, rank, UnpackedFloat.compare]
    simp [compare_neg, compare_natCast, Ordering.swap_then]

instance : Std.TransCmp cmpRank := inferInstanceAs (Std.TransCmp (compareLex _ _))

variable {a b : Float}

theorem isNaN_iff : a.isNaN = true ↔ a.toModel.unpack = .notANumber := by
  unfold Float.isNaN Float.Model.isNaN UnpackedFloat.isNaN
  cases a.toModel.unpack with
  | notANumber => exact iff_of_true rfl rfl
  | _ => exact iff_of_false Bool.false_ne_true nofun

theorem partialCmp_of_isNaN (h : a.isNaN = true ∨ b.isNaN = true) : partialCmp a b = none := by
  rw [isNaN_iff, isNaN_iff] at h
  unfold partialCmp Float.Model.compare
  rcases h with h | h
  · rw [h]
    rfl
  · rw [h]
    cases a.toModel.unpack <;> rfl

theorem partialCmp_eq_cmpRank (ha : ¬ a.isNaN = true) (hb : ¬ b.isNaN = true) :
    partialCmp a b = some (cmpRank a.toModel.unpack b.toModel.unpack) :=
  compare_eq_cmpRank (mt isNaN_iff.2 ha) (mt isNaN_iff.2 hb)

theorem lt_iff_partialCmp : a < b ↔ partialCmp a b = some .lt := by
  have hlt : a < b ↔ a.toModel.unpack.lt b.toModel.unpack = true :=
    (Bool.decide_iff _).trans Iff.rfl
  rw [hlt, UnpackedFloat.lt, beq_iff_eq]
  rfl

theorem numberF64_swap (a b : Float) : DynOrder.numberF64 b a = (DynOrder.numberF64 a b).swap := by
  unfold DynOrder.numberF64
  by_cases ha : a.isNaN = true
  · rw [partialCmp_of_isNaN (.inl ha), partialCmp_of_isNaN (.inr ha)]
    rfl
  · by_cases hb : b.isNaN = true
    · rw [partialCmp_of_isNaN (.inl hb), partialCmp_of_isNaN (.inr hb)]
      rfl
    · rw [partialCmp_eq_cmpRank ha hb, partialCmp_eq_cmpRank hb ha]
      exact eq_swap cmpRank

/-- A comparison that is not a tie is one of IEEE 754. -/
theorem numberF64_eq_lt : DynOrder.numberF64 a b = .lt ↔ a < b := by
  rw [lt_iff_partialCmp]
  unfold DynOrder.numberF64
  cases partialCmp a b <;> simp

theorem numberF64_eq_gt : DynOrder.numberF64 a b = .gt ↔ b < a := by
  rw [← numberF64_eq_lt, numberF64_swap b a, Ordering.swap_eq_gt]

end

/-- No NaN stands beside two numbers that differ. -/
def Clean (S : Set Float) : Prop :=
  ∀ x ∈ S, x.isNaN = true → ∀ y ∈ S, ∀ z ∈ S, ¬ y < z

theorem TotalPreorder.numberF64 {S : Set Float} (h : Clean S) :
    TotalPreorder DynOrder.numberF64 (· ∈ S) where
  swap a b _ _ := numberF64_swap a b
  trans a b c ha hb hc hab hbc := by
    by_cases hnan : ∃ x ∈ S, x.isNaN = true
    · -- everything ties
      obtain ⟨x, hx, hnan⟩ := hnan
      rw [ne_eq, numberF64_eq_gt]
      exact h x hx hnan c hc a ha
    · have heq {x y : Float} (hx : x ∈ S) (hy : y ∈ S) :
          DynOrder.numberF64 x y = cmpRank x.toModel.unpack y.toModel.unpack := by
        unfold DynOrder.numberF64
        rw [partialCmp_eq_cmpRank fun hx' => hnan ⟨x, hx, hx'⟩, Option.getD_some]
        exact fun hy' => hnan ⟨y, hy, hy'⟩
      rw [heq ha hb, ← isLE_iff] at hab
      rw [heq hb hc, ← isLE_iff] at hbc
      rw [heq ha hc, ← isLE_iff]
      exact Std.TransCmp.isLE_trans hab hbc

/-! ## The other values -/

instance : Std.TransCmp DynOrder.duration :=
  inferInstanceAs (Std.TransCmp (compareLex (compareOn fun d : CoreDuration => d.secs.toNat)
    (compareOn fun d : CoreDuration => d.nanos.toNat)))

instance : Std.TransCmp DynOrder.string := inferInstanceAs (Std.TransOrd String)

instance : Std.TransCmp DynOrder.numberI64 := inferInstanceAs (Std.TransOrd Int64)

instance : Std.TransCmp DynOrder.numberU64 := inferInstanceAs (Std.TransOrd UInt64)

instance : Std.TransCmp DynOrder.numberUsize := inferInstanceAs (Std.TransOrd USize)

/-! ## Every comparator -/

namespace Comparator

variable {A : Type}

/-- Swapping the arguments reverses the outcome, whatever the floats. -/
theorem toDynOrder_swap (ord : Comparator A) (a b : A) :
    ord.toDynOrder b a = (ord.toDynOrder a b).swap := by
  induction ord with
  | numberF64 => exact numberF64_swap a b
  | duration => exact eq_swap DynOrder.duration
  | string => exact eq_swap DynOrder.string
  | numberI64 => exact eq_swap DynOrder.numberI64
  | numberU64 => exact eq_swap DynOrder.numberU64
  | numberUsize => exact eq_swap DynOrder.numberUsize
  | reverse ord ih => exact ih b a
  | combine first second ihf ihs =>
      rw [toDynOrder, combine_eq, combine_eq, compareLex, compareLex, ihf a b, ihs a b,
        Ordering.swap_then]
  | mapInput ord f ih => exact ih (f a) (f b)

/-- Each `number_f64` of the comparator has to do with floats that are clean. -/
def CleanOn (ord : Comparator A) (p : A → Prop) : Prop :=
  ∀ g ∈ ord.floats, Clean (Set.image g { a | p a })

/-- Every comparator is a total preorder where its floats are clean. -/
theorem totalPreorder_of_cleanOn {p : A → Prop} (ord : Comparator A) (h : ord.CleanOn p) :
    TotalPreorder ord.toDynOrder p := by
  induction ord with
  | duration => exact .of_transCmp DynOrder.duration
  | string => exact .of_transCmp DynOrder.string
  | numberI64 => exact .of_transCmp DynOrder.numberI64
  | numberU64 => exact .of_transCmp DynOrder.numberU64
  | numberUsize => exact .of_transCmp DynOrder.numberUsize
  | numberF64 =>
      have hp : Clean { x | p x } := by
        simpa [CleanOn, floats] using h
      exact .numberF64 hp
  | reverse ord ih => exact (ih h).reverse
  | combine first second ihf ihs =>
      exact (ihf fun g hg => h g (List.mem_append_left _ hg)).combine
        (ihs fun g hg => h g (List.mem_append_right _ hg))
  | @mapInput A B ord f ih =>
      have hf : ord.CleanOn fun a => ∃ b, p b ∧ f b = a := by
        intro g hg
        have hgf := h (g ∘ f) (List.mem_map_of_mem hg)
        rw [Set.image_comp] at hgf
        exact hgf
      exact (ih hf).mapInput fun b hb => ⟨b, hb, rfl⟩

/-- What `ord` compares `a` by lies in `S`. -/
def Within (ord : Comparator A) (S : Set Float) (a : A) : Prop := ∀ g ∈ ord.floats, g a ∈ S

end Comparator

/-- **Comparators of floats.** All that the module builds is a total preorder on the values whose
    floats lie in `S` exactly if `S` is clean. -/
theorem totalPreorder_iff (S : Set Float) :
    (∀ (A : Type) (ord : Comparator A), TotalPreorder ord.toDynOrder (ord.Within S)) ↔
      Clean S := by
  constructor
  · intro h x hx hnan y hy z hz hlt
    -- the NaN ties with both
    have hmem {w : Float} (hw : w ∈ S) : Comparator.numberF64.Within S w := by
      intro g hg
      rw [List.mem_singleton.1 hg]
      exact hw
    have htie {v w : Float} (h : v.isNaN = true ∨ w.isNaN = true) :
        DynOrder.numberF64 v w ≠ .gt := by
      unfold DynOrder.numberF64
      rw [partialCmp_of_isNaN h]
      decide
    exact (h Float .numberF64).trans z x y (hmem hz) (hmem hx) (hmem hy) (htie (.inr hnan))
      (htie (.inl hnan)) (numberF64_eq_gt.2 hlt)
  · intro h A ord
    apply ord.totalPreorder_of_cleanOn
    rintro g hg _ ⟨a, ha, rfl⟩ hnan _ ⟨b, hb, rfl⟩ _ ⟨c, hc, rfl⟩
    exact h _ (ha g hg) hnan _ (hb g hg) _ (hc g hg)

/-- One is at most NaN, NaN at most zero. -/
theorem numberF64_not_transitive :
    ¬ ∀ (A : Type) (ord : Comparator A), TotalPreorder ord.toDynOrder fun _ => True := by
  intro h
  exact (h Float .numberF64).trans 1.0 (0.0 / 0.0) 0.0 trivial trivial trivial (by decide)
    (by decide) (by decide)

end IdEffect.Schema
