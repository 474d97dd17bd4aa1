import Mathlib.Algebra.Order.Ring.Int
import Mathlib.Data.List.Induction
import IdEffect.Lib.Groups
import IdEffect.Scheduling.Schedule
import IdEffect.Streaming.Combinators

set_option autoImplicit false

/-! # Tumbling windows by time: `streaming/window.rs`

`bucket_for` cuts the time into intervals of a width, counted from an epoch that is fixed when it is
first asked for. An instant before the epoch is taken for the epoch itself, since `duration_since`
saturates, and the start of an interval is cut down to 64 bits. `tumbling_by_time` collects the
elements of each bucket and sorts the buckets: it groups by the bucket instead of by the interval,
which makes a difference exactly if the buckets compare two elements in another way than their
intervals do (`tumbling_groups_iff`). -/

namespace IdEffect.Streaming

open Scheduling (Duration)

variable {A B E S : Type} {last : ℤ}

/-! ## Instants -/

/-- `std::time::Instant`, in nanoseconds on its clock, where `last` is the last one there is. -/
abbrev Instant (last : ℤ) : Type := {t : ℤ // t ≤ last}

instance (t t' : Instant last) : Decidable (t ≤ t') := Int.decLe t.1 t'.1

instance (t t' : Instant last) : Decidable (t < t') := Int.decLt t.1 t'.1

/-- `Instant::duration_since`, which is zero for a later instant. -/
def Instant.durationSince (t earlier : Instant last) : Duration := (t.1 - earlier.1).toNat

/-- `n as u64` -/
def asU64 (n : ℕ) : ℕ := n % 2 ^ 64

theorem asU64_le (n : ℕ) : asU64 n ≤ n := Nat.mod_le _ _

/-- The bucket starts between the epoch and the instant, or at the epoch. -/
theorem bucket_le (epoch ts : Instant last) (width : ℕ) :
    epoch.1 + asU64 (ts.durationSince epoch / width * width) ≤ last := by
  have hcut := asU64_le (ts.durationSince epoch / width * width)
  have hle := Nat.div_mul_le_self (ts.durationSince epoch) width
  have hts := ts.2
  have hepoch := epoch.2
  have hsince : (ts.durationSince epoch : ℤ) = max (ts.1 - epoch.1) 0 := Int.ofNat_toNat _
  omega

/-- `bucket_for`. The addition cannot go past the last instant. -/
def bucketFor (epoch ts : Instant last) (width : Duration) : Instant last :=
  let nanos := ts.durationSince epoch
  let widthNanos := max width 1
  let bucket := nanos / widthNanos * widthNanos
  ⟨epoch.1 + asU64 bucket, bucket_le epoch ts widthNanos⟩

/-! ## The loop -/

/-- `buckets.iter_mut().find(…)`, and then `push` into the bucket or a new one. -/
def pushBucket {κ : Type} [LinearOrder κ] (bucketStart : κ) (item : A) :
    List (κ × List A) → List (κ × List A)
  | [] => [(bucketStart, [item])]
  | (b, items) :: buckets =>
      if b = bucketStart then (b, items ++ [item]) :: buckets
      else (b, items) :: pushBucket bucketStart item buckets

/-- The body of the `for` of `tumbling_by_time`. -/
def tumblingItem (epoch : Instant last) (duration : Duration)
    (timestamp : S → A → Instant last × S) :
    S × List (Instant last × List A) → A → S × List (Instant last × List A)
  | (st, buckets), item =>
      ((timestamp st item).2,
        pushBucket (bucketFor epoch (timestamp st item).1 duration) item buckets)

/-- `Stream::tumbling_by_time` -/
def Stream.tumblingByTime (epoch : Instant last) (duration : Duration)
    (timestamp : S → A → Instant last × S) (init : S) (upstream : Stream A E) :
    Stream (List A) E :=
  upstream.draining (fun st chunk => chunk.foldl (tumblingItem epoch (max duration 1) timestamp) st)
    (init, []) fun st => (sortByKey st.2).map Prod.snd

/-- The elements with their timestamps. -/
def stamped (timestamp : S → A → Instant last × S) (init : S) (l : List A) :
    List (Instant last × A) :=
  (mapState (fun st a => (((timestamp st a).1, a), (timestamp st a).2)) init l).1

/-! ## The grid -/

/-- The start of the interval an instant lies in, on the grid of width `d` through the epoch. -/
def gridStart (epoch : Instant last) (d : ℕ) (t : Instant last) : ℤ :=
  epoch.1 + (t.1 - epoch.1) / d * d

theorem gridStart_le {d : ℕ} (hd : 0 < d) (epoch t : Instant last) :
    gridStart epoch d t ≤ t.1 := by
  have hle := Int.ediv_mul_le (t.1 - epoch.1) (b := (d : ℤ)) (by omega)
  rw [gridStart]
  omega

theorem lt_gridStart_add {d : ℕ} (hd : 0 < d) (epoch t : Instant last) :
    t.1 < gridStart epoch d t + d := by
  have hlt := Int.lt_ediv_add_one_mul_self (t.1 - epoch.1) (b := (d : ℤ)) (by omega)
  rw [Int.add_mul, Int.one_mul] at hlt
  rw [gridStart]
  omega

/-- A bucket is the start of the interval, brought to the epoch and cut down to 64 bits. -/
theorem bucketFor_val {d : ℕ} (hd : 0 < d) (epoch t : Instant last) :
    (bucketFor epoch t d).1 = epoch.1 + asU64 (gridStart epoch d t - epoch.1).toNat := by
  have hmax : max d 1 = d := Nat.max_eq_left hd
  have hcast : t.durationSince epoch / d * d = (gridStart epoch d t - epoch.1).toNat := by
    rw [gridStart, add_sub_cancel_left, Instant.durationSince]
    rcases Int.le_total 0 (t.1 - epoch.1) with hpos | hneg
    · obtain ⟨n, hn⟩ := Int.eq_ofNat_of_zero_le hpos
      rw [hn, Int.toNat_natCast, ← Int.natCast_ediv, ← Int.natCast_mul, Int.toNat_natCast]
    · have hprod : (t.1 - epoch.1) / (d : ℤ) * d ≤ 0 :=
        (Int.ediv_mul_le (t.1 - epoch.1) (by omega)).trans hneg
      rw [Int.toNat_of_nonpos hneg, Nat.zero_div, Nat.zero_mul, Int.toNat_of_nonpos hprod]
  simp only [bucketFor, hmax, hcast]

/-- The elements of each interval, the intervals in ascending order. -/
def timeGroups (epoch : Instant last) (d : ℕ) (items : List (Instant last × A)) :
    List (List A) :=
  (groupsBy (fun x => gridStart epoch d x.1) items).map (List.map Prod.snd)

/-- Of two instants in different intervals, the buckets say which is earlier. -/
def Separated (epoch : Instant last) (d : ℕ) (ts : List (Instant last)) : Prop :=
  ∀ t ∈ ts, ∀ t' ∈ ts, gridStart epoch d t < gridStart epoch d t' →
    asU64 (gridStart epoch d t - epoch.1).toNat < asU64 (gridStart epoch d t' - epoch.1).toNat

/-! ## The buckets -/

section pushBucket

variable {κ : Type} [LinearOrder κ] {ks : List κ} {k : κ}

/-- An element goes to the end of its bucket. -/
theorem pushBucket_of_mem (hk : k ∈ ks) (hks : ks.Nodup) (v : κ → List A) (item : A) :
    pushBucket k item (ks.map fun b => (b, v b)) =
      ks.map fun b => (b, if b = k then v b ++ [item] else v b) := by
  induction ks with
  | nil => cases hk
  | cons b ks ih =>
      obtain ⟨hb, hks⟩ := List.nodup_cons.1 hks
      rw [List.map_cons, List.map_cons, pushBucket]
      by_cases hbk : b = k
      · rw [if_pos hbk, if_pos hbk]
        refine congrArg _ (List.map_congr_left fun c hc => ?_)
        have hck : c ≠ k := by
          rintro rfl
          exact hb (hbk ▸ hc)
        rw [if_neg hck]
      · rw [if_neg hbk, if_neg hbk, ih ((List.mem_cons.1 hk).resolve_left (Ne.symm hbk)) hks]

/-- The first element of a bucket opens it, behind the others. -/
theorem pushBucket_of_notMem (hk : k ∉ ks) (v : κ → List A) (item : A) :
    pushBucket k item (ks.map fun b => (b, v b)) = (ks.map fun b => (b, v b)) ++ [(k, [item])] := by
  induction ks with
  | nil => rfl
  | cons b ks ih =>
      rw [List.mem_cons, not_or] at hk
      rw [List.map_cons, pushBucket, if_neg (Ne.symm hk.1), ih hk.2, List.cons_append]

/-- The buckets are those of the keys of the elements, with their elements. -/
theorem foldl_pushBucket (key : B → κ) (f : B → A) (items : List B) :
    ∃ ks : List κ, ks.Nodup ∧ (∀ k, k ∈ ks ↔ ∃ x ∈ items, key x = k) ∧
      items.foldl (fun buckets x => pushBucket (key x) (f x) buckets) [] =
        ks.map fun k => (k, (items.filter fun x => key x = k).map f) := by
  induction items using List.reverseRecOn with
  | nil => exact ⟨[], List.nodup_nil, by simp, rfl⟩
  | append_singleton items x ih =>
      obtain ⟨ks, hks, hmem, hfold⟩ := ih
      rw [List.foldl_append, List.foldl_cons, List.foldl_nil, hfold]
      have hfilter : ∀ k, ((items ++ [x]).filter fun y => key y = k).map f =
          if k = key x then (items.filter fun y => key y = k).map f ++ [f x]
          else (items.filter fun y => key y = k).map f := by
        intro k
        rw [List.filter_append, List.map_append]
        split
        · next hk => simp [hk]
        · next hk => simp [Ne.symm hk]
      simp only [hfilter]
      by_cases hk : key x ∈ ks
      · refine ⟨ks, hks, fun k => ?_, pushBucket_of_mem hk hks _ _⟩
        rw [hmem]
        constructor
        · rintro ⟨y, hy, rfl⟩
          exact ⟨y, List.mem_append_left _ hy, rfl⟩
        · rintro ⟨y, hy, rfl⟩
          rcases List.mem_append.1 hy with hy | hy
          · exact ⟨y, hy, rfl⟩
          · exact List.mem_singleton.1 hy ▸ (hmem (key x)).1 hk
      · refine ⟨ks ++ [key x], ?_, fun k => ?_, ?_⟩
        · rw [List.nodup_append]
          refine ⟨hks, List.nodup_singleton _, fun b hb c hc hbc => hk ?_⟩
          rwa [← List.mem_singleton.1 hc, ← hbc]
        · rw [List.mem_append, List.mem_singleton, hmem]
          constructor
          · rintro (⟨y, hy, rfl⟩ | rfl)
            · exact ⟨y, List.mem_append_left _ hy, rfl⟩
            · exact ⟨x, List.mem_append_right _ (List.mem_singleton_self x), rfl⟩
          · rintro ⟨y, hy, rfl⟩
            rcases List.mem_append.1 hy with hy | hy
            · exact .inl ⟨y, hy, rfl⟩
            · exact .inr (congrArg key (List.mem_singleton.1 hy))
        · have hempty : items.filter (fun y => key y = key x) = [] := by
            rw [List.filter_eq_nil_iff]
            intro y hy hyx
            exact hk ((hmem _).2 ⟨y, hy, of_decide_eq_true hyx⟩)
          rw [pushBucket_of_notMem hk, List.map_append, List.map_singleton, if_pos rfl, hempty]
          refine congrArg (· ++ _) (List.map_congr_left fun b hb => ?_)
          have hbx : b ≠ key x := by
            rintro rfl
            exact hk hb
          rw [if_neg hbx]

/-- Sorted and without their keys, the buckets are the groups by the key. -/
theorem sortByKey_buckets (key : B → κ) (f : B → A) (items : List B) :
    (sortByKey (items.foldl (fun buckets x => pushBucket (key x) (f x) buckets) [])).map Prod.snd =
      (groupsBy key items).map (List.map f) := by
  obtain ⟨ks, hks, hmem, hfold⟩ := foldl_pushBucket key f items
  have hsorted : ks.insertionSort (· ≤ ·) = keysAscending key items := by
    have hle : (ks.insertionSort (· ≤ ·)).SortedLE :=
      List.sortedLE_iff_pairwise.2 (List.pairwise_insertionSort (· ≤ ·) ks)
    have hlt := hle.sortedLT_of_nodup ((List.perm_insertionSort (· ≤ ·) ks).nodup_iff.2 hks)
    exact eq_keysAscending (List.sortedLT_iff_pairwise.1 hlt) fun k =>
      (List.mem_insertionSort (· ≤ ·)).trans (hmem k)
  have hmap := List.map_insertionSort (· ≤ ·) (fun x y : κ × List A => x.1 ≤ y.1)
    (fun k => (k, (items.filter fun x => key x = k).map f)) ks fun _ _ _ _ => Iff.rfl
  rw [hfold, sortByKey, ← hmap, hsorted, List.map_map, groupsBy, List.map_map]
  rfl

end pushBucket

theorem foldl_tumblingItem (epoch : Instant last) (d : Duration)
    (timestamp : S → A → Instant last × S) (st : S) (buckets : List (Instant last × List A))
    (l : List A) :
    (l.foldl (tumblingItem epoch d timestamp) (st, buckets)).2 =
      (stamped timestamp st l).foldl (fun buckets x =>
        pushBucket (bucketFor epoch x.1 d) x.2 buckets) buckets := by
  induction l generalizing st buckets with
  | nil => rfl
  | cons a l ih =>
      rw [List.foldl_cons, tumblingItem, ih]
      rfl

/-- **What `tumbling_by_time` puts out**: the groups by bucket. -/
theorem Stream.Yields.tumblingByTime {s : Stream A E} {l : List A} (h : s.Yields l)
    (epoch : Instant last) {d : ℕ} (hd : 0 < d) (timestamp : S → A → Instant last × S) (init : S) :
    (s.tumblingByTime epoch d timestamp init).Yields
      ((groupsBy (fun x => bucketFor epoch x.1 d) (stamped timestamp init l)).map
        (List.map Prod.snd)) := by
  have hmax : max d 1 = d := Nat.max_eq_left hd
  have hfold := foldl_tumblingItem epoch d timestamp init [] l
  rw [← sortByKey_buckets, ← hfold, Stream.tumblingByTime, hmax]
  exact h.folding

/-! ## When the buckets are the intervals -/

/-- The buckets compare the instants as their intervals do. -/
theorem separated_iff {d : ℕ} (hd : 0 < d) (epoch : Instant last) (ts : List (Instant last)) :
    Separated epoch d ts ↔ ∀ t ∈ ts, ∀ t' ∈ ts,
      bucketFor epoch t d ≤ bucketFor epoch t' d ↔
        gridStart epoch d t ≤ gridStart epoch d t' := by
  have hle : ∀ t t' : Instant last, bucketFor epoch t d ≤ bucketFor epoch t' d ↔
      asU64 (gridStart epoch d t - epoch.1).toNat ≤
        asU64 (gridStart epoch d t' - epoch.1).toNat := by
    intro t t'
    rw [← Subtype.coe_le_coe, bucketFor_val hd, bucketFor_val hd]
    omega
  simp only [hle]
  constructor
  · intro hsep t ht t' ht'
    refine ⟨fun hbucket => ?_, fun hgrid => ?_⟩
    · by_contra hgrid
      have := hsep t' ht' t ht (not_le.1 hgrid)
      omega
    · rcases hgrid.lt_or_eq with hlt | heq
      · exact (hsep t ht t' ht' hlt).le
      · rw [heq]
  · intro hiff t ht t' ht' hlt
    by_contra hbucket
    exact absurd ((hiff t' ht' t ht).1 (not_lt.1 hbucket)) (not_le.2 hlt)

/-- From the epoch on, the buckets are right for as long as a `u64` counts the nanoseconds. -/
theorem separated_of_mem_range {d : ℕ} (hd : 0 < d) {epoch : Instant last}
    {ts : List (Instant last)} (hts : ∀ t ∈ ts, epoch.1 ≤ t.1 ∧ t.1 < epoch.1 + 2 ^ 64) :
    Separated epoch d ts := by
  -- An interval that holds such an instant starts at the epoch or after it.
  have hcut : ∀ t ∈ ts, 0 ≤ gridStart epoch d t - epoch.1 ∧
      asU64 (gridStart epoch d t - epoch.1).toNat = (gridStart epoch d t - epoch.1).toNat := by
    intro t ht
    obtain ⟨hearly, hlate⟩ := hts t ht
    have hstart := gridStart_le hd epoch t
    have hnonneg : 0 ≤ gridStart epoch d t - epoch.1 := by
      rw [gridStart, add_sub_cancel_left]
      exact mul_nonneg (Int.ediv_nonneg (by omega) (by omega)) (by omega)
    exact ⟨hnonneg, Nat.mod_eq_of_lt (by omega)⟩
  intro t ht t' ht' hlt
  obtain ⟨hpos, ht⟩ := hcut t ht
  obtain ⟨hpos', ht'⟩ := hcut t' ht'
  rw [ht, ht']
  omega

/-- If the timestamps do not depend on what came before, an element has its own. -/
theorem stamped_pure (f : A → Instant last) (l : List A) :
    stamped (fun _ a => (f a, ())) () l = l.map fun a => (f a, a) := by
  induction l with
  | nil => rfl
  | cons a l ih => exact congrArg ((f a, a) :: ·) ih

/-- **When tumbling windows are the intervals.** Elements whose intervals the buckets separate are
    collected by their intervals, each in the order of arrival. Where every element has a timestamp
    of its own, that is the case if and only if the buckets separate them. The timestamps of one
    interval differ by less than its width. -/
theorem tumbling_groups_iff (epoch : Instant last) {d : ℕ} (hd : 0 < d) {s : Stream A E}
    {l : List A} (h : s.Yields l) (timestamp : S → A → Instant last × S) (init : S)
    (f : A → Instant last) :
    (Separated epoch d ((stamped timestamp init l).map Prod.fst) →
      (s.tumblingByTime epoch d timestamp init).Collects
        (timeGroups epoch d (stamped timestamp init l))) ∧
    ((s.tumblingByTime epoch d (fun _ a => (f a, ())) ()).Collects
        (timeGroups epoch d (l.map fun a => (f a, a))) ↔ Separated epoch d (l.map f)) ∧
    ∀ group ∈ groupsBy (fun x : Instant last × A => gridStart epoch d x.1)
        (stamped timestamp init l), ∀ x ∈ group, ∀ y ∈ group, y.1.1 < x.1.1 + d := by
  refine ⟨fun hsep => ?_, ?_, ?_⟩
  · have hcollects := (h.tumblingByTime epoch hd timestamp init).collects
    rw [separated_iff hd] at hsep
    have hgroups := groupsBy_congr (f := fun x : Instant last × A => bucketFor epoch x.1 d)
      (g := fun x => gridStart epoch d x.1) (l := stamped timestamp init l) fun x hx y hy =>
        hsep x.1 (List.mem_map_of_mem hx) y.1 (List.mem_map_of_mem hy)
    rwa [hgroups] at hcollects
  · have hcollects := (h.tumblingByTime epoch hd (fun _ a => (f a, ())) ()).collects
    -- The groups are those of the elements themselves.
    have hplain : ∀ {κ : Type} [LinearOrder κ] (key : Instant last → κ),
        (groupsBy (fun x : Instant last × A => key x.1) (l.map fun a => (f a, a))).map
          (List.map Prod.snd) = groupsBy (fun a => key (f a)) l := by
      intro κ _ key
      rw [groupsBy_map, List.map_map]
      refine (List.map_congr_left fun group _ => ?_).trans (List.map_id _)
      exact (List.map_map ..).trans (List.map_id group)
    rw [stamped_pure, hplain (bucketFor epoch · d)] at hcollects
    rw [timeGroups, hplain (gridStart epoch d), separated_iff hd]
    have hiff : (s.tumblingByTime epoch d (fun _ a => (f a, ())) ()).Collects
        (groupsBy (fun a => gridStart epoch d (f a)) l) ↔
          groupsBy (fun a => bucketFor epoch (f a) d) l =
            groupsBy (fun a => gridStart epoch d (f a)) l :=
      ⟨hcollects.unique, fun heq => heq ▸ hcollects⟩
    rw [hiff, groupsBy_eq_iff]
    simp only [List.forall_mem_map]
  · intro group hgroup x hx y hy
    have hsame := key_eq_of_mem_groupsBy hgroup hx hy
    have hx' := gridStart_le hd epoch x.1
    have hy' := lt_gridStart_add hd epoch y.1
    omega

/-- The three elements of the tests, in windows of 5. -/
theorem tumbling_groups_iff_three :
    ((Stream.buffered [(0, 'a'), (1, 'b'), (10, 'c')] : Stream (ℕ × Char) Unit).tumblingByTime
        (⟨0, by decide⟩ : Instant 100) 5
        (fun _ a => (⟨min a.1 100, Int.min_le_right _ _⟩, ())) ()).Collects
      [[(0, 'a'), (1, 'b')], [(10, 'c')]] := by
  have hyields : (Stream.buffered [(0, 'a'), (1, 'b'), (10, 'c')] :
      Stream (ℕ × Char) Unit).Yields [(0, 'a'), (1, 'b'), (10, 'c')] := ⟨trivial, rfl⟩
  refine ((tumbling_groups_iff (⟨0, by decide⟩ : Instant 100) (by decide) hyields
    (fun (_ : Unit) a => (⟨min (a.1 : ℤ) 100, Int.min_le_right _ _⟩, ())) ()
    (fun a => ⟨min (a.1 : ℤ) 100, Int.min_le_right _ _⟩)).2.1).2 ?_
  exact separated_of_mem_range (by decide) (by decide)

/-- An element of the last nanosecond before the epoch and one of the first after it. -/
theorem tumbling_merges_across_epoch :
    ¬ ∀ (d : ℕ), 0 < d → ∀ (s : Stream ℤ Unit) (l : List ℤ), s.Yields l →
      ∀ (epoch : Instant 100) (f : ℤ → Instant 100),
        (s.tumblingByTime epoch d (fun _ a => (f a, ())) ()).Collects
          (timeGroups epoch d (l.map fun a => (f a, a))) := by
  intro hall
  have hyields : (Stream.buffered [-1, 0] : Stream ℤ Unit).Yields [-1, 0] := ⟨trivial, rfl⟩
  have hwanted := hall 1 (by decide) _ _ hyields ⟨0, by decide⟩
    fun a => ⟨min a 100, Int.min_le_right _ _⟩
  have hgot := (hyields.tumblingByTime (⟨0, by decide⟩ : Instant 100) (by decide : 0 < 1)
    (fun _ a => (⟨min a 100, Int.min_le_right _ _⟩, ())) ()).collects
  exact absurd (hgot.unique hwanted) (by decide)

end IdEffect.Streaming
