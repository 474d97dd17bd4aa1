import Mathlib.Data.List.Pairwise
import IdEffect.Streaming.TimeWindow

set_option autoImplicit false

/-! # Sliding windows by time: `streaming/window.rs`

`sliding_by_time` sorts the elements by their timestamps and lets a window slide over them, from the
bucket of the first timestamp on. Two things are lost where that bucket is not what it should be: an
element before the epoch is in no window, since the first window starts at the epoch, and a window
can start off the grid. Sums of instants and durations panic past the last instant. The windows are
right exactly if none of this happens (`sliding_covers_iff`). -/

namespace IdEffect.Streaming

open Pull
open Scheduling (Duration)

variable {A E S : Type} {last : ℤ}

/-! ## The loop -/

/-- Why there are no windows: an error of the stream they are made of, or a panic. -/
inductive Failure (E : Type) where
  | error (e : E)
  | panic
  deriving DecidableEq, Repr

/-- `Instant + Duration`, where `none` is a panic. -/
def Instant.checkedAdd (t : Instant last) (d : Duration) : Option (Instant last) :=
  if h : t.1 + (d : ℕ) ≤ last then some ⟨t.1 + (d : ℕ), h⟩ else none

theorem Instant.checkedAdd_eq_some {t t' : Instant last} {d : ℕ} :
    t.checkedAdd d = some t' ↔ t'.1 = t.1 + d := by
  rw [checkedAdd]
  split
  · rw [Option.some.injEq, Subtype.ext_iff, eq_comm]
  · next hlast =>
      have hle := t'.2
      simp only [reduceCtorEq, false_iff]
      omega

/-- The elements from one instant to another. -/
def windowBetween (items : List (Instant last × A)) (windowStart windowEnd : Instant last) :
    List A :=
  (items.filter fun x => x.1 ≥ windowStart ∧ x.1 < windowEnd).map Prod.snd

/-- The `while` of `sliding_by_time`, which keeps the start of a window beside it. -/
def slideWindows (duration : ℕ) (step : {n : ℕ // 0 < n}) (items : List (Instant last × A))
    (stop windowStart : Instant last) : Option (List (Instant last × List A)) :=
  if windowStart ≤ stop then
    match _hend : windowStart.checkedAdd duration, _hnext : windowStart.checkedAdd step.1 with
    | some windowEnd, some next =>
        (slideWindows duration step items stop next).map fun out =>
          let window := windowBetween items windowStart windowEnd
          if window = [] then out else (windowStart, window) :: out
    | _, _ => none
  else some []
termination_by (stop.1 + 1 - windowStart.1).toNat
decreasing_by
  have _hstep := step.2
  have hnext := Instant.checkedAdd_eq_some.1 _hnext
  have hle : windowStart.1 ≤ stop.1 := ‹_›
  omega

/-- What `sliding_by_time` does with the elements it has collected. -/
def slidingWindows (epoch : Instant last) (duration : ℕ) (step : {n : ℕ // 0 < n})
    (items : List (Instant last × A)) : Option (List (Instant last × List A)) :=
  match sortByKey items with
  | [] => some []
  | first :: rest =>
      let minTs := first.1
      let maxTs := ((first :: rest).getLast (List.cons_ne_nil first rest)).1
      (maxTs.checkedAdd duration).bind fun stop =>
        slideWindows duration step (first :: rest) stop (bucketFor epoch minTs step.1)

/-- The `for` over a chunk, which collects its elements with their timestamps. -/
def stampChunk (timestamp : S → A → Instant last × S) :
    S × List (Instant last × A) → List A → S × List (Instant last × A)
  | (st, items), chunk =>
      let (stampedChunk, st) := mapState
        (fun st item => (((timestamp st item).1, item), (timestamp st item).2)) st chunk
      (st, items ++ stampedChunk)

/-- `Stream::sliding_by_time` -/
def Stream.slidingByTime (epoch : Instant last) (duration step : Duration)
    (timestamp : S → A → Instant last × S) (init : S) (upstream : Stream A E) :
    Stream (List A) (Failure E) :=
  .pending (some fun _ =>
    match (pull A E).drain (fun _ => true) (fun st chunk => .next (stampChunk timestamp st chunk))
        (init, []) upstream with
    | .error e => .error (.error e)
    | .ok (_, items) =>
        match slidingWindows epoch (max duration 1) ⟨max step 1, Nat.le_max_right step 1⟩ items with
        | none => .error .panic
        | some out => .ok (out.map Prod.snd))

/-! ## What the loop does -/

/-- The windows of a loop over `items` from `start` to `stop`, each with its start. -/
structure Slid (d s : ℕ) (items : List (Instant last × A)) (stop start : Instant last)
    (out : List (Instant last × List A)) : Prop where
  room : ∀ k : ℕ, start.1 + k * s ≤ stop.1 → start.1 + k * s + d ≤ last
  aligned : ∀ w ∈ out, ∃ k : ℕ, w.1.1 = start.1 + k * s
  exact : ∀ w ∈ out,
    w.2 = (items.filter fun x => w.1.1 ≤ x.1.1 ∧ x.1.1 < w.1.1 + d).map Prod.snd
  ascending : out.Pairwise fun w w' => w.1 < w'.1
  complete : ∀ k : ℕ, start.1 + k * s ≤ stop.1 →
    ∀ x ∈ items, start.1 + k * s ≤ x.1.1 → x.1.1 < start.1 + k * s + d →
      ∃ w ∈ out, w.1.1 = start.1 + k * s

section Slid

variable {d s : ℕ} {items : List (Instant last × A)} {stop start : Instant last}
  {out : List (Instant last × List A)}

theorem Slid.nil (h : stop < start) : Slid d s items stop start [] := by
  have hlt : stop.1 < start.1 := h
  have hnone : ∀ k : ℕ, ¬ start.1 + k * s ≤ stop.1 := by
    intro k
    have hnonneg : (0 : ℤ) ≤ k * s := Int.mul_nonneg (Int.natCast_nonneg k) (Int.natCast_nonneg s)
    omega
  exact ⟨fun k hk => absurd hk (hnone k), nofun, nofun, .nil, fun k hk => absurd hk (hnone k)⟩

/-- One more window in front, or none if it is empty. -/
theorem Slid.cons (hs : 0 < s) {windowEnd next : Instant last}
    (hend : start.checkedAdd d = some windowEnd) (hnext : start.checkedAdd s = some next)
    (h : Slid d s items stop next out) :
    Slid d s items stop start (if windowBetween items start windowEnd = [] then out
      else (start, windowBetween items start windowEnd) :: out) := by
  rw [Instant.checkedAdd_eq_some] at hend hnext
  -- A multiple of the step from here is the start, or one of the next window's.
  have hmul : ∀ k : ℕ, start.1 + (k + 1 : ℕ) * s = next.1 + k * s := by
    intro k
    rw [hnext, Nat.cast_add, Nat.cast_one, Int.add_mul, Int.one_mul]
    omega
  have hwindow : windowBetween items start windowEnd =
      (items.filter fun x => start.1 ≤ x.1.1 ∧ x.1.1 < start.1 + d).map Prod.snd := by
    simp only [windowBetween, ge_iff_le, ← Subtype.coe_le_coe, ← Subtype.coe_lt_coe, hend]
  have hmem : ∀ w, w ∈ (if windowBetween items start windowEnd = [] then out
      else (start, windowBetween items start windowEnd) :: out) →
        w = (start, windowBetween items start windowEnd) ∨ w ∈ out := by
    intro w hw
    split at hw
    · exact .inr hw
    · exact List.mem_cons.1 hw
  refine ⟨fun k hk => ?_, fun w hw => ?_, fun w hw => ?_, ?_, fun k hk x hx hle hlt => ?_⟩
  · cases k with
    | zero =>
        have hlast := windowEnd.2
        simp only [Nat.cast_zero, Int.zero_mul]
        omega
    | succ k =>
        rw [hmul] at hk ⊢
        exact h.room k hk
  · rcases hmem w hw with rfl | hw
    · exact ⟨0, by simp⟩
    · obtain ⟨k, hk⟩ := h.aligned w hw
      exact ⟨k + 1, hk.trans (hmul k).symm⟩
  · rcases hmem w hw with rfl | hw
    · exact hwindow
    · exact h.exact w hw
  · split
    · exact h.ascending
    · refine List.pairwise_cons.2 ⟨fun w hw => ?_, h.ascending⟩
      obtain ⟨k, hk⟩ := h.aligned w hw
      have hnonneg : (0 : ℤ) ≤ k * s := Int.mul_nonneg (Int.natCast_nonneg k) (Int.natCast_nonneg s)
      show start.1 < w.1.1
      omega
  · cases k with
    | zero =>
        simp only [Nat.cast_zero, Int.zero_mul, Int.add_zero] at hle hlt ⊢
        have hne : windowBetween items start windowEnd ≠ [] := by
          rw [hwindow]
          refine List.ne_nil_of_mem (List.mem_map_of_mem (List.mem_filter.2 ⟨hx, ?_⟩))
          exact decide_eq_true ⟨hle, hlt⟩
        rw [if_neg hne]
        exact ⟨_, List.mem_cons_self, rfl⟩
    | succ k =>
        rw [hmul] at hk hle hlt ⊢
        obtain ⟨w, hw, hwk⟩ := h.complete k hk x hx hle hlt
        refine ⟨w, ?_, hwk⟩
        split
        · exact hw
        · exact List.mem_cons_of_mem _ hw

theorem slid_of_slideWindows {step : {n : ℕ // 0 < n}}
    (h : slideWindows d step items stop start = some out) :
    Slid d step.1 items stop start out := by
  fun_induction slideWindows d step items stop start generalizing out with
  | case1 start _ windowEnd next hend hnext ih =>
      obtain ⟨rest, hrest, rfl⟩ := Option.map_eq_some_iff.1 h
      exact (ih hrest).cons step.2 hend hnext
  | case2 => cases h
  | case3 start hlt =>
      obtain rfl := Option.some.inj h
      exact .nil (not_le.1 hlt)

/-- The loop does not panic where there is room for its windows. -/
theorem exists_slideWindows {step : {n : ℕ // 0 < n}} (hstep : step.1 ≤ d)
    (hroom : ∀ k : ℕ, start.1 + k * step.1 ≤ stop.1 → start.1 + k * step.1 + d ≤ last) :
    ∃ out, slideWindows d step items stop start = some out := by
  fun_induction slideWindows d step items stop start with
  | case1 start _ windowEnd next hend hnext ih =>
      rw [Instant.checkedAdd_eq_some] at hnext
      obtain ⟨rest, hrest⟩ := ih fun k hk => by
        have := hroom (k + 1)
        rw [Nat.cast_add, Nat.cast_one, Int.add_mul, Int.one_mul] at this
        omega
      rw [hrest]
      exact ⟨_, rfl⟩
  | case2 start hle hnone =>
      have hlast := hroom 0 (by simpa using hle)
      rw [Nat.cast_zero, Int.zero_mul, Int.add_zero] at hlast
      exact (hnone ⟨start.1 + d, hlast⟩ ⟨start.1 + step.1, by omega⟩
        (Instant.checkedAdd_eq_some.2 rfl) (Instant.checkedAdd_eq_some.2 rfl)).elim
  | case3 => exact ⟨[], rfl⟩

end Slid

/-! ## When the windows are right -/

/-- What sliding windows by time should be, each given with its start. -/
structure SlidingCover (epoch : Instant last) (d s : ℕ) (items : List (Instant last × A))
    (windows : List (Instant last × List A)) : Prop where
  covered : ∀ x ∈ items, ∃ w ∈ windows, x.2 ∈ w.2 ∧ w.1.1 ≤ x.1.1 ∧ x.1.1 < w.1.1 + d
  exact : ∀ w ∈ windows, w.2 =
    ((sortByKey items).filter fun x => w.1.1 ≤ x.1.1 ∧ x.1.1 < w.1.1 + d).map Prod.snd
  aligned : ∀ w ∈ windows, (s : ℤ) ∣ w.1.1 - epoch.1
  ascending : windows.Pairwise fun w w' => w.1 < w'.1

/-- The first instant is not before the epoch, its bucket is on the grid, and there is room for the
    windows up to the last instant and its duration. -/
def CanSlide (epoch : Instant last) (d s : ℕ) (ts : List (Instant last)) : Prop :=
  ∀ minTs ∈ ts, ∀ maxTs ∈ ts, (∀ t ∈ ts, minTs ≤ t ∧ t ≤ maxTs) →
    epoch ≤ minTs ∧ (s : ℤ) ∣ (bucketFor epoch minTs s).1 - epoch.1 ∧
      ∀ k : ℕ, (bucketFor epoch minTs s).1 + k * s ≤ maxTs.1 + d →
        (bucketFor epoch minTs s).1 + k * s + d ≤ last

theorem le_bucketFor (epoch t : Instant last) (d : ℕ) : epoch.1 ≤ (bucketFor epoch t d).1 := by
  show epoch.1 ≤ epoch.1 + (asU64 _ : ℕ)
  omega

theorem bucketFor_le {d : ℕ} (hd : 0 < d) {epoch t : Instant last} (h : epoch ≤ t) :
    (bucketFor epoch t d).1 ≤ t.1 := by
  have hle : epoch.1 ≤ t.1 := h
  have hcut := asU64_le (gridStart epoch d t - epoch.1).toNat
  have hgrid := gridStart_le hd epoch t
  rw [bucketFor_val hd]
  omega

/-- Instants that a `u64` counts from the epoch on, with room for two windows behind them. -/
theorem canSlide_of_room {epoch : Instant last} {d s : ℕ} (hs : 0 < s) {ts : List (Instant last)}
    (hts : ∀ t ∈ ts, epoch.1 ≤ t.1 ∧ t.1 < epoch.1 + 2 ^ 64 ∧ t.1 + 2 * d ≤ last) :
    CanSlide epoch d s ts := by
  intro minTs hmin maxTs hmax _
  obtain ⟨hearly, hlate, -⟩ := hts minTs hmin
  obtain ⟨-, -, hroom⟩ := hts maxTs hmax
  refine ⟨hearly, ?_, fun k hk => by omega⟩
  have hnonneg : 0 ≤ (minTs.1 - epoch.1) / s * s :=
    Int.mul_nonneg (Int.ediv_nonneg (by omega) (by omega)) (by omega)
  have hle := Int.ediv_mul_le (minTs.1 - epoch.1) (b := (s : ℤ)) (by omega)
  have hcut : asU64 ((minTs.1 - epoch.1) / s * s).toNat = ((minTs.1 - epoch.1) / s * s).toNat :=
    Nat.mod_eq_of_lt (by omega)
  rw [bucketFor_val hs, add_sub_cancel_left, gridStart, add_sub_cancel_left, hcut,
    Int.toNat_of_nonneg hnonneg]
  exact Int.dvd_mul_left _ _

/-- What is found at the ends of the sorted elements. -/
theorem ends_of_sortByKey {items : List (Instant last × A)} {first : Instant last × A}
    {rest : List (Instant last × A)} (h : sortByKey items = first :: rest) :
    (first ∈ items ∧ ∀ x ∈ items, first.1 ≤ x.1) ∧
      (first :: rest).getLast (List.cons_ne_nil first rest) ∈ items ∧
      ∀ x ∈ items, x.1 ≤ ((first :: rest).getLast (List.cons_ne_nil first rest)).1 := by
  have hsorted : (first :: rest).Pairwise fun x y => x.1 ≤ y.1 :=
    h ▸ pairwise_sortByKey items
  have hmem : ∀ x, x ∈ first :: rest ↔ x ∈ items := fun x =>
    h ▸ (sortByKey_perm items).mem_iff
  refine ⟨⟨(hmem _).1 List.mem_cons_self, fun x hx => ?_⟩, (hmem _).1 (List.getLast_mem _),
    fun x hx => ?_⟩
  · rcases List.mem_cons.1 ((hmem x).2 hx) with rfl | hx
    · exact le_rfl
    · exact (List.pairwise_cons.1 hsorted).1 x hx
  · exact hsorted.rel_getLast_of_rel_getLast_getLast ((hmem x).2 hx) le_rfl

/-- From a start on, the steps reach every instant. -/
theorem exists_step {s : ℕ} (hs : 0 < s) {start t : ℤ} (h : start ≤ t) :
    ∃ k : ℕ, start + k * s ≤ t ∧ t < start + k * s + s := by
  obtain ⟨n, hn⟩ := Int.le.dest h
  have hle := Nat.div_mul_le_self n s
  have hlt := Nat.lt_div_mul_add (a := n) hs
  refine ⟨n / s, ?_, ?_⟩
  all_goals
    rw [← Int.natCast_mul]
    omega

/-- A loop covers what lies between its start and its end. -/
theorem Slid.cover {d s : ℕ} (hs : 0 < s) (hsd : s ≤ d) {epoch stop start : Instant last}
    {items : List (Instant last × A)} {out : List (Instant last × List A)}
    (h : Slid d s (sortByKey items) stop start out) (hdvd : (s : ℤ) ∣ start.1 - epoch.1)
    (hspan : ∀ x ∈ items, start.1 ≤ x.1.1 ∧ x.1.1 ≤ stop.1) :
    SlidingCover epoch d s items out := by
  refine ⟨fun x hx => ?_, h.exact, fun w hw => ?_, h.ascending⟩
  · obtain ⟨hstart, hstop⟩ := hspan x hx
    obtain ⟨k, hk, hlt⟩ := exists_step hs hstart
    have hmem : x ∈ sortByKey items := (sortByKey_perm items).mem_iff.2 hx
    obtain ⟨w, hw, hwk⟩ := h.complete k (hk.trans hstop) x hmem hk (by omega)
    have hin : w.1.1 ≤ x.1.1 ∧ x.1.1 < w.1.1 + d := by omega
    refine ⟨w, hw, ?_, hin⟩
    rw [h.exact w hw]
    exact List.mem_map_of_mem (List.mem_filter.2 ⟨hmem, decide_eq_true hin⟩)
  · obtain ⟨k, hk⟩ := h.aligned w hw
    rw [hk, add_sub_right_comm]
    exact Int.dvd_add hdvd (Int.dvd_mul_left _ _)

/-- **When the windows of the loop are right.** -/
theorem slidingWindows_cover_iff (epoch : Instant last) {d : ℕ} (step : {n : ℕ // 0 < n})
    (hstep : step.1 ≤ d) (items : List (Instant last × A)) :
    (∃ windows, slidingWindows epoch d step items = some windows ∧
      SlidingCover epoch d step.1 items windows) ↔
    CanSlide epoch d step.1 (items.map Prod.fst) := by
  cases hsort : sortByKey items with
  | nil =>
      have hnil : items = [] := by
        have hperm := List.perm_insertionSort (fun x y : Instant last × A => x.1 ≤ y.1) items
        rw [show items.insertionSort _ = [] from hsort] at hperm
        exact hperm.nil_eq.symm
      rw [hnil]
      exact iff_of_true ⟨[], rfl, nofun, nofun, nofun, .nil⟩ nofun
  | cons first rest =>
      obtain ⟨⟨hfirst, hmin⟩, hlast, hmax⟩ := ends_of_sortByKey hsort
      generalize hfinal : ((first :: rest).getLast (List.cons_ne_nil first rest)) = final at *
      have hwindows : slidingWindows epoch d step items = (final.1.checkedAdd d).bind fun stop =>
          slideWindows d step (first :: rest) stop (bucketFor epoch first.1 step.1) := by
        rw [slidingWindows, hsort, ← hfinal]
      have hspan : ∀ t ∈ items.map Prod.fst, first.1 ≤ t ∧ t ≤ final.1 := by
        intro t ht
        obtain ⟨x, hx, rfl⟩ := List.mem_map.1 ht
        exact ⟨hmin x hx, hmax x hx⟩
      rw [hwindows]
      constructor
      · rintro ⟨windows, hout, hcover⟩ minTs hminTs maxTs hmaxTs hends
        obtain rfl : minTs = first.1 :=
          le_antisymm (hends _ (List.mem_map_of_mem hfirst)).1 (hspan _ hminTs).1
        obtain rfl : maxTs = final.1 :=
          le_antisymm (hspan _ hmaxTs).2 (hends _ (List.mem_map_of_mem hlast)).2
        obtain ⟨stop, hstop, hloop⟩ := Option.bind_eq_some_iff.1 hout
        have hslid := slid_of_slideWindows hloop
        -- The first element is in a window, which starts at the bucket or after it.
        obtain ⟨w, hw, -, hle, -⟩ := hcover.covered first hfirst
        obtain ⟨k, hk⟩ := hslid.aligned w hw
        have hbucket := le_bucketFor epoch first.1 step.1
        have hnonneg : (0 : ℤ) ≤ k * step.1 :=
          Int.mul_nonneg (Int.natCast_nonneg k) (Int.natCast_nonneg step.1)
        refine ⟨?_, ?_, ?_⟩
        · show epoch.1 ≤ first.1.1
          omega
        · have hdvd := hcover.aligned w hw
          rw [hk, add_sub_right_comm] at hdvd
          exact (Int.dvd_add_left (Int.dvd_mul_left _ _)).1 hdvd
        · rw [← Instant.checkedAdd_eq_some.1 hstop]
          exact hslid.room
      · intro hcan
        obtain ⟨hearly, hdvd, hroom⟩ := hcan first.1 (List.mem_map_of_mem hfirst) final.1
          (List.mem_map_of_mem hlast) hspan
        have hbucket := bucketFor_le step.2 hearly
        -- There is room for the end, and so for the windows.
        obtain ⟨k, hk, hlt⟩ := exists_step step.2 (t := final.1.1 + d)
          (hbucket.trans (le_add_of_le_of_nonneg (hmin final hlast) (Int.natCast_nonneg d)))
        have hend : final.1.1 + d ≤ last := by
          have := hroom k hk
          omega
        obtain ⟨windows, hloop⟩ : ∃ windows, slideWindows d step (first :: rest)
            ⟨final.1.1 + d, hend⟩ (bucketFor epoch first.1 step.1) = some windows :=
          exists_slideWindows hstep hroom
        refine ⟨windows, ?_, ?_⟩
        · have hstop : final.1.checkedAdd d = some ⟨final.1.1 + d, hend⟩ :=
            Instant.checkedAdd_eq_some.2 rfl
          rw [hstop]
          exact hloop
        · refine (hsort ▸ slid_of_slideWindows hloop).cover step.2 hstep hdvd fun x hx => ?_
          have hxfinal : x.1.1 ≤ final.1.1 := hmax x hx
          exact ⟨hbucket.trans (hmin x hx), hxfinal.trans (by simp)⟩

/-- The loop of `sliding_by_time` over the chunks collects the stamped elements. -/
theorem Stream.drain_stampChunk {s : Stream A E} {l : List A} (h : s.Yields l)
    (timestamp : S → A → Instant last × S) (init : S) :
    ∃ st, (pull A E).drain (fun _ => true) (fun st chunk => .next (stampChunk timestamp st chunk))
      (init, []) s = .ok (st, stamped timestamp init l) := by
  have hend : ∀ st : S × List (Instant last × A), st.2 ++ stamped timestamp st.1 [] = st.2 :=
    fun st => List.append_nil st.2
  have hnext : ∀ (st : S × List (Instant last × A)) chunk l,
      st.2 ++ stamped timestamp st.1 (chunk ++ l) =
        (stampChunk timestamp st chunk).2 ++
          stamped timestamp (stampChunk timestamp st chunk).1 l := by
    intro st chunk l
    rw [stamped, mapState_append, ← List.append_assoc, stampChunk, stamped]
  obtain ⟨⟨st, items⟩, hdrain, hitems⟩ := @drain_forever _ _ _ _ _ (pull A E)
    (stampChunk timestamp) Prod.snd (fun st l => st.2 ++ stamped timestamp st.1 l) hend hnext _ _
    h.delivers (init, [])
  obtain rfl : items = stamped timestamp init l := hitems
  exact ⟨st, hdrain⟩

theorem Stream.Yields.slidingByTime {s : Stream A E} {l : List A} (h : s.Yields l)
    (epoch : Instant last) {d : ℕ} (hd : 0 < d) (step : {n : ℕ // 0 < n})
    (timestamp : S → A → Instant last × S) (init : S) {windows : List (Instant last × List A)}
    (hwindows : slidingWindows epoch d step (stamped timestamp init l) = some windows) :
    (s.slidingByTime epoch d step.1 timestamp init).Yields (windows.map Prod.snd) := by
  have hmax : max d 1 = d := Nat.max_eq_left hd
  have hstep : (⟨max step.1 1, Nat.le_max_right step.1 1⟩ : {n : ℕ // 0 < n}) = step :=
    Subtype.ext (Nat.max_eq_left step.2)
  obtain ⟨st, hdrain⟩ := drain_stampChunk h timestamp init
  refine yields_pending ?_
  rw [hdrain, hmax, hstep]
  show (match slidingWindows epoch d step (stamped timestamp init l) with
    | none => Except.error Failure.panic
    | some out => .ok (out.map Prod.snd)) = _
  rw [hwindows]

/-- **When sliding windows cover every element.** Of windows that are no shorter than their step,
    the stream collects what it should, with the starts that the loop gives them, if and only if
    the first timestamp is not before the epoch, its bucket is on the grid, and there is room for
    the windows before the last instant. -/
theorem sliding_covers_iff (epoch : Instant last) {d s : ℕ} (hs : 0 < s) (hsd : s ≤ d)
    {upstream : Stream A E} {l : List A} (h : upstream.Yields l)
    (timestamp : S → A → Instant last × S) (init : S) :
    (∃ windows, slidingWindows epoch d ⟨s, hs⟩ (stamped timestamp init l) = some windows ∧
      (upstream.slidingByTime epoch d s timestamp init).Collects (windows.map Prod.snd) ∧
      SlidingCover epoch d s (stamped timestamp init l) windows) ↔
    CanSlide epoch d s ((stamped timestamp init l).map Prod.fst) := by
  rw [← slidingWindows_cover_iff epoch ⟨s, hs⟩ hsd]
  constructor
  · rintro ⟨windows, hwindows, -, hcover⟩
    exact ⟨windows, hwindows, hcover⟩
  · rintro ⟨windows, hwindows, hcover⟩
    have hyields := h.slidingByTime epoch (hs.trans_le hsd) ⟨s, hs⟩ timestamp init hwindows
    exact ⟨windows, hwindows, hyields.collects, hcover⟩

/-- The three elements of the tests, in windows of 3 that advance by 2. -/
theorem sliding_covers_iff_three :
    ∃ windows, slidingWindows (⟨0, by decide⟩ : Instant 100) 3 ⟨2, by decide⟩
        (stamped (fun (_ : Unit) a => (⟨min a 100, Int.min_le_right _ _⟩, ())) () [0, 2, 4]) =
          some windows ∧
      ((Stream.buffered [0, 2, 4] : Stream ℤ Unit).slidingByTime (⟨0, by decide⟩ : Instant 100) 3 2
        (fun (_ : Unit) a => (⟨min a 100, Int.min_le_right _ _⟩, ())) ()).Collects
          (windows.map Prod.snd) ∧
      SlidingCover ⟨0, by decide⟩ 3 2
        (stamped (fun (_ : Unit) a => (⟨min a 100, Int.min_le_right _ _⟩, ())) () [0, 2, 4])
        windows := by
  have hyields : (Stream.buffered [0, 2, 4] : Stream ℤ Unit).Yields [0, 2, 4] := ⟨trivial, rfl⟩
  refine (sliding_covers_iff (⟨0, by decide⟩ : Instant 100) (by decide) (by decide) hyields
    (fun (_ : Unit) a => (⟨min a 100, Int.min_le_right _ _⟩, ())) ()).2 ?_
  exact canSlide_of_room (by decide) (by decide)

/-- An element of the last nanosecond before the epoch. -/
theorem sliding_misses_before_epoch :
    ¬ ∀ (d s : ℕ), 0 < s → s ≤ d → ∀ (upstream : Stream ℤ Unit) (l : List ℤ), upstream.Yields l →
      ∀ (epoch : Instant 100) (f : ℤ → Instant 100), ∃ windows,
        (upstream.slidingByTime epoch d s (fun _ a => (f a, ())) ()).Collects
          (windows.map Prod.snd) ∧
        SlidingCover epoch d s (l.map fun a => (f a, a)) windows := by
  intro hall
  have hyields : (Stream.buffered [-1] : Stream ℤ Unit).Yields [-1] := ⟨trivial, rfl⟩
  obtain ⟨windows, hcollects, hcover⟩ := hall 1 1 (by decide) (by decide) _ _ hyields
    ⟨0, by decide⟩ fun a => ⟨min a 100, Int.min_le_right _ _⟩
  -- The only window tried starts at the epoch.
  have hstop : slideWindows 1 ⟨1, by decide⟩ [((⟨-1, by decide⟩ : Instant 100), (-1 : ℤ))]
      ⟨0, by decide⟩ ⟨1, by decide⟩ = some [] := by
    rw [slideWindows]
    rfl
  have hnone : slidingWindows (⟨0, by decide⟩ : Instant 100) 1 ⟨1, by decide⟩
      (stamped (fun (_ : Unit) a => (⟨min a 100, Int.min_le_right _ _⟩, ())) () [-1]) =
        some [] := by
    show slideWindows 1 ⟨1, by decide⟩ [((⟨-1, by decide⟩ : Instant 100), (-1 : ℤ))]
      ⟨0, by decide⟩ ⟨0, by decide⟩ = some []
    rw [slideWindows]
    exact congrArg (Option.map _) hstop
  have hgot := (hyields.slidingByTime (⟨0, by decide⟩ : Instant 100) (by decide)
    ⟨1, by decide⟩ _ () hnone).collects
  have hempty : windows = [] := List.map_eq_nil_iff.1 (hcollects.unique hgot)
  obtain ⟨w, hw, -⟩ := hcover.covered _ (List.mem_singleton_self _)
  rw [hempty] at hw
  cases hw

end IdEffect.Streaming
