import IdEffect.Streaming.Combinators

set_option autoImplicit false

/-! # Windows by count: `streaming/window.rs`

`sliding` keeps the elements from the start of the next window on in a buffer. When the buffer is as
long as a window, the window is put out and `min(step, buffer)` elements are dropped: the buffer
holds one window, so that a step longer than a window is cut down to it, and the elements that
should be skipped are not. The windows start at the multiples of `min step size`
(`Yields.sliding`). -/

namespace IdEffect.Streaming

variable {A E : Type}

/-! ## The loop -/

/-- `while buf.len() >= size { … }` -/
def slideWhile {size step : ℕ} (hsize : 0 < size) (hstep : 0 < step) (buf : List A)
    (out : List (List A)) : List A × List (List A) :=
  if _hfull : buf.length ≥ size then
    slideWhile hsize hstep (buf.drop (min step buf.length)) (out ++ [buf.take size])
  else (buf, out)
termination_by buf.length
decreasing_by
  rw [List.length_drop]
  omega

/-- The body of the `for` of `sliding`. -/
def slideItem {size step : ℕ} (hsize : 0 < size) (hstep : 0 < step) :
    List A × List (List A) → A → List A × List (List A)
  | (buf, out), item => slideWhile hsize hstep (buf ++ [item]) out

namespace Stream

/-- `Stream::sliding` -/
def sliding (size step : ℕ) (upstream : Stream A E) : Stream (List A) E :=
  if h : size = 0 ∨ step = 0 then .pending (some fun _ => .ok [])
  else
    draining (fun st chunk => chunk.foldl (slideItem
      (Nat.pos_of_ne_zero fun hsize => h (.inl hsize))
      (Nat.pos_of_ne_zero fun hstep => h (.inr hstep))) st) ([], []) Prod.snd upstream

end Stream

/-! ## Windows that start at the multiples of a step -/

/-- The windows of `size` elements that start at the multiples of `step`, as far as the list
    reaches. -/
def windowsEvery (size step : ℕ) (l : List A) : List (List A) :=
  (List.range (l.length + 1)).filterMap fun k =>
    if k * step + size ≤ l.length then some ((l.drop (k * step)).take size) else none

/-- The number of these windows in a list of length `len`. -/
def windowCount (size step len : ℕ) : ℕ := (len + step - size) / step

theorem lt_windowCount {size step len k : ℕ} (hstep : 0 < step) :
    k < windowCount size step len ↔ k * step + size ≤ len := by
  rw [windowCount, Nat.lt_iff_add_one_le, Nat.le_div_iff_mul_le hstep, Nat.add_one_mul]
  omega

theorem windowCount_le {size step len : ℕ} (hstep : 0 < step) :
    windowCount size step len ≤ len + 1 := by
  by_contra hlt
  have hlast : (len + 1) * step + size ≤ len := (lt_windowCount hstep).1 (Nat.lt_of_not_le hlt)
  have hle := Nat.le_mul_of_pos_right (len + 1) hstep
  omega

theorem windowsEvery_eq_map {size step : ℕ} (hstep : 0 < step) (l : List A) :
    windowsEvery size step l = (List.range (windowCount size step l.length)).map fun k =>
      (l.drop (k * step)).take size := by
  have hcount : windowCount size step l.length ≤ l.length + 1 := windowCount_le hstep
  obtain ⟨rest, hrest⟩ := Nat.exists_eq_add_of_le hcount
  rw [windowsEvery, hrest, List.range_add, List.filterMap_append]
  have hin : ∀ k ∈ List.range (windowCount size step l.length),
      (if k * step + size ≤ l.length then some ((l.drop (k * step)).take size) else none) =
        some ((l.drop (k * step)).take size) := fun k hk =>
    if_pos ((lt_windowCount hstep).1 (List.mem_range.1 hk))
  have hout : ∀ k ∈ (List.range rest).map (windowCount size step l.length + ·),
      (if k * step + size ≤ l.length then some ((l.drop (k * step)).take size) else none) =
        none := by
    intro k hk
    obtain ⟨j, -, rfl⟩ := List.mem_map.1 hk
    refine if_neg fun hle => ?_
    have hlt := (lt_windowCount hstep).2 hle
    omega
  rw [List.filterMap_congr hin, List.filterMap_congr hout]
  simp

theorem windowsEvery_of_lt {size step : ℕ} (hstep : 0 < step) {l : List A}
    (hlen : l.length < size) : windowsEvery size step l = [] := by
  have hzero : windowCount size step l.length = 0 := by
    by_contra hne
    have hfirst := (lt_windowCount hstep).1 (Nat.pos_of_ne_zero hne)
    omega
  rw [windowsEvery_eq_map hstep, hzero]
  rfl

/-- The first window, and then those of the list without the first `step` elements. -/
theorem windowsEvery_of_le {size step : ℕ} (hstep : 0 < step) (hle : step ≤ size) {l : List A}
    (hlen : size ≤ l.length) :
    windowsEvery size step l = l.take size :: windowsEvery size step (l.drop step) := by
  have hcount : windowCount size step l.length =
      windowCount size step (l.drop step).length + 1 := by
    have hsub : l.length + step - size = (l.length - step + step - size) + step := by omega
    rw [windowCount, windowCount, List.length_drop, hsub, Nat.add_div_right _ hstep]
  rw [windowsEvery_eq_map hstep, windowsEvery_eq_map hstep, hcount, List.range_succ_eq_map,
    List.map_cons, List.map_map]
  have hnext : ∀ k, (l.drop ((k + 1) * step)).take size =
      ((l.drop step).drop (k * step)).take size := by
    intro k
    rw [List.drop_drop, Nat.add_one_mul, Nat.add_comm]
  simp only [Nat.zero_mul, List.drop_zero, Function.comp_def, Nat.succ_eq_add_one, hnext]

/-! ## What the loop puts out -/

section

variable {size step : ℕ} (hsize : 0 < size) (hstep : 0 < step)

theorem slideWhile_of_lt {buf : List A} (hbuf : buf.length < size) (out : List (List A)) :
    slideWhile hsize hstep buf out = (buf, out) := by
  rw [slideWhile, dif_neg (Nat.not_le_of_lt hbuf)]

/-- A full buffer is one window. -/
theorem slideWhile_of_eq {buf : List A} (hbuf : buf.length = size) (out : List (List A)) :
    slideWhile hsize hstep buf out = (buf.drop (min step size), out ++ [buf]) := by
  rw [slideWhile, dif_pos (Nat.le_of_eq hbuf.symm), hbuf, List.take_of_length_le
    (Nat.le_of_eq hbuf)]
  refine slideWhile_of_lt hsize hstep ?_ _
  rw [List.length_drop]
  omega

/-- `buf` is shorter than a window. -/
theorem foldl_slideItem (l : List A) (buf : List A) (out : List (List A))
    (hbuf : buf.length < size) :
    (l.foldl (slideItem hsize hstep) (buf, out)).2 =
      out ++ windowsEvery size (min step size) (buf ++ l) := by
  have hmin : 0 < min step size := by omega
  induction l generalizing buf out with
  | nil => rw [List.append_nil, windowsEvery_of_lt hmin hbuf, List.append_nil, List.foldl_nil]
  | cons a l ih =>
      have hlen : (buf ++ [a]).length = buf.length + 1 := by simp
      have hcons : buf ++ a :: l = (buf ++ [a]) ++ l := by simp
      rw [List.foldl_cons, slideItem, hcons]
      by_cases hfull : (buf ++ [a]).length = size
      · have hdrop : ((buf ++ [a]).drop (min step size)).length < size := by
          rw [List.length_drop]
          omega
        have hwindow : ((buf ++ [a]) ++ l).take size = buf ++ [a] := by
          rw [List.take_append_of_le_length (Nat.le_of_eq hfull.symm),
            List.take_of_length_le (Nat.le_of_eq hfull)]
        have hfits : size ≤ ((buf ++ [a]) ++ l).length := by
          rw [List.length_append, hfull]
          exact Nat.le_add_right size l.length
        have hnext : ((buf ++ [a]) ++ l).drop (min step size) =
            (buf ++ [a]).drop (min step size) ++ l := by
          refine List.drop_append_of_le_length ?_
          rw [hfull]
          exact Nat.min_le_right step size
        have hwindows := windowsEvery_of_le hmin (Nat.min_le_right step size) hfits
        rw [slideWhile_of_eq hsize hstep hfull, ih _ _ hdrop, hwindows, hwindow, hnext,
          List.append_assoc, List.singleton_append]
      · rw [slideWhile_of_lt hsize hstep (by omega), ih _ _ (by omega)]

end

/-- **What `sliding` puts out**: the windows at the multiples of the step, or of the size if that is
    less. -/
theorem Stream.Yields.sliding {s : Stream A E} {l : List A} (h : s.Yields l) {size step : ℕ}
    (hsize : 0 < size) (hstep : 0 < step) :
    (s.sliding size step).Yields (windowsEvery size (min step size) l) := by
  have hne : ¬ (size = 0 ∨ step = 0) := by omega
  have hfold := foldl_slideItem hsize hstep l [] [] hsize
  rw [List.nil_append, List.nil_append] at hfold
  rw [Stream.sliding, dif_neg hne]
  exact hfold ▸ h.folding

/-! ## When the windows advance by the step -/

/-- The list looks the same from the multiples of `size` as from those of `step`, as far as windows
    go. -/
def LooksAlike (size step : ℕ) (l : List A) : Prop :=
  windowCount size size l.length = windowCount size step l.length ∧
    ∀ k < windowCount size size l.length, ∀ i < size, l[k * size + i]? = l[k * step + i]?

theorem take_drop_eq_iff {l : List A} {size m n : ℕ} :
    (l.drop m).take size = (l.drop n).take size ↔ ∀ i < size, l[m + i]? = l[n + i]? := by
  constructor
  · intro h i hi
    have hi' := congrArg (fun w : List A => w[i]?) h
    simpa only [List.getElem?_take, if_pos hi, List.getElem?_drop] using hi'
  · intro h
    refine List.ext_getElem? fun i => ?_
    rw [List.getElem?_take, List.getElem?_take]
    split
    · next hi => rw [List.getElem?_drop, List.getElem?_drop, h i hi]
    · rfl

theorem windowsEvery_eq_iff {size step : ℕ} (hsize : 0 < size) (hstep : 0 < step) (l : List A) :
    windowsEvery size size l = windowsEvery size step l ↔ LooksAlike size step l := by
  rw [windowsEvery_eq_map hsize, windowsEvery_eq_map hstep, LooksAlike]
  constructor
  · intro h
    have hcount : windowCount size size l.length = windowCount size step l.length := by
      simpa only [List.length_map, List.length_range] using congrArg List.length h
    refine ⟨hcount, fun k hk => take_drop_eq_iff.1 ?_⟩
    rw [← hcount] at h
    exact List.map_inj_left.1 h k (List.mem_range.2 hk)
  · rintro ⟨hcount, hall⟩
    rw [← hcount]
    exact List.map_congr_left fun k hk => take_drop_eq_iff.2 (hall k (List.mem_range.1 hk))

/-- A list without room for two windows. -/
theorem looksAlike_of_lt {size step : ℕ} (hsize : 0 < size) (hlt : size < step) {l : List A}
    (hshort : l.length < 2 * size) : LooksAlike size step l := by
  have hstep : 0 < step := by omega
  have hle : windowCount size size l.length ≤ 1 := by
    by_contra hgt
    have := (lt_windowCount hsize).1 (Nat.lt_of_not_le hgt)
    omega
  have hle' : windowCount size step l.length ≤ 1 := by
    by_contra hgt
    have := (lt_windowCount hstep).1 (Nat.lt_of_not_le hgt)
    omega
  have hfirst : 0 < windowCount size size l.length ↔ 0 < windowCount size step l.length := by
    rw [lt_windowCount hsize, lt_windowCount hstep, Nat.zero_mul, Nat.zero_mul]
  refine ⟨by omega, fun k hk i _ => ?_⟩
  obtain rfl : k = 0 := by omega
  rw [Nat.zero_mul, Nat.zero_mul]

/-- **When sliding windows advance by their step.** A given stream collects the windows at the
    multiples of `step` if and only if the step is no longer than a window, or its elements happen
    to look the same from the multiples of `size`. Whatever the elements of a stream of length `n`
    are, it does if and only if the step is no longer than a window or there is no room for two
    windows. -/
theorem sliding_advances_iff {size step : ℕ} (hsize : 0 < size) (hstep : 0 < step) :
    (∀ (A E : Type) (s : Stream A E) (l : List A), s.Yields l →
      ((s.sliding size step).Collects (windowsEvery size step l) ↔
        step ≤ size ∨ LooksAlike size step l)) ∧
    ∀ n, (∀ (A E : Type) (s : Stream A E) (l : List A), s.Yields l → l.length = n →
        (s.sliding size step).Collects (windowsEvery size step l)) ↔
      step ≤ size ∨ n < 2 * size := by
  have hgiven : ∀ (A E : Type) (s : Stream A E) (l : List A), s.Yields l →
      ((s.sliding size step).Collects (windowsEvery size step l) ↔
        step ≤ size ∨ LooksAlike size step l) := by
    intro A E s l hs
    have hcollects := (hs.sliding hsize hstep).collects
    have hiff : (s.sliding size step).Collects (windowsEvery size step l) ↔
        windowsEvery size (min step size) l = windowsEvery size step l :=
      ⟨hcollects.unique, fun heq => heq ▸ hcollects⟩
    rw [hiff]
    by_cases hle : step ≤ size
    · rw [Nat.min_eq_left hle]
      exact iff_of_true rfl (.inl hle)
    · rw [Nat.min_eq_right (by omega), windowsEvery_eq_iff hsize hstep]
      exact ⟨.inr, fun h => h.resolve_left hle⟩
  refine ⟨hgiven, fun n => ⟨fun hall => ?_, ?_⟩⟩
  · -- The list of the numbers below `n` looks different from every place.
    have hyields : (Stream.buffered (List.range n) : Stream ℕ Unit).Yields (List.range n) :=
      ⟨trivial, rfl⟩
    have hcond := (hgiven ℕ Unit _ _ hyields).1 (hall ℕ Unit _ _ hyields List.length_range)
    by_contra hnot
    have hlong : size < step ∧ 2 * size ≤ n := by omega
    have halike := hcond.resolve_left (by omega)
    rw [LooksAlike, List.length_range] at halike
    have hsecond : 1 < windowCount size size n := (lt_windowCount hsize).2 (by omega)
    have heq := halike.2 1 hsecond 0 hsize
    have hreach := (lt_windowCount hstep).1 (halike.1 ▸ hsecond)
    rw [List.getElem?_range (by omega), List.getElem?_range (by omega), Option.some.injEq] at heq
    omega
  · intro hcond A E s l hs hlen
    refine (hgiven A E s l hs).2 ?_
    rcases hcond with hle | hshort
    · exact .inl hle
    · by_cases hle : step ≤ size
      · exact .inl hle
      · exact .inr (looksAlike_of_lt hsize (by omega) (by omega))

/-- Windows of two that advance by two. -/
theorem sliding_advances_iff_by_two :
    ((Stream.buffered [1, 2, 3, 4, 5] : Stream ℕ Unit).sliding 2 2).Collects
        (windowsEvery 2 2 [1, 2, 3, 4, 5]) ∧
      windowsEvery 2 2 [1, 2, 3, 4, 5] = [[1, 2], [3, 4]] := by
  have hyields : (Stream.buffered [1, 2, 3, 4, 5] : Stream ℕ Unit).Yields [1, 2, 3, 4, 5] :=
    ⟨trivial, rfl⟩
  exact ⟨((sliding_advances_iff (by decide) (by decide)).1 ℕ Unit _ _ hyields).2
    (.inl (Nat.le_refl 2)), rfl⟩

/-- Windows of one element that should skip every other one. -/
theorem sliding_skips_nothing :
    ¬ ∀ (size step : ℕ), 0 < size → 0 < step → ∀ (s : Stream ℕ Unit) (l : List ℕ), s.Yields l →
      (s.sliding size step).Collects (windowsEvery size step l) := by
  intro hall
  have hyields : (Stream.buffered [1, 2] : Stream ℕ Unit).Yields [1, 2] := ⟨trivial, rfl⟩
  have hwanted := hall 1 2 (by decide) (by decide) _ _ hyields
  have hgot := (hyields.sliding (by decide : 0 < 1) (by decide : 0 < 2)).collects
  exact absurd (hgot.unique hwanted) (by decide)

end IdEffect.Streaming
