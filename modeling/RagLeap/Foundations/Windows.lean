import Mathlib

/-!
# Windows over a list

`windows size step l` are the pieces of `l` of length `size` that start every `step` elements, up
to the one that reaches the end. Windows that leave nothing out make up the list
(`rebuild_windows`), so they determine it; windows that overlap hold more than the list does
(`sum_lt_windows`).
-/

namespace RagLeap

variable {α : Type}

/-- The windows of a list, none where the steps have led past its end. -/
def windows (size step : ℕ) (hstep : 0 < step) (l : List α) : List (List α) :=
  if l = [] then []
  else if l.length ≤ size then [l]
  else l.take size :: windows size step hstep (l.drop step)
termination_by l.length
decreasing_by
  have hpos := List.length_pos_of_ne_nil ‹l ≠ []›
  rw [List.length_drop]
  omega

/-- The list that its windows make up. -/
def rebuild (step : ℕ) : List (List α) → List α
  | [] => []
  | [w] => w
  | w :: w' :: ws => w.take step ++ rebuild step (w' :: ws)

section Windows

variable {size step : ℕ} {hstep : 0 < step} {l l' : List α}

@[simp] theorem windows_nil : windows size step hstep ([] : List α) = [] := by
  rw [windows, if_pos rfl]

theorem windows_of_le (hl : l ≠ []) (hle : l.length ≤ size) : windows size step hstep l = [l] := by
  rw [windows, if_neg hl, if_pos hle]

theorem windows_of_lt (hlt : size < l.length) :
    windows size step hstep l = l.take size :: windows size step hstep (l.drop step) := by
  have hl : l ≠ [] := by
    rintro rfl
    exact absurd hlt (Nat.not_lt_zero size)
  rw [windows, if_neg hl, if_neg (by omega)]

theorem windows_ne_nil (hstep : 0 < step) (hl : l ≠ []) : windows size step hstep l ≠ [] := by
  rw [windows, if_neg hl]
  split <;> exact List.cons_ne_nil _ _

/-- The windows are nonempty parts of the list. -/
theorem subset_of_mem_windows (hsize : 0 < size) {w : List α} (hw : w ∈ windows size step hstep l) :
    w ≠ [] ∧ w ⊆ l := by
  fun_induction windows size step hstep l with
  | case1 => exact nomatch hw
  | case2 l hl hle =>
    rw [List.mem_singleton.1 hw]
    exact ⟨hl, List.Subset.refl l⟩
  | case3 l hl hlt ih =>
    rcases List.mem_cons.1 hw with rfl | hw
    · refine ⟨?_, List.take_subset size l⟩
      rw [ne_eq, List.take_eq_nil_iff, not_or]
      exact ⟨hsize.ne', hl⟩
    · exact ⟨(ih hw).1, fun x hx => List.drop_subset step l ((ih hw).2 hx)⟩

/-- **Windows that leave nothing out make up the list.** -/
theorem rebuild_windows (hstep : 0 < step) (hle : step ≤ size) (l : List α) :
    rebuild step (windows size step hstep l) = l := by
  fun_induction windows size step hstep l with
  | case1 => rw [rebuild]
  | case2 l hl _ => rw [rebuild]
  | case3 l hl hlt ih =>
    have hrest : l.drop step ≠ [] := by
      rw [ne_eq, List.drop_eq_nil_iff]
      omega
    obtain ⟨w, ws, hws⟩ : ∃ w ws, windows size step hstep (l.drop step) = w :: ws :=
      List.exists_cons_of_ne_nil (windows_ne_nil hstep hrest)
    rw [hws, rebuild, ← hws, ih, List.take_take, Nat.min_eq_left hle, List.take_append_drop]

theorem windows_injective (hle : step ≤ size)
    (h : windows size step hstep l = windows size step hstep l') : l = l' := by
  rw [← rebuild_windows hstep hle l, h, rebuild_windows hstep hle l']

/-- Windows without overlap hold what the list holds. -/
theorem flatten_windows_self (hsize : 0 < size) (l : List α) :
    (windows size size hsize l).flatten = l := by
  fun_induction windows size size hsize l with
  | case1 => rfl
  | case2 l _ _ => exact List.flatten_singleton
  | case3 l _ _ ih => rw [List.flatten_cons, ih, List.take_append_drop]

section Weights

variable (weight : α → ℕ)

theorem sum_take_add_drop (n : ℕ) (l : List α) :
    (l.map weight).sum = ((l.take n).map weight).sum + ((l.drop n).map weight).sum := by
  rw [← List.sum_append, ← List.map_append, List.take_append_drop]

/-- Windows that leave nothing out hold no less than the list. -/
theorem sum_le_windows (hstep : 0 < step) (hle : step ≤ size) (l : List α) :
    (l.map weight).sum ≤ ((windows size step hstep l).flatten.map weight).sum := by
  fun_induction windows size step hstep l with
  | case1 => exact Nat.zero_le _
  | case2 l _ _ =>
    rw [List.flatten_singleton]
  | case3 l _ _ ih =>
    have htake := sum_take_add_drop weight step (l.take size)
    rw [List.take_take, Nat.min_eq_left hle] at htake
    have hsplit := sum_take_add_drop weight step l
    rw [List.flatten_cons, List.map_append, List.sum_append]
    omega

/-- Windows that overlap hold more than the list if there are two, by any positive weights. -/
theorem sum_lt_windows (hweight : ∀ x ∈ l, 0 < weight x) (hstep : 0 < step) (hlt : step < size)
    (hlong : size < l.length) :
    (l.map weight).sum < ((windows size step hstep l).flatten.map weight).sum := by
  have hrest := sum_le_windows weight hstep hlt.le (l.drop step)
  have htake := sum_take_add_drop weight step (l.take size)
  rw [List.take_take, Nat.min_eq_left hlt.le] at htake
  have hsplit := sum_take_add_drop weight step l
  -- The element after the first step is in the first window and in a later one.
  have hpos : 0 < (((l.take size).drop step).map weight).sum := by
    have hne : (l.take size).drop step ≠ [] := by
      rw [ne_eq, List.drop_eq_nil_iff, List.length_take]
      omega
    obtain ⟨x, xs, hxs⟩ := List.exists_cons_of_ne_nil hne
    have hx : x ∈ l := List.take_subset size l (List.drop_subset step _ (hxs ▸ List.mem_cons_self))
    rw [hxs, List.map_cons, List.sum_cons]
    exact Nat.add_pos_left (hweight x hx) _
  rw [windows_of_lt hlong, List.flatten_cons, List.map_append, List.sum_append]
  omega

end Weights

/-! ## Pieces that cover a list -/

/-- The pieces cover the list from `start` on: each holds at most `size` elements, the next one
starts `overlap` elements before the end of the one before and leaves out nothing, and the last one
reaches the end. -/
inductive Covers (size overlap : ℤ) (l : List α) : ℕ → List (List α) → Prop
  | last {start : ℕ} (hsize : ((l.drop start).length : ℤ) ≤ size) :
    Covers size overlap l start [l.drop start]
  | next {start stop rest : ℕ} {ws : List (List α)} (hstart : start ≤ stop)
    (hstop : stop ≤ l.length)
    (hsize : (((l.take stop).drop start).length : ℤ) ≤ size) (hrest : rest ≤ stop)
    (hoverlap : (rest : ℤ) + overlap = stop) (h : Covers size overlap l rest ws) :
    Covers size overlap l start ((l.take stop).drop start :: ws)

/-- Overlapping windows cover the list. -/
theorem covers_windows (hstep : 0 < step) (hle : step ≤ size) (start : ℕ)
    (hl : l.drop start ≠ []) :
    Covers size (size - step) l start (windows size step hstep (l.drop start)) := by
  have hlt : start < l.length := by
    by_contra hge
    exact hl (List.drop_eq_nil_of_le (by omega))
  induction hn : l.length - start using Nat.strong_induction_on generalizing start with
  | _ n ih =>
    have hlen : (l.drop start).length = l.length - start := List.length_drop
    by_cases hfits : (l.drop start).length ≤ size
    · rw [windows_of_le hl hfits]
      exact .last (by omega)
    · have hcut : (l.take (start + size)).drop start = (l.drop start).take size := by
        rw [List.drop_take, Nat.add_sub_cancel_left]
      have hlt' : start + step < l.length := by omega
      have hl' : l.drop (start + step) ≠ [] := by
        rw [ne_eq, List.drop_eq_nil_iff]
        omega
      rw [windows_of_lt (by omega), List.drop_drop, ← hcut]
      refine .next (by omega) (by omega) ?_ (by omega) (by push_cast; omega)
        (ih _ (by omega) _ hl' hlt' rfl)
      rw [hcut, List.length_take]
      omega

/-- Pieces that do not overlap hold what the list holds. -/
theorem flatten_of_covers {size : ℤ} {start : ℕ} {ws : List (List α)}
    (h : Covers size 0 l start ws) (hstart : start ≤ l.length) : ws.flatten = l.drop start := by
  generalize hzero : (0 : ℤ) = overlap at h
  induction h with
  | last hsize => exact List.flatten_singleton
  | @next start stop rest ws hstop hend hsize hrest hoverlap h ih =>
    have hrest' : rest = stop := by omega
    have hsplit : stop = start + (stop - start) := by omega
    rw [List.flatten_cons, ih (by omega), hrest', List.drop_take]
    conv_lhs => rw [hsplit, Nat.add_sub_cancel_left, ← List.drop_drop]
    exact List.take_append_drop ..

theorem length_le_of_covers {size overlap : ℤ} {start : ℕ} {ws : List (List α)}
    (h : Covers size overlap l start ws) {w : List α} (hw : w ∈ ws) : (w.length : ℤ) ≤ size := by
  induction h with
  | last hsize => rwa [List.mem_singleton.1 hw]
  | next hstart hstop hsize hrest hoverlap h ih =>
    rcases List.mem_cons.1 hw with rfl | hw
    · exact hsize
    · exact ih hw

end Windows

end RagLeap
