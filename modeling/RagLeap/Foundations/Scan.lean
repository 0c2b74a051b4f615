import Mathlib.Data.List.TakeWhile

/-!
# Reading a text by index

`charAt` and `substring` fail where an index lies outside the text, and `skip` is the loop that runs
on while the characters are of a kind. `Holds text i s` says that `text` has `s` at the index `i`;
with it each of these is told from the characters read, and does not fail.
-/

namespace RagLeap.Scan

variable {α : Type*}

/-! ## Access -/

def charAt (text : List α) (i : ℕ) : Option α := text[i]?

def substring (text : List α) (i j : ℕ) : Option (List α) :=
  if i ≤ j ∧ j ≤ text.length then some ((text.drop i).take (j - i)) else none

def skipFrom (p : α → Bool) (text : List α) : ℕ → ℕ → Option ℕ
  | 0, i => some i
  | n + 1, i => (charAt text i).bind fun c => if p c then skipFrom p text n (i + 1) else some i

/-- `while (i < j && p(text.charAt(i))) i++`, and then `i`. -/
def skip (p : α → Bool) (text : List α) (i j : ℕ) : Option ℕ := skipFrom p text (j - i) i

section Find

variable [DecidableEq α]

/-- Whether the text has `s` at an index, which may lie outside. -/
def startsWith (text s : List α) (i : ℕ) : Bool :=
  i + s.length ≤ text.length ∧ (text.drop i).take s.length = s

/-- The index of the first `c`. -/
def indexOf (text : List α) (c : α) : Option ℕ :=
  if c ∈ text then some (text.takeWhile (· ≠ c)).length else none

end Find

/-! ## A text and what stands in it -/

/-- `text` has `s` at the index `i`. -/
def Holds (text : List α) (i : ℕ) (s : List α) : Prop :=
  ∃ pre post, text = pre ++ (s ++ post) ∧ i = pre.length

variable {text s a b : List α} {i j : ℕ}

theorem length_takeWhile_add (p : α → Bool) (s : List α) :
    (s.takeWhile p).length + (s.dropWhile p).length = s.length := by
  rw [← List.length_append, List.takeWhile_append_dropWhile]

theorem holds_self (s : List α) : Holds s 0 s := ⟨[], [], by rw [List.append_nil]; rfl, rfl⟩

theorem exists_holds (hij : i ≤ j) (hj : j ≤ text.length) :
    ∃ s, Holds text i s ∧ j = i + s.length := by
  refine ⟨(text.drop i).take (j - i), ⟨text.take i, text.drop j, ?_, ?_⟩, ?_⟩
  · have hdrop : text.drop j = (text.drop i).drop (j - i) := by
      rw [List.drop_drop, Nat.add_sub_cancel' hij]
    rw [hdrop, List.take_append_drop, List.take_append_drop]
  · rw [List.length_take]
    omega
  · rw [List.length_take, List.length_drop]
    omega

namespace Holds

theorem length_le (h : Holds text i s) : i + s.length ≤ text.length := by
  obtain ⟨pre, post, rfl, rfl⟩ := h
  simp only [List.length_append]
  omega

theorem left (h : Holds text i (a ++ b)) : Holds text i a := by
  obtain ⟨pre, post, htext, hi⟩ := h
  exact ⟨pre, b ++ post, by rw [htext, List.append_assoc], hi⟩

theorem right (h : Holds text i (a ++ b)) : Holds text (i + a.length) b := by
  obtain ⟨pre, post, htext, hi⟩ := h
  refine ⟨pre ++ a, post, by rw [htext]; simp only [List.append_assoc], ?_⟩
  rw [List.length_append, hi]

theorem tail {c : α} (h : Holds text i (c :: s)) : Holds text (i + 1) s := by
  have hcons : Holds text i ([c] ++ s) := h
  exact hcons.right

theorem drop_eq (h : Holds text i s) : (text.drop i).take s.length = s := by
  obtain ⟨pre, post, rfl, rfl⟩ := h
  rw [List.drop_left, List.take_left]

theorem charAt_eq {c : α} (h : Holds text i (c :: s)) : charAt text i = some c := by
  obtain ⟨pre, post, rfl, rfl⟩ := h
  rw [charAt, List.getElem?_append_right (Nat.le_refl _), Nat.sub_self]
  rfl

theorem substring_eq (h : Holds text i s) (hj : j = i + s.length) :
    substring text i j = some s := by
  subst hj
  rw [substring, if_pos ⟨Nat.le_add_right _ _, h.length_le⟩, Nat.add_sub_cancel_left, h.drop_eq]

theorem skipFrom_eq (p : α → Bool) (h : Holds text i s) :
    skipFrom p text s.length i = some (i + (s.takeWhile p).length) := by
  induction s generalizing i with
  | nil => rfl
  | cons c s ih =>
    rw [List.length_cons, skipFrom, h.charAt_eq, Option.bind_some, List.takeWhile_cons]
    split_ifs with hc
    · rw [ih h.tail, List.length_cons]
      congr 1
      omega
    · rfl

theorem skip_eq (p : α → Bool) (h : Holds text i s) (hj : j = i + s.length) :
    skip p text i j = some (i + (s.takeWhile p).length) := by
  rw [skip, hj, Nat.add_sub_cancel_left, h.skipFrom_eq]

/-- What stands where `skip` stops. -/
theorem dropWhile (p : α → Bool) (h : Holds text i s) :
    Holds text (i + (s.takeWhile p).length) (s.dropWhile p) := by
  refine Holds.right (a := s.takeWhile p) ?_
  rwa [List.takeWhile_append_dropWhile]

end Holds

theorem exists_charAt (h : i < text.length) : ∃ c, charAt text i = some c :=
  ⟨text[i], List.getElem?_eq_getElem h⟩

theorem exists_substring (hij : i ≤ j) (hj : j ≤ text.length) :
    ∃ s, substring text i j = some s := by
  obtain ⟨s, hs, rfl⟩ := exists_holds hij hj
  exact ⟨s, hs.substring_eq rfl⟩

/-- `skip` stays in its range, and in front of its end it stops at a character of another kind. -/
theorem exists_skip (p : α → Bool) (hij : i ≤ j) (hj : j ≤ text.length) :
    ∃ k, skip p text i j = some k ∧ i ≤ k ∧ k ≤ j ∧
      (k < j → ∃ c, charAt text k = some c ∧ p c = false) := by
  obtain ⟨s, hs, rfl⟩ := exists_holds hij hj
  have hlen := length_takeWhile_add p s
  refine ⟨_, hs.skip_eq p rfl, Nat.le_add_right _ _, by omega, fun hlt => ?_⟩
  have hrest := hs.dropWhile p
  obtain ⟨c, t, hct⟩ : ∃ c t, s.dropWhile p = c :: t :=
    List.exists_cons_of_ne_nil fun hnil => by rw [hnil, List.length_nil] at hlen; omega
  have hc := List.head?_dropWhile_not p s
  rw [hct] at hrest hc
  exact ⟨c, hrest.charAt_eq, by simpa using hc⟩

/-! ## Searching -/

section Find

variable [DecidableEq α] {w : List α} {c : α}

theorem Holds.startsWith_eq (h : Holds text i s) (hlen : w.length ≤ s.length) :
    startsWith text w i = decide (w <+: s) := by
  have hle := h.length_le
  have htake : (text.drop i).take w.length = s.take w.length := by
    have hdrop := h.drop_eq
    calc (text.drop i).take w.length = ((text.drop i).take s.length).take w.length := by
          rw [List.take_take, Nat.min_eq_left hlen]
      _ = s.take w.length := by rw [hdrop]
  rw [startsWith, htake]
  refine decide_eq_decide.2 ⟨fun hw => ?_, fun hw => ⟨by omega, ?_⟩⟩
  · rw [← hw.2]
    exact List.take_prefix _ _
  · exact (List.prefix_iff_eq_take.1 hw).symm

theorem indexOf_none (h : c ∉ text) : indexOf text c = none := if_neg h

theorem indexOf_append (h : c ∉ a) (b : List α) : indexOf (a ++ c :: b) c = some a.length := by
  have hall : ∀ d ∈ a, decide (d ≠ c) = true := fun d hd => decide_eq_true fun hdc => h (hdc ▸ hd)
  rw [indexOf, if_pos (by simp), List.takeWhile_append_of_pos hall,
    List.takeWhile_cons_of_neg (by simp), List.append_nil]

theorem exists_of_indexOf {k : ℕ} (h : indexOf text c = some k) :
    ∃ a b, text = a ++ c :: b ∧ c ∉ a ∧ k = a.length := by
  by_cases hc : c ∈ text
  · obtain ⟨a, b, rfl, ha⟩ := List.eq_append_cons_of_mem hc
    rw [indexOf_append ha] at h
    exact ⟨a, b, rfl, ha, (Option.some.inj h).symm⟩
  · rw [indexOf_none hc] at h
    exact nomatch h

end Find

end RagLeap.Scan
