import Mathlib

/-!
# A sequence cut into segments

Items are collected until what is collected is `done`, and a reset drops what is collected. `feed`
gives the segments and what is still collected. No item is lost, doubled or moved (`feed_items`), and
a segment is done at its last item and not before (`feed_minimal`).
-/

namespace RagLeap.Segments

variable {α : Type}

inductive Input (α : Type)
  | item (a : α)
  | reset

/-- A segment is whole if it was done, and not if it was dropped. -/
structure Segment (α : Type) where
  items : List α
  whole : Bool

/-- The segments, and what is collected at the end. -/
def feed (done : List α → Bool) (collected : List α) : List (Input α) → List (Segment α) × List α
  | [] => ([], collected)
  | .item a :: rest =>
    if done (collected ++ [a]) then
      let (segments, left) := feed done [] rest
      (⟨collected ++ [a], true⟩ :: segments, left)
    else feed done (collected ++ [a]) rest
  | .reset :: rest =>
    let (segments, left) := feed done [] rest
    (⟨collected, false⟩ :: segments, left)

/-- The items of the inputs. -/
def items : List (Input α) → List α
  | [] => []
  | .item a :: rest => a :: items rest
  | .reset :: rest => items rest

variable {done : List α → Bool} {collected : List α}

theorem feed_item_of_done {a : α} (h : done (collected ++ [a]) = true) (rest : List (Input α)) :
    feed done collected (.item a :: rest) =
      (⟨collected ++ [a], true⟩ :: (feed done [] rest).1, (feed done [] rest).2) := by
  rw [feed, if_pos h]

theorem feed_item_of_not_done {a : α} (h : ¬ done (collected ++ [a]) = true)
    (rest : List (Input α)) :
    feed done collected (.item a :: rest) = feed done (collected ++ [a]) rest := by
  rw [feed, if_neg h]

theorem feed_reset (rest : List (Input α)) :
    feed done collected (.reset :: rest) =
      (⟨collected, false⟩ :: (feed done [] rest).1, (feed done [] rest).2) := rfl

theorem feed_append (inputs inputs' : List (Input α)) :
    feed done collected (inputs ++ inputs') =
      ((feed done collected inputs).1 ++ (feed done (feed done collected inputs).2 inputs').1,
        (feed done (feed done collected inputs).2 inputs').2) := by
  induction inputs generalizing collected with
  | nil => rfl
  | cons input rest ih =>
    cases input with
    | item a =>
      by_cases h : done (collected ++ [a]) = true
      · rw [List.cons_append, feed_item_of_done h, feed_item_of_done h, ih]
        rfl
      · rw [List.cons_append, feed_item_of_not_done h, feed_item_of_not_done h, ih]
    | reset =>
      rw [List.cons_append, feed_reset, feed_reset, ih]
      rfl

/-- Every item is in one place, in order. -/
theorem feed_items (inputs : List (Input α)) :
    ((feed done collected inputs).1.flatMap Segment.items) ++ (feed done collected inputs).2 =
      collected ++ items inputs := by
  induction inputs generalizing collected with
  | nil => rw [feed, items, List.append_nil, List.flatMap_nil, List.nil_append]
  | cons input rest ih =>
    cases input with
    | item a =>
      by_cases h : done (collected ++ [a]) = true
      · rw [feed_item_of_done h, List.flatMap_cons, List.append_assoc, ih, items]
        simp only [List.append_assoc, List.nil_append, List.cons_append]
      · rw [feed_item_of_not_done h, ih, items, List.append_assoc]
        rfl
    | reset =>
      rw [feed_reset, List.flatMap_cons, List.append_assoc, ih, items, List.nil_append]

/-- What is collected is not done, at no point. -/
def Open (done : List α → Bool) (collected : List α) : Prop :=
  ∀ p, p <+: collected → p ≠ [] → done p = false

theorem open_nil : Open done [] := fun _ hp hne => absurd (List.prefix_nil.1 hp) hne

theorem Open.concat {a : α} (h : Open done collected) (ha : ¬ done (collected ++ [a]) = true) :
    Open done (collected ++ [a]) := by
  intro p hp hne
  rcases List.prefix_concat_iff.1 hp with rfl | hp
  · exact Bool.eq_false_iff.2 ha
  · exact h p hp hne

/-- A segment is done at its last item, or was dropped, and is not done before. -/
structure Segment.Minimal (done : List α → Bool) (s : Segment α) : Prop where
  whole_iff : s.whole = true ↔ ∃ init a, s.items = init ++ [a] ∧ Open done init ∧ done s.items = true
  dropped : s.whole = false → Open done s.items

theorem feed_minimal (h : Open done collected) (inputs : List (Input α)) :
    (∀ s ∈ (feed done collected inputs).1, s.Minimal done) ∧
      Open done (feed done collected inputs).2 := by
  induction inputs generalizing collected with
  | nil => exact ⟨fun _ hs => absurd hs List.not_mem_nil, h⟩
  | cons input rest ih =>
    cases input with
    | item a =>
      by_cases hdone : done (collected ++ [a]) = true
      · rw [feed_item_of_done hdone]
        refine ⟨List.forall_mem_cons.2 ⟨?_, (ih open_nil).1⟩, (ih open_nil).2⟩
        constructor
        · exact iff_of_true rfl ⟨collected, a, rfl, h, hdone⟩
        · intro hfalse
          cases hfalse
      · rw [feed_item_of_not_done hdone]
        exact ih (h.concat hdone)
    | reset =>
      rw [feed_reset]
      refine ⟨List.forall_mem_cons.2 ⟨?_, (ih open_nil).1⟩, (ih open_nil).2⟩
      constructor
      · refine iff_of_false (by simp) ?_
        rintro ⟨init, a, heq, hinit, hdone⟩
        have hne : collected ≠ [] := by
          rintro rfl
          simp at heq
        have hopen : done collected = false := h collected List.prefix_rfl hne
        rw [hopen] at hdone
        cases hdone
      · exact fun _ => h

end RagLeap.Segments
