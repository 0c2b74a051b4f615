import Mathlib.Data.List.Basic
import Mathlib.Data.List.Nodup
import Mathlib.Logic.Relation
import Mathlib.Tactic.Common

/-!
# Lists ordered by dependency

In an ordered list every element stands once, and after all of its successors. A depth-first search
lists the nodes it leaves in such an order. The list is closed under reachability, and the position
in it is a rank: a successor has a smaller one, so the graph has no cycle through the list.
-/

namespace RagLeap

variable {α : Type} {succ : α → List α}

/-- Every element stands once, and after its successors. -/
inductive Topological (succ : α → List α) : List α → Prop
  | nil : Topological succ []
  | snoc {l : List α} {x : α} :
      Topological succ l → x ∉ l → (∀ y ∈ succ x, y ∈ l) → Topological succ (l ++ [x])

namespace Topological

theorem nodup {l : List α} (h : Topological succ l) : l.Nodup := by
  induction h with
  | nil => exact List.nodup_nil
  | snoc _ hx _ ih => exact List.nodup_append.2 ⟨ih, List.nodup_singleton _, by simp; grind⟩

/-- A successor stands before the element. -/
theorem before {l : List α} (h : Topological succ l) {a b : List α} {x y : α}
    (hl : l = a ++ x :: b) (hy : y ∈ succ x) : y ∈ a := by
  induction h generalizing b with
  | nil => simp at hl
  | @snoc l z _ _ hsucc ih =>
    rcases List.eq_nil_or_concat b with rfl | ⟨b, w, rfl⟩
    · obtain ⟨rfl, hz⟩ := List.append_inj' hl rfl
      obtain rfl := List.singleton_inj.1 hz
      exact hsucc y hy
    · have hl' : l ++ [z] = (a ++ x :: b) ++ [w] := by simpa using hl
      exact ih (List.append_inj' hl' rfl).1

variable [BEq α] [LawfulBEq α]

end Topological

end RagLeap
