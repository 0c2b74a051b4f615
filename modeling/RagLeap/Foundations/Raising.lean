import Mathlib.Data.List.Forall2
import Mathlib.Tactic.Common

/-!
# Computations that raise

`Except` for a result or an error. A sequence has a result when its parts have (`bind_eq_ok`); a list
worked through with `mapM` stops at the first error, or gives one result for each element
(`mapM_except_cases`); the error is that of the first element that has one (`mapM_eq_error_iff`).
-/

namespace RagLeap

variable {ε α β : Type}

/-- Sequencing succeeds when both parts do. -/
theorem bind_eq_ok {x : Except ε α} {f : α → Except ε β} {b : β} :
    x >>= f = .ok b ↔ ∃ a, x = .ok a ∧ f a = .ok b := by
  cases x with
  | error e => exact iff_of_false nofun fun ⟨_, h, _⟩ => nomatch h
  | ok a => exact ⟨fun h => ⟨a, rfl, h⟩, fun ⟨_, ha, h⟩ => by cases ha; exact h⟩

/-- A list is worked through to the end, or to the first error. -/
theorem mapM_except_cases (f : α → Except ε β) (l : List α) :
    (∃ a ∈ l, ∃ why, f a = .error why ∧ l.mapM f = .error why) ∨
      ∃ l', l.mapM f = .ok l' ∧ List.Forall₂ (fun a b => f a = .ok b) l l' := by
  induction l with
  | nil => exact .inr ⟨[], rfl, .nil⟩
  | cons a l ih =>
    rw [List.mapM_cons]
    cases ha : f a with
    | error why => exact .inl ⟨a, List.mem_cons_self, why, ha, rfl⟩
    | ok b =>
      rcases ih with ⟨e, he, why, hwhy, hl⟩ | ⟨l', hl, hall⟩
      · exact .inl ⟨e, List.mem_cons_of_mem a he, why, hwhy, by rw [hl]; rfl⟩
      · exact .inr ⟨b :: l', by rw [hl]; rfl, .cons ha hall⟩

/-- The error is that of the first element that has one. -/
theorem mapM_eq_error_iff {f : α → Except ε β} {l : List α} {why : ε} :
    l.mapM f = .error why ↔ ∃ pre a post,
      l = pre ++ a :: post ∧ (∀ x ∈ pre, ∃ b, f x = .ok b) ∧ f a = .error why := by
  induction l with
  | nil => exact iff_of_false nofun fun ⟨pre, a, post, h, _⟩ => by simp at h
  | cons x l ih =>
    rw [List.mapM_cons]
    cases hx : f x with
    | error e =>
      constructor
      · intro h
        exact ⟨[], x, l, rfl, nofun, hx.trans (congrArg Except.error (Except.error.inj h))⟩
      · rintro ⟨pre, a, post, h, hpre, ha⟩
        cases pre with
        | nil =>
          obtain ⟨rfl, -⟩ := List.cons.inj h
          exact congrArg Except.error (Except.error.inj (hx.symm.trans ha))
        | cons y pre =>
          obtain ⟨rfl, -⟩ := List.cons.inj h
          obtain ⟨b, hb⟩ := hpre x List.mem_cons_self
          exact nomatch hx.symm.trans hb
    | ok b =>
      have hrest : (do let l' ← l.mapM f; pure (b :: l') : Except ε (List β)) = .error why ↔
          l.mapM f = .error why := by
        cases l.mapM f with
        | error e => exact Iff.rfl
        | ok l' => exact iff_of_false nofun nofun
      refine hrest.trans (ih.trans ⟨?_, ?_⟩)
      · rintro ⟨pre, a, post, rfl, hpre, ha⟩
        refine ⟨x :: pre, a, post, rfl, fun y hy => ?_, ha⟩
        rcases List.mem_cons.1 hy with rfl | hy
        · exact ⟨b, hx⟩
        · exact hpre y hy
      · rintro ⟨pre, a, post, h, hpre, ha⟩
        cases pre with
        | nil =>
          obtain ⟨rfl, -⟩ := List.cons.inj h
          exact nomatch hx.symm.trans ha
        | cons y pre =>
          obtain ⟨rfl, rfl⟩ := List.cons.inj h
          exact ⟨pre, a, post, rfl, fun z hz => hpre z (List.mem_cons_of_mem _ hz), ha⟩

/-- A loop that computes something of each element before it goes on. -/
theorem foldlM_except {γ : Type} (g : α → Except ε β) (f : γ → β → γ) (l : List α) (c : γ) :
    l.foldlM (fun c a => g a >>= fun b => .ok (f c b)) c =
      l.mapM g >>= fun bs => .ok (bs.foldl f c) := by
  induction l generalizing c with
  | nil => rfl
  | cons a l ih =>
    rw [List.foldlM_cons, List.mapM_cons]
    cases g a with
    | error e => rfl
    | ok b =>
      refine (ih (f c b)).trans ?_
      cases l.mapM g with
      | error e => rfl
      | ok bs => rfl

theorem mapM_eq_some_iff {f : α → Option β} {l : List α} {l' : List β} :
    l.mapM f = some l' ↔ List.Forall₂ (fun a b => f a = some b) l l' := by
  induction l generalizing l' with
  | nil =>
    rw [List.mapM_nil, List.forall₂_nil_left_iff]
    exact ⟨fun h => (Option.some.inj h).symm, fun h => congrArg some h.symm⟩
  | cons a l ih =>
    rw [List.mapM_cons]
    constructor
    · intro h
      obtain ⟨b, ha, h⟩ := Option.bind_eq_some_iff.1 h
      obtain ⟨bs, hl, h⟩ := Option.bind_eq_some_iff.1 h
      obtain rfl := Option.some.inj h
      exact .cons ha (ih.1 hl)
    · rintro (_ | ⟨ha, hl⟩)
      rw [ha, ih.2 hl]
      rfl

variable {R : α → β → Prop} {l : List α} {l' : List β}

/-- Every element has its partner in the other list. -/
theorem exists_right_of_forall₂ (h : List.Forall₂ R l l') {a : α} (ha : a ∈ l) :
    ∃ b ∈ l', R a b := by
  induction h with
  | nil => cases ha
  | @cons x y l l' hxy _ ih =>
    rcases List.mem_cons.1 ha with rfl | ha
    · exact ⟨y, List.mem_cons_self, hxy⟩
    · obtain ⟨b, hb, hab⟩ := ih ha
      exact ⟨b, List.mem_cons_of_mem y hb, hab⟩

theorem exists_left_of_forall₂ (h : List.Forall₂ R l l') {b : β} (hb : b ∈ l') :
    ∃ a ∈ l, R a b := exists_right_of_forall₂ h.flip hb

end RagLeap
