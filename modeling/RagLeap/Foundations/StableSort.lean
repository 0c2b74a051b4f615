import Mathlib.Data.List.Nodup
import Mathlib.Data.List.Sort

/-!
# Stable sorting by a key

`sortDesc key l` sorts by falling keys and leaves elements of one key in their order, as a sort with
`reverse=True` does. `Before l a b` says that `a` stands before `b`; in a list without repetitions
exactly one of two elements is before the other, and `before_sortDesc_iff` says which of two it is
after sorting.
-/

namespace RagLeap

variable {α β κ : Type} {l : List α} {a b : α}

/-- `a` stands before `b` in `l`. -/
def Before (l : List α) (a b : α) : Prop := [a, b].Sublist l

theorem Before.map (f : α → β) (h : Before l a b) : Before (l.map f) (f a) (f b) :=
  List.Sublist.map f h

theorem Before.left_mem (h : Before l a b) : a ∈ l := h.subset List.mem_cons_self

theorem Before.right_mem (h : Before l a b) : b ∈ l :=
  h.subset (List.mem_cons_of_mem a List.mem_cons_self)

theorem before_cons {x : α} : Before (x :: l) a b ↔ Before l a b ∨ a = x ∧ b ∈ l := by
  rw [Before, Before, List.cons_sublist_cons']
  simp only [List.singleton_sublist]

theorem not_before_self (hn : l.Nodup) : ¬ Before l a a := by
  intro h
  have := hn.sublist h
  simp at this

/-- Of two elements one is before the other. -/
theorem before_or_before (ha : a ∈ l) (hb : b ∈ l) (hne : a ≠ b) : Before l a b ∨ Before l b a := by
  induction l with
  | nil => cases ha
  | cons x l ih =>
    rw [before_cons, before_cons]
    rcases List.mem_cons.1 ha with rfl | hal
    · exact .inl (.inr ⟨rfl, (List.mem_cons.1 hb).resolve_left hne.symm⟩)
    · rcases List.mem_cons.1 hb with rfl | hbl
      · exact .inr (.inr ⟨rfl, hal⟩)
      · exact (ih hal hbl).imp .inl .inl

theorem Before.not_before (hn : l.Nodup) (h : Before l a b) : ¬ Before l b a := by
  induction l with
  | nil => cases h
  | cons x l ih =>
    rw [List.nodup_cons] at hn
    rw [before_cons] at h ⊢
    rintro (hba | ⟨rfl, hal⟩)
    · rcases h with hab | ⟨rfl, -⟩
      · exact ih hn.2 hab hba
      · exact hn.1 hba.right_mem
    · rcases h with hab | ⟨rfl, hbl⟩
      · exact hn.1 hab.right_mem
      · exact hn.1 hbl

/-- A map that tells the elements apart keeps their order. -/
theorem before_map_iff {f : α → β} (hn : (l.map f).Nodup) (ha : a ∈ l) (hb : b ∈ l) :
    Before (l.map f) (f a) (f b) ↔ Before l a b := by
  refine ⟨fun h => ?_, Before.map f⟩
  have hne : a ≠ b := fun heq => not_before_self hn (heq ▸ h)
  exact (before_or_before ha hb hne).resolve_right fun hba => h.not_before hn (hba.map f)

/-- What a cut leaves of the later element it leaves of the earlier one. -/
theorem Before.take (hn : l.Nodup) (h : Before l a b) {n : ℕ} (hb : b ∈ l.take n) :
    Before (l.take n) a b := by
  have hab : Before (l.take n ++ l.drop n) a b := by rwa [List.take_append_drop]
  have hne : a ≠ b := fun heq => not_before_self hn (heq ▸ h)
  have ha : a ∈ l.take n := by
    rcases List.mem_append.1 hab.left_mem with ha | ha
    · exact ha
    · -- otherwise the later element would stand first
      have hba : Before (l.take n ++ l.drop n) b a :=
        (List.singleton_sublist.2 hb).append (List.singleton_sublist.2 ha)
      rw [List.take_append_drop] at hba
      exact absurd hba (h.not_before hn)
  refine (before_or_before ha hb hne).resolve_right fun hba => ?_
  exact h.not_before hn (hba.trans (List.take_sublist n l))

/-! ## Sorting -/

variable [LinearOrder κ]

/-- `sorted(l, key=key, reverse=True)`. -/
def sortDesc (key : α → κ) (l : List α) : List α := l.insertionSort fun a b => key b ≤ key a

variable (key : α → κ)

instance total_sortKey : Std.Total fun a b : α => key b ≤ key a := ⟨fun a b => le_total (key b) (key a)⟩

instance isTrans_sortKey : IsTrans α fun a b => key b ≤ key a := ⟨fun _ _ _ hab hbc => hbc.trans hab⟩

theorem sortDesc_perm (l : List α) : (sortDesc key l).Perm l := List.perm_insertionSort _ l

theorem mem_sortDesc : a ∈ sortDesc key l ↔ a ∈ l := (sortDesc_perm key l).mem_iff

theorem nodup_sortDesc : (sortDesc key l).Nodup ↔ l.Nodup := (sortDesc_perm key l).nodup_iff

theorem sortDesc_map (f : β → α) (l : List β) :
    sortDesc key (l.map f) = (sortDesc (key ∘ f) l).map f :=
  (List.map_insertionSort _ _ f l fun _ _ _ _ => Iff.rfl).symm

theorem le_of_before_sortDesc (h : Before (sortDesc key l) a b) : key b ≤ key a := by
  have hpairs := (List.pairwise_insertionSort (fun a b => key b ≤ key a) l).sublist h
  exact List.rel_of_pairwise_cons hpairs List.mem_cons_self

/-- The larger key comes first, and of equal keys the element that was first before. -/
theorem before_sortDesc_iff (hn : l.Nodup) (ha : a ∈ l) (hb : b ∈ l) (hne : a ≠ b) :
    Before (sortDesc key l) a b ↔ key b < key a ∨ key b = key a ∧ Before l a b := by
  have hn' := (nodup_sortDesc key).2 hn
  have htotal := before_or_before ((mem_sortDesc key).2 ha) ((mem_sortDesc key).2 hb) hne
  constructor
  · intro h
    rcases (le_of_before_sortDesc key h).lt_or_eq with hlt | heq
    · exact .inl hlt
    · refine .inr ⟨heq, (before_or_before ha hb hne).resolve_right fun hba => ?_⟩
      exact h.not_before hn' (List.pair_sublist_insertionSort heq.ge hba)
  · rintro (hlt | ⟨heq, hab⟩)
    · exact htotal.resolve_right fun hba => absurd (le_of_before_sortDesc key hba) (not_le.2 hlt)
    · exact List.pair_sublist_insertionSort heq.le hab

theorem nodup_map_sortDesc {f : α → β} : ((sortDesc key l).map f).Nodup ↔ (l.map f).Nodup :=
  ((sortDesc_perm key l).map f).nodup_iff

/-- The same for names that tell the elements apart. -/
theorem before_map_sortDesc_iff {f : α → β} (hn : (l.map f).Nodup) (ha : a ∈ l) (hb : b ∈ l)
    (hne : a ≠ b) : Before ((sortDesc key l).map f) (f a) (f b) ↔
      key b < key a ∨ key b = key a ∧ Before l a b := by
  rw [← before_sortDesc_iff key hn.of_map ha hb hne]
  exact before_map_iff ((nodup_map_sortDesc key).2 hn) ((mem_sortDesc key).2 ha)
    ((mem_sortDesc key).2 hb)

end RagLeap
