import Mathlib.Data.List.Basic
import Mathlib.Tactic.Common

/-!
# First-fit grouping

Entries are put, one after another, into the first group whose head they are like, or into a new
group. `find?_groups` describes the groups without building them: the heads are the entries like no
head before them, an entry goes with the first head it is like, and a group is what goes with one
head, in the order of the entries.
-/

namespace RagLeap.FirstFit

variable {α : Type} (like : α → α → Bool)

/-- The groups with an entry added to the first whose head it is like. -/
def place (a : α) : List (List α) → List (List α)
  | [] => [[a]]
  | group :: groups =>
    if group.head?.any (like a) then (group ++ [a]) :: groups else group :: place a groups

def groups (l : List α) : List (List α) := l.foldl (fun gs a => place like a gs) []

/-- The heads with an entry added if it is like none of them. -/
def addHead (hs : List α) (a : α) : List α := if hs.any (like a) then hs else hs ++ [a]

/-- The entries like no head before them. -/
def heads (l : List α) : List α := l.foldl (addHead like) []

/-- The head an entry goes with. -/
def headOf (l : List α) (a : α) : Option α := (heads like l).find? (like a)

/-- The entries that go with the head of `a`. -/
def companions [DecidableEq α] (l : List α) (a : α) : List α :=
  l.filter fun b => headOf like l b = headOf like l a

/-- The entries that are not like `h`. -/
abbrev unlike (h : α) (l : List α) : List α := l.filter fun a => !like a h

/-! ## The first group -/

theorem foldl_place (h : α) (group : List α) (gs : List (List α)) (l : List α) :
    l.foldl (fun gs a => place like a gs) ((h :: group) :: gs) =
      (h :: (group ++ l.filter (like · h))) ::
        (unlike like h l).foldl (fun gs a => place like a gs) gs := by
  induction l generalizing group gs with
  | nil => simp
  | cons a l ih =>
    rw [List.foldl_cons, place, List.head?_cons, Option.any_some]
    by_cases ha : like a h = true
    · rw [if_pos ha, List.cons_append, ih]
      simp [ha]
    · rw [if_neg ha, ih]
      simp [ha]

theorem groups_cons (h : α) (l : List α) :
    groups like (h :: l) = (h :: l.filter (like · h)) :: groups like (unlike like h l) := by
  rw [groups, List.foldl_cons, place, foldl_place, List.nil_append, groups]

theorem foldl_addHead (h : α) (hs l : List α) :
    l.foldl (addHead like) (h :: hs) = h :: (unlike like h l).foldl (addHead like) hs := by
  induction l generalizing hs with
  | nil => rfl
  | cons a l ih =>
    rw [List.foldl_cons]
    by_cases ha : like a h = true
    · rw [addHead, List.any_cons, ha, Bool.true_or, if_pos rfl, ih]
      simp [ha]
    · have hstep : addHead like (h :: hs) a = h :: addHead like hs a := by
        simp only [addHead, List.any_cons, ha, Bool.false_or, Bool.not_eq_true] at *
        split_ifs <;> simp_all
      rw [hstep, ih]
      simp [ha]

theorem heads_cons (h : α) (l : List α) :
    heads like (h :: l) = h :: heads like (unlike like h l) := by
  rw [heads, List.foldl_cons]
  exact foldl_addHead like h [] l

theorem headOf_cons (h : α) (l : List α) (a : α) :
    headOf like (h :: l) a =
      if like a h then some h else headOf like (unlike like h l) a := by
  rw [headOf, heads_cons, List.find?_cons]
  cases like a h <;> rfl

theorem mem_of_mem_heads {l : List α} {h : α} (hh : h ∈ heads like l) : h ∈ l := by
  have hfold : ∀ hs, h ∈ l.foldl (addHead like) hs → h ∈ hs ∨ h ∈ l := by
    clear hh
    induction l with
    | nil => exact fun hs => .inl
    | cons a l ih =>
      intro hs hmem
      rcases ih _ hmem with hadd | hl
      · unfold addHead at hadd
        split_ifs at hadd
        · exact .inl hadd
        · rcases List.mem_append.1 hadd with hhs | ha
          · exact .inl hhs
          · exact .inr (List.mem_singleton.1 ha ▸ List.mem_cons_self)
      · exact .inr (List.mem_cons_of_mem a hl)
  exact (hfold [] hh).resolve_left List.not_mem_nil

theorem headOf_mem {l : List α} {a h : α} (hh : headOf like l a = some h) : h ∈ l :=
  mem_of_mem_heads like (List.mem_of_find?_eq_some hh)

theorem mem_of_mem_groups {l : List α} {g : List α} {a : α} (hg : g ∈ groups like l) (ha : a ∈ g) :
    a ∈ l := by
  induction hn : l.length using Nat.strongRecOn generalizing l with
  | _ n ih =>
    cases l with
    | nil => exact absurd hg List.not_mem_nil
    | cons h l =>
      rw [groups_cons] at hg
      rcases List.mem_cons.1 hg with rfl | hrest
      · exact (List.mem_cons.1 ha).elim (· ▸ List.mem_cons_self) fun hl =>
          List.mem_cons_of_mem h (List.mem_filter.1 hl).1
      · have hlt : (unlike like h l).length < n :=
          hn ▸ Nat.lt_succ_of_le (List.length_filter_le _ l)
        exact List.mem_cons_of_mem h (List.mem_filter.1 (ih _ hlt hrest rfl)).1

theorem find?_groups_of_notMem {p : List α → Bool} {a : α} (hp : ∀ g, p g ↔ a ∈ g) {l : List α}
    (ha : a ∉ l) : (groups like l).find? p = none := by
  apply List.find?_eq_none.2
  intro g hg hag
  exact ha (mem_of_mem_groups like hg ((hp g).1 hag))

/-! ## Every group -/

variable [DecidableEq α] {like}

omit [DecidableEq α] in
/-- An entry alike itself is not among the entries unlike it, so it heads none of their groups. -/
theorem headOf_unlike_ne (hlike : ∀ a, like a a) (h : α) (l : List α) (a : α) :
    headOf like (unlike like h l) a ≠ some h := fun hh => by
  have := (List.mem_filter.1 (headOf_mem like hh)).2
  simp [hlike h] at this

theorem companions_of_like (hlike : ∀ a, like a a) {h a : α} (l : List α) (ha : like a h) :
    companions like (h :: l) a = h :: l.filter (like · h) := by
  have hiff : ∀ b, headOf like (h :: l) b = headOf like (h :: l) a ↔ like b h := fun b => by
    rw [headOf_cons, headOf_cons, if_pos ha]
    split_ifs with hb
    · simp [hb]
    · simp [hb, headOf_unlike_ne hlike]
  simp only [companions, hiff, Bool.decide_eq_true]
  exact List.filter_cons_of_pos (p := (like · h)) (hlike h)

theorem companions_of_unlike (hlike : ∀ a, like a a) {h a : α} (l : List α) (ha : ¬ like a h) :
    companions like (h :: l) a = companions like (unlike like h l) a := by
  have hiff : ∀ b, headOf like (h :: l) b = headOf like (h :: l) a ↔
      ¬ like b h ∧ headOf like (unlike like h l) b = headOf like (unlike like h l) a := fun b => by
    rw [headOf_cons, headOf_cons, if_neg ha]
    split_ifs with hb
    · simp [hb, (headOf_unlike_ne hlike h l a).symm]
    · simp [hb]
  rw [companions, companions, List.filter_cons_of_neg (by simp [hiff, hlike h]), List.filter_filter]
  refine List.filter_congr fun b _ => ?_
  simp [hiff, Bool.and_comm]

/-- The groups with an entry are what goes with its head, and there is one. -/
theorem mem_groups_iff (hlike : ∀ a, like a a) {l : List α} {a : α} (ha : a ∈ l) {g : List α} :
    g ∈ groups like l ∧ a ∈ g ↔ g = companions like l a := by
  induction hn : l.length using Nat.strongRecOn generalizing l with
  | _ n ih =>
    cases l with
    | nil => exact absurd ha List.not_mem_nil
    | cons h l =>
      rw [groups_cons, List.mem_cons]
      by_cases hah : like a h
      · -- only the first group takes what is like its head
        have hfirst : a ∈ h :: l.filter (like · h) :=
          (List.mem_cons.1 ha).elim (· ▸ List.mem_cons_self) fun hl =>
            List.mem_cons_of_mem h (List.mem_filter.2 ⟨hl, hah⟩)
        have hrest : ∀ g ∈ groups like (unlike like h l), a ∉ g := fun g hg hag => by
          have := (List.mem_filter.1 (mem_of_mem_groups like hg hag)).2
          simp [hah] at this
        rw [companions_of_like hlike l hah]
        constructor
        · rintro ⟨rfl | hg, hag⟩
          · rfl
          · exact absurd hag (hrest g hg)
        · rintro rfl
          exact ⟨.inl rfl, hfirst⟩
      · have hne : a ≠ h := fun heq => hah (heq ▸ hlike a)
        have hmem : a ∈ unlike like h l :=
          List.mem_filter.2 ⟨(List.mem_cons.1 ha).resolve_left hne, by simp [hah]⟩
        have hlt : (unlike like h l).length < n :=
          hn ▸ Nat.lt_succ_of_le (List.length_filter_le _ l)
        have hnot : a ∉ h :: l.filter (like · h) := by simp [hne, hah]
        rw [companions_of_unlike hlike l hah, ← ih _ hlt hmem rfl]
        constructor
        · rintro ⟨rfl | hg, hag⟩
          · exact absurd hag hnot
          · exact ⟨hg, hag⟩
        · rintro ⟨hg, hag⟩
          exact ⟨.inr hg, hag⟩

/-- The first group with an entry is what goes with its head. -/
theorem find?_groups (hlike : ∀ a, like a a) {p : List α → Bool} {a : α}
    (hp : ∀ g, p g ↔ a ∈ g) (l : List α) (ha : a ∈ l) :
    (groups like l).find? p = some (companions like l a) := by
  obtain ⟨hg, hag⟩ := (mem_groups_iff hlike ha).2 rfl
  cases hfind : (groups like l).find? p with
  | none => exact absurd ((hp _).2 hag) (List.find?_eq_none.1 hfind _ hg)
  | some g =>
    have hmem := (hp g).1 (List.find?_some hfind)
    rw [(mem_groups_iff hlike ha).1 ⟨List.mem_of_find?_eq_some hfind, hmem⟩]

theorem mem_companions {l : List α} {a b : α} :
    b ∈ companions like l a ↔ b ∈ l ∧ headOf like l b = headOf like l a := by
  rw [companions, List.mem_filter, decide_eq_true_iff]

theorem companions_congr {l : List α} {a b : α} (h : headOf like l a = headOf like l b) :
    companions like l a = companions like l b := by
  rw [companions, companions, h]

end RagLeap.FirstFit
