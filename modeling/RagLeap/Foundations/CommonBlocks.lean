import Mathlib

/-!
# Common blocks of two lists

A block is a run of elements that stands at `i` in one list and at `j` in another. Blocks one after
the other in both lists (`Blocks`) are the elements of a common subsequence
(`Blocks.exists_sublist`), so they hold no more elements than either list, and as many only where
the lists are equal.
-/

namespace RagLeap

open scoped List

variable {α : Type} {a b : List α}

/-- A part of each of two lists, by its ends. -/
structure Region where
  alo : ℕ
  ahi : ℕ
  blo : ℕ
  bhi : ℕ
  deriving DecidableEq

/-- `size` elements from `i` on in one list, from `j` on in another. -/
structure Block where
  i : ℕ
  j : ℕ
  size : ℕ
  deriving DecidableEq

/-- The block lies in the region and holds the same elements in both lists. -/
structure Block.CommonIn (a b : List α) (r : Region) (m : Block) : Prop where
  le_i : r.alo ≤ m.i
  i_le : m.i + m.size ≤ r.ahi
  le_j : r.blo ≤ m.j
  j_le : m.j + m.size ≤ r.bhi
  same : ∀ d < m.size, a[m.i + d]? = b[m.j + d]?

/-! ## Blocks by their ends -/

theorem Block.CommonIn.mono {r r' : Region} {m : Block} (h : m.CommonIn a b r)
    (halo : r'.alo ≤ r.alo) (hahi : r.ahi ≤ r'.ahi) (hblo : r'.blo ≤ r.blo)
    (hbhi : r.bhi ≤ r'.bhi) : m.CommonIn a b r' :=
  ⟨Nat.le_trans halo h.le_i, Nat.le_trans h.i_le hahi, Nat.le_trans hblo h.le_j,
    Nat.le_trans h.j_le hbhi, h.same⟩

/-- A common block of `k` elements that ends before `i` and `j`. -/
def CommonTail (a b : List α) (alo blo i j k : ℕ) : Prop :=
  Block.CommonIn a b ⟨alo, i, blo, j⟩ ⟨i - k, j - k, k⟩

theorem commonTail_zero {alo blo i j : ℕ} (hi : alo ≤ i) (hj : blo ≤ j) :
    CommonTail a b alo blo i j 0 :=
  ⟨hi, Nat.le_refl _, hj, Nat.le_refl _, fun _ hd => absurd hd (Nat.not_lt_zero _)⟩

/-- A common element makes the block before it longer. -/
theorem CommonTail.succ {alo blo i j k : ℕ} (h : CommonTail a b alo blo i j k)
    (hij : a[i]? = b[j]?) :
    CommonTail a b alo blo (i + 1) (j + 1) (k + 1) := by
  have hi := h.i_le
  have hj := h.j_le
  dsimp only at hi hj
  rw [CommonTail, Nat.add_sub_add_right, Nat.add_sub_add_right]
  refine ⟨h.le_i, by dsimp only; omega, h.le_j, by dsimp only; omega, fun d hd => ?_⟩
  rcases Nat.lt_succ_iff_lt_or_eq.1 hd with hlt | rfl
  · exact h.same d hlt
  · dsimp only
    rwa [Nat.sub_add_cancel (by omega), Nat.sub_add_cancel (by omega)]

/-- Numbers of elements, by the place in `b` where a common block ends, of blocks that end before
`i` in `a`. -/
def CommonTails (a b : List α) (alo blo i : ℕ) (j2len : ℕ → ℕ) : Prop :=
  ∀ j, blo ≤ j + 1 → CommonTail a b alo blo i (j + 1) (j2len j)

theorem commonTails_zero {alo blo i : ℕ} (hi : alo ≤ i) : CommonTails a b alo blo i fun _ => 0 :=
  fun _ hj => commonTail_zero hi hj

/-! ## Blocks in a row -/

/-- The blocks lie one after the other in the region, in both lists. -/
def Blocks (a b : List α) : Region → List Block → Prop
  | _, [] => True
  | r, m :: l => m.CommonIn a b r ∧ Blocks a b ⟨m.i + m.size, r.ahi, m.j + m.size, r.bhi⟩ l

/-- The number of elements in the blocks. -/
def Blocks.total (l : List Block) : ℕ := (l.map Block.size).sum

@[simp] theorem Blocks.total_nil : Blocks.total [] = 0 := rfl

@[simp] theorem Blocks.total_cons (m : Block) (l : List Block) :
    Blocks.total (m :: l) = m.size + Blocks.total l := by
  rw [Blocks.total, List.map_cons, List.sum_cons, ← Blocks.total]

@[simp] theorem Blocks.total_append (l l' : List Block) :
    Blocks.total (l ++ l') = Blocks.total l + Blocks.total l' := by
  rw [Blocks.total, List.map_append, List.sum_append, ← Blocks.total, ← Blocks.total]

/-- Blocks before a block, the block, and blocks after it. -/
theorem Blocks.append {r : Region} {m : Block} {l l' : List Block} (hm : m.CommonIn a b r)
    (h : Blocks a b ⟨r.alo, m.i, r.blo, m.j⟩ l)
    (h' : Blocks a b ⟨m.i + m.size, r.ahi, m.j + m.size, r.bhi⟩ l') :
    Blocks a b r (l ++ m :: l') := by
  induction l generalizing r with
  | nil => exact ⟨hm, h'⟩
  | cons m' l ih =>
    obtain ⟨hm', hl⟩ := h
    have hi := hm'.i_le
    have hj := hm'.j_le
    have hi' := hm.i_le
    have hj' := hm.j_le
    dsimp only at hi hj
    exact ⟨⟨hm'.le_i, by omega, hm'.le_j, by omega, hm'.same⟩,
      ih ⟨hi, hm.i_le, hj, hm.j_le, hm.same⟩ hl h'⟩

/-- The elements of a block, from either list. -/
theorem Block.CommonIn.take_drop {r : Region} {m : Block} (h : m.CommonIn a b r) :
    (a.drop m.i).take m.size = (b.drop m.j).take m.size := by
  refine List.ext_getElem? fun d => ?_
  rw [List.getElem?_take, List.getElem?_take, List.getElem?_drop, List.getElem?_drop]
  split
  · rename_i hd
    exact h.same d hd
  · rfl

theorem length_take_drop {l : List α} {i n : ℕ} (h : i + n ≤ l.length) :
    ((l.drop i).take n).length = n := by
  rw [List.length_take, List.length_drop]
  omega

/-- A block and a subsequence of what follows it are a subsequence of what follows its start. -/
theorem sublist_drop {l s : List α} {lo i n : ℕ} (hlo : lo ≤ i) (hs : s <+ l.drop (i + n)) :
    (l.drop i).take n ++ s <+ l.drop lo := by
  have hblock : (l.drop i).take n ++ s <+ l.drop i := by
    have hsplit := List.take_append_drop n (l.drop i)
    rw [List.drop_drop] at hsplit
    calc (l.drop i).take n ++ s <+ (l.drop i).take n ++ l.drop (i + n) := hs.append_left _
      _ = l.drop i := hsplit
  obtain ⟨k, rfl⟩ := Nat.exists_eq_add_of_le hlo
  rw [← List.drop_drop] at hblock ⊢
  exact hblock.trans (List.drop_sublist _ _)

/-- **Blocks are a common subsequence.** -/
theorem Blocks.exists_sublist {r : Region} {l : List Block} (ha : r.ahi ≤ a.length)
    (h : Blocks a b r l) :
    ∃ s : List α, s.length = Blocks.total l ∧ s <+ a.drop r.alo ∧ s <+ b.drop r.blo := by
  induction l generalizing r with
  | nil => exact ⟨[], rfl, List.nil_sublist _, List.nil_sublist _⟩
  | cons m l ih =>
    obtain ⟨hm, hl⟩ := h
    obtain ⟨s, hlen, hsa, hsb⟩ := @ih ⟨m.i + m.size, r.ahi, m.j + m.size, r.bhi⟩ ha hl
    refine ⟨(a.drop m.i).take m.size ++ s, ?_, sublist_drop hm.le_i hsa, ?_⟩
    · rw [List.length_append, length_take_drop (Nat.le_trans hm.i_le ha), hlen, Blocks.total_cons]
    · rw [hm.take_drop]
      exact sublist_drop hm.le_j hsb

/-- The lists as a region. -/
def Region.whole (a b : List α) : Region := ⟨0, a.length, 0, b.length⟩

theorem Blocks.common {l : List Block} (h : Blocks a b (.whole a b) l) :
    ∃ s : List α, s.length = Blocks.total l ∧ s <+ a ∧ s <+ b :=
  h.exists_sublist (Nat.le_refl _)

theorem Blocks.total_le {l : List Block} (h : Blocks a b (.whole a b) l) :
    Blocks.total l ≤ a.length ∧ Blocks.total l ≤ b.length := by
  obtain ⟨s, hlen, hsa, hsb⟩ := h.common
  rw [← hlen]
  exact ⟨hsa.length_le, hsb.length_le⟩

/-- Blocks with all the elements of both lists. -/
theorem Blocks.eq_of_total {l : List Block} (h : Blocks a b (.whole a b) l)
    (htotal : 2 * Blocks.total l = a.length + b.length) : a = b := by
  obtain ⟨s, hlen, hsa, hsb⟩ := h.common
  have hle := h.total_le
  have heqa : s = a := hsa.eq_of_length (by omega)
  have heqb : s = b := hsb.eq_of_length (by omega)
  exact heqa.symm.trans heqb

end RagLeap
