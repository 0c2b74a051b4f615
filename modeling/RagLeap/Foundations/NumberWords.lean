import Mathlib
import RagLeap.Foundations.Text

/-!
# Numbers in words

A number is spoken in groups of three digits, the highest first; a group is followed by the name of
its scale, and a group that is zero is not spoken. `reads_groups` is the rule for a reader of such
words: what it does with one group gives what it does with the number. The last section has the
standard spellings of English and Turkish.
-/

namespace RagLeap.NumberWords

/-! ## Groups of three digits -/

section

variable {W : Type}

/-- The words of a number below `1000 ^ (k + 1)`, from the words of the groups: whether words come
before, the scale and the group. -/
def groups (part : Bool → ℕ → ℕ → List W) : ℕ → Bool → ℕ → List W
  | 0, spoken, n => part spoken 0 n
  | k + 1, spoken, n =>
    part spoken (k + 1) (n / 1000 ^ (k + 1)) ++
      groups part k (spoken || n / 1000 ^ (k + 1) ≠ 0) (n % 1000 ^ (k + 1))

theorem group_lt {n k : ℕ} (h : n < 1000 ^ (k + 2)) : n / 1000 ^ (k + 1) < 1000 := by
  rw [Nat.div_lt_iff_lt_mul (Nat.pow_pos (by omega))]
  rwa [Nat.pow_succ'] at h

/-- A number below a thousand is one group. -/
theorem groups_of_lt {part : Bool → ℕ → ℕ → List W} (hzero : ∀ spoken k, part spoken k 0 = [])
    (k : ℕ) (spoken : Bool) {n : ℕ} (h : n < 1000) : groups part k spoken n = part spoken 0 n := by
  induction k generalizing spoken with
  | zero => rfl
  | succ k ih =>
    have hlt : n < 1000 ^ (k + 1) :=
      h.trans_le (Nat.le_self_pow (Nat.succ_ne_zero k) 1000)
    rw [groups, Nat.div_eq_of_lt hlt, Nat.mod_eq_of_lt hlt, hzero, ih]
    simp

/-- A number from a thousand on has a group with the name of a scale. -/
theorem exists_part_subset (part : Bool → ℕ → ℕ → List W) {k : ℕ} (spoken : Bool) {n : ℕ}
    (h : 1000 ≤ n) (hn : n < 1000 ^ (k + 1)) : ∃ spoken' j g, j < k ∧ g ≠ 0 ∧
      part spoken' (j + 1) g ⊆ groups part k spoken n := by
  induction k generalizing spoken n with
  | zero => omega
  | succ k ih =>
    rw [groups]
    by_cases hdiv : n / 1000 ^ (k + 1) = 0
    · have hlt : n < 1000 ^ (k + 1) := (Nat.div_eq_zero_iff_lt (Nat.pow_pos (by omega))).1 hdiv
      obtain ⟨spoken', j, g, hj, hg, hsub⟩ := ih (spoken || n / 1000 ^ (k + 1) ≠ 0) h hlt
      rw [Nat.mod_eq_of_lt hlt]
      exact ⟨spoken', j, g, Nat.lt_succ_of_lt hj, hg, fun w hw => List.mem_append_right _ (hsub hw)⟩
    · exact ⟨spoken, k, _, Nat.lt_succ_self k, hdiv, fun w hw => List.mem_append_left _ hw⟩

theorem spoken_div_mod (spoken : Bool) (n s : ℕ) :
    (spoken || decide (n / s ≠ 0) || decide (n % s ≠ 0)) = (spoken || decide (n ≠ 0)) := by
  have hn := Nat.div_add_mod n s
  by_cases hdiv : n / s = 0
  · rw [hdiv, Nat.mul_zero, Nat.zero_add] at hn
    simp [hdiv, hn]
  · have hne : n ≠ 0 := fun h0 => hdiv (by rw [h0, Nat.zero_div])
    simp [hdiv, hne]

/-- A reader that reads every group reads the number. `At k spoken t r` says that `r` has read the
groups above `k`, which are worth `t`. -/
theorem reads_groups {σ : Type} {part : Bool → ℕ → ℕ → List W} (read : σ → W → σ)
    (At : ℕ → Bool → ℕ → σ → Prop) (Done : Bool → ℕ → σ → Prop) {k : ℕ}
    (hpart : ∀ j < k, ∀ spoken t r g, g < 1000 → At (j + 1) spoken t r →
      At j (spoken || g ≠ 0) (t + g * 1000 ^ (j + 1)) ((part spoken (j + 1) g).foldl read r))
    (hlast : ∀ spoken t r g, g < 1000 → At 0 spoken t r →
      Done (spoken || g ≠ 0) (t + g) ((part spoken 0 g).foldl read r))
    {spoken : Bool} {t : ℕ} {r : σ} (hr : At k spoken t r) {n : ℕ} (hn : n < 1000 ^ (k + 1)) :
    Done (spoken || n ≠ 0) (t + n) ((groups part k spoken n).foldl read r) := by
  induction k generalizing spoken t r n with
  | zero => exact hlast spoken t r n (by simpa using hn) hr
  | succ k ih =>
    have hstep := hpart k (Nat.lt_succ_self k) spoken t r _ (group_lt hn) hr
    have hrest := ih (fun j hj => hpart j (Nat.lt_succ_of_lt hj)) hstep
      (Nat.mod_lt n (Nat.pow_pos (by omega)))
    have hsum : t + n / 1000 ^ (k + 1) * 1000 ^ (k + 1) + n % 1000 ^ (k + 1) = t + n := by
      rw [Nat.add_assoc, Nat.mul_comm, Nat.div_add_mod]
    rw [spoken_div_mod, hsum] at hrest
    rw [groups, List.foldl_append]
    exact hrest

end

/-! ## English -/

namespace English

def ONES : List Str :=
  ["zero", "one", "two", "three", "four", "five", "six", "seven", "eight", "nine", "ten", "eleven",
    "twelve", "thirteen", "fourteen", "fifteen", "sixteen", "seventeen", "eighteen",
    "nineteen"].map String.toList

/-- The tens from twenty on. -/
def TENS : List Str :=
  ["twenty", "thirty", "forty", "fifty", "sixty", "seventy", "eighty", "ninety"].map String.toList

def hundred : Str := "hundred".toList

/-- The short scale. -/
def SCALES : List Str := ["thousand", "million", "billion"].map String.toList

def conjunction : Str := "and".toList

/-- The name of a number below twenty. -/
def one (n : ℕ) : Str := ONES.getD n []

/-- The name of ten times a number from two on. -/
def ten (n : ℕ) : Str := TENS.getD (n - 2) []

/-- The name of `1000 ^ k`. -/
def scale (k : ℕ) : Str := SCALES.getD (k - 1) []

/-- A positive number below a hundred. -/
def belowHundred (n : ℕ) : List Str :=
  if n < 20 then [one n]
  else if n % 10 = 0 then [ten (n / 10)]
  else [ten (n / 10), one (n % 10)]

/-- Where an "and" is said: after the hundred in the group of a scale, and before the group of a
scale, which is after the name of a higher one. -/
structure Ands where
  hundred : ℕ → Bool
  scale : ℕ → Bool

def Ands.never : Ands := ⟨fun _ => false, fun _ => false⟩

def join (b : Bool) : List Str := if b then [conjunction] else []

/-- A positive number below a thousand. -/
def belowThousand (b : Bool) (n : ℕ) : List Str :=
  if n < 100 then belowHundred n
  else [one (n / 100), hundred] ++
    if n % 100 = 0 then [] else join b ++ belowHundred (n % 100)

/-- The group of `1000 ^ k` with its name. -/
def part (ands : Ands) (spoken : Bool) (k g : ℕ) : List Str :=
  if g = 0 then []
  else join (spoken && ands.scale k) ++ belowThousand (ands.hundred k) g ++
    if k = 0 then [] else [scale k]

/-- A number below `10 ^ 12` in English. -/
def spelled (ands : Ands) (n : ℕ) : List Str :=
  if n = 0 then [one 0] else groups (part ands) 3 false n

end English

/-! ## Turkish -/

namespace Turkish

def ONES : List Str :=
  ["sıfır", "bir", "iki", "üç", "dört", "beş", "altı", "yedi", "sekiz", "dokuz"].map String.toList

/-- The tens from ten on. -/
def TENS : List Str :=
  ["on", "yirmi", "otuz", "kırk", "elli", "altmış", "yetmiş", "seksen", "doksan"].map String.toList

def hundred : Str := "yüz".toList

def SCALES : List Str := ["bin", "milyon", "milyar", "trilyon", "katrilyon"].map String.toList

def one (n : ℕ) : Str := ONES.getD n []

def ten (n : ℕ) : Str := TENS.getD (n - 1) []

/-- The name of `1000 ^ k`. -/
def scale (k : ℕ) : Str := SCALES.getD (k - 1) []

/-- One hundred is bare. -/
def hundreds (n : ℕ) : List Str :=
  if n = 0 then [] else if n = 1 then [hundred] else [one n, hundred]

/-- A number below a thousand; nothing for zero. -/
def belowThousand (n : ℕ) : List Str :=
  hundreds (n / 100) ++ (if n % 100 / 10 = 0 then [] else [ten (n % 100 / 10)]) ++
    if n % 10 = 0 then [] else [one (n % 10)]

/-- The group of `1000 ^ k` with its name; one thousand is bare. -/
def part (_spoken : Bool) (k g : ℕ) : List Str :=
  if g = 0 then []
  else if k = 0 then belowThousand g
  else if k = 1 ∧ g = 1 then [scale 1]
  else belowThousand g ++ [scale k]

/-- A number below `10 ^ 18` in Turkish. -/
def spelled (n : ℕ) : List Str := if n = 0 then [one 0] else groups part 5 false n

end Turkish

end RagLeap.NumberWords
