import Mathlib.Data.Finset.Image
import RagLeap.Foundations.Raising
import RagLeap.Foundations.Text

/-!
# Fields of a crontab expression

A field is a list of elements between commas: `*`, a number or a name, a range of two of these, with
a step after a slash in the first case and the last. What it stands for depends on a `Numbering`:
the greatest number, the place of each name in the order and the value of each number. An element
that the numbering does not allow leaves the field without a meaning.
-/

namespace RagLeap.CronField

/-! ## Syntax -/

/-- A number or a name. -/
inductive Bound (ν : Type)
  | number (n : ℕ)
  | name (d : ν)
  deriving DecidableEq

/-- An element of a field; a single number or name is a range from it to itself. -/
inductive Element (ν : Type)
  | star (step : ℕ)
  | span (first last : Bound ν) (step : ℕ)
  deriving DecidableEq

/-- A text of the digits `0` to `9`. -/
def IsNumber (w : Str) : Prop := w ≠ [] ∧ w.all Char.isDigit = true

instance (w : Str) : Decidable (IsNumber w) := inferInstanceAs (Decidable (_ ∧ _))

def number (w : Str) : ℕ := w.foldl (fun n c => 10 * n + (c.toNat - '0'.toNat)) 0

/-- What stands before the first `c` of a text and what after it. -/
def cut (c : Char) (w : Str) : Str × Str := (w.takeWhile (· ≠ c), (w.dropWhile (· ≠ c)).tail)

section

variable {ν : Type} (readName : Str → Option ν)

def readBound (w : Str) : Option (Bound ν) :=
  if IsNumber w then some (.number (number w)) else (readName w).map .name

def readSpan (w : Str) (step : ℕ) : Option (Element ν) :=
  if '-' ∈ w then do
    let first ← readBound readName (cut '-' w).1
    let last ← readBound readName (cut '-' w).2
    some (.span first last step)
  else (readBound readName w).map fun bound => .span bound bound step

def readElement (w : Str) : Option (Element ν) :=
  if '/' ∈ w then
    let base := (cut '/' w).1
    let step := (cut '/' w).2
    if ¬ IsNumber step then none
    else if base = ['*'] then some (.star (number step))
    else if '-' ∈ base then readSpan readName base (number step)
    else none
  else if w = ['*'] then some (.star 1)
  else readSpan readName w 1

/-- The elements of a field. -/
def readField (field : Str) : Option (List (Element ν)) :=
  (field.splitOn ',').mapM (readElement readName)

variable {readName}

/-- Texts without a comma, put together to a field, are its elements. -/
theorem readField_intercalate {ws : List Str} (hne : ws ≠ []) (hcomma : ∀ w ∈ ws, ',' ∉ w) :
    readField readName ([','].intercalate ws) = ws.mapM (readElement readName) := by
  rw [readField, List.splitOn_intercalate ',' hcomma hne]

theorem cut_append {c : Char} {w : Str} (h : c ∈ w) : (cut c w).1 ++ c :: (cut c w).2 = w := by
  induction w with
  | nil => exact absurd h List.not_mem_nil
  | cons x w ih =>
    by_cases hx : x = c
    · subst hx
      simp [cut]
    · have hw := ih ((List.mem_cons.1 h).resolve_left (Ne.symm hx))
      simpa [cut, hx] using hw

theorem isAscii_append_cons {c : Char} {u v : Str} :
    IsAscii (u ++ c :: v) ↔ IsAscii u ∧ c.toNat < 128 ∧ IsAscii v := by
  simp only [IsAscii, List.forall_mem_append, List.forall_mem_cons]

theorem IsNumber.isAscii {w : Str} (h : IsNumber w) : IsAscii w := by
  intro c hc
  have hdigit := List.all_eq_true.1 h.2 c hc
  simp only [Char.isDigit, Bool.and_eq_true, decide_eq_true_eq, UInt32.le_iff_toNat_le] at hdigit
  have hle : c.toNat ≤ 57 := hdigit.2
  omega

section

variable (hname : ∀ w d, readName w = some d → IsAscii w)

include hname

theorem isAscii_of_readBound {w : Str} {bound : Bound ν} (h : readBound readName w = some bound) :
    IsAscii w := by
  rw [readBound] at h
  split_ifs at h with hnumber
  · exact hnumber.isAscii
  · obtain ⟨d, hd, -⟩ := Option.map_eq_some_iff.1 h
    exact hname w d hd

theorem isAscii_of_readSpan {w : Str} {step : ℕ} {p : Element ν}
    (h : readSpan readName w step = some p) : IsAscii w := by
  rw [readSpan] at h
  split_ifs at h with hdash
  · obtain ⟨first, hfirst, h⟩ := Option.bind_eq_some_iff.1 h
    obtain ⟨last, hlast, -⟩ := Option.bind_eq_some_iff.1 h
    rw [← cut_append hdash, isAscii_append_cons]
    exact ⟨isAscii_of_readBound hname hfirst, by decide, isAscii_of_readBound hname hlast⟩
  · obtain ⟨bound, hbound, -⟩ := Option.map_eq_some_iff.1 h
    exact isAscii_of_readBound hname hbound

/-- An element has no other characters than ASCII ones. -/
theorem isAscii_of_readElement {w : Str} {p : Element ν} (h : readElement readName w = some p) :
    IsAscii w := by
  have hstar : IsAscii ['*'] := by decide
  rw [readElement] at h
  dsimp only at h
  split_ifs at h with hslash hstep hbase hdash hall
  · rw [← cut_append hslash, isAscii_append_cons, hbase]
    exact ⟨hstar, by decide, hstep.isAscii⟩
  · rw [← cut_append hslash, isAscii_append_cons]
    exact ⟨isAscii_of_readSpan hname h, by decide, hstep.isAscii⟩
  · exact hall ▸ hstar
  · exact isAscii_of_readSpan hname h

/-- A field with another character has no meaning. -/
theorem isAscii_of_readField {field : Str} {elements : List (Element ν)}
    (h : readField readName field = some elements) : ∀ w ∈ field.splitOn ',', IsAscii w := by
  intro w hw
  obtain ⟨p, -, hp⟩ := exists_right_of_forall₂ (mapM_eq_some_iff.1 h) hw
  exact isAscii_of_readElement hname hp

end

end

/-! ## Meaning -/

/-- Numbers up to `last` with their values, and the numbers that the names are short for. -/
structure Numbering (ν α : Type) where
  last : ℕ
  index : ν → ℕ
  value : ℕ → α

variable {ν α : Type} (num : Numbering ν α)

def Bound.index : Bound ν → ℕ
  | .number n => n
  | .name d => num.index d

/-- Whether a numbering allows an element. -/
def Element.Valid : Element ν → Prop
  | .star step => 0 < step
  | .span first last step => 0 < step ∧ first.index num ≤ last.index num ∧ last.index num ≤ num.last

instance : DecidablePred (Element.Valid num)
  | .star step => inferInstanceAs (Decidable (0 < step))
  | .span _ _ _ => inferInstanceAs (Decidable (_ ∧ _ ∧ _))

/-- The numbers of an element: every `step`-th from the first on. -/
def Element.numbers : Element ν → List ℕ
  | .star step => (List.range (num.last + 1)).filter (step ∣ ·)
  | .span first last step =>
    (List.range' (first.index num) (last.index num + 1 - first.index num)).filter
      (step ∣ · - first.index num)

variable [DecidableEq α]

/-- The values of an element. -/
def Element.values (p : Element ν) : Finset α := ((p.numbers num).map num.value).toFinset

/-- What a list of elements stands for, if the numbering allows them. -/
def meaning (elements : List (Element ν)) : Option (Finset α) :=
  if ∀ p ∈ elements, p.Valid num then
    some (elements.flatMap fun p => (p.numbers num).map num.value).toFinset
  else none

/-- What a field stands for. -/
def fieldMeaning (readName : Str → Option ν) (field : Str) : Option (Finset α) :=
  (readField readName field).bind (meaning num)

variable {num}

theorem meaning_of_valid {elements : List (Element ν)} (h : ∀ p ∈ elements, p.Valid num) :
    meaning num elements =
      some (elements.flatMap fun p => (p.numbers num).map num.value).toFinset :=
  if_pos h

theorem meaning_eq_none_iff {elements : List (Element ν)} :
    meaning num elements = none ↔ ∃ p ∈ elements, ¬ p.Valid num := by
  rw [meaning]
  split_ifs with h
  · exact iff_of_false nofun fun ⟨p, hp, hnot⟩ => hnot (h p hp)
  · push Not at h
    exact iff_of_true rfl h

theorem mem_meaning {elements : List (Element ν)} {x : α} :
    x ∈ (elements.flatMap fun p => (p.numbers num).map num.value).toFinset ↔
      ∃ p ∈ elements, x ∈ p.values num := by
  simp only [List.mem_toFinset, List.mem_flatMap, Element.values]

/-- Lists of elements with equal values mean the same. -/
theorem meaning_eq_meaning_iff {num' : Numbering ν α} {elements : List (Element ν)}
    (h : ∀ p ∈ elements, p.Valid num) (h' : ∀ p ∈ elements, p.Valid num') :
    meaning num elements = meaning num' elements ↔
      ∀ x, (∃ p ∈ elements, x ∈ p.values num) ↔ ∃ p ∈ elements, x ∈ p.values num' := by
  rw [meaning_of_valid h, meaning_of_valid h', Option.some_inj, Finset.ext_iff]
  exact forall_congr' fun x => iff_congr mem_meaning mem_meaning

end RagLeap.CronField
