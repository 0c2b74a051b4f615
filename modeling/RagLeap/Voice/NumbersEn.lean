import Mathlib
import RagLeap.Foundations.NumberWords

/-!
# English numbers in a transcript

`_numbers_to_digits` and `_parse_run` of the benchmark metrics: a run of number words becomes the
numerals it spells, and an "and" inside a number is skipped. A number spelled in words is read back
as one numeral (`numbersToDigits_spelled`), with every choice of where "and" is said.
-/

namespace RagLeap.Voice.NumbersEn

open Str NumberWords

/-! ## Reading -/

/-- `{w: i for i, w in enumerate("zero one … nine".split())}`. -/
def UNITS : List (Str × ℕ) :=
  (["zero", "one", "two", "three", "four", "five", "six", "seven", "eight",
    "nine"].map String.toList).zipIdx

def TEENS : List (Str × ℕ) :=
  (["ten", "eleven", "twelve", "thirteen", "fourteen", "fifteen", "sixteen", "seventeen",
    "eighteen", "nineteen"].map String.toList).zipIdx.map fun (w, i) => (w, i + 10)

def TENS : List (Str × ℕ) :=
  (["twenty", "thirty", "forty", "fifty", "sixty", "seventy", "eighty",
    "ninety"].map String.toList).zipIdx.map fun (w, i) => (w, (i + 2) * 10)

def SCALES : List (Str × ℕ) :=
  [("thousand".toList, 10 ^ 3), ("million".toList, 10 ^ 6), ("billion".toList, 10 ^ 9)]

/-- The words that stand for a number below a hundred. -/
def SMALL : List Str := (UNITS ++ TEENS ++ TENS).map Prod.fst

def NUMBER_WORDS : List Str := SMALL ++ SCALES.map Prod.fst ++ ["hundred".toList]

/-- The words that an "and" can follow inside a number. -/
def JOINERS : List Str := "hundred".toList :: SCALES.map Prod.fst

/-- The kind of the previous word in the current number. -/
inductive Kind
  | unit | teen | tens | hundred | scale
  deriving DecidableEq

/-- The variables of `_parse_run`. -/
@[ext]
structure Reader where
  numbers : List Str
  total : ℕ
  current : ℕ
  last : Option Kind
  last_scale : Option ℕ
  deriving DecidableEq

namespace Reader

def init : Reader := ⟨[], 0, 0, none, none⟩

/-- `flush`. -/
def flush (r : Reader) : Reader where
  numbers := if r.last = none then r.numbers else r.numbers ++ [ofNat (r.total + r.current)]
  total := 0
  current := 0
  last := none
  last_scale := none

/-- A word for a number below a hundred. -/
def readSmall (r : Reader) (kind : Kind) (value : ℕ) : Reader :=
  let r := if r.last = some .unit ∨ r.last = some .teen ∨ (r.last = some .tens ∧ kind ≠ .unit) then
    r.flush else r
  { r with current := r.current + value, last := some kind }

def readHundred (r : Reader) : Reader :=
  let r :=
    if r.last = some .hundred then r.flush
    else if 100 ≤ r.current then
      -- the last word of the number before starts the next one
      let carry := r.current % 100
      { ({ r with current := r.current - carry } : Reader).flush with
        current := carry, last := some .unit }
    else r
  { r with current := (if r.current = 0 then 1 else r.current) * 100, last := some .hundred }

def readScale (r : Reader) (scale : ℕ) : Reader :=
  let r :=
    if r.last_scale.any (· ≤ scale) then
      { ({ r with current := 0 } : Reader).flush with current := r.current }
    else r
  { r with
    total := r.total + (if r.current = 0 then 1 else r.current) * scale
    current := 0
    last_scale := some scale
    last := some .scale }

/-- One word of a run. A run holds number words only, so a word that is in no other table is in
`SCALES`. -/
def read (r : Reader) (w : Str) : Reader :=
  match UNITS.lookup w, TEENS.lookup w, TENS.lookup w with
  | some value, _, _ => r.readSmall .unit value
  | none, some value, _ => r.readSmall .teen value
  | none, none, some value => r.readSmall .tens value
  | none, none, none =>
    if w = "hundred".toList then r.readHundred else r.readScale ((SCALES.lookup w).getD 0)

end Reader

/-- `_parse_run`. -/
def parseRun (run : List Str) : List Str :=
  if run = [] then []
  else if 1 < run.length ∧ ∀ w ∈ run, (UNITS.lookup w).isSome then
    [run.flatMap fun w => ofNat ((UNITS.lookup w).getD 0)]
  else (run.foldl Reader.read .init).flush.numbers

/-- `_numbers_to_digits` on the words to come, with the run so far. -/
def digitsFrom (run : List Str) : List Str → List Str
  | [] => parseRun run
  | w :: words =>
    if w ∈ NUMBER_WORDS then digitsFrom (run ++ [w]) words
    else if w = "and".toList ∧ run ≠ [] ∧ run.getLast?.getD [] ∈ JOINERS ∧
        words.head?.getD [] ∈ SMALL then
      digitsFrom run words
    else parseRun run ++ w :: digitsFrom [] words

/-- `_numbers_to_digits`. -/
def numbersToDigits (words : List Str) : List Str := digitsFrom [] words

/-! ## The tables -/

/-- The kernel evaluates the tables here, at all the words of a spelled number at once. -/
theorem words_tables :
    (∀ n < 10, UNITS.lookup (English.one n) = some n) ∧
    (∀ n < 20, 10 ≤ n →
      UNITS.lookup (English.one n) = none ∧ TEENS.lookup (English.one n) = some n) ∧
    (∀ n < 10, 2 ≤ n → UNITS.lookup (English.ten n) = none ∧
      TEENS.lookup (English.ten n) = none ∧ TENS.lookup (English.ten n) = some (n * 10)) ∧
    (UNITS.lookup English.hundred = none ∧ TEENS.lookup English.hundred = none ∧
      TENS.lookup English.hundred = none ∧ English.hundred = "hundred".toList) ∧
    (∀ k < 4, 1 ≤ k → UNITS.lookup (English.scale k) = none ∧
      TEENS.lookup (English.scale k) = none ∧ TENS.lookup (English.scale k) = none ∧
      English.scale k ≠ "hundred".toList ∧ SCALES.lookup (English.scale k) = some (1000 ^ k)) ∧
    (∀ n < 20, English.one n ∈ SMALL) ∧ (∀ n < 10, 2 ≤ n → English.ten n ∈ SMALL) ∧
    English.hundred ∈ JOINERS ∧ (∀ k < 4, 1 ≤ k → English.scale k ∈ JOINERS) ∧
    English.conjunction ∉ NUMBER_WORDS ∧ ([] : Str) ∉ NUMBER_WORDS := by
  refine ⟨?_, ?_, ?_, ?_, ?_, ?_, ?_, ?_, ?_, ?_, ?_⟩ <;> decide +kernel

theorem lookup_unit : ∀ n < 10, UNITS.lookup (English.one n) = some n := words_tables.1

theorem lookup_teen : ∀ n < 20, 10 ≤ n →
    UNITS.lookup (English.one n) = none ∧ TEENS.lookup (English.one n) = some n :=
  words_tables.2.1

theorem lookup_ten : ∀ n < 10, 2 ≤ n → UNITS.lookup (English.ten n) = none ∧
    TEENS.lookup (English.ten n) = none ∧ TENS.lookup (English.ten n) = some (n * 10) :=
  words_tables.2.2.1

theorem lookup_hundred : UNITS.lookup English.hundred = none ∧
    TEENS.lookup English.hundred = none ∧ TENS.lookup English.hundred = none ∧
    English.hundred = "hundred".toList :=
  words_tables.2.2.2.1

theorem lookup_scale : ∀ k < 4, 1 ≤ k → UNITS.lookup (English.scale k) = none ∧
    TEENS.lookup (English.scale k) = none ∧ TENS.lookup (English.scale k) = none ∧
    English.scale k ≠ "hundred".toList ∧ SCALES.lookup (English.scale k) = some (1000 ^ k) :=
  words_tables.2.2.2.2.1

theorem one_mem_SMALL : ∀ n < 20, English.one n ∈ SMALL := words_tables.2.2.2.2.2.1

theorem ten_mem_SMALL : ∀ n < 10, 2 ≤ n → English.ten n ∈ SMALL := words_tables.2.2.2.2.2.2.1

theorem hundred_mem_JOINERS : English.hundred ∈ JOINERS := words_tables.2.2.2.2.2.2.2.1

theorem scale_mem_JOINERS : ∀ k < 4, 1 ≤ k → English.scale k ∈ JOINERS :=
  words_tables.2.2.2.2.2.2.2.2.1

theorem conjunction_not_mem : English.conjunction ∉ NUMBER_WORDS :=
  words_tables.2.2.2.2.2.2.2.2.2.1

theorem nil_not_mem : ([] : Str) ∉ NUMBER_WORDS := words_tables.2.2.2.2.2.2.2.2.2.2

theorem SMALL_subset {w : Str} (h : w ∈ SMALL) : w ∈ NUMBER_WORDS :=
  List.mem_append_left _ (List.mem_append_left _ h)

theorem JOINERS_subset {w : Str} (h : w ∈ JOINERS) : w ∈ NUMBER_WORDS := by
  rcases List.mem_cons.1 h with rfl | hscale
  · exact List.mem_append_right _ (List.mem_singleton_self _)
  · exact List.mem_append_left _ (List.mem_append_right _ hscale)

/-! ## A run that spells a number -/

namespace Reader

variable (r : Reader)

theorem read_unit {n : ℕ} (h : n < 10) : r.read (English.one n) = r.readSmall .unit n := by
  rw [read, lookup_unit n h]

theorem read_teen {n : ℕ} (h : n < 20) (h' : 10 ≤ n) :
    r.read (English.one n) = r.readSmall .teen n := by
  obtain ⟨hunit, hteen⟩ := lookup_teen n h h'
  rw [read, hunit, hteen]

theorem read_ten {n : ℕ} (h : n < 10) (h' : 2 ≤ n) :
    r.read (English.ten n) = r.readSmall .tens (n * 10) := by
  obtain ⟨hunit, hteen, hten⟩ := lookup_ten n h h'
  rw [read, hunit, hteen, hten]

theorem read_hundred : r.read English.hundred = r.readHundred := by
  obtain ⟨hunit, hteen, hten, heq⟩ := lookup_hundred
  rw [read, hunit, hteen, hten]
  exact if_pos heq

theorem read_scale {k : ℕ} (h : k < 4) (h' : 1 ≤ k) :
    r.read (English.scale k) = r.readScale (1000 ^ k) := by
  obtain ⟨hunit, hteen, hten, hne, hscale⟩ := lookup_scale k h h'
  rw [read, hunit, hteen, hten, hscale]
  exact if_neg hne

/-- The word before leaves room for a number below a hundred. -/
def Roomy : Prop := r.last ≠ some .unit ∧ r.last ≠ some .teen ∧ r.last ≠ some .tens

variable {r}

theorem readSmall_of_roomy (h : r.Roomy) (kind : Kind) (value : ℕ) :
    r.readSmall kind value = { r with current := r.current + value, last := some kind } := by
  obtain ⟨hunit, hteen, htens⟩ := h
  rw [readSmall, if_neg (by simp [hunit, hteen, htens])]

theorem read_belowHundred (h : r.Roomy) {n : ℕ} (hn : n < 100) :
    ∃ kind, (English.belowHundred n).foldl read r =
      { r with current := r.current + n, last := some kind } := by
  unfold English.belowHundred
  split_ifs with hteens htens
  · by_cases hunit : n < 10
    · exact ⟨.unit, (read_unit r hunit).trans (readSmall_of_roomy h _ _)⟩
    · exact ⟨.teen, (read_teen r hteens (by omega)).trans (readSmall_of_roomy h _ _)⟩
  · refine ⟨.tens, ?_⟩
    rw [List.foldl_cons, List.foldl_nil, read_ten r (by omega) (by omega), readSmall_of_roomy h]
    have hval : n / 10 * 10 = n := by omega
    rw [hval]
  · refine ⟨.unit, ?_⟩
    rw [List.foldl_cons, List.foldl_cons, List.foldl_nil, read_ten r (by omega) (by omega),
      readSmall_of_roomy h, read_unit _ (by omega), readSmall]
    have hval : r.current + n / 10 * 10 + n % 10 = r.current + n := by omega
    simp [hval]

theorem read_belowThousand (h : r.Roomy) (hcurrent : r.current = 0)
    {n : ℕ} (hn : n < 1000) :
    ∃ kind, (English.belowThousand false n).foldl read r =
      { r with current := n, last := some kind } := by
  unfold English.belowThousand
  split_ifs with hsmall hround
  · obtain ⟨kind, hread⟩ := read_belowHundred h hsmall
    exact ⟨kind, by rw [hread, hcurrent, Nat.zero_add]⟩
  all_goals
    have hone : r.read (English.one (n / 100)) =
        { r with current := n / 100, last := some .unit } := by
      rw [read_unit r (by omega), readSmall_of_roomy h, hcurrent, Nat.zero_add]
    have hhundred : (r.read (English.one (n / 100))).read English.hundred =
        { r with current := n / 100 * 100, last := some .hundred } := by
      have hlt : ¬ 100 ≤ n / 100 := by omega
      have hne : ¬ n / 100 = 0 := by omega
      rw [read_hundred, hone, readHundred]
      simp [hlt, hne]
  · refine ⟨.hundred, ?_⟩
    have hval : n / 100 * 100 = n := by omega
    rw [List.append_nil, List.foldl_cons, List.foldl_cons, List.foldl_nil, hhundred, hval]
  · have hroomy : Roomy { r with current := n / 100 * 100, last := some .hundred } := by
      simp [Roomy]
    obtain ⟨kind, hread⟩ := read_belowHundred hroomy (Nat.mod_lt n (by omega : 0 < 100))
    have hval : n / 100 * 100 + n % 100 = n := by omega
    refine ⟨kind, ?_⟩
    rw [English.join, if_neg (by simp), List.nil_append, List.foldl_append, List.foldl_cons,
      List.foldl_cons, List.foldl_nil, hhundred, hread]
    simp [hval]

/-- The reader has read the groups above that of `1000 ^ k`, worth `t`. -/
structure At (k : ℕ) (spoken : Bool) (t : ℕ) (r : Reader) : Prop where
  numbers : r.numbers = []
  total : r.total = t
  current : r.current = 0
  last : r.last = if spoken then some .scale else none
  above : ∀ s ∈ r.last_scale, 1000 ^ k < s

/-- The reader has read a number worth `t`. -/
structure Done (spoken : Bool) (t : ℕ) (r : Reader) : Prop where
  numbers : r.numbers = []
  total : r.total + r.current = t
  last : spoken → r.last ≠ none

theorem At.roomy {k t : ℕ} {spoken : Bool} (h : At k spoken t r) : r.Roomy := by
  rw [Roomy, h.last]
  cases spoken <;> simp

theorem At.next {k t : ℕ} {spoken : Bool} (h : At (k + 1) spoken t r) : At k spoken t r := by
  have hpow : 1000 ^ k < 1000 ^ (k + 1) := Nat.pow_lt_pow_right (by omega) (Nat.lt_succ_self k)
  exact { h with above := fun s hs => hpow.trans (h.above s hs) }

theorem At.read_part {k t g : ℕ} {spoken : Bool} (h : At (k + 1) spoken t r) (hk : k < 3)
    (hg : g < 1000) : At k (spoken || g ≠ 0) (t + g * 1000 ^ (k + 1))
      ((English.part .never spoken (k + 1) g).foldl read r) := by
  unfold English.part
  by_cases hzero : g = 0
  · subst hzero
    simpa using h.next
  · obtain ⟨kind, hread⟩ := read_belowThousand h.roomy h.current hg
    have hpow : 1000 ^ k < 1000 ^ (k + 1) := Nat.pow_lt_pow_right (by omega) (Nat.lt_succ_self k)
    have hnot : r.last_scale.any (fun s => decide (s ≤ 1000 ^ (k + 1))) = false := by
      cases hscale : r.last_scale with
      | none => rfl
      | some s => exact decide_eq_false (Nat.not_le_of_lt (h.above s hscale))
    rw [if_neg hzero, if_neg (Nat.succ_ne_zero k), English.join, Bool.and_eq_false_imp.2,
      if_neg Bool.false_ne_true, List.nil_append, List.foldl_append, English.Ands.never, hread,
      List.foldl_cons, List.foldl_nil, read_scale _ (by omega) (by omega), readScale]
    · simp only [hnot, Bool.false_eq_true, if_false, if_neg hzero]
      exact ⟨h.numbers, by simp [h.total], rfl, by simp [hzero], by simpa using hpow⟩
    · exact fun _ => rfl

theorem At.read_last {t g : ℕ} {spoken : Bool} (h : At 0 spoken t r) (hg : g < 1000) :
    Done (spoken || g ≠ 0) (t + g) ((English.part .never spoken 0 g).foldl read r) := by
  unfold English.part
  by_cases hzero : g = 0
  · subst hzero
    have hlast : spoken → r.last ≠ none := fun hs => by simp [h.last, hs]
    exact ⟨h.numbers, by simp [h.total, h.current], by simpa using hlast⟩
  · obtain ⟨kind, hread⟩ := read_belowThousand h.roomy h.current hg
    rw [if_neg hzero, if_pos rfl, List.append_nil, English.join, Bool.and_eq_false_imp.2,
      if_neg Bool.false_ne_true, List.nil_append, English.Ands.never, hread]
    · exact ⟨h.numbers, by simp [h.total], fun _ => by simp⟩
    · exact fun _ => rfl

end Reader

/-- Only a number below ten is spelled with units only. -/
theorem exists_not_unit {n : ℕ} (h : 10 ≤ n) (hn : n < 10 ^ 12) :
    ∃ w ∈ English.spelled .never n, UNITS.lookup w = none := by
  have hsmall : ∀ m < 100, 10 ≤ m → ∃ w ∈ English.belowHundred m, UNITS.lookup w = none := by
    decide +kernel
  have hthousand : ∀ m < 1000, 10 ≤ m →
      ∃ w ∈ English.belowThousand false m, UNITS.lookup w = none := fun m hm hge => by
    unfold English.belowThousand
    split_ifs with hlt
    · exact hsmall m hlt hge
    all_goals exact ⟨English.hundred, by simp, lookup_hundred.1⟩
  rw [English.spelled, if_neg (by omega)]
  by_cases hlt : n < 1000
  · obtain ⟨w, hw, hnone⟩ := hthousand n hlt h
    rw [groups_of_lt (fun _ _ => rfl) 3 false hlt, English.part, if_neg (by omega)]
    exact ⟨w, by simpa [English.join, English.Ands.never] using hw, hnone⟩
  · obtain ⟨spoken, j, g, hj, hg, hsub⟩ :=
      exists_part_subset (English.part .never) (k := 3) false (Nat.le_of_not_lt hlt) (by omega)
    refine ⟨English.scale (j + 1), hsub ?_, (lookup_scale (j + 1) (by omega) (by omega)).1⟩
    simp [English.part, hg]

/-- The run of a spelled number is its numeral. -/
theorem parseRun_spelled {n : ℕ} (hn : n < 10 ^ 12) :
    parseRun (English.spelled .never n) = [ofNat n] := by
  by_cases hten : n < 10
  · have hall : ∀ m < 10, parseRun (English.spelled .never m) = [ofNat m] := by decide +kernel
    exact hall n hten
  · obtain ⟨w, hw, hnone⟩ := exists_not_unit (Nat.le_of_not_lt hten) hn
    have hinit : Reader.At 3 false 0 .init := ⟨rfl, rfl, rfl, rfl, by simp [Reader.init]⟩
    have hdone := reads_groups Reader.read Reader.At Reader.Done
      (fun j hj spoken t r g hg h => h.read_part hj hg)
      (fun spoken t r g hg h => h.read_last hg) hinit (n := n) (by omega)
    have hspelled : groups (English.part .never) 3 false n = English.spelled .never n := by
      rw [English.spelled, if_neg (by omega)]
    rw [hspelled] at hdone
    have hlast := hdone.last (by simp; omega)
    have hmixed : ¬ (1 < (English.spelled .never n).length ∧
        ∀ w ∈ English.spelled .never n, (UNITS.lookup w).isSome) := fun hall => by
      have := hall.2 w hw
      simp [hnone] at this
    rw [parseRun, if_neg (List.ne_nil_of_mem hw), if_neg hmixed, Reader.flush, if_neg hlast,
      hdone.numbers, hdone.total, Nat.zero_add, List.nil_append]

/-! ## The run of a number in a sentence -/

theorem digitsFrom_words {ws : List Str} (h : ∀ w ∈ ws, w ∈ NUMBER_WORDS) (run rest : List Str) :
    digitsFrom run (ws ++ rest) = digitsFrom (run ++ ws) rest := by
  induction ws generalizing run with
  | nil => simp
  | cons w ws ih =>
    rw [List.cons_append, digitsFrom, if_pos (h w List.mem_cons_self),
      ih fun w' hw' => h w' (List.mem_cons_of_mem w hw')]
    simp

/-- An "and" that is skipped. -/
theorem digitsFrom_join (b : Bool) {run rest : List Str} {j w : Str} (hrun : run.getLast? = some j)
    (hj : j ∈ JOINERS) (hrest : rest.head? = some w) (hw : w ∈ SMALL) :
    digitsFrom run (English.join b ++ rest) = digitsFrom run rest := by
  cases b with
  | false => rfl
  | true =>
    have hne : run ≠ [] := fun hnil => by simp [hnil] at hrun
    have hskip : English.conjunction = "and".toList ∧ run ≠ [] ∧ run.getLast?.getD [] ∈ JOINERS ∧
        rest.head?.getD [] ∈ SMALL := ⟨rfl, hne, by simpa [hrun], by simpa [hrest]⟩
    change digitsFrom run (English.conjunction :: rest) = _
    rw [digitsFrom, if_neg conjunction_not_mem, if_pos hskip]

theorem belowHundred_small {n : ℕ} (hn : n < 100) : ∀ w ∈ English.belowHundred n, w ∈ SMALL := by
  unfold English.belowHundred
  split_ifs with hteens htens
  · simpa using one_mem_SMALL n hteens
  · simpa using ten_mem_SMALL (n / 10) (by omega) (by omega)
  · simpa using ⟨ten_mem_SMALL (n / 10) (by omega) (by omega), one_mem_SMALL (n % 10) (by omega)⟩

theorem head?_belowHundred {n : ℕ} (hn : n < 100) :
    ∃ w ∈ SMALL, (English.belowHundred n).head? = some w := by
  have hsmall := belowHundred_small hn
  cases hwords : English.belowHundred n with
  | nil =>
    unfold English.belowHundred at hwords
    split_ifs at hwords
  | cons w ws => exact ⟨w, hsmall w (hwords ▸ List.mem_cons_self), rfl⟩

theorem head?_belowThousand (b : Bool) {n : ℕ} (hn : n < 1000) :
    ∃ w ∈ SMALL, (English.belowThousand b n).head? = some w := by
  unfold English.belowThousand
  split_ifs with hsmall
  · exact head?_belowHundred hsmall
  all_goals exact ⟨_, one_mem_SMALL (n / 100) (by omega), rfl⟩

theorem belowThousand_words {n : ℕ} (hn : n < 1000) :
    ∀ w ∈ English.belowThousand false n, w ∈ NUMBER_WORDS := by
  have hone : n / 100 < 20 := by omega
  have hpair : ∀ w ∈ [English.one (n / 100), English.hundred], w ∈ NUMBER_WORDS := by
    simpa using ⟨SMALL_subset (one_mem_SMALL _ hone), JOINERS_subset hundred_mem_JOINERS⟩
  unfold English.belowThousand
  intro w hw
  split_ifs at hw with hsmall
  · exact SMALL_subset (belowHundred_small hsmall w hw)
  · exact hpair w (by simpa using hw)
  · rcases List.mem_append.1 hw with hw | hw
    · exact hpair w hw
    · exact SMALL_subset (belowHundred_small (Nat.mod_lt n (by omega)) w
        (by simpa [English.join] using hw))

theorem digitsFrom_belowThousand (b : Bool) {n : ℕ} (hn : n < 1000) (run rest : List Str) :
    digitsFrom run (English.belowThousand b n ++ rest) =
      digitsFrom (run ++ English.belowThousand false n) rest := by
  rw [← digitsFrom_words (belowThousand_words hn)]
  unfold English.belowThousand
  split_ifs with hsmall hround
  · rfl
  · rfl
  · have hlt : n % 100 < 100 := Nat.mod_lt n (by omega)
    obtain ⟨w, hw, hhead⟩ := head?_belowHundred hlt
    have hpair : ∀ w ∈ [English.one (n / 100), English.hundred], w ∈ NUMBER_WORDS := by
      have hone : n / 100 < 20 := by omega
      simpa using ⟨SMALL_subset (one_mem_SMALL _ hone), JOINERS_subset hundred_mem_JOINERS⟩
    have hfirst : (English.belowHundred (n % 100) ++ rest).head? = some w := by
      rw [List.head?_append, hhead, Option.some_or]
    have hlast : (run ++ [English.one (n / 100), English.hundred]).getLast? =
        some English.hundred := by simp
    have hplain : digitsFrom run ([English.one (n / 100), English.hundred] ++
        (English.join false ++ English.belowHundred (n % 100)) ++ rest) =
        digitsFrom (run ++ [English.one (n / 100), English.hundred])
          (English.belowHundred (n % 100) ++ rest) := by
      rw [List.append_assoc, digitsFrom_words hpair]
      rfl
    rw [hplain, List.append_assoc, List.append_assoc, digitsFrom_words hpair,
      digitsFrom_join b hlast hundred_mem_JOINERS hfirst hw]

theorem digitsFrom_part (ands : English.Ands) {spoken : Bool} {k g : ℕ} (hk : k < 4)
    (hg : g < 1000) {run : List Str} (hrun : spoken → ∃ j ∈ JOINERS, run.getLast? = some j)
    (rest : List Str) : digitsFrom run (English.part ands spoken k g ++ rest) =
      digitsFrom (run ++ English.part .never spoken k g) rest := by
  have hname : ∀ w ∈ (if k = 0 then [] else [English.scale k]), w ∈ NUMBER_WORDS := by
    split_ifs with hzero
    · simp
    · simpa using JOINERS_subset (scale_mem_JOINERS k hk (by omega))
  have hnever : English.part .never spoken k g = if g = 0 then [] else
      English.belowThousand false g ++ if k = 0 then [] else [English.scale k] := by
    simp [English.part, English.Ands.never, English.join]
  rw [hnever, English.part]
  by_cases hzero : g = 0
  · simp [hzero]
  rw [if_neg hzero, if_neg hzero, List.append_assoc, List.append_assoc]
  obtain ⟨w, hw, hhead⟩ := head?_belowThousand (ands.hundred k) hg
  have hjoin : ∀ rest, digitsFrom run (English.join (spoken && ands.scale k) ++
      (English.belowThousand (ands.hundred k) g ++ rest)) =
      digitsFrom run (English.belowThousand (ands.hundred k) g ++ rest) := fun rest => by
    cases spoken with
    | false => rfl
    | true =>
      obtain ⟨j, hj, hlast⟩ := hrun rfl
      have hfirst : (English.belowThousand (ands.hundred k) g ++ rest).head? = some w := by
        rw [List.head?_append, hhead, Option.some_or]
      exact digitsFrom_join _ hlast hj hfirst hw
  rw [hjoin, digitsFrom_belowThousand _ hg, digitsFrom_words hname, List.append_assoc]

theorem digitsFrom_groups (ands : English.Ands) {k : ℕ} (hk : k < 4) {spoken : Bool} {n : ℕ}
    (hn : n < 1000 ^ (k + 1)) {run : List Str}
    (hrun : spoken → ∃ j ∈ JOINERS, run.getLast? = some j) (rest : List Str) :
    digitsFrom run (groups (English.part ands) k spoken n ++ rest) =
      digitsFrom (run ++ groups (English.part .never) k spoken n) rest := by
  induction k generalizing spoken n run with
  | zero => exact digitsFrom_part ands (by omega) (by simpa using hn) hrun rest
  | succ k ih =>
    have hg := group_lt hn
    rw [groups, groups, List.append_assoc, digitsFrom_part ands hk hg hrun, ih (by omega)
      (Nat.mod_lt n (Nat.pow_pos (by omega))), List.append_assoc]
    intro hspoken
    by_cases hzero : n / 1000 ^ (k + 1) = 0
    · simp only [hzero, ne_eq, not_true, decide_false, Bool.or_false] at hspoken
      simpa [hzero, English.part] using hrun hspoken
    · refine ⟨_, scale_mem_JOINERS (k + 1) hk (by omega), ?_⟩
      simp [English.part, hzero]

theorem digitsFrom_spelled (ands : English.Ands) {n : ℕ} (hn : n < 10 ^ 12) (rest : List Str) :
    digitsFrom [] (English.spelled ands n ++ rest) =
      digitsFrom (English.spelled .never n) rest := by
  unfold English.spelled
  split_ifs
  · exact digitsFrom_words (by simpa using SMALL_subset (one_mem_SMALL 0 (by omega))) [] rest
  · exact digitsFrom_groups ands (by omega) (by omega) (by simp) rest

theorem getLast?_part (ands : English.Ands) (spoken : Bool) (k : ℕ) {g : ℕ} (hg : g < 1000) :
    (English.part ands spoken k g).getLast? = (English.part .never spoken k g).getLast? := by
  have hne : ∀ b, English.belowThousand b g ≠ [] := fun b hnil => by
    obtain ⟨w, -, hhead⟩ := head?_belowThousand b hg
    simp [hnil] at hhead
  have hthousand : ∀ b, (English.belowThousand b g).getLast? =
      (English.belowThousand false g).getLast? := fun b => by
    unfold English.belowThousand
    split_ifs with hsmall hround
    · rfl
    · rfl
    · obtain ⟨w, -, hhead⟩ := head?_belowHundred (Nat.mod_lt g (by omega : 0 < 100))
      have hrest : English.belowHundred (g % 100) ≠ [] := fun hnil => by simp [hnil] at hhead
      rw [← List.append_assoc, ← List.append_assoc, List.getLast?_append_of_ne_nil _ hrest,
        List.getLast?_append_of_ne_nil _ hrest]
  unfold English.part
  split_ifs
  · rfl
  · rw [List.append_nil, List.append_nil, List.getLast?_append_of_ne_nil _ (hne _),
      List.getLast?_append_of_ne_nil _ (hne _), hthousand, hthousand (English.Ands.hundred _ _)]
  · rw [List.getLast?_concat, List.getLast?_concat]

/-- Where "and" is said does not change the last word. -/
theorem getLast?_spelled (ands : English.Ands) {n : ℕ} (hn : n < 10 ^ 12) :
    (English.spelled ands n).getLast? = (English.spelled .never n).getLast? := by
  have hgroups : ∀ k spoken m, m < 1000 ^ (k + 1) →
      (groups (English.part ands) k spoken m).getLast? =
        (groups (English.part .never) k spoken m).getLast? := by
    intro k
    induction k with
    | zero => exact fun spoken m hm => getLast?_part ands spoken 0 (by simpa using hm)
    | succ k ih =>
      intro spoken m hm
      rw [groups, groups, List.getLast?_append, List.getLast?_append,
        ih _ _ (Nat.mod_lt m (Nat.pow_pos (by omega))), getLast?_part ands spoken _ (group_lt hm)]
  unfold English.spelled
  split_ifs
  · rfl
  · exact hgroups 3 false n (by omega)

/-! ## A number in a sentence -/

/-- No number runs on past the end of the words: the last is no number word, and no "and" after a
hundred or a scale. -/
structure EndsApart (pre : List Str) : Prop where
  word : ∀ w ∈ pre.getLast?, w ∉ NUMBER_WORDS
  joined : pre.getLast? = some English.conjunction →
    ∀ j ∈ pre.dropLast.getLast?, j ∉ JOINERS

/-- The number before the words, whose last word is `last`, does not run on into them. -/
structure StartsApart (last : Option Str) (post : List Str) : Prop where
  word : ∀ w ∈ post.head?, w ∉ NUMBER_WORDS
  joined : post.head? = some English.conjunction → (∃ j ∈ last, j ∈ JOINERS) →
    ∀ w ∈ post.tail.head?, w ∉ SMALL

theorem digitsFrom_startsApart {run post : List Str} (h : StartsApart run.getLast? post) :
    digitsFrom run post = parseRun run ++ digitsFrom [] post := by
  cases post with
  | nil => simp [digitsFrom, parseRun]
  | cons w words =>
    have hword := h.word w rfl
    have hnot : ¬ (w = "and".toList ∧ run ≠ [] ∧ run.getLast?.getD [] ∈ JOINERS ∧
        words.head?.getD [] ∈ SMALL) := by
      rintro ⟨rfl, hrun, hj, hsmall⟩
      obtain ⟨j, hlast⟩ := Option.isSome_iff_exists.1 (List.getLast?_isSome.2 hrun)
      cases words with
      | nil => exact nil_not_mem (SMALL_subset hsmall)
      | cons w' words => exact h.joined rfl ⟨j, hlast, by simpa [hlast] using hj⟩ w' rfl hsmall
    rw [digitsFrom, if_neg hword, if_neg hnot, digitsFrom, if_neg hword, if_neg (by simp)]
    simp [parseRun]

/-- A sentence is read up to a place where no number runs on, then from there. `before` is what was
read already: an "and" that comes next is skipped only after the last word of it. -/
theorem digitsFrom_endsApart (before run : List Str) {pre : List Str} (mid : List Str)
    (hrun : pre.head? = some English.conjunction → run.getLast?.getD [] ∈ JOINERS →
      ∃ j ∈ before.getLast?, j ∈ JOINERS)
    (h : EndsApart (before ++ pre)) (hne : pre = [] → run = []) :
    digitsFrom run (pre ++ mid) = digitsFrom run pre ++ digitsFrom [] mid := by
  induction pre generalizing before run with
  | nil => simp [hne rfl, digitsFrom, parseRun]
  | cons w words ih =>
    have h' : EndsApart (before ++ [w] ++ words) := by simpa using h
    -- the word that follows is the same, unless this is the last
    have hskip : (w = "and".toList ∧ run ≠ [] ∧ run.getLast?.getD [] ∈ JOINERS ∧
        (words ++ mid).head?.getD [] ∈ SMALL) ↔
        w = "and".toList ∧ run ≠ [] ∧ run.getLast?.getD [] ∈ JOINERS ∧
          words.head?.getD [] ∈ SMALL := by
      cases words with
      | cons w' words => rfl
      | nil =>
        have hnot : ¬ (w = "and".toList ∧ run.getLast?.getD [] ∈ JOINERS) := by
          rintro ⟨rfl, hj⟩
          obtain ⟨j, hlast, hmem⟩ := hrun rfl hj
          exact h.joined (by simp [English.conjunction]) j (by simpa using hlast) hmem
        constructor
        · exact fun hall => absurd ⟨hall.1, hall.2.2.1⟩ hnot
        · exact fun hall => absurd ⟨hall.1, hall.2.2.1⟩ hnot
    rw [List.cons_append, digitsFrom, digitsFrom]
    simp only [hskip]
    split_ifs with hword hand
    · refine ih (before ++ [w]) (run ++ [w]) (fun _ hj => ⟨w, by simp, by simpa using hj⟩) h' ?_
      rintro rfl
      exact absurd hword (h.word w (by simp))
    · have hsmall := hand.2.2.2
      refine ih (before ++ [w]) run (fun hhead => ?_) h' ?_
      · rw [hhead] at hsmall
        exact absurd (SMALL_subset hsmall) conjunction_not_mem
      · rintro rfl
        exact absurd (SMALL_subset hsmall) nil_not_mem
    · have hrest := ih (before ++ [w]) []
        (fun _ hj => absurd (JOINERS_subset hj) nil_not_mem) h' fun _ => rfl
      rw [hrest, List.append_assoc, List.cons_append]

/-- A number spelled in words is read as its numeral, and the words around it as they are read by
themselves. -/
theorem numbersToDigits_spelled (ands : English.Ands) {n : ℕ} (hn : n < 10 ^ 12)
    {pre post : List Str} (hpre : EndsApart pre)
    (hpost : StartsApart (English.spelled ands n).getLast? post) :
    numbersToDigits (pre ++ English.spelled ands n ++ post) =
      numbersToDigits pre ++ [ofNat n] ++ numbersToDigits post := by
  rw [getLast?_spelled ands hn] at hpost
  have hbefore := digitsFrom_endsApart [] []
    (English.spelled ands n ++ post) (fun _ hj => absurd (JOINERS_subset hj) nil_not_mem) hpre
    fun _ => rfl
  unfold numbersToDigits
  rw [List.append_assoc, hbefore, digitsFrom_spelled ands hn, digitsFrom_startsApart hpost,
    parseRun_spelled hn, List.append_assoc]

end RagLeap.Voice.NumbersEn
