import Mathlib
import RagLeap.Voice.NumbersEn

/-!
# Turkish numbers in a transcript

`numbers_to_digits` and `_parse_run` (`ragleap_voice.bench.numbers_tr`). There is no joining word,
so a number is read back between any words that are not number words (`numbersToDigits_spelled`);
with the English case that is `spoken_numbers_read_back`.
-/

namespace RagLeap.Voice.NumbersTr

open Str NumberWords

/-! ## Reading -/

def UNITS : List (Str × ℕ) :=
  [("sıfır".toList, 0), ("bir".toList, 1), ("iki".toList, 2), ("üç".toList, 3), ("dört".toList, 4),
    ("beş".toList, 5), ("altı".toList, 6), ("yedi".toList, 7), ("sekiz".toList, 8),
    ("dokuz".toList, 9)]

def TENS : List (Str × ℕ) :=
  [("on".toList, 10), ("yirmi".toList, 20), ("otuz".toList, 30), ("kırk".toList, 40),
    ("elli".toList, 50), ("altmış".toList, 60), ("yetmiş".toList, 70), ("seksen".toList, 80),
    ("doksan".toList, 90)]

def SCALES : List (Str × ℕ) :=
  [("bin".toList, 10 ^ 3), ("milyon".toList, 10 ^ 6), ("milyar".toList, 10 ^ 9),
    ("trilyon".toList, 10 ^ 12), ("katrilyon".toList, 10 ^ 15)]

def NUMBER_WORDS : List Str := (UNITS ++ TENS ++ SCALES).map Prod.fst ++ ["yüz".toList]

/-- The values of `last_kind`. -/
inductive Kind
  | unit | tens | hundred
  deriving DecidableEq

/-- The variables of `_parse_run`. -/
structure Reader where
  out : List Str
  total : ℕ
  sect : ℕ
  last_kind : Option Kind
  last_scale : Option ℕ

namespace Reader

def init : Reader := ⟨[], 0, 0, none, none⟩

/-- `flush`. -/
def flush (r : Reader) : Reader where
  out := if r.total ≠ 0 ∨ r.sect ≠ 0 ∨ r.last_kind ≠ none then
    r.out ++ [ofNat (r.total + r.sect)] else r.out
  total := 0
  sect := 0
  last_kind := none
  last_scale := none

def readUnit (r : Reader) (value : ℕ) : Reader :=
  let r := if r.last_kind = some .unit then r.flush else r
  { r with sect := r.sect + value, last_kind := some .unit }

def readTens (r : Reader) (value : ℕ) : Reader :=
  let r := if r.last_kind = some .unit ∨ r.last_kind = some .tens then r.flush else r
  { r with sect := r.sect + value, last_kind := some .tens }

def readHundred (r : Reader) : Reader :=
  let r := if r.last_kind = some .hundred ∨ r.last_kind = some .tens ∨ 100 ≤ r.sect then r.flush
    else r
  { r with sect := (if r.sect = 0 then 1 else r.sect) * 100, last_kind := some .hundred }

def readScale (r : Reader) (scale : ℕ) : Reader :=
  let r :=
    if r.last_scale.any (· ≤ scale) then
      { r with
        out := if r.total ≠ 0 then r.out ++ [ofNat r.total] else r.out
        total := 0
        last_scale := none }
    else r
  { r with
    total := r.total + (if r.sect = 0 then 1 else r.sect) * scale
    sect := 0
    last_scale := some scale
    last_kind := none }

/-- One word of a run, whose words are number words. -/
def read (r : Reader) (word : Str) : Reader :=
  match UNITS.lookup word, TENS.lookup word with
  | some value, _ => r.readUnit value
  | none, some value => r.readTens value
  | none, none =>
    if word = "yüz".toList then r.readHundred else r.readScale ((SCALES.lookup word).getD 0)

end Reader

/-- `_parse_run`. -/
def parseRun (run : List Str) : List Str :=
  if run = [] then []
  else if 1 < run.length ∧ ∀ word ∈ run, (UNITS.lookup word).isSome then
    [run.flatMap fun word => ofNat ((UNITS.lookup word).getD 0)]
  else (run.foldl Reader.read .init).flush.out

/-- `numbers_to_digits` on the words to come, with the run so far. -/
def digitsFrom (run : List Str) : List Str → List Str
  | [] => parseRun run
  | word :: words =>
    if word ∈ NUMBER_WORDS then digitsFrom (run ++ [word]) words
    else parseRun run ++ word :: digitsFrom [] words

/-- `numbers_to_digits`. -/
def numbersToDigits (words : List Str) : List Str := digitsFrom [] words

/-! ## The tables -/

/-- The kernel evaluates the tables here, at all the words of a spelled number at once. -/
theorem words_tables :
    (∀ n < 10, UNITS.lookup (Turkish.one n) = some n) ∧
    (∀ n < 10, 1 ≤ n → UNITS.lookup (Turkish.ten n) = none ∧
      TENS.lookup (Turkish.ten n) = some (n * 10)) ∧
    (UNITS.lookup Turkish.hundred = none ∧ TENS.lookup Turkish.hundred = none ∧
      Turkish.hundred = "yüz".toList) ∧
    (∀ k < 6, 1 ≤ k → UNITS.lookup (Turkish.scale k) = none ∧
      TENS.lookup (Turkish.scale k) = none ∧ Turkish.scale k ≠ "yüz".toList ∧
      SCALES.lookup (Turkish.scale k) = some (1000 ^ k)) ∧
    (∀ n < 10, Turkish.one n ∈ NUMBER_WORDS) ∧ (∀ n < 10, 1 ≤ n → Turkish.ten n ∈ NUMBER_WORDS) ∧
    Turkish.hundred ∈ NUMBER_WORDS ∧ ∀ k < 6, 1 ≤ k → Turkish.scale k ∈ NUMBER_WORDS := by
  refine ⟨?_, ?_, ?_, ?_, ?_, ?_, ?_, ?_⟩ <;> decide

theorem lookup_unit : ∀ n < 10, UNITS.lookup (Turkish.one n) = some n := words_tables.1

theorem lookup_ten : ∀ n < 10, 1 ≤ n → UNITS.lookup (Turkish.ten n) = none ∧
    TENS.lookup (Turkish.ten n) = some (n * 10) :=
  words_tables.2.1

theorem lookup_hundred : UNITS.lookup Turkish.hundred = none ∧
    TENS.lookup Turkish.hundred = none ∧ Turkish.hundred = "yüz".toList :=
  words_tables.2.2.1

theorem lookup_scale : ∀ k < 6, 1 ≤ k → UNITS.lookup (Turkish.scale k) = none ∧
    TENS.lookup (Turkish.scale k) = none ∧ Turkish.scale k ≠ "yüz".toList ∧
    SCALES.lookup (Turkish.scale k) = some (1000 ^ k) :=
  words_tables.2.2.2.1

theorem one_mem : ∀ n < 10, Turkish.one n ∈ NUMBER_WORDS := words_tables.2.2.2.2.1

theorem ten_mem : ∀ n < 10, 1 ≤ n → Turkish.ten n ∈ NUMBER_WORDS := words_tables.2.2.2.2.2.1

theorem hundred_mem : Turkish.hundred ∈ NUMBER_WORDS := words_tables.2.2.2.2.2.2.1

theorem scale_mem : ∀ k < 6, 1 ≤ k → Turkish.scale k ∈ NUMBER_WORDS :=
  words_tables.2.2.2.2.2.2.2

/-! ## A run that spells a number -/

namespace Reader

variable {r : Reader}

/-- The words of the hundreds. -/
theorem read_hundreds (hlast : r.last_kind = none) (hsect : r.sect = 0) {h : ℕ} (hh : h < 10) :
    (Turkish.hundreds h).foldl read r =
      { r with sect := h * 100, last_kind := if h = 0 then none else some .hundred } := by
  have hread : ∀ r : Reader, r.read Turkish.hundred = r.readHundred := fun r => by
    obtain ⟨hunit, hten, heq⟩ := lookup_hundred
    rw [read, hunit, hten]
    exact if_pos heq
  unfold Turkish.hundreds
  split_ifs with hzero hone
  · subst hzero
    rw [List.foldl_nil, Nat.zero_mul, ← hsect, ← hlast]
  · rw [List.foldl_cons, List.foldl_nil, hread, readHundred]
    simp [hlast, hsect, hone]
  · have hunit : r.read (Turkish.one h) = { r with sect := h, last_kind := some .unit } := by
      rw [read, lookup_unit h hh]
      simp [readUnit, hlast, hsect]
    have hlt : ¬ 100 ≤ h := by omega
    rw [List.foldl_cons, List.foldl_cons, List.foldl_nil, hunit, hread, readHundred]
    simp [hlt, hzero]

theorem read_belowThousand (hlast : r.last_kind = none) (hsect : r.sect = 0) {n : ℕ}
    (hn : n < 1000) : ∃ kind, (Turkish.belowThousand n).foldl read r =
      { r with sect := n, last_kind := kind } := by
  have hhundreds := read_hundreds hlast hsect (by omega : n / 100 < 10)
  have htens : ∃ kind, kind ≠ some Kind.unit ∧
      (Turkish.hundreds (n / 100) ++
        if n % 100 / 10 = 0 then [] else [Turkish.ten (n % 100 / 10)]).foldl read r =
      { r with sect := n / 100 * 100 + n % 100 / 10 * 10, last_kind := kind } := by
    rw [List.foldl_append, hhundreds]
    by_cases hzero : n % 100 / 10 = 0
    · refine ⟨if n / 100 = 0 then none else some .hundred, by split_ifs <;> simp, ?_⟩
      simp [hzero]
    · obtain ⟨hunit, hten⟩ := lookup_ten (n % 100 / 10) (by omega) (by omega)
      refine ⟨some .tens, by simp, ?_⟩
      rw [if_neg hzero, List.foldl_cons, List.foldl_nil, read, hunit, hten]
      by_cases hround : n / 100 = 0 <;> simp [readTens, hround]
  obtain ⟨kind, hkind, hread⟩ := htens
  rw [Turkish.belowThousand, List.foldl_append, hread]
  by_cases hzero : n % 10 = 0
  · have hval : n / 100 * 100 + n % 100 / 10 * 10 = n := by omega
    exact ⟨kind, by simp [hzero, hval]⟩
  · have hval : n / 100 * 100 + n % 100 / 10 * 10 + n % 10 = n := by omega
    refine ⟨some .unit, ?_⟩
    rw [if_neg hzero, List.foldl_cons, List.foldl_nil, read, lookup_unit (n % 10) (by omega)]
    simp [readUnit, hkind, hval]

/-- The reader has read the groups above that of `1000 ^ k`, worth `t`. -/
structure At (k : ℕ) (_spoken : Bool) (t : ℕ) (r : Reader) : Prop where
  out : r.out = []
  total : r.total = t
  sect : r.sect = 0
  last_kind : r.last_kind = none
  above : ∀ s ∈ r.last_scale, 1000 ^ k < s

/-- The reader has read a number worth `t`. -/
structure Done (_spoken : Bool) (t : ℕ) (r : Reader) : Prop where
  out : r.out = []
  total : r.total + r.sect = t

theorem read_scale (r : Reader) {k : ℕ} (hk : k < 5)
    (habove : ∀ s ∈ r.last_scale, 1000 ^ (k + 1) < s) :
    r.read (Turkish.scale (k + 1)) =
      { r with
        total := r.total + (if r.sect = 0 then 1 else r.sect) * 1000 ^ (k + 1)
        sect := 0
        last_scale := some (1000 ^ (k + 1))
        last_kind := none } := by
  obtain ⟨hunit, hten, hne, hscale⟩ := lookup_scale (k + 1) (by omega) (by omega)
  have hnot : r.last_scale.any (fun s => decide (s ≤ 1000 ^ (k + 1))) = false := by
    cases hlast : r.last_scale with
    | none => rfl
    | some s => exact decide_eq_false (Nat.not_le_of_lt (habove s hlast))
  rw [read, hunit, hten, hscale]
  dsimp only
  rw [if_neg hne, readScale]
  simp [hnot]

theorem At.read_part {k t g : ℕ} {spoken : Bool} (h : At (k + 1) spoken t r) (hk : k < 5)
    (hg : g < 1000) : At k (spoken || g ≠ 0) (t + g * 1000 ^ (k + 1))
      ((Turkish.part spoken (k + 1) g).foldl read r) := by
  have hpow : 1000 ^ k < 1000 ^ (k + 1) := Nat.pow_lt_pow_right (by omega) (Nat.lt_succ_self k)
  unfold Turkish.part
  rw [if_neg (Nat.succ_ne_zero k)]
  split_ifs with hzero hone
  · subst hzero
    rw [List.foldl_nil, Nat.zero_mul, Nat.add_zero]
    exact { h with above := fun s hs => hpow.trans (h.above s hs) }
  · obtain ⟨hk0, rfl⟩ := hone
    obtain rfl : k = 0 := by omega
    rw [List.foldl_cons, List.foldl_nil, read_scale r hk h.above]
    exact ⟨h.out, by simp [h.total, h.sect], rfl, rfl, by simp⟩
  · obtain ⟨kind, hread⟩ := read_belowThousand h.last_kind h.sect hg
    rw [List.foldl_append, hread, List.foldl_cons, List.foldl_nil,
      read_scale { r with sect := g, last_kind := kind } hk h.above]
    exact ⟨h.out, by simp [h.total, hzero], rfl, rfl, by simpa using hpow⟩

theorem At.read_last {t g : ℕ} {spoken : Bool} (h : At 0 spoken t r) (hg : g < 1000) :
    Done (spoken || g ≠ 0) (t + g) ((Turkish.part spoken 0 g).foldl read r) := by
  unfold Turkish.part
  rw [if_pos rfl]
  split_ifs with hzero
  · exact ⟨h.out, by simp [h.total, h.sect, hzero]⟩
  · obtain ⟨kind, hread⟩ := read_belowThousand h.last_kind h.sect hg
    rw [hread]
    exact ⟨h.out, by simp [h.total]⟩

end Reader

/-- Only a number below ten is spelled with units only. -/
theorem exists_not_unit {n : ℕ} (h : 10 ≤ n) (hn : n < 10 ^ 18) :
    ∃ w ∈ Turkish.spelled n, UNITS.lookup w = none := by
  rw [Turkish.spelled, if_neg (by omega)]
  by_cases hlt : n < 1000
  · rw [groups_of_lt (fun _ _ => rfl) 5 false hlt, Turkish.part, if_neg (by omega), if_pos rfl]
    by_cases hten : n % 100 / 10 = 0
    · refine ⟨Turkish.hundred, ?_, lookup_hundred.1⟩
      have hne : n / 100 ≠ 0 := by omega
      have hmem : Turkish.hundred ∈ Turkish.hundreds (n / 100) := by
        unfold Turkish.hundreds
        rw [if_neg hne]
        split_ifs <;> simp
      exact List.mem_append_left _ (List.mem_append_left _ hmem)
    · refine ⟨_, ?_, (lookup_ten (n % 100 / 10) (by omega) (by omega)).1⟩
      simp [Turkish.belowThousand, hten]
  · obtain ⟨spoken, j, g, hj, hg, hsub⟩ :=
      exists_part_subset Turkish.part (k := 5) false (Nat.le_of_not_lt hlt) (by omega)
    refine ⟨Turkish.scale (j + 1), hsub ?_, (lookup_scale (j + 1) (by omega) (by omega)).1⟩
    unfold Turkish.part
    rw [if_neg hg, if_neg (Nat.succ_ne_zero j)]
    split_ifs with hone
    · simp [hone.1]
    · simp

/-- The run of a spelled number is its numeral. -/
theorem parseRun_spelled {n : ℕ} (hn : n < 10 ^ 18) :
    parseRun (Turkish.spelled n) = [ofNat n] := by
  by_cases hten : n < 10
  · have hall : ∀ m < 10, parseRun (Turkish.spelled m) = [ofNat m] := by decide
    exact hall n hten
  · obtain ⟨w, hw, hnone⟩ := exists_not_unit (Nat.le_of_not_lt hten) hn
    have hinit : Reader.At 5 false 0 .init := ⟨rfl, rfl, rfl, rfl, by simp [Reader.init]⟩
    have hdone := reads_groups Reader.read Reader.At Reader.Done
      (fun j hj spoken t r g hg h => h.read_part hj hg)
      (fun spoken t r g hg h => h.read_last hg) hinit (n := n) (by omega)
    have hspelled : groups Turkish.part 5 false n = Turkish.spelled n := by
      rw [Turkish.spelled, if_neg (by omega)]
    rw [hspelled] at hdone
    have hmixed : ¬ (1 < (Turkish.spelled n).length ∧
        ∀ w ∈ Turkish.spelled n, (UNITS.lookup w).isSome) := fun hall => by
      have := hall.2 w hw
      simp [hnone] at this
    have hsum := hdone.total
    rw [parseRun, if_neg (List.ne_nil_of_mem hw), if_neg hmixed, Reader.flush, if_pos (by omega),
      hdone.out, hsum, Nat.zero_add, List.nil_append]

/-! ## A number in a sentence -/

theorem digitsFrom_words {ws : List Str} (h : ∀ w ∈ ws, w ∈ NUMBER_WORDS) (run rest : List Str) :
    digitsFrom run (ws ++ rest) = digitsFrom (run ++ ws) rest := by
  induction ws generalizing run with
  | nil => simp
  | cons w ws ih =>
    rw [List.cons_append, digitsFrom, if_pos (h w List.mem_cons_self),
      ih fun w' hw' => h w' (List.mem_cons_of_mem w hw')]
    simp

theorem belowThousand_words {n : ℕ} (hn : n < 1000) :
    ∀ w ∈ Turkish.belowThousand n, w ∈ NUMBER_WORDS := by
  have hundreds : ∀ w ∈ Turkish.hundreds (n / 100), w ∈ NUMBER_WORDS := by
    unfold Turkish.hundreds
    split_ifs
    · simp
    · simpa using hundred_mem
    · simpa using ⟨one_mem (n / 100) (by omega), hundred_mem⟩
  intro w hw
  rcases List.mem_append.1 hw with hw | hw
  · rcases List.mem_append.1 hw with hw | hw
    · exact hundreds w hw
    · split_ifs at hw with hzero
      · exact absurd hw List.not_mem_nil
      · exact List.mem_singleton.1 hw ▸ ten_mem (n % 100 / 10) (by omega) (by omega)
  · split_ifs at hw with hzero
    · exact absurd hw List.not_mem_nil
    · exact List.mem_singleton.1 hw ▸ one_mem (n % 10) (by omega)

theorem part_words (spoken : Bool) {k g : ℕ} (hk : k < 6) (hg : g < 1000) :
    ∀ w ∈ Turkish.part spoken k g, w ∈ NUMBER_WORDS := by
  unfold Turkish.part
  intro w hw
  split_ifs at hw with hzero hlast hone
  · exact absurd hw List.not_mem_nil
  · exact belowThousand_words hg w hw
  · exact List.mem_singleton.1 hw ▸ scale_mem 1 (by omega) (by omega)
  · rcases List.mem_append.1 hw with hw | hw
    · exact belowThousand_words hg w hw
    · exact List.mem_singleton.1 hw ▸ scale_mem k hk (by omega)

theorem spelled_words {n : ℕ} (hn : n < 10 ^ 18) : ∀ w ∈ Turkish.spelled n, w ∈ NUMBER_WORDS := by
  have hgroups : ∀ k < 6, ∀ spoken m, m < 1000 ^ (k + 1) →
      ∀ w ∈ groups Turkish.part k spoken m, w ∈ NUMBER_WORDS := by
    intro k
    induction k with
    | zero => exact fun _ spoken m hm => part_words spoken (by omega) (by simpa using hm)
    | succ k ih =>
      intro hk spoken m hm w hw
      rcases List.mem_append.1 hw with hw | hw
      · exact part_words spoken hk (group_lt hm) w hw
      · exact ih (by omega) _ _ (Nat.mod_lt m (Nat.pow_pos (by omega))) w hw
  unfold Turkish.spelled
  split_ifs
  · simpa using one_mem 0 (by omega)
  · exact hgroups 5 (by omega) false n (by omega)

theorem digitsFrom_startsApart (run : List Str) {post : List Str}
    (h : ∀ w ∈ post.head?, w ∉ NUMBER_WORDS) :
    digitsFrom run post = parseRun run ++ digitsFrom [] post := by
  cases post with
  | nil => simp [digitsFrom, parseRun]
  | cons w words =>
    have hword := h w rfl
    rw [digitsFrom, if_neg hword, digitsFrom, if_neg hword]
    simp [parseRun]

theorem digitsFrom_endsApart {pre run : List Str} (mid : List Str)
    (h : ∀ w ∈ pre.getLast?, w ∉ NUMBER_WORDS) (hne : pre = [] → run = []) :
    digitsFrom run (pre ++ mid) = digitsFrom run pre ++ digitsFrom [] mid := by
  induction pre generalizing run with
  | nil => simp [hne rfl, digitsFrom, parseRun]
  | cons w words ih =>
    rw [List.cons_append, digitsFrom, digitsFrom]
    cases words with
    | nil =>
      have hword := h w rfl
      rw [if_neg hword, if_neg hword]
      simp [digitsFrom, parseRun]
    | cons w' words =>
      have h' : ∀ v ∈ (w' :: words).getLast?, v ∉ NUMBER_WORDS := by simpa using h
      split_ifs
      · exact ih h' nofun
      · rw [ih h' nofun, List.append_assoc, List.cons_append]

/-- A number spelled in words is read as its numeral, and the words around it as they are read by
themselves. -/
theorem numbersToDigits_spelled {n : ℕ} (hn : n < 10 ^ 18) {pre post : List Str}
    (hpre : ∀ w ∈ pre.getLast?, w ∉ NUMBER_WORDS) (hpost : ∀ w ∈ post.head?, w ∉ NUMBER_WORDS) :
    numbersToDigits (pre ++ Turkish.spelled n ++ post) =
      numbersToDigits pre ++ [ofNat n] ++ numbersToDigits post := by
  unfold numbersToDigits
  rw [List.append_assoc, digitsFrom_endsApart _ hpre fun _ => rfl,
    digitsFrom_words (spelled_words hn), digitsFrom_startsApart _ hpost, List.nil_append,
    parseRun_spelled hn, List.append_assoc]

end RagLeap.Voice.NumbersTr

namespace RagLeap.Voice

open Str NumberWords

/-! ## Both languages -/

/-- A number in words, between words that it does not run on from or into, is read as its numeral,
in English below `10 ^ 12` and in Turkish below `10 ^ 18`. -/
theorem spoken_numbers_read_back :
    (∀ (ands : English.Ands) (n : ℕ), n < 10 ^ 12 → ∀ pre post : List Str,
      NumbersEn.EndsApart pre →
      NumbersEn.StartsApart (English.spelled ands n).getLast? post →
        NumbersEn.numbersToDigits (pre ++ English.spelled ands n ++ post) =
          NumbersEn.numbersToDigits pre ++ [ofNat n] ++ NumbersEn.numbersToDigits post) ∧
    ∀ n : ℕ, n < 10 ^ 18 → ∀ pre post : List Str,
      (∀ w ∈ pre.getLast?, w ∉ NumbersTr.NUMBER_WORDS) →
      (∀ w ∈ post.head?, w ∉ NumbersTr.NUMBER_WORDS) →
        NumbersTr.numbersToDigits (pre ++ Turkish.spelled n ++ post) =
          NumbersTr.numbersToDigits pre ++ [ofNat n] ++ NumbersTr.numbersToDigits post :=
  ⟨fun ands _ hn _ _ => NumbersEn.numbersToDigits_spelled ands hn,
    fun _ hn _ _ => NumbersTr.numbersToDigits_spelled hn⟩

namespace Sample

/-- "I paid one thousand and one dollars", "bin bir gece". -/
theorem spoken_numbers_read_back_1001 :
    (NumbersEn.numbersToDigits (["i", "paid", "one", "thousand", "and", "one",
        "dollars"].map String.toList) = ["i", "paid", "1001", "dollars"].map String.toList) ∧
      NumbersTr.numbersToDigits (["bin", "bir", "gece"].map String.toList) =
        ["1001", "gece"].map String.toList := by
  have hen := spoken_numbers_read_back.1 ⟨fun _ => false, fun _ => true⟩ 1001 (by decide)
    (["i", "paid"].map String.toList) (["dollars"].map String.toList)
    ⟨by decide, by decide⟩ ⟨by decide, by decide⟩
  have htr := spoken_numbers_read_back.2 1001 (by decide) [] (["gece"].map String.toList)
    (by decide) (by decide)
  have hspelled : (English.spelled ⟨fun _ => false, fun _ => true⟩ 1001 =
      ["one", "thousand", "and", "one"].map String.toList) ∧
      Turkish.spelled 1001 = ["bin", "bir"].map String.toList := by decide
  rw [hspelled.1] at hen
  rw [hspelled.2] at htr
  exact ⟨hen, htr⟩

/-- "one hundred" before "and twenty", of which neither is a number word next to it. -/
theorem hundred_and_twenty :
    English.spelled .never 100 = ["one", "hundred"].map String.toList ∧
      "and".toList ∉ NumbersEn.NUMBER_WORDS ∧
      NumbersEn.numbersToDigits (English.spelled .never 100 ++
        ["and", "twenty"].map String.toList) = ["120".toList] ∧ ofNat 100 ≠ "120".toList := by
  decide

end Sample

end RagLeap.Voice
