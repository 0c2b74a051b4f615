import Mathlib.Data.Fin.Basic
import Mathlib.Tactic.IntervalCases
import RagLeap.Core.ProactiveTriggers
import RagLeap.Foundations.CronField
import RagLeap.Foundations.Raising

/-!
# Weekdays of a cron expression

`_normalise_weekday` of `core/proactive_triggers.py` writes the weekday field of a cron expression,
whose numbers count from Sunday, for APScheduler, whose numbers count from Monday. `cronDays` is the
standard meaning of a field. The meaning that the scheduler gives a field is a parameter, of which
`Documented` says what its documentation does.

`normaliseWeekday_meets_iff`: a field without letters comes out right unless `int` refuses one of
its digits or reads one that cron does not know; a field with a letter is returned as it is, numbers
included, and is right just when the numbers in it make no difference.
-/

namespace RagLeap.CronWeekday

open CronField (Bound Numbering Element)
open ProactiveTriggers (DAYS Env addWeekdays)

/-! ## The code -/

inductive Raised
  | triggerValidationError (message : Str)
  | valueError
  deriving DecidableEq

/-- The errors of a part. -/
def stepsNotSupported : Str :=
  "weekday steps are not supported; list the days instead (for example 1,3,5 or mon,wed,fri)".toList
def invalidWeekday : Str := "invalid weekday in cron expression".toList

/-- `a` and `b` of a part. -/
def bounds (part : Str) : Str × Str := if '-' ∈ part then CronField.cut '-' part else (part, part)

def toInt (env : Env) (w : Str) : Except Raised ℕ := (env.int w).elim (.error .valueError) .ok

/-- The loop body up to the loop over the days: the numbers from which and to which it goes. -/
def weekdayRange (env : Env) (part : Str) : Except Raised (ℕ × ℕ) :=
  if part = [] ∨ '/' ∈ part then .error (.triggerValidationError stepsNotSupported)
  else if ¬ (env.isDigit (bounds part).1 ∧ env.isDigit (bounds part).2) then
    .error (.triggerValidationError invalidWeekday)
  else do
    let a ← toInt env (bounds part).1
    if 7 < a then .error (.triggerValidationError invalidWeekday)
    else
      let b ← toInt env (bounds part).2
      if 7 < b ∨ b < a then .error (.triggerValidationError invalidWeekday) else .ok (a, b)

/-- `_normalise_weekday`. -/
def normaliseWeekday (env : Env) (field : Str) : Except Raised Str :=
  if field = "*".toList ∨ field.any env.isAlpha then .ok field
  else do
    let names ← (field.splitOn ',').foldlM (fun names part => do
      let (a, b) ← weekdayRange env part
      .ok (addWeekdays names a b)) []
    .ok ([','].intercalate names)

/-! ## What a field means -/

/-- A weekday by its place in `_DAYS`, from Sunday on. -/
abbrev Weekday : Type := Fin 7

def Weekday.name (d : Weekday) : Str := DAYS.getD d []

/-- Names in any case. -/
def readName (w : Str) : Option Weekday :=
  (List.finRange 7).find? fun d => d.name = w.map Char.toLower

/-- Standard cron: `0` or `7` is Sunday. -/
def sundayFirst : Numbering Weekday Weekday where
  last := 7
  index d := d
  value n := Fin.ofNat 7 n

/-- APScheduler: `0` is Monday. -/
def mondayFirst : Numbering Weekday Weekday where
  last := 6
  index d := (d + 6 : Fin 7)
  value n := Fin.ofNat 7 (n + 1)

/-- The standard meaning of a field; `none`: it has none. -/
def cronDays (field : Str) : Option (Finset Weekday) :=
  CronField.fieldMeaning sundayFirst readName field

/-- The elements that the documentation of APScheduler has: `*`, numbers, names, ranges of numbers
or of names, and steps of stars and of ranges of numbers. -/
def Plain : Element Weekday → Prop
  | .star step => 0 < step ∧ step ≤ 6
  | .span (.number a) (.number b) step => step = 1 ∨ 0 < step ∧ step ≤ b - a
  | .span (.name _) (.name _) step => step = 1
  | _ => False

instance : DecidablePred Plain
  | .star _ => inferInstanceAs (Decidable (_ ∧ _))
  | .span (.number _) (.number _) _ => inferInstanceAs (Decidable (_ ∨ _))
  | .span (.name _) (.name _) _ => inferInstanceAs (Decidable (_ = _))
  | .span (.number _) (.name _) _ => inferInstanceAs (Decidable False)
  | .span (.name _) (.number _) _ => inferInstanceAs (Decidable False)

/-- A scheduler that gives fields of these elements the documented meaning; `none`: it refuses. -/
def Documented (scheduler : Str → Option (Finset Weekday)) : Prop :=
  ∀ field elements, CronField.readField readName field = some elements → (∀ p ∈ elements, Plain p) →
    scheduler field = CronField.meaning mondayFirst elements

/-- The outcome for a field is a `TriggerValidationError` or a field that means to the scheduler
what the given one means to cron. -/
def Meets (scheduler : Str → Option (Finset Weekday)) (field : Str) : Except Raised Str → Prop
  | .error (.triggerValidationError _) => True
  | .error .valueError => False
  | .ok normalised => scheduler normalised = cronDays field

/-- The documented behaviour of `str.isdigit` and `int`: a text of ASCII characters consists of
digits if it has one and only digits, and `int` gives their value if it takes them. -/
structure PythonDigits (env : Env) : Prop where
  isNumber : ∀ w, env.isDigit w = true → IsAscii w → CronField.IsNumber w
  int_eq : ∀ w n, CronField.IsNumber w → env.int w = some n → n = CronField.number w

/-! ## Fields without letters -/

section

variable {env : Env} {part : Str} {a b : ℕ}

/-- A part that gives the days from `a` to `b`. -/
structure Ranged (env : Env) (part : Str) (a b : ℕ) : Prop where
  ne_nil : part ≠ []
  no_slash : '/' ∉ part
  digits : env.isDigit (bounds part).1 ∧ env.isDigit (bounds part).2
  first : env.int (bounds part).1 = some a
  last : env.int (bounds part).2 = some b
  le : a ≤ b
  le_seven : b ≤ 7

/-- A part of digits that `int` does not take. -/
structure Unreadable (env : Env) (part : Str) : Prop where
  ne_nil : part ≠ []
  no_slash : '/' ∉ part
  digits : env.isDigit (bounds part).1 ∧ env.isDigit (bounds part).2
  int_eq_none : env.int (bounds part).1 = none ∨
    (∃ a ≤ 7, env.int (bounds part).1 = some a) ∧ env.int (bounds part).2 = none

theorem weekdayRange_of_ranged (h : Ranged env part a b) : weekdayRange env part = .ok (a, b) := by
  have hle := h.le.trans h.le_seven
  rw [weekdayRange, if_neg (not_or.2 ⟨h.ne_nil, h.no_slash⟩), if_neg (not_not.2 h.digits), toInt,
    toInt, h.first, h.last]
  change (if 7 < a then _ else if 7 < b ∨ b < a then _ else _) = _
  rw [if_neg hle.not_gt, if_neg (not_or.2 ⟨h.le_seven.not_gt, h.le.not_gt⟩)]

theorem weekdayRange_of_unreadable (h : Unreadable env part) :
    weekdayRange env part = .error .valueError := by
  rw [weekdayRange, if_neg (not_or.2 ⟨h.ne_nil, h.no_slash⟩), if_neg (not_not.2 h.digits), toInt,
    toInt]
  rcases h.int_eq_none with hfirst | ⟨⟨a, ha, hfirst⟩, hlast⟩
  · rw [hfirst]
    rfl
  · rw [hfirst, hlast]
    change (if 7 < a then _ else _) = _
    rw [if_neg ha.not_gt]
    rfl

/-- What becomes of a part. -/
theorem weekdayRange_cases (env : Env) (part : Str) :
    (∃ a b, Ranged env part a b) ∨ Unreadable env part ∨
      ∃ message, weekdayRange env part = .error (.triggerValidationError message) := by
  by_cases hsteps : part = [] ∨ '/' ∈ part
  · exact .inr (.inr ⟨stepsNotSupported, if_pos hsteps⟩)
  obtain ⟨hne, hslash⟩ := not_or.1 hsteps
  by_cases hdigits : env.isDigit (bounds part).1 ∧ env.isDigit (bounds part).2
  swap
  · exact .inr (.inr ⟨invalidWeekday, by rw [weekdayRange, if_neg hsteps, if_pos hdigits]⟩)
  cases hfirst : env.int (bounds part).1 with
  | none => exact .inr (.inl ⟨hne, hslash, hdigits, .inl hfirst⟩)
  | some a =>
    have heq : weekdayRange env part =
        if 7 < a then .error (.triggerValidationError invalidWeekday)
        else toInt env (bounds part).2 >>= fun b =>
          if 7 < b ∨ b < a then .error (.triggerValidationError invalidWeekday)
          else .ok (a, b) := by
      rw [weekdayRange, if_neg hsteps, if_neg (not_not.2 hdigits), toInt, hfirst]
      rfl
    by_cases ha : 7 < a
    · exact .inr (.inr ⟨invalidWeekday, heq.trans (if_pos ha)⟩)
    rw [if_neg ha] at heq
    cases hlast : env.int (bounds part).2 with
    | none => exact .inr (.inl ⟨hne, hslash, hdigits, .inr ⟨⟨a, not_lt.1 ha, hfirst⟩, hlast⟩⟩)
    | some b =>
      rw [toInt, hlast] at heq
      by_cases hb : 7 < b ∨ b < a
      · exact .inr (.inr ⟨invalidWeekday, heq.trans (if_pos hb)⟩)
      · obtain ⟨hseven, hab⟩ := not_or.1 hb
        exact .inl ⟨a, b, hne, hslash, hdigits, hfirst, hlast, not_lt.1 hab, not_lt.1 hseven⟩

theorem weekdayRange_eq_ok_iff : weekdayRange env part = .ok (a, b) ↔ Ranged env part a b := by
  refine ⟨fun h => ?_, weekdayRange_of_ranged⟩
  rcases weekdayRange_cases env part with ⟨a', b', hrange⟩ | hnot | ⟨message, herror⟩
  · have heq := (weekdayRange_of_ranged hrange).symm.trans h
    obtain ⟨rfl, rfl⟩ := Prod.mk.inj (Except.ok.inj heq)
    exact hrange
  · exact nomatch (weekdayRange_of_unreadable hnot).symm.trans h
  · exact nomatch herror.symm.trans h

theorem weekdayRange_eq_valueError_iff :
    weekdayRange env part = .error .valueError ↔ Unreadable env part := by
  refine ⟨fun h => ?_, weekdayRange_of_unreadable⟩
  rcases weekdayRange_cases env part with ⟨a', b', hrange⟩ | hnot | ⟨message, herror⟩
  · exact nomatch (weekdayRange_of_ranged hrange).symm.trans h
  · exact hnot
  · exact nomatch herror.symm.trans h

/-- A field without letters is worked through part by part. -/
theorem normaliseWeekday_of_no_letter {field : Str} (hstar : field ≠ "*".toList)
    (h : field.any env.isAlpha = false) : normaliseWeekday env field =
      (field.splitOn ',').mapM (weekdayRange env) >>= fun ranges =>
        .ok ([','].intercalate (ranges.foldl (fun names r => addWeekdays names r.1 r.2) [])) := by
  have hif : ¬ (field = "*".toList ∨ field.any env.isAlpha = true) :=
    not_or.2 ⟨hstar, by rw [h]; exact Bool.false_ne_true⟩
  rw [normaliseWeekday, if_neg hif]
  have hloop := foldlM_except (weekdayRange env) (fun names r => addWeekdays names r.1 r.2)
    (field.splitOn ',') []
  refine (congrArg (· >>= fun names => Except.ok ([','].intercalate names)) hloop).trans ?_
  cases (field.splitOn ',').mapM (weekdayRange env) with
  | error e => rfl
  | ok ranges => rfl

/-! ### The names it gives -/

theorem name_injective : Function.Injective Weekday.name := by
  intro d e h
  revert d e
  decide

/-- The names of the days from `a` to `b` are added, each once. -/
theorem addWeekdays_map_name (days : List Weekday) (a b : ℕ) :
    ∃ days' : List Weekday, addWeekdays (days.map Weekday.name) a b = days'.map Weekday.name ∧
      ∀ d, d ∈ days' ↔ d ∈ days ∨ ∃ n ∈ List.range' a (b + 1 - a), Fin.ofNat 7 n = d := by
  rw [addWeekdays]
  induction List.range' a (b + 1 - a) generalizing days with
  | nil => exact ⟨days, rfl, fun d => by simp⟩
  | cons n l ih =>
    rw [List.foldl_cons]
    have hname : DAYS.getD (n % 7) [] = Weekday.name (Fin.ofNat 7 n) := rfl
    rw [hname]
    by_cases hmem : Fin.ofNat 7 n ∈ days
    · obtain ⟨days', hdays, hiff⟩ := ih days
      refine ⟨days', ?_, fun d => ?_⟩
      · rw [← hdays]
        exact congrArg (fun names => l.foldl _ names)
          (if_pos ((List.mem_map_of_injective name_injective).2 hmem))
      · simp only [hiff, List.mem_cons, exists_eq_or_imp]
        refine ⟨Or.imp_right .inr, ?_⟩
        rintro (hd | rfl | hd)
        · exact .inl hd
        · exact .inl hmem
        · exact .inr hd
    · obtain ⟨days', hdays, hiff⟩ := ih (days ++ [Fin.ofNat 7 n])
      refine ⟨days', ?_, fun d => ?_⟩
      · rw [← hdays, List.map_append]
        exact congrArg (fun names => l.foldl _ names)
          (if_neg (mt (List.mem_map_of_injective name_injective).1 hmem))
      · rw [hiff, List.mem_append, List.mem_singleton, eq_comm]
        simp only [List.mem_cons, exists_eq_or_imp, or_assoc]

theorem foldl_addWeekdays (ranges : List (ℕ × ℕ)) (days : List Weekday) :
    ∃ days' : List Weekday,
      ranges.foldl (fun names r => addWeekdays names r.1 r.2) (days.map Weekday.name) =
        days'.map Weekday.name ∧
      ∀ d, d ∈ days' ↔ d ∈ days ∨
        ∃ r ∈ ranges, ∃ n ∈ List.range' r.1 (r.2 + 1 - r.1), Fin.ofNat 7 n = d := by
  induction ranges generalizing days with
  | nil => exact ⟨days, rfl, fun d => by simp⟩
  | cons r ranges ih =>
    obtain ⟨days', hdays, hiff⟩ := addWeekdays_map_name days r.1 r.2
    obtain ⟨days'', hdays', hiff'⟩ := ih days'
    refine ⟨days'', ?_, fun d => ?_⟩
    · rw [List.foldl_cons, hdays, hdays']
    · simp only [hiff', hiff, List.mem_cons, exists_eq_or_imp, or_assoc]

end

/-! ### The meaning of its names and of the elements it reads -/

theorem isAscii_of_readName {w : Str} {d : Weekday} (h : readName w = some d) : IsAscii w := by
  rw [readName] at h
  have heq : Weekday.name d = w.map Char.toLower :=
    of_decide_eq_true (List.find?_some (p := fun d => decide (Weekday.name d = _)) h)
  have hascii : ∀ d, IsAscii (Weekday.name d) := by decide
  exact fun c hc => ascii_of_toLower rfl (hascii d _ (heq ▸ List.mem_map_of_mem hc))

/-- A name that the function gives is an element that stands for its day. -/
theorem readElement_name (d : Weekday) :
    CronField.readElement readName d.name = some (.span (.name d) (.name d) 1) := by
  revert d
  decide

theorem comma_notMem_name (d : Weekday) : ',' ∉ d.name := by
  revert d
  decide

theorem meaning_names (days : List Weekday) :
    CronField.meaning mondayFirst (days.map fun d => Element.span (.name d) (.name d) 1) =
      some days.toFinset := by
  have hvalid : ∀ p ∈ days.map fun d => Element.span (.name d) (.name d) 1,
      p.Valid mondayFirst := by
    intro p hp
    obtain ⟨d, -, rfl⟩ := List.mem_map.1 hp
    exact ⟨Nat.one_pos, le_rfl, Nat.le_of_lt_succ (d + 6).isLt⟩
  have hvalues : ∀ d : Weekday,
      ((Element.span (Bound.name d) (.name d) 1).numbers mondayFirst).map mondayFirst.value =
        [d] := by
    decide
  rw [CronField.meaning_of_valid hvalid, List.flatMap_map]
  simp only [hvalues, List.flatMap_singleton']

/-- The scheduler understands the names that the function gives. -/
theorem scheduler_names {scheduler : Str → Option (Finset Weekday)} (h : Documented scheduler)
    {days : List Weekday} (hne : days ≠ []) :
    scheduler ([','].intercalate (days.map Weekday.name)) = some days.toFinset := by
  have hread : CronField.readField readName ([','].intercalate (days.map Weekday.name)) =
      some (days.map fun d => Element.span (.name d) (.name d) 1) := by
    rw [CronField.readField_intercalate (by simpa using hne) (by simp [comma_notMem_name])]
    have helements : CronField.readElement readName ∘ Weekday.name =
        fun d => pure (Element.span (.name d) (.name d) 1) := funext readElement_name
    rw [List.mapM_map, helements, List.mapM_pure]
    rfl
  rw [h _ _ hread, meaning_names]
  intro p hp
  obtain ⟨d, -, rfl⟩ := List.mem_map.1 hp
  exact rfl

section

variable {env : Env} {part field : Str} {a b : ℕ} {ranges : List (ℕ × ℕ)}

/-- In the digits `0` to `9`, a part that gives the days from `a` to `b` is a range of these numbers
to cron. -/
theorem readElement_of_ranged (henv : PythonDigits env) (h : Ranged env part a b)
    (hascii : IsAscii part) :
    CronField.readElement readName part = some (.span (.number a) (.number b) 1) := by
  have hbound : ∀ {w : Str} {n : ℕ}, env.isDigit w = true → IsAscii w → env.int w = some n →
      CronField.readBound readName w = some (.number n) := fun hdigit hw hint => by
    have hnumber := henv.isNumber _ hdigit hw
    rw [CronField.readBound, if_pos hnumber, ← henv.int_eq _ _ hnumber hint]
  obtain ⟨hdigit, hdigit'⟩ := h.digits
  have hfirst := h.first
  have hlast := h.last
  rw [CronField.readElement, if_neg h.no_slash, CronField.readSpan]
  by_cases hdash : '-' ∈ part
  · have hstar : part ≠ ['*'] := fun hstar => by
      rw [hstar] at hdash
      exact absurd hdash (by decide)
    have hbounds : bounds part = CronField.cut '-' part := if_pos hdash
    rw [← CronField.cut_append hdash, CronField.isAscii_append_cons] at hascii
    rw [hbounds] at hdigit hdigit' hfirst hlast
    rw [if_neg hstar, if_pos hdash, hbound hdigit hascii.1 hfirst, hbound hdigit' hascii.2.2 hlast]
    rfl
  · have hbounds : bounds part = (part, part) := if_neg hdash
    rw [hbounds] at hdigit hfirst hlast
    have hstar : part ≠ ['*'] := fun hstar => by
      have hnumber := henv.isNumber part hdigit hascii
      rw [hstar] at hnumber
      exact absurd hnumber (by decide)
    rw [if_neg hstar, if_neg hdash, hbound hdigit hascii hfirst,
      Option.some.inj (hlast.symm.trans hfirst)]
    rfl

/-- What cron makes of numbers and ranges of numbers up to `7`. -/
theorem meaning_ranges (h : ∀ r ∈ ranges, r.1 ≤ r.2 ∧ r.2 ≤ 7) {days : List Weekday}
    (hdays : ∀ d, d ∈ days ↔
      ∃ r ∈ ranges, ∃ n ∈ List.range' r.1 (r.2 + 1 - r.1), Fin.ofNat 7 n = d) :
    CronField.meaning sundayFirst
        (ranges.map fun r => Element.span (.number r.1) (.number r.2) 1) = some days.toFinset := by
  have hvalid : ∀ p ∈ ranges.map fun r => Element.span (.number r.1) (.number r.2) 1,
      p.Valid sundayFirst := by
    intro p hp
    obtain ⟨r, hr, rfl⟩ := List.mem_map.1 hp
    exact ⟨Nat.one_pos, h r hr⟩
  have hnumbers : ∀ r : ℕ × ℕ, (Element.span (.number r.1) (.number r.2) 1).numbers sundayFirst =
      List.range' r.1 (r.2 + 1 - r.1) := fun r => by
    rw [Element.numbers]
    exact List.filter_eq_self.2 fun n _ => decide_eq_true (one_dvd _)
  rw [CronField.meaning_of_valid hvalid, Option.some_inj]
  ext d
  rw [List.mem_toFinset, List.mem_toFinset, hdays, List.mem_flatMap]
  simp only [List.mem_map, exists_exists_and_eq_and, hnumbers]
  rfl

/-- `int` takes the digits of each part up to the first that is no weekday and no range of weekdays;
where every part is one, the digits are `0` to `9`. -/
def NumbersRead (env : Env) (field : Str) : Prop :=
  (∀ pre part post, field.splitOn ',' = pre ++ part :: post →
    (∀ p ∈ pre, ∃ a b, Ranged env p a b) → ¬ Unreadable env part) ∧
  ((∀ p ∈ field.splitOn ',', ∃ a b, Ranged env p a b) → ∀ p ∈ field.splitOn ',', IsAscii p)

theorem mapM_weekdayRange_ne_valueError_iff :
    (field.splitOn ',').mapM (weekdayRange env) ≠ .error .valueError ↔
      ∀ pre part post, field.splitOn ',' = pre ++ part :: post →
        (∀ p ∈ pre, ∃ a b, Ranged env p a b) → ¬ Unreadable env part := by
  have hok : ∀ p, (∃ r, weekdayRange env p = .ok r) ↔ ∃ a b, Ranged env p a b := fun p => by
    rw [Prod.exists]
    exact exists_congr fun a => exists_congr fun b => weekdayRange_eq_ok_iff
  rw [Ne, mapM_eq_error_iff]
  simp only [hok, weekdayRange_eq_valueError_iff]
  push Not
  rfl

/-- A field without letters. -/
theorem meets_numbers_iff (henv : PythonDigits env) {scheduler : Str → Option (Finset Weekday)}
    (hscheduler : Documented scheduler) (hstar : field ≠ "*".toList)
    (hletter : field.any env.isAlpha = false) :
    Meets scheduler field (normaliseWeekday env field) ↔ NumbersRead env field := by
  rw [normaliseWeekday_of_no_letter hstar hletter, NumbersRead,
    ← mapM_weekdayRange_ne_valueError_iff]
  rcases hranges : (field.splitOn ',').mapM (weekdayRange env) with e | ranges
  · -- some part is refused, or not read
    obtain ⟨pre, part, post, hsplit, -, herror⟩ := mapM_eq_error_iff.1 hranges
    have hnot : ¬ ∀ p ∈ field.splitOn ',', ∃ a b, Ranged env p a b := fun hall => by
      obtain ⟨a, b, hrange⟩ := hall part (by simp [hsplit])
      exact nomatch herror.symm.trans (weekdayRange_of_ranged hrange)
    cases e with
    | triggerValidationError message =>
      exact iff_of_true trivial ⟨nofun, fun hall => absurd hall hnot⟩
    | valueError => exact iff_of_false id fun h => h.1 rfl
  · have hforall := (mapM_except_cases (weekdayRange env) (field.splitOn ',')).resolve_left
      fun ⟨_, _, _, _, herror⟩ => nomatch herror.symm.trans hranges
    obtain ⟨ranges', hok, hforall⟩ := hforall
    obtain rfl := Except.ok.inj (hranges.symm.trans hok)
    have hall : ∀ p ∈ field.splitOn ',', ∃ a b, Ranged env p a b := fun p hp => by
      obtain ⟨r, -, hr⟩ := exists_right_of_forall₂ hforall hp
      exact ⟨r.1, r.2, weekdayRange_eq_ok_iff.1 hr⟩
    have hle : ∀ r ∈ ranges, r.1 ≤ r.2 ∧ r.2 ≤ 7 := fun r hr => by
      obtain ⟨p, -, hp⟩ := exists_left_of_forall₂ hforall hr
      have hrange := weekdayRange_eq_ok_iff.1 hp
      exact ⟨hrange.le, hrange.le_seven⟩
    obtain ⟨days, hnames, hdays⟩ := foldl_addWeekdays ranges []
    simp only [List.not_mem_nil, false_or] at hdays
    have hne : days ≠ [] := by
      obtain ⟨p, ps, hp⟩ := List.exists_cons_of_ne_nil (List.splitOn_ne_nil ',' field)
      obtain ⟨r, hr, -⟩ := exists_right_of_forall₂ hforall (hp ▸ List.mem_cons_self (a := p))
      refine List.ne_nil_of_mem ((hdays (Fin.ofNat 7 r.1)).2 ⟨r, hr, r.1, ?_, rfl⟩)
      rw [List.mem_range'_1]
      have := (hle r hr).1
      omega
    have hresult : (Except.ok ranges >>= fun ranges : List (ℕ × ℕ) => Except.ok
        ([','].intercalate (ranges.foldl (fun names r => addWeekdays names r.1 r.2) []))) =
        (Except.ok ([','].intercalate (days.map Weekday.name)) : Except Raised Str) :=
      congrArg (fun names => Except.ok ([','].intercalate names)) hnames
    rw [hresult, Meets, scheduler_names hscheduler hne]
    constructor
    · intro heq
      refine ⟨nofun, fun _ => ?_⟩
      obtain ⟨elements, helements, -⟩ := Option.bind_eq_some_iff.1 heq.symm
      exact CronField.isAscii_of_readField (fun w d => isAscii_of_readName) helements
    · rintro ⟨-, hascii⟩
      have hread : CronField.readField readName field =
          some (ranges.map fun r => Element.span (.number r.1) (.number r.2) 1) := by
        rw [CronField.readField, mapM_eq_some_iff, List.forall₂_map_right_iff]
        refine List.forall₂_iff_get.2 ⟨hforall.length_eq, fun i hi hi' => ?_⟩
        have hr := weekdayRange_eq_ok_iff.1 ((List.forall₂_iff_get.1 hforall).2 i hi hi')
        exact readElement_of_ranged henv hr (hascii hall _ (List.get_mem _ _))
      rw [cronDays, CronField.fieldMeaning, hread]
      exact (meaning_ranges hle hdays).symm

end

/-! ## Fields with letters -/

/-- The days from `first` to `last` that a part names. -/
def named : Element Weekday → Finset Weekday
  | .span (.name first) (.name last) _ =>
    ((List.finRange 7).filter fun d => first ≤ d ∧ d ≤ last).toFinset
  | _ => ∅

/-- The numbers that a part lists, by the days they are to cron. -/
def listed : Element Weekday → Finset Weekday
  | .star step => (((List.range 7).filter (step ∣ ·)).map (Fin.ofNat 7)).toFinset
  | .span (.number a) (.number b) step =>
    (((List.range' a (b + 1 - a)).filter (step ∣ · - a)).map (Fin.ofNat 7)).toFinset
  | _ => ∅

/-- The numbers of the elements make no difference. Either both numberings have an element that
they do not allow, or neither has, and then with a number `n` the elements also list `n + 1` or name
the day that `n` is from Monday on, and list `n - 1` or name the day that `n` is from Sunday on. -/
def Harmless (elements : List (Element Weekday)) : Prop :=
  ((∃ p ∈ elements, ¬ p.Valid mondayFirst) ↔ ∃ p ∈ elements, ¬ p.Valid sundayFirst) ∧
  ((∀ p ∈ elements, p.Valid mondayFirst ∧ p.Valid sundayFirst) → ∀ p ∈ elements, ∀ d ∈ listed p,
    ((∃ q ∈ elements, d + 1 ∈ listed q) ∨ ∃ q ∈ elements, d + 1 ∈ named q) ∧
    ((∃ q ∈ elements, d - 1 ∈ listed q) ∨ ∃ q ∈ elements, d ∈ named q))

/-- The days of a range of names that both numberings allow. -/
theorem values_names (first last : Weekday) :
    let p : Element Weekday := .span (.name first) (.name last) 1
    p.Valid mondayFirst → p.Valid sundayFirst →
      p.values mondayFirst = named p ∧ p.values sundayFirst = named p := by
  revert first last
  decide

theorem values_star {step : ℕ} (h : 0 < step) (h' : step ≤ 6) (d : Weekday) :
    (d ∈ (Element.star step : Element Weekday).values mondayFirst ↔ d - 1 ∈ listed (.star step)) ∧
      (d ∈ (Element.star step : Element Weekday).values sundayFirst ↔ d ∈ listed (.star step)) := by
  revert d
  interval_cases step <;> decide

theorem values_numbers (a b step : ℕ) (d : Weekday) :
    (d ∈ (Element.span (.number a) (.number b) step).values mondayFirst ↔
        d - 1 ∈ listed (.span (.number a) (.number b) step)) ∧
      (d ∈ (Element.span (.number a) (.number b) step).values sundayFirst ↔
        d ∈ listed (.span (.number a) (.number b) step)) := by
  have hvalue : ∀ n, mondayFirst.value n = d ↔ sundayFirst.value n = d - 1 := fun n => by
    have hsucc : mondayFirst.value n = sundayFirst.value n + 1 :=
      Fin.ext (Nat.add_mod n 1 7)
    rw [hsucc]
    generalize sundayFirst.value n = m
    revert m d
    decide
  simp only [Element.values, listed, List.mem_toFinset, List.mem_map, hvalue]
  exact ⟨Iff.rfl, Iff.rfl⟩

/-- The values of a part from Monday on and from Sunday on. -/
theorem mem_values_iff {p : Element Weekday} (hplain : Plain p) (h : p.Valid mondayFirst)
    (h' : p.Valid sundayFirst) (d : Weekday) :
    (d ∈ p.values mondayFirst ↔ d - 1 ∈ listed p ∨ d ∈ named p) ∧
      (d ∈ p.values sundayFirst ↔ d ∈ listed p ∨ d ∈ named p) := by
  have hempty : ∀ d : Weekday, d ∉ (∅ : Finset Weekday) := fun d => Finset.notMem_empty d
  match p, hplain with
  | .star step, hstep =>
    simpa only [named, hempty, or_false] using values_star hstep.1 hstep.2 d
  | .span (.number a) (.number b) step, _ =>
    simpa only [named, hempty, or_false] using values_numbers a b step d
  | .span (.name first) (.name last) step, hstep =>
    obtain rfl : step = 1 := hstep
    obtain ⟨hmonday, hsunday⟩ := values_names first last h h'
    simp only [listed, hempty, false_or, hmonday, hsunday, and_self]

/-- Parts mean the same from Monday on as from Sunday on just when their numbers make no
difference. -/
theorem meaning_eq_iff_harmless {elements : List (Element Weekday)}
    (hplain : ∀ p ∈ elements, Plain p) :
    CronField.meaning mondayFirst elements = CronField.meaning sundayFirst elements ↔
      Harmless elements := by
  by_cases hmonday : ∀ p ∈ elements, p.Valid mondayFirst
  · by_cases hsunday : ∀ p ∈ elements, p.Valid sundayFirst
    · have hboth : ∀ p ∈ elements, p.Valid mondayFirst ∧ p.Valid sundayFirst := fun p hp =>
        ⟨hmonday p hp, hsunday p hp⟩
      have hvalues : ∀ p ∈ elements, ∀ d, _ := fun p hp =>
        mem_values_iff (hplain p hp) (hmonday p hp) (hsunday p hp)
      have hmondayValues : ∀ d, (∃ p ∈ elements, d ∈ p.values mondayFirst) ↔
          (∃ p ∈ elements, d - 1 ∈ listed p) ∨ ∃ p ∈ elements, d ∈ named p := fun d => by
        simp only [← exists_or, ← and_or_left]
        exact exists_congr fun p => and_congr_right fun hp => (hvalues p hp d).1
      have hsundayValues : ∀ d, (∃ p ∈ elements, d ∈ p.values sundayFirst) ↔
          (∃ p ∈ elements, d ∈ listed p) ∨ ∃ p ∈ elements, d ∈ named p := fun d => by
        simp only [← exists_or, ← and_or_left]
        exact exists_congr fun p => and_congr_right fun hp => (hvalues p hp d).2
      have hback : ∀ d : Weekday, d + 1 - 1 = d ∧ d - 1 + 1 = d := by decide
      rw [CronField.meaning_eq_meaning_iff hmonday hsunday, Harmless]
      simp only [hmondayValues, hsundayValues]
      constructor
      · intro h
        refine ⟨iff_of_false (by push Not; exact hmonday) (by push Not; exact hsunday),
          fun _ p hp d hd => ⟨(h (d + 1)).1 (.inl ⟨p, hp, ?_⟩), (h d).2 (.inl ⟨p, hp, hd⟩)⟩⟩
        rwa [(hback d).1]
      · rintro ⟨-, h⟩ d
        constructor
        · rintro (⟨p, hp, hd⟩ | hd)
          · simpa only [(hback d).2] using (h hboth p hp (d - 1) hd).1
          · exact .inr hd
        · rintro (⟨p, hp, hd⟩ | hd)
          · exact (h hboth p hp d hd).2
          · exact .inr hd
    · have hnone : CronField.meaning sundayFirst elements = none := if_neg hsunday
      push Not at hsunday
      rw [CronField.meaning_of_valid hmonday, hnone]
      refine iff_of_false nofun fun h => ?_
      obtain ⟨p, hp, hnot⟩ := h.1.2 hsunday
      exact hnot (hmonday p hp)
  · have hnone : CronField.meaning mondayFirst elements = none := if_neg hmonday
    push Not at hmonday
    rw [hnone, eq_comm, CronField.meaning_eq_none_iff, Harmless]
    constructor
    · intro hsunday
      refine ⟨iff_of_true hmonday hsunday, fun hboth => ?_⟩
      obtain ⟨p, hp, hnot⟩ := hmonday
      exact absurd (hboth p hp).1 hnot
    · exact fun h => h.1.1 hmonday

/-- Parts without numbers, such as `mon,wed-fri`, are harmless if both numberings allow them. -/
theorem harmless_of_no_number {elements : List (Element Weekday)}
    (h : ∀ p ∈ elements, p.Valid mondayFirst ∧ p.Valid sundayFirst)
    (hlisted : ∀ p ∈ elements, listed p = ∅) : Harmless elements := by
  refine ⟨iff_of_false ?_ ?_, fun _ p hp d hd => ?_⟩
  · rintro ⟨p, hp, hnot⟩
    exact hnot (h p hp).1
  · rintro ⟨p, hp, hnot⟩
    exact hnot (h p hp).2
  · rw [hlisted p hp] at hd
    exact absurd hd (Finset.notMem_empty d)

/-- The condition on a field with a letter: its numbers make no difference if all of its elements
are documented, and otherwise the scheduler does give it the standard meaning. -/
def SameReading (scheduler : Str → Option (Finset Weekday)) (field : Str) : Prop :=
  (∀ elements, CronField.readField readName field = some elements → (∀ p ∈ elements, Plain p) →
    Harmless elements) ∧
  ((∀ elements, CronField.readField readName field = some elements → ∃ p ∈ elements, ¬ Plain p) →
    scheduler field = cronDays field)

theorem same_meaning_iff {scheduler : Str → Option (Finset Weekday)}
    (h : Documented scheduler) (field : Str) :
    scheduler field = cronDays field ↔ SameReading scheduler field := by
  have hplain : ∀ elements, CronField.readField readName field = some elements →
      (∀ p ∈ elements, Plain p) → (scheduler field = cronDays field ↔ Harmless elements) := by
    intro elements helements hplain
    have hcron : cronDays field = CronField.meaning sundayFirst elements := by
      rw [cronDays, CronField.fieldMeaning, helements]
      rfl
    rw [h field elements helements hplain, hcron, meaning_eq_iff_harmless hplain]
  by_cases hdoc : ∃ elements, CronField.readField readName field = some elements ∧
      ∀ p ∈ elements, Plain p
  · obtain ⟨elements, helements, hall⟩ := hdoc
    rw [hplain elements helements hall, SameReading]
    constructor
    · intro hharmless
      refine ⟨fun elements' helements' _ => ?_, fun hnot => ?_⟩
      · rwa [← Option.some.inj (helements.symm.trans helements')]
      · obtain ⟨p, hp, hnotPlain⟩ := hnot elements helements
        exact absurd (hall p hp) hnotPlain
    · exact fun h => h.1 elements helements hall
  · push Not at hdoc
    refine ⟨fun heq => ⟨fun elements helements hall => ?_, fun _ => heq⟩, fun h => h.2 hdoc⟩
    exact (hplain elements helements hall).1 heq

/-! ## The result -/

/-- For every text the outcome is an error of validation, or means to the scheduler what the text
means to cron, just when the text is `*`, or has a letter and the same meaning in both numberings,
or has none and digits that `int` takes and cron knows. -/
theorem normaliseWeekday_meets_iff (env : Env) (henv : PythonDigits env)
    (scheduler : Str → Option (Finset Weekday)) (hscheduler : Documented scheduler) (field : Str) :
    Meets scheduler field (normaliseWeekday env field) ↔
      (field ≠ "*".toList →
        if field.any env.isAlpha then SameReading scheduler field else NumbersRead env field) := by
  by_cases hstar : field = "*".toList
  · have hread : CronField.readField readName field = some [.star 1] := by
      rw [hstar]
      decide
    have hresult : normaliseWeekday env field = .ok field := if_pos (.inl hstar)
    rw [hresult, Meets, hscheduler field _ hread (by decide), cronDays, CronField.fieldMeaning,
      hread]
    exact iff_of_true (by decide) fun hnot => absurd hstar hnot
  rw [forall_prop_of_true hstar]
  split_ifs with hletter
  · have hresult : normaliseWeekday env field = .ok field := if_pos (.inr hletter)
    rw [hresult, Meets, same_meaning_iff hscheduler]
  · exact meets_numbers_iff henv hscheduler hstar (Bool.eq_false_iff.2 hletter)

/-! ## The function of the triggers -/

theorem toOption_bind {ε α β : Type} (x : Except ε α) (f : α → Except ε β) :
    (x >>= f).toOption = x.toOption.bind fun a => (f a).toOption := by
  cases x <;> rfl

theorem toOption_foldlM {ε α β : Type} (f : β → α → Except ε β) (l : List α) (b : β) :
    (l.foldlM f b).toOption = l.foldlM (fun b a => (f b a).toOption) b := by
  induction l generalizing b with
  | nil => rfl
  | cons a l ih =>
    rw [List.foldlM_cons, List.foldlM_cons, toOption_bind]
    exact congrArg (Option.bind (f b a).toOption) (funext ih)

theorem normalisePart_eq (env : Env) (names : List Str) (part : Str) :
    ProactiveTriggers.normalisePart env names part =
      (weekdayRange env part).toOption.map fun r => addWeekdays names r.1 r.2 := by
  rw [ProactiveTriggers.normalisePart, weekdayRange]
  by_cases hsteps : part = [] ∨ '/' ∈ part
  · rw [if_pos hsteps, if_pos hsteps]
    rfl
  rw [if_neg hsteps, if_neg hsteps]
  have hsplit : (if '-' ∈ part then (part.takeWhile (· ≠ '-'), (part.dropWhile (· ≠ '-')).tail)
      else (part, part)) = bounds part := rfl
  rw [hsplit]
  obtain ⟨lo, hi⟩ := bounds part
  dsimp only
  by_cases hdigits : env.isDigit lo ∧ env.isDigit hi
  swap
  · rw [if_pos hdigits, if_neg (by rwa [Bool.and_eq_true])]
    rfl
  rw [if_neg (not_not.2 hdigits), if_pos (by rwa [Bool.and_eq_true]), toInt, toInt]
  cases env.int lo with
  | none => rfl
  | some a =>
    cases env.int hi with
    | none =>
      change none = Option.map _ (Except.toOption (if 7 < a then _ else _))
      split_ifs <;> rfl
    | some b =>
      change (if a ≤ 7 ∧ b ≤ 7 ∧ a ≤ b then _ else none) =
        Option.map _ (Except.toOption (if 7 < a then _ else if 7 < b ∨ b < a then _ else _))
      by_cases h : a ≤ 7 ∧ b ≤ 7 ∧ a ≤ b
      · rw [if_pos h, if_neg (by omega), if_neg (by omega)]
        rfl
      · rw [if_neg h]
        split_ifs <;> first | rfl | omega

/-- Apart from which error it is, this is the function that the triggers use. -/
theorem toOption_normaliseWeekday (env : Env) (field : Str) :
    (normaliseWeekday env field).toOption = ProactiveTriggers.normaliseWeekday env field := by
  rw [normaliseWeekday, ProactiveTriggers.normaliseWeekday]
  split_ifs
  · rfl
  · rw [toOption_bind, toOption_foldlM]
    have hloop : (fun names part => (weekdayRange env part >>= fun r =>
        Except.ok (ε := Raised) (addWeekdays names r.1 r.2)).toOption) =
        ProactiveTriggers.normalisePart env := by
      funext names part
      rw [normalisePart_eq]
      cases weekdayRange env part <;> rfl
    change (List.foldlM (fun names part => (weekdayRange env part >>= _).toOption) _ _).bind _ = _
    rw [hloop]
    cases (field.splitOn ',').foldlM (ProactiveTriggers.normalisePart env) [] <;> rfl

instance (scheduler : Str → Option (Finset Weekday)) (field : Str) :
    DecidablePred (Meets scheduler field)
  | .error (.triggerValidationError _) => .isTrue trivial
  | .error .valueError => .isFalse id
  | .ok _ => inferInstanceAs (Decidable (_ = _))

namespace Sample

/-- `isalpha`, `isdigit` and `int` for ASCII and one digit that `int` does not take. -/
def env : Env where
  isAlpha c := c.isAlpha
  isDigit w := w ≠ [] && w.all fun c => c.isDigit || c = '²'
  int w := if CronField.IsNumber w then some (CronField.number w) else none
  knowsZone _ := true
  nextFireTime _ _ _ := none

example : normaliseWeekday env "5-7,1".toList = .ok "fri,sat,sun,mon".toList := by decide

/-- A scheduler with no elements besides the documented ones. -/
def scheduler : Str → Option (Finset Weekday) := CronField.fieldMeaning mondayFirst readName

theorem pythonDigits_env : PythonDigits env where
  isNumber w h hascii := by
    obtain ⟨hne, hall⟩ := Bool.and_eq_true_iff.1 h
    refine ⟨of_decide_eq_true hne, List.all_eq_true.2 fun c hc => ?_⟩
    have hlt := hascii c hc
    refine (Bool.or_eq_true_iff.1 (List.all_eq_true.1 hall c hc)).resolve_right fun heq => ?_
    rw [of_decide_eq_true heq] at hlt
    exact absurd hlt (by decide)
  int_eq w n hnumber h := (Option.some.inj ((if_pos hnumber).symm.trans h)).symm

theorem documented_scheduler : Documented scheduler := by
  intro field elements helements _
  rw [scheduler, CronField.fieldMeaning, helements]
  rfl

/-- The numbers beside a name are left to count from Monday, and `int` is called with a digit that
it does not take. -/
theorem letter_keeps_number :
    ¬ Meets scheduler "mon,3".toList (normaliseWeekday env "mon,3".toList) ∧
      ¬ Meets scheduler "²".toList (normaliseWeekday env "²".toList) := by
  decide

/-- A range of names that does not begin or end on Sunday. -/
theorem names_meet :
    Meets scheduler "mon-fri".toList (normaliseWeekday env "mon-fri".toList) := by
  have hread : CronField.readField readName "mon-fri".toList =
      some [.span (.name 1) (.name 5) 1] := by decide
  rw [normaliseWeekday_meets_iff env pythonDigits_env scheduler documented_scheduler]
  intro _
  rw [if_pos (by decide)]
  refine ⟨fun elements helements _ => ?_, fun hnot => ?_⟩
  · obtain rfl := Option.some.inj (hread.symm.trans helements)
    exact harmless_of_no_number (by decide) (by decide)
  · obtain ⟨p, hp, hplain⟩ := hnot _ hread
    obtain rfl := List.mem_singleton.1 hp
    exact absurd rfl hplain

end Sample

end RagLeap.CronWeekday
