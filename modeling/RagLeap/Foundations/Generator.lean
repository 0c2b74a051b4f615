import Mathlib.Data.List.Basic
import Mathlib.Tactic.Common

/-!
# Generators

A `Generator` yields values and, between them, has effects. A consumer reads all of it, or closes it
after a number of values: the body then ends where it is suspended, for a body that handles no
`GeneratorExit` and has no `finally`. `drive` is what has been yielded and what effects there have
been at the end.
-/

namespace RagLeap

/-- A generator of values in `Y` with effects in `E`. -/
inductive Generator (Y E : Type)
  | done
  | yield (y : Y) (resume : Generator Y E)
  | emit (e : E) (next : Generator Y E)

namespace Generator

variable {Y E : Type}

/-- What came out of a generator. -/
structure Run (Y E : Type) where
  yielded : List Y
  emitted : List E

/-- The generator with its consumer: none reads everything, `some k` closes it after `k` values,
which for `k = 0` is before the body is entered. -/
def drive : Generator Y E → Option ℕ → Run Y E
  | _, some 0 => ⟨[], []⟩
  | done, _ => ⟨[], []⟩
  | yield y resume, none =>
    let rest := drive resume none
    ⟨y :: rest.yielded, rest.emitted⟩
  | yield y resume, some (k + 1) =>
    let rest := drive resume (some k)
    ⟨y :: rest.yielded, rest.emitted⟩
  | emit e next, k =>
    let rest := drive next k
    ⟨rest.yielded, e :: rest.emitted⟩

/-- Yields the values of a list, and goes on. -/
def yieldAll (ys : List Y) (g : Generator Y E) : Generator Y E := ys.foldr yield g

@[simp]
theorem drive_zero (g : Generator Y E) : drive g (some 0) = ⟨[], []⟩ := by
  cases g <;> rfl

@[simp]
theorem drive_done (k : Option ℕ) : drive (done : Generator Y E) k = ⟨[], []⟩ := by
  rcases k with _ | _ | k <;> rfl

theorem drive_yield_none (y : Y) (g : Generator Y E) :
    drive (yield y g) none = ⟨y :: (drive g none).yielded, (drive g none).emitted⟩ := rfl

theorem drive_yield_succ (y : Y) (g : Generator Y E) (k : ℕ) :
    drive (yield y g) (some (k + 1)) =
      ⟨y :: (drive g (some k)).yielded, (drive g (some k)).emitted⟩ := rfl

/-- A consumer that closes the generator among the values of the list. -/
theorem drive_yieldAll_of_le (ys : List Y) (g : Generator Y E) {k : ℕ} (h : k ≤ ys.length) :
    drive (yieldAll ys g) (some k) = ⟨ys.take k, []⟩ := by
  induction ys generalizing k with
  | nil =>
    obtain rfl : k = 0 := Nat.le_zero.1 h
    simp
  | cons y ys ih =>
    cases k with
    | zero => simp
    | succ k =>
      have hrest := ih (Nat.le_of_succ_le_succ h)
      show drive (yield y (yieldAll ys g)) (some (k + 1)) = _
      rw [drive_yield_succ, hrest]
      rfl

/-- A consumer that reads everything. -/
theorem drive_yieldAll_none (ys : List Y) (g : Generator Y E) :
    drive (yieldAll ys g) none = ⟨ys ++ (drive g none).yielded, (drive g none).emitted⟩ := by
  induction ys with
  | nil => rfl
  | cons y ys ih =>
    show drive (yield y (yieldAll ys g)) none = _
    rw [drive_yield_none, ih]
    rfl

/-- A consumer that takes `k` values after those of the list. -/
theorem drive_yieldAll_add (ys : List Y) (g : Generator Y E) (k : ℕ) :
    drive (yieldAll ys g) (some (ys.length + k)) =
      ⟨ys ++ (drive g (some k)).yielded, (drive g (some k)).emitted⟩ := by
  induction ys with
  | nil => rw [List.length_nil, Nat.zero_add]; rfl
  | cons y ys ih =>
    show drive (yield y (yieldAll ys g)) (some (ys.length + 1 + k)) = _
    rw [Nat.add_right_comm, drive_yield_succ, ih]
    rfl

end Generator

end RagLeap
