import Mathlib.Data.Nat.ModEq
import Mathlib.Tactic.Common
import Mathlib.Tactic.Ring

/-!
# Numbers as bytes

`toBytes w n` are the `w` bytes of a number, the highest first, and `ofBytes` reads them back.
-/

namespace RagLeap.BigEndian

/-- The lowest `w` bytes of a number, the highest first. -/
def toBytes : ℕ → ℕ → List UInt8
  | 0, _ => []
  | w + 1, n => UInt8.ofNat (n / 256 ^ w) :: toBytes w n

/-- The number that the bytes write. -/
def ofBytes (b : List UInt8) : ℕ := b.foldl (fun n c => n * 256 + c.toNat) 0

@[simp] theorem length_toBytes (w n : ℕ) : (toBytes w n).length = w := by
  induction w with
  | zero => rfl
  | succ w ih => rw [toBytes, List.length_cons, ih]

theorem foldl_toBytes (w n a : ℕ) :
    (toBytes w n).foldl (fun n c => n * 256 + c.toNat) a = a * 256 ^ w + n % 256 ^ w := by
  induction w generalizing a with
  | zero => simp [toBytes, Nat.mod_one]
  | succ w ih =>
    have hmod : n % 256 ^ (w + 1) = n % 256 ^ w + 256 ^ w * (n / 256 ^ w % 256) := Nat.mod_pow_succ
    rw [toBytes, List.foldl_cons, ih, UInt8.toNat_ofNat', hmod, show 2 ^ 8 = 256 from rfl]
    ring

/-- **A number that fits is read back.** -/
theorem ofBytes_toBytes {w n : ℕ} (h : n < 256 ^ w) : ofBytes (toBytes w n) = n := by
  rw [ofBytes, foldl_toBytes, Nat.zero_mul, Nat.zero_add, Nat.mod_eq_of_lt h]

end RagLeap.BigEndian
