import Mathlib.Data.Int.Basic
import RagLeap.Foundations.Text

/-!
# Integers as text

`Str.ofInt` writes an integer in decimal, as `str` does. The text determines the integer, and has
digits and a sign only.
-/

namespace RagLeap.Str

/-- `str(n)` of an integer. -/
def ofInt (n : ℤ) : Str := if n < 0 then '-' :: ofNat n.natAbs else ofNat n.natAbs

theorem isDigit_of_mem_ofNat {n : ℕ} {c : Char} (h : c ∈ ofNat n) : c.isDigit := by
  rw [ofNat, Nat.toString_eq_repr, Nat.toList_repr] at h
  exact Nat.isDigit_of_mem_toDigits (b := 10) (by decide) (by decide) h

theorem ofNat_injective : Function.Injective ofNat := by
  intro n m h
  simp only [ofNat, Nat.toString_eq_repr, Nat.toList_repr] at h
  rw [← Nat.ofDigitChars_ten_toDigits (n := n), h, Nat.ofDigitChars_ten_toDigits]

theorem ofInt_ne_sign {n : ℤ} {c : Char} (h : c ∈ ofInt n) : c = '-' ∨ c.isDigit := by
  unfold ofInt at h
  split at h
  · rcases List.mem_cons.1 h with h | h
    · exact .inl h
    · exact .inr (isDigit_of_mem_ofNat h)
  · exact .inr (isDigit_of_mem_ofNat h)

theorem ofInt_injective : Function.Injective ofInt := by
  have hsign : ∀ (n m : ℕ), '-' :: ofNat n ≠ ofNat m := by
    intro n m h
    have hmem : '-' ∈ ofNat m := h ▸ List.mem_cons_self
    exact absurd (isDigit_of_mem_ofNat hmem) (by decide)
  intro n m h
  unfold ofInt at h
  split at h
  · split at h
    · have habs := ofNat_injective (List.cons.inj h).2
      omega
    · exact absurd h (hsign _ _)
  · split at h
    · exact absurd h.symm (hsign _ _)
    · have habs := ofNat_injective h
      omega

end RagLeap.Str
