import Mathlib
import RagLeap.Foundations.Numeral

/-!
# Rounding to binary64

`fl x` is the binary64 number nearest to `x`, the even one of two, as long as `x` is not too large:
the result of an operation on floats is `fl` of the exact result. It keeps the order (`fl_mono`) and
is off by half of the last place at most (`abs_fl_sub_le`). `roundDigits n x` is `round(x, n)`, the
nearest decimal number of `n` digits as a float.
-/

namespace RagLeap.Binary64

open Numeral (roundEven lastPlace)

/-! ## To integers -/

variable {x y : ℚ}

theorem roundEven_eq_or (x : ℚ) : roundEven x = ⌊x⌋ ∧ x ≤ ⌊x⌋ + 1 / 2 ∨
    roundEven x = ⌊x⌋ + 1 ∧ ⌊x⌋ + 1 / 2 ≤ x := by
  rw [roundEven]
  split_ifs with hlow hhigh heven
  · exact .inl ⟨rfl, by linarith⟩
  · exact .inr ⟨rfl, by linarith⟩
  · exact .inl ⟨rfl, by linarith⟩
  · exact .inr ⟨rfl, by linarith⟩

theorem abs_roundEven_sub_le (x : ℚ) : |(roundEven x : ℚ) - x| ≤ 1 / 2 := by
  have hfloor := Int.floor_le x
  have hlt := Int.lt_floor_add_one x
  rw [abs_le]
  rcases roundEven_eq_or x with ⟨h, hx⟩ | ⟨h, hx⟩
  · rw [h]
    constructor <;> linarith
  · rw [h]
    push_cast
    constructor <;> linarith

theorem roundEven_mono : Monotone roundEven := by
  intro x y hxy
  have hfloor := Int.floor_mono hxy
  rcases hfloor.lt_or_eq with hlt | heq
  · -- an integer lies between the two
    rcases roundEven_eq_or x with ⟨hx, -⟩ | ⟨hx, -⟩ <;>
      rcases roundEven_eq_or y with ⟨hy, -⟩ | ⟨hy, -⟩ <;> omega
  · rw [roundEven, roundEven]
    rw [heq]
    split_ifs <;> first | omega | (exfalso; linarith)

theorem roundEven_intCast (n : ℤ) : roundEven n = n := by
  rw [roundEven]
  rw [Int.floor_intCast, sub_self, if_pos (by norm_num)]

theorem roundEven_eq_of_abs_lt {n : ℤ} (h : |x - n| < 1 / 2) : roundEven x = n := by
  have hnear := abs_le.1 (abs_roundEven_sub_le x)
  rw [abs_lt] at h
  have hlow : (n : ℚ) - 1 < roundEven x := by linarith [h.1, hnear.1]
  have hhigh : (roundEven x : ℚ) < n + 1 := by linarith [h.2, hnear.2]
  have hlow' : n - 1 < roundEven x := by exact_mod_cast hlow
  have hhigh' : roundEven x < n + 1 := by exact_mod_cast hhigh
  omega

/-- Numbers more than one apart are rounded apart. -/
theorem roundEven_lt (h : x + 1 < y) : roundEven x < roundEven y := by
  have hx := (abs_le.1 (abs_roundEven_sub_le x)).2
  have hy := (abs_le.1 (abs_roundEven_sub_le y)).1
  have hlt : (roundEven x : ℚ) < roundEven y := by linarith
  exact_mod_cast hlt

theorem roundEven_neg (x : ℚ) : roundEven (-x) = -roundEven x := by
  by_cases hint : x = ⌊x⌋
  · rw [hint, ← Int.cast_neg, roundEven_intCast, roundEven_intCast]
  · -- the floors of the two add up to minus one
    have hlow : (⌊x⌋ : ℚ) < x := lt_of_le_of_ne (Int.floor_le x) (Ne.symm hint)
    have hhigh := Int.lt_floor_add_one x
    have hneg : ⌊-x⌋ = -⌊x⌋ - 1 := by
      rw [Int.floor_eq_iff]
      push_cast
      constructor <;> linarith
    rw [roundEven, roundEven, hneg]
    push_cast
    split_ifs <;> first | omega | (exfalso; linarith)

/-! ## To binary64 -/

def fl (x : ℚ) : ℚ := roundEven (x / 2 ^ lastPlace |x|) * 2 ^ lastPlace |x|

theorem fl_zero : fl 0 = 0 := by
  rw [fl, zero_div, ← Int.cast_zero, roundEven_intCast, Int.cast_zero, zero_mul]

theorem fl_neg (x : ℚ) : fl (-x) = -fl x := by
  rw [fl, fl, abs_neg, neg_div, roundEven_neg]
  push_cast
  ring

theorem zpow_pos' (e : ℤ) : (0 : ℚ) < 2 ^ e := zpow_pos (by norm_num) e

/-- A power of two of at least the last place is a number of these places. -/
theorem exists_zpow_eq {e p : ℤ} (h : p ≤ e) : ∃ n : ℤ, (2 : ℚ) ^ e = n * 2 ^ p := by
  refine ⟨2 ^ (e - p).toNat, ?_⟩
  push_cast
  rw [← zpow_natCast, ← zpow_add₀ (by norm_num)]
  congr 1
  omega

theorem fl_le_zpow {e : ℤ} (hx : x ≤ 2 ^ e) (he : lastPlace |x| ≤ e) : fl x ≤ 2 ^ e := by
  obtain ⟨n, hn⟩ := exists_zpow_eq he
  have hpos := zpow_pos' (lastPlace |x|)
  have hle : x / 2 ^ lastPlace |x| ≤ n := by rwa [div_le_iff₀ hpos, ← hn]
  have hround : (roundEven (x / 2 ^ lastPlace |x|) : ℚ) ≤ n := by
    have := roundEven_mono hle
    rw [roundEven_intCast] at this
    exact_mod_cast this
  rw [hn, fl]
  exact mul_le_mul_of_nonneg_right hround hpos.le

theorem zpow_le_fl {e : ℤ} (hx : 2 ^ e ≤ x) (he : lastPlace |x| ≤ e) : 2 ^ e ≤ fl x := by
  obtain ⟨n, hn⟩ := exists_zpow_eq he
  have hpos := zpow_pos' (lastPlace |x|)
  have hle : (n : ℚ) ≤ x / 2 ^ lastPlace |x| := by rwa [le_div_iff₀ hpos, ← hn]
  have hround : (n : ℚ) ≤ roundEven (x / 2 ^ lastPlace |x|) := by
    have := roundEven_mono hle
    rw [roundEven_intCast] at this
    exact_mod_cast this
  rw [hn, fl]
  exact mul_le_mul_of_nonneg_right hround hpos.le

theorem fl_nonneg (hx : 0 ≤ x) : 0 ≤ fl x := by
  have hpos := zpow_pos' (lastPlace |x|)
  have hround := roundEven_mono (div_nonneg hx hpos.le)
  rw [← Int.cast_zero, roundEven_intCast] at hround
  exact mul_nonneg (by exact_mod_cast hround) hpos.le

theorem zpow_log_le (hx : 0 < x) : (2 : ℚ) ^ Int.log 2 x ≤ x := by
  exact_mod_cast Int.zpow_log_le_self (b := 2) (by norm_num) hx

theorem lt_zpow_log (x : ℚ) : x < (2 : ℚ) ^ (Int.log 2 x + 1) := by
  exact_mod_cast Int.lt_zpow_succ_log_self (b := 2) (by norm_num) x

theorem fl_le_fl_of_pos (hx : 0 < x) (hxy : x ≤ y) : fl x ≤ fl y := by
  have hy := hx.trans_le hxy
  have hlog : Int.log 2 x ≤ Int.log 2 y := Int.log_mono_right hx hxy
  have hplace : lastPlace |x| ≤ lastPlace |y| := by
    rw [abs_of_pos hx, abs_of_pos hy, lastPlace, lastPlace]
    omega
  rcases hplace.lt_or_eq with hlt | heq
  · -- a power of two lies between the two, and rounding passes over neither side of it
    rw [abs_of_pos hx, abs_of_pos hy, lastPlace, lastPlace] at hlt
    have hx' : x ≤ 2 ^ Int.log 2 y :=
      (lt_zpow_log x).le.trans (zpow_le_zpow_right₀ (by norm_num) (by omega))
    refine (fl_le_zpow hx' ?_).trans (zpow_le_fl (zpow_log_le hy) ?_)
    · rw [abs_of_pos hx, lastPlace]
      omega
    · rw [abs_of_pos hy, lastPlace]
      omega
  · have hpos := zpow_pos' (lastPlace |y|)
    rw [fl, fl, heq]
    refine mul_le_mul_of_nonneg_right ?_ hpos.le
    exact_mod_cast roundEven_mono (div_le_div_of_nonneg_right hxy hpos.le)

theorem fl_mono : Monotone fl := by
  intro x y hxy
  rcases lt_trichotomy 0 x with hx | rfl | hx
  · exact fl_le_fl_of_pos hx hxy
  · rw [fl_zero]
    exact fl_nonneg hxy
  · rcases lt_or_ge y 0 with hy | hy
    · have h := fl_le_fl_of_pos (neg_pos.2 hy) (neg_le_neg hxy)
      rw [fl_neg, fl_neg] at h
      exact neg_le_neg_iff.1 h
    · have h := fl_nonneg (neg_pos.2 hx).le
      rw [fl_neg] at h
      exact (neg_nonneg.1 h).trans (fl_nonneg hy)

theorem abs_fl_sub_le (x : ℚ) : |fl x - x| ≤ 2 ^ lastPlace |x| / 2 := by
  have hpos := zpow_pos' (lastPlace |x|)
  have h := mul_le_mul_of_nonneg_right (abs_roundEven_sub_le (x / 2 ^ lastPlace |x|)) hpos.le
  rw [← abs_of_pos hpos, ← abs_mul, abs_of_pos hpos, sub_mul, div_mul_cancel₀ _ hpos.ne'] at h
  rw [fl]
  linarith

/-- Numbers further apart than their last places are rounded apart. -/
theorem fl_lt_fl {e : ℚ} (hx : 2 ^ lastPlace |x| ≤ e) (hy : 2 ^ lastPlace |y| ≤ e) (h : x + e < y) :
    fl x < fl y := by
  have hx' := (abs_le.1 (abs_fl_sub_le x)).2
  have hy' := (abs_le.1 (abs_fl_sub_le y)).1
  linarith

/-- The last place of a number below one. -/
theorem lastPlace_le (hx : 0 ≤ x) (h : x < 1) : lastPlace |x| ≤ -52 := by
  rw [abs_of_nonneg hx, lastPlace]
  rcases hx.eq_or_lt with rfl | hpos
  · simp
  · have hlog : Int.log 2 x < 0 := by
      by_contra hge
      have hone : (2 : ℚ) ^ (0 : ℤ) ≤ 2 ^ Int.log 2 x :=
        zpow_le_zpow_right₀ (by norm_num) (not_lt.1 hge)
      rw [zpow_zero] at hone
      exact absurd (hone.trans (zpow_log_le hpos)) (not_le.2 h)
    omega

theorem zpow_lastPlace_le (hx : 0 ≤ x) (h : x < 1) : (2 : ℚ) ^ lastPlace |x| ≤ 1 / 2 ^ 52 :=
  (zpow_le_zpow_right₀ (by norm_num) (lastPlace_le hx h)).trans_eq (by norm_num)

/-- The error of rounding a number below one. -/
theorem abs_fl_sub_le_of_lt_one (hx : 0 ≤ x) (h : x < 1) : |fl x - x| ≤ 1 / 2 ^ 53 :=
  (abs_fl_sub_le x).trans (by linarith [zpow_lastPlace_le hx h])

/-- A number of its own last places, or of larger ones, is not changed. -/
theorem fl_eq_self {p n : ℤ} (hx : x = n * 2 ^ p) (hp : lastPlace |x| ≤ p) : fl x = x := by
  obtain ⟨m, hm⟩ := exists_zpow_eq hp
  have hpos := zpow_pos' (lastPlace |x|)
  have hdiv : x / 2 ^ lastPlace |x| = ((n * m : ℤ) : ℚ) := by
    rw [div_eq_iff hpos.ne', Int.cast_mul, mul_assoc, ← hm]
    exact hx
  rw [fl, hdiv, roundEven_intCast, ← hdiv, div_mul_cancel₀ _ hpos.ne']

theorem log_lt (hx : 0 < x) {e : ℤ} (h : x < 2 ^ e) : Int.log 2 x < e := by
  rw [← Int.lt_zpow_iff_log_lt (by norm_num) hx]
  exact_mod_cast h

/-- What was rounded is not rounded again. -/
theorem fl_fl (hx : 0 ≤ x) : fl (fl x) = fl x := by
  rcases hx.eq_or_lt with rfl | hpos
  · rw [fl_zero, fl_zero]
  · -- rounding does not pass over the next power of two
    have hplace : lastPlace |x| = max (Int.log 2 x - 52) (-1074) := by
      rw [abs_of_pos hpos, lastPlace]
    obtain ⟨e, he⟩ : ∃ e, e = max (Int.log 2 x + 1) (-1074) := ⟨_, rfl⟩
    have hle : fl x ≤ 2 ^ e := by
      refine fl_le_zpow ((lt_zpow_log x).le.trans ?_) (by omega)
      exact zpow_le_zpow_right₀ (by norm_num) (by omega)
    rcases (fl_nonneg hx).eq_or_lt with hzero | hfl
    · rw [← hzero, fl_zero]
    · rcases hle.lt_or_eq with hlt | heq
      · have hlog := log_lt hfl hlt
        refine fl_eq_self (n := roundEven (x / 2 ^ lastPlace |x|)) rfl ?_
        rw [abs_of_pos hfl, hplace, lastPlace]
        omega
      · rw [heq]
        refine fl_eq_self (p := e) (n := 1) (by simp) ?_
        rw [abs_of_pos (zpow_pos' e), lastPlace]
        have hlog : Int.log 2 ((2 : ℚ) ^ e) = e := by
          exact_mod_cast Int.log_zpow (R := ℚ) (b := 2) (by norm_num) e
        omega

/-- Integers of up to 53 binary digits are binary64 numbers. -/
theorem fl_natCast {n : ℕ} (h : n < 2 ^ 53) : fl n = n := by
  refine fl_eq_self (p := 0) (n := n) (by simp) ?_
  rw [abs_of_nonneg (by positivity), lastPlace]
  rcases n.eq_zero_or_pos with rfl | hpos
  · simp
  · have hlog : Int.log 2 (n : ℚ) < 53 := by
      refine log_lt (by exact_mod_cast hpos) ?_
      exact_mod_cast h
    omega

theorem fl_le_one (hx : 0 ≤ x) (h : x ≤ 1) : fl x ≤ 1 := by
  have hplace : lastPlace |x| ≤ 0 := by
    rw [abs_of_nonneg hx, lastPlace]
    have hlog : Int.log 2 x ≤ 0 := by
      rcases hx.eq_or_lt with rfl | hpos
      · simp
      · exact (Int.log_mono_right hpos h).trans_eq (by simp)
    omega
  have hle := fl_le_zpow (e := 0) (by simpa using h) hplace
  simpa using hle

/-! ## To decimal digits -/

/-- `round(x, n)`. -/
def roundDigits (n : ℕ) (x : ℚ) : ℚ := fl (roundEven (x * 10 ^ n) / 10 ^ n)

theorem roundDigits_mono (n : ℕ) : Monotone (roundDigits n) := by
  intro x y hxy
  have hpos : (0 : ℚ) < 10 ^ n := by positivity
  refine fl_mono (div_le_div_of_nonneg_right ?_ hpos.le)
  exact_mod_cast roundEven_mono (mul_le_mul_of_nonneg_right hxy hpos.le)

/-- Numbers further apart than the digits tell stay apart. -/
theorem roundDigits_lt {n : ℕ} (hn : 1 ≤ n) (hn' : n ≤ 15) (hx : 0 ≤ x) (hy : y ≤ 1 / 2)
    (h : x * 10 ^ n + 1 < y * 10 ^ n) : roundDigits n x < roundDigits n y := by
  have hpos : (0 : ℚ) < 10 ^ n := by positivity
  have hten : (10 : ℚ) ≤ 10 ^ n := le_self_pow₀ (by norm_num) (by omega)
  have hlarge : (10 : ℚ) ^ n ≤ 10 ^ 15 := pow_le_pow_right₀ (by norm_num) hn'
  have hlt := roundEven_lt h
  have hlow : 0 ≤ roundEven (x * 10 ^ n) := by
    have := roundEven_mono (mul_nonneg hx hpos.le)
    rwa [← Int.cast_zero, roundEven_intCast] at this
  have hhigh : (roundEven (y * 10 ^ n) : ℚ) < 10 ^ n := by
    have := (abs_le.1 (abs_roundEven_sub_le (y * 10 ^ n))).2
    nlinarith
  have hstep : (roundEven (x * 10 ^ n) : ℚ) + 1 ≤ roundEven (y * 10 ^ n) := by exact_mod_cast hlt
  have hlow' : (0 : ℚ) ≤ roundEven (x * 10 ^ n) := by exact_mod_cast hlow
  rw [roundDigits, roundDigits]
  have hlast := zpow_lastPlace_le (x := roundEven (y * 10 ^ n) / 10 ^ n)
    (div_nonneg (by linarith) hpos.le) ((div_lt_one hpos).2 hhigh)
  have hlast' := zpow_lastPlace_le (x := roundEven (x * 10 ^ n) / 10 ^ n)
    (div_nonneg hlow' hpos.le) ((div_lt_one hpos).2 (by linarith))
  refine fl_lt_fl hlast' hlast ?_
  rw [lt_div_iff₀ hpos, add_mul, div_mul_cancel₀ _ hpos.ne']
  have hsmall : 1 / 2 ^ 52 * 10 ^ n < (1 : ℚ) := by
    rw [div_mul_eq_mul_div, one_mul, div_lt_one (by norm_num)]
    exact hlarge.trans_lt (by norm_num)
  linarith

end RagLeap.Binary64
