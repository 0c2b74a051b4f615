import RagLeap.Foundations.PyString

/-!
# Base64

Three bytes are four characters of the standard alphabet, and a rest of one or two bytes is filled
up with padding. Reading undoes writing (`decode_encode`), and what is written is visible ASCII.
-/

namespace RagLeap.Base64

/-- The character of six bits. -/
def digit (n : ℕ) : CodePoint :=
  if n < 26 then point (n + 65)
  else if n < 52 then point (n + 71)
  else if n < 62 then point (n - 4)
  else if n = 62 then ch '+' else ch '/'

/-- The six bits of a character. -/
def value (c : CodePoint) : Option ℕ :=
  if 65 ≤ c.val ∧ c.val ≤ 90 then some (c.val - 65)
  else if 97 ≤ c.val ∧ c.val ≤ 122 then some (c.val - 71)
  else if 48 ≤ c.val ∧ c.val ≤ 57 then some (c.val + 4)
  else if c = ch '+' then some 62
  else if c = ch '/' then some 63
  else none

/-- What fills the last four characters up. -/
def pad : CodePoint := ch '='

/-- `base64.b64encode(b).decode("ascii")`. -/
def encode : List UInt8 → PyStr
  | [] => []
  | [a] => [digit (a.toNat / 4), digit (a.toNat % 4 * 16), pad, pad]
  | [a, b] =>
    [digit (a.toNat / 4), digit (a.toNat % 4 * 16 + b.toNat / 16), digit (b.toNat % 16 * 4), pad]
  | a :: b :: c :: s =>
    digit (a.toNat / 4) :: digit (a.toNat % 4 * 16 + b.toNat / 16) ::
      digit (b.toNat % 16 * 4 + c.toNat / 64) :: digit (c.toNat % 64) :: encode s

/-- The bytes of a text, four characters at a time; padding stands only at the end. -/
def decode : PyStr → Option (List UInt8)
  | [] => some []
  | c₀ :: c₁ :: c₂ :: c₃ :: s => do
    let w ← value c₀
    let x ← value c₁
    if c₃ = pad ∧ s = [] then
      if c₂ = pad then some [UInt8.ofNat (w * 4 + x / 16)]
      else
        let y ← value c₂
        some [UInt8.ofNat (w * 4 + x / 16), UInt8.ofNat (x % 16 * 16 + y / 4)]
    else
      let y ← value c₂
      let z ← value c₃
      let rest ← decode s
      some (UInt8.ofNat (w * 4 + x / 16) :: UInt8.ofNat (x % 16 * 16 + y / 4) ::
        UInt8.ofNat (y % 4 * 64 + z) :: rest)
  | _ => none

/-! ## The alphabet -/

theorem val_digit {n : ℕ} (h : n < 64) : (digit n).val =
    if n < 26 then n + 65 else if n < 52 then n + 71 else if n < 62 then n - 4
      else if n = 62 then 43 else 47 := by
  unfold digit
  split_ifs with h₁ h₂ h₃ h₄
  · exact point_val (by omega)
  · exact point_val (by omega)
  · exact point_val (by omega)
  · rfl
  · rfl

theorem value_digit {n : ℕ} (h : n < 64) : value (digit n) = some n := by
  have hval := val_digit h
  unfold value
  simp only [Fin.ext_iff]
  rw [hval, show (ch '+').val = 43 from rfl, show (ch '/').val = 47 from rfl]
  split_ifs <;> grind

theorem value_pad : value pad = none := rfl

theorem digit_ne_pad {n : ℕ} (h : n < 64) : digit n ≠ pad := by
  intro heq
  have hvalue := value_digit h
  rw [heq, value_pad] at hvalue
  exact nomatch hvalue

/-- A character of the alphabet is visible. -/
theorem visible_digit {n : ℕ} (h : n < 64) : 0x20 < (digit n).val ∧ (digit n).val ≤ 0x7E := by
  rw [val_digit h]
  split_ifs <;> omega

/-! ## The round trip -/

theorem ofNat_eq {a : UInt8} {n : ℕ} (h : n = a.toNat) : UInt8.ofNat n = a := by
  rw [h, UInt8.ofNat_toNat]

/-- **Reading undoes writing.** -/
theorem decode_encode (b : List UInt8) : decode (encode b) = some b := by
  fun_induction encode b with
  | case1 => rfl
  | case2 a =>
    have ha := a.toNat_lt
    simp only [decode, value_digit (n := a.toNat / 4) (by omega),
      value_digit (n := a.toNat % 4 * 16) (by omega), Option.bind_eq_bind, Option.bind_some,
      and_self, if_true]
    rw [ofNat_eq (a := a) (by omega)]
  | case3 a b =>
    have ha := a.toNat_lt
    have hb := b.toNat_lt
    simp only [decode, value_digit (n := a.toNat / 4) (by omega),
      value_digit (n := a.toNat % 4 * 16 + b.toNat / 16) (by omega),
      value_digit (n := b.toNat % 16 * 4) (by omega),
      if_neg (digit_ne_pad (n := b.toNat % 16 * 4) (by omega)), Option.bind_eq_bind,
      Option.bind_some, and_self, if_true]
    rw [ofNat_eq (a := a) (by omega), ofNat_eq (a := b) (by omega)]
  | case4 a b c s ih =>
    have ha := a.toNat_lt
    have hb := b.toNat_lt
    have hc := c.toNat_lt
    have hne : ¬ (digit (c.toNat % 64) = pad ∧ encode s = []) :=
      fun h => digit_ne_pad (by omega) h.1
    simp only [decode, value_digit (n := a.toNat / 4) (by omega),
      value_digit (n := a.toNat % 4 * 16 + b.toNat / 16) (by omega),
      value_digit (n := b.toNat % 16 * 4 + c.toNat / 64) (by omega),
      value_digit (n := c.toNat % 64) (by omega), if_neg hne, Option.bind_eq_bind,
      Option.bind_some, ih]
    rw [ofNat_eq (a := a) (by omega), ofNat_eq (a := b) (by omega), ofNat_eq (a := c) (by omega)]

/-- What is written is visible. -/
theorem visible_encode (b : List UInt8) : ∀ c ∈ encode b, 0x20 < c.val ∧ c.val ≤ 0x7E := by
  have hpad : 0x20 < pad.val ∧ pad.val ≤ 0x7E := by decide
  fun_induction encode b with
  | case1 => simp
  | case2 a =>
    have ha := a.toNat_lt
    simp only [List.forall_mem_cons]
    exact ⟨visible_digit (by omega), visible_digit (by omega), hpad, hpad, by simp⟩
  | case3 a b =>
    have ha := a.toNat_lt
    have hb := b.toNat_lt
    simp only [List.forall_mem_cons]
    exact ⟨visible_digit (by omega), visible_digit (by omega), visible_digit (by omega), hpad,
      by simp⟩
  | case4 a b c s ih =>
    have ha := a.toNat_lt
    have hb := b.toNat_lt
    have hc := c.toNat_lt
    simp only [List.forall_mem_cons]
    exact ⟨visible_digit (by omega), visible_digit (by omega), visible_digit (by omega),
      visible_digit (by omega), ih⟩

end RagLeap.Base64
