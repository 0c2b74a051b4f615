import Mathlib
import RagLeap.Foundations.Text

/-!
# Strings with surrogates

A string of the interpreter is a list of code points, and the surrogates are among them. Two
surrogates that form a pair and the character they stand for are different strings; `join` puts
such pairs together. `decode` is `b.decode(detect_encoding(b), "surrogatepass")`: bytes read in the
encoding their first bytes show, with lone surrogates let through.
-/

namespace RagLeap

/-- A code point. -/
abbrev CodePoint : Type := Fin 0x110000

/-- A string of the interpreter. -/
abbrev PyStr : Type := List CodePoint

instance CodePoint.instLawfulBEq : LawfulBEq CodePoint := inferInstance

instance PyStr.instLawfulBEq : LawfulBEq PyStr := inferInstance

/-- The code point of a character. -/
def ch (c : Char) : CodePoint :=
  ⟨c.toNat, by rcases c.valid with h | h <;> simp only [Char.toNat] <;> omega⟩

/-- The string of a text. -/
def text (s : Str) : PyStr := s.map ch

theorem ch_injective : Function.Injective ch := by
  intro c d h
  have hval := congrArg Fin.val h
  exact Char.toNat_inj.1 hval

theorem text_injective : Function.Injective text := List.map_injective_iff.2 ch_injective

/-- The code point of a number. -/
def point (n : ℕ) : CodePoint := Fin.ofNat 0x110000 n

theorem point_val {n : ℕ} (h : n < 0x110000) : (point n).val = n := Nat.mod_eq_of_lt h

@[simp] theorem val_point (c : CodePoint) : point c.val = c := Fin.ext (point_val c.isLt)

namespace PyStr

/-! ## Surrogates -/

def isHigh (c : CodePoint) : Bool := 0xD800 ≤ c.val && c.val < 0xDC00

def isLow (c : CodePoint) : Bool := 0xDC00 ≤ c.val && c.val < 0xE000

/-- The character a pair of surrogates stands for. -/
def pair (h l : CodePoint) : CodePoint :=
  point (0x10000 + (h.val - 0xD800) * 0x400 + (l.val - 0xDC00))

/-- The high surrogate of a character beyond U+FFFF. -/
def highOf (c : CodePoint) : CodePoint := point (0xD800 + (c.val - 0x10000) / 0x400)

/-- The low surrogate of a character beyond U+FFFF. -/
def lowOf (c : CodePoint) : CodePoint := point (0xDC00 + (c.val - 0x10000) % 0x400)

theorem highOf_val {c : CodePoint} : (highOf c).val = 0xD800 + (c.val - 0x10000) / 0x400 :=
  point_val (by omega)

theorem lowOf_val {c : CodePoint} : (lowOf c).val = 0xDC00 + (c.val - 0x10000) % 0x400 :=
  point_val (by omega)

theorem isHigh_highOf (c : CodePoint) : isHigh (highOf c) = true := by
  simp only [isHigh, highOf_val, Bool.and_eq_true, decide_eq_true_eq]
  omega

theorem isLow_lowOf (c : CodePoint) : isLow (lowOf c) = true := by
  simp only [isLow, lowOf_val, Bool.and_eq_true, decide_eq_true_eq]
  omega

theorem pair_val {h l : CodePoint} (hh : isHigh h = true) (hl : isLow l = true) :
    (pair h l).val = 0x10000 + (h.val - 0xD800) * 0x400 + (l.val - 0xDC00) := by
  simp only [isHigh, isLow, Bool.and_eq_true, decide_eq_true_eq] at hh hl
  exact point_val (by omega)

theorem pair_of {c : CodePoint} (h : 0x10000 ≤ c.val) : pair (highOf c) (lowOf c) = c := by
  apply Fin.ext
  rw [pair_val (isHigh_highOf c) (isLow_lowOf c), highOf_val, lowOf_val]
  omega

/-- A character beyond U+FFFF is no surrogate. -/
theorem not_surrogate_of_le {c : CodePoint} (h : 0x10000 ≤ c.val) :
    isHigh c = false ∧ isLow c = false := by
  simp only [isHigh, isLow, Bool.and_eq_false_iff, decide_eq_false_iff_not]
  omega

theorem le_pair {h l : CodePoint} (hh : isHigh h = true) (hl : isLow l = true) :
    0x10000 ≤ (pair h l).val := by
  rw [pair_val hh hl]
  omega

/-- Surrogate pairs put together. -/
def join : PyStr → PyStr
  | [] => []
  | [c] => [c]
  | c :: d :: s => if isHigh c && isLow d then pair c d :: join s else c :: join (d :: s)

/-- No high surrogate stands right before a low one. -/
def Joined (s : PyStr) : Prop := s.IsChain fun c d => ¬ (isHigh c = true ∧ isLow d = true)

theorem length_join_le (s : PyStr) : (join s).length ≤ s.length := by
  fun_induction join s with
  | case1 => exact le_refl _
  | case2 => exact le_refl _
  | case3 c d s h ih => simp only [List.length_cons]; omega
  | case4 c d s h ih => simp only [List.length_cons] at ih ⊢; omega

theorem join_eq_self_iff (s : PyStr) : join s = s ↔ Joined s := by
  unfold Joined
  fun_induction join s with
  | case1 => simp
  | case2 => simp
  | case3 c d s h ih =>
    rw [Bool.and_eq_true] at h
    apply iff_of_false
    · intro hs
      have hlength := congrArg List.length hs
      have := length_join_le s
      simp only [List.length_cons] at hlength
      omega
    · intro hchain
      exact (List.isChain_cons_cons.1 hchain).1 h
  | case4 c d s h ih =>
    rw [Bool.and_eq_true] at h
    rw [List.cons_inj_right, ih, List.isChain_cons_cons, and_iff_right h]

/-- A string that starts with no low surrogate after a high `c` still does once joined. -/
theorem join_head? (s : PyStr) :
    ∀ d ∈ (join s).head?, isLow d = true → s.head? = some d := by
  fun_induction join s with
  | case1 => simp
  | case2 c => simp
  | case3 c d s h ih =>
    rw [Bool.and_eq_true] at h
    intro e he hlow
    simp only [List.head?_cons, Option.mem_some_iff] at he
    rw [← he, (not_surrogate_of_le (le_pair h.1 h.2)).2] at hlow
    exact absurd hlow Bool.false_ne_true
  | case4 c d s h ih =>
    intro e he _
    simpa using he

theorem joined_join (s : PyStr) : Joined (join s) := by
  unfold Joined
  fun_induction join s with
  | case1 => simp
  | case2 c => simp
  | case3 c d s h ih =>
    rw [Bool.and_eq_true] at h
    refine List.isChain_cons.2 ⟨fun e _ hpair => ?_, ih⟩
    rw [(not_surrogate_of_le (le_pair h.1 h.2)).1] at hpair
    exact absurd hpair.1 Bool.false_ne_true
  | case4 c d s h ih =>
    rw [Bool.and_eq_true] at h
    refine List.isChain_cons.2 ⟨fun e he hpair => ?_, ih⟩
    have hhead := join_head? (d :: s) e he hpair.2
    rw [List.head?_cons, Option.some.injEq] at hhead
    exact h ⟨hpair.1, hhead ▸ hpair.2⟩

/-- A character is no surrogate. -/
theorem isHigh_ch (c : Char) : isHigh (ch c) = false := by
  have hvalid : c.toNat < 0xD800 ∨ 0xDFFF < c.toNat ∧ c.toNat < 0x110000 := c.valid
  have hval : (ch c).val = c.toNat := rfl
  rw [isHigh, hval, Bool.and_eq_false_iff, decide_eq_false_iff_not, decide_eq_false_iff_not]
  omega

@[simp] theorem join_text (s : Str) : join (text s) = text s := by
  rw [join_eq_self_iff, Joined, text, List.isChain_map]
  refine List.Pairwise.isChain (List.pairwise_of_forall fun c d h => ?_)
  rw [isHigh_ch] at h
  exact Bool.false_ne_true h.1

/-! ## Bytes -/

/-- `s.encode("ascii")` of a string below U+0080. -/
def encodeAscii (s : PyStr) : List UInt8 := s.map fun c => UInt8.ofNat c.val

/-- A byte of the form 10xxxxxx. -/
def isTail (b : UInt8) : Bool := 0x80 ≤ b && b ≤ 0xBF

/-- The code point of a leading byte, of which `bits` bits count, and the bytes after it. -/
def ofTails (lead : UInt8) (bits : ℕ) (tails : List UInt8) : CodePoint :=
  point (tails.foldl (fun n b => n * 0x40 + b.toNat % 0x40) (lead.toNat % 2 ^ bits))

/-- UTF-8, with surrogates as any other three bytes. -/
def utf8 : List UInt8 → Option PyStr
  | [] => some []
  | a :: s =>
    if a < 0x80 then (utf8 s).map (point a.toNat :: ·)
    else
      match s with
      | [] => none
      | b :: s =>
        if !isTail b then none
        else if 0xC2 ≤ a && a ≤ 0xDF then (utf8 s).map (ofTails a 5 [b] :: ·)
        else
          match s with
          | [] => none
          | c :: s =>
            if !isTail c then none
            else if (a = 0xE0 && 0xA0 ≤ b) || (0xE1 ≤ a && a ≤ 0xEF) then
              (utf8 s).map (ofTails a 4 [b, c] :: ·)
            else
              match s with
              | [] => none
              | d :: s =>
                if !isTail d then none
                else if (a = 0xF0 && 0x90 ≤ b) || (0xF1 ≤ a && a ≤ 0xF3) || (a = 0xF4 && b ≤ 0x8F)
                then (utf8 s).map (ofTails a 3 [b, c, d] :: ·)
                else none

/-- The number two bytes write, the low one first if `little`. -/
def word (little : Bool) (a b : UInt8) : ℕ :=
  if little then a.toNat + 0x100 * b.toNat else 0x100 * a.toNat + b.toNat

/-- The code units of UTF-16. -/
def units (little : Bool) : List UInt8 → Option PyStr
  | [] => some []
  | [_] => none
  | a :: b :: s => (units little s).map (point (word little a b) :: ·)

/-- The number four bytes write. -/
def quad (little : Bool) (a b c d : UInt8) : ℕ :=
  if little then word true a b + 0x10000 * word true c d
  else 0x10000 * word false a b + word false c d

/-- UTF-32. -/
def utf32 (little : Bool) : List UInt8 → Option PyStr
  | [] => some []
  | a :: b :: c :: d :: s =>
    if quad little a b c d < 0x110000 then
      (utf32 little s).map (point (quad little a b c d) :: ·)
    else none
  | _ => none

/-- The encodings `detect_encoding` knows. -/
inductive Encoding
  | utf8
  | utf16 (little : Bool)
  | utf32 (little : Bool)
  deriving DecidableEq

/-- The bytes in an encoding. -/
def Encoding.read : Encoding → List UInt8 → Option PyStr
  | .utf8, b => PyStr.utf8 b
  | .utf16 little, b => (units little b).map join
  | .utf32 little, b => PyStr.utf32 little b

/-- `detect_encoding`: the encoding and the bytes after the byte order mark. -/
def detectEncoding (b : List UInt8) : Encoding × List UInt8 :=
  if [0x00, 0x00, 0xFE, 0xFF] <+: b then (.utf32 false, b.drop 4)
  else if [0xFF, 0xFE, 0x00, 0x00] <+: b then (.utf32 true, b.drop 4)
  else if [0xFE, 0xFF] <+: b then (.utf16 false, b.drop 2)
  else if [0xFF, 0xFE] <+: b then (.utf16 true, b.drop 2)
  else if [0xEF, 0xBB, 0xBF] <+: b then (.utf8, b.drop 3)
  else
    match b with
    | [b₀, b₁] =>
      if b₀ = 0 then (.utf16 false, b) else if b₁ = 0 then (.utf16 true, b) else (.utf8, b)
    | b₀ :: b₁ :: b₂ :: b₃ :: _ =>
      if b₀ = 0 then (if b₁ ≠ 0 then .utf16 false else .utf32 false, b)
      else if b₁ = 0 then (if b₂ ≠ 0 ∨ b₃ ≠ 0 then .utf16 true else .utf32 true, b)
      else (.utf8, b)
    | _ => (.utf8, b)

/-- `b.decode(detect_encoding(b), "surrogatepass")`; none where it raises. -/
def decode (b : List UInt8) : Option PyStr := (detectEncoding b).1.read (detectEncoding b).2

/-! ## ASCII -/

/-- A code point of ASCII other than U+0000. -/
def isPlain (c : CodePoint) : Bool := 0 < c.val && c.val < 0x80

theorem ofNat_toNat_of_isPlain {c : CodePoint} (h : isPlain c = true) :
    0 < (UInt8.ofNat c.val).toNat ∧ (UInt8.ofNat c.val).toNat < 0x80 ∧
      (UInt8.ofNat c.val).toNat = c.val := by
  simp only [isPlain, Bool.and_eq_true, decide_eq_true_eq] at h
  have : (UInt8.ofNat c.val).toNat = c.val := by
    rw [UInt8.toNat_ofNat']
    omega
  omega

theorem utf8_cons_of_lt {a : UInt8} {s : List UInt8} (h : a < 0x80) :
    utf8 (a :: s) = (utf8 s).map (point a.toNat :: ·) := by
  rw [utf8.eq_def]
  exact if_pos h

theorem utf8_encodeAscii {s : PyStr} (h : ∀ c ∈ s, isPlain c = true) :
    utf8 (encodeAscii s) = some s := by
  induction s with
  | nil => rfl
  | cons c s ih =>
    obtain ⟨-, hlt, heq⟩ := ofNat_toNat_of_isPlain (h c List.mem_cons_self)
    have hs := ih fun d hd => h d (List.mem_cons_of_mem c hd)
    have hlt' : UInt8.ofNat c.val < 0x80 := UInt8.lt_iff_toNat_lt.2 hlt
    unfold encodeAscii at hs ⊢
    rw [List.map_cons, utf8_cons_of_lt hlt', hs, heq, val_point]
    rfl

theorem detectEncoding_encodeAscii {s : PyStr} (h : ∀ c ∈ s, isPlain c = true) :
    detectEncoding (encodeAscii s) = (.utf8, encodeAscii s) := by
  have hbyte : ∀ b ∈ encodeAscii s, 0 < b ∧ b < 0x80 := by
    intro b hb
    obtain ⟨c, hc, rfl⟩ := List.mem_map.1 hb
    obtain ⟨hpos, hlt, -⟩ := ofNat_toNat_of_isPlain (h c hc)
    exact ⟨UInt8.lt_iff_toNat_lt.2 hpos, UInt8.lt_iff_toNat_lt.2 hlt⟩
  -- no byte of a mark is ASCII but U+0000, and no byte is U+0000
  have hmark : ∀ m, 0x80 ≤ m ∨ m = 0 → m ∉ encodeAscii s := by
    intro m hm hmem
    have := hbyte m hmem
    grind
  generalize encodeAscii s = b at hbyte hmark
  unfold detectEncoding
  rw [if_neg, if_neg, if_neg, if_neg, if_neg]
  · match b with
    | [] => rfl
    | [b₀] => rfl
    | [b₀, b₁] =>
      have h₀ : b₀ ≠ 0 := fun he => hmark 0 (.inr rfl) (by simp [he])
      have h₁ : b₁ ≠ 0 := fun he => hmark 0 (.inr rfl) (by simp [he])
      simp [h₀, h₁]
    | [b₀, b₁, b₂] => rfl
    | b₀ :: b₁ :: b₂ :: b₃ :: b =>
      have h₀ : b₀ ≠ 0 := fun he => hmark 0 (.inr rfl) (by simp [he])
      have h₁ : b₁ ≠ 0 := fun he => hmark 0 (.inr rfl) (by simp [he])
      simp [h₀, h₁]
  all_goals
    intro hp
    first
    | exact hmark 0xFE (.inl (by decide)) (hp.subset (by decide))
    | exact hmark 0xEF (.inl (by decide)) (hp.subset (by decide))

/-- ASCII bytes decode to themselves. -/
theorem decode_encodeAscii {s : PyStr} (h : ∀ c ∈ s, isPlain c = true) :
    decode (encodeAscii s) = some s := by
  rw [decode, detectEncoding_encodeAscii h]
  exact utf8_encodeAscii h

/-! ## A line break at the end -/

end PyStr

end RagLeap
