import Mathlib.Data.List.TakeWhile
import Mathlib.Data.Nat.Digits.Lemmas
import RagLeap.Foundations.JsonText

/-!
# JSON text read back

One lemma a stage: an escape read inside a string (`lexFrom_escape`), a string, a number or a name
read between tokens (`lexFrom_quote`, `lexFrom_atomText`), a value read as tokens (`lexFrom_print`)
and the tokens read as the value (`value_tokens`). Together they are the round trip `parse_print`.
-/

namespace RagLeap

namespace JsonText

open PyStr

variable {F : Type} (fl : Floats F)

/-! ## Characters -/

theorem ch_val (c : Char) : (ch c).val = c.toNat := rfl

theorem eq_ch_iff {c : CodePoint} {d : Char} : c = ch d ↔ c.val = d.toNat :=
  ⟨fun h => h ▸ rfl, fun h => Fin.ext h⟩

theorem isDigit_iff {c : CodePoint} : isDigit c = true ↔ 48 ≤ c.val ∧ c.val ≤ 57 := by
  simp only [isDigit, Bool.and_eq_true, decide_eq_true_eq, Fin.le_def]
  exact Iff.rfl

/-- The printable characters of ASCII. -/
def isPrintable (c : CodePoint) : Bool := 0x20 ≤ c.val && c.val ≤ 0x7E

theorem isPrintable_iff {c : CodePoint} : isPrintable c = true ↔ 32 ≤ c.val ∧ c.val ≤ 126 := by
  simp only [isPrintable, Bool.and_eq_true, decide_eq_true_eq]

theorem isPlain_of_isPrintable {c : CodePoint} (h : isPrintable c = true) : isPlain c = true := by
  rw [isPrintable_iff] at h
  simp only [isPlain, Bool.and_eq_true, decide_eq_true_eq]
  omega

theorem isBare_iff {c : CodePoint} : isBare c = true ↔ c.val ≠ 32 ∧ c.val ≠ 9 ∧ c.val ≠ 10 ∧
    c.val ≠ 13 ∧ c.val ≠ 34 ∧ c.val ≠ 123 ∧ c.val ≠ 125 ∧ c.val ≠ 91 ∧ c.val ≠ 93 ∧ c.val ≠ 58 ∧
      c.val ≠ 44 := by
  have hpunct : (punctuation c).isNone = true ↔ c.val ≠ 123 ∧ c.val ≠ 125 ∧ c.val ≠ 91 ∧
      c.val ≠ 93 ∧ c.val ≠ 58 ∧ c.val ≠ 44 := by
    unfold punctuation
    simp only [eq_ch_iff, Char.reduceToNat]
    split_ifs <;> simp_all
  have hquote : c = ch '"' ↔ c.val = 34 := eq_ch_iff
  simp only [isBare, isSpace, Bool.and_eq_true, hpunct, eq_ch_iff, Char.reduceToNat]
  simp only [hquote, Bool.not_eq_true', Bool.or_eq_false_iff, decide_eq_false_iff_not,
    decide_not, ne_eq, and_assoc]

theorem isBare_of_isNumberChar {c : CodePoint} (h : isNumberChar c = true) : isBare c = true := by
  simp only [isNumberChar, Bool.or_eq_true, isDigit_iff, decide_eq_true_eq, eq_ch_iff,
    Char.reduceToNat] at h
  rw [isBare_iff]
  omega

theorem isPrintable_of_isNumberChar {c : CodePoint} (h : isNumberChar c = true) :
    isPrintable c = true := by
  simp only [isNumberChar, Bool.or_eq_true, isDigit_iff, decide_eq_true_eq, eq_ch_iff,
    Char.reduceToNat] at h
  rw [isPrintable_iff]
  omega

theorem enter_of_isBare {c : CodePoint} (h : isBare c = true) : enter c = ([], .bare [c]) := by
  simp only [isBare, Bool.and_eq_true, Bool.not_eq_true', decide_eq_true_eq] at h
  rw [enter, if_neg (by simp [h.1.1]), if_neg h.1.2, Option.isNone_iff_eq_none.1 h.2]

/-- The text is at its end or goes on with no number or name. -/
def EndsWord (s : PyStr) : Prop := ∀ c ∈ s.head?, isBare c = false

theorem endsWord_nil : EndsWord [] := fun _ h => nomatch h

theorem endsWord_cons {c : CodePoint} (h : isBare c = false) (s : PyStr) : EndsWord (c :: s) := by
  intro d hd
  rw [List.head?_cons, Option.mem_some_iff] at hd
  exact hd ▸ h

/-! ## Numbers and names -/

theorem lexFrom_bare {w u rest : PyStr} (hu : ∀ c ∈ u, isBare c = true) (hrest : EndsWord rest) :
    lexFrom fl (.bare w) (u ++ rest) =
      (atomOf fl (w ++ u)).bind fun a => (lexFrom fl .between rest).map (.atom a :: ·) := by
  induction u generalizing w with
  | nil =>
    rw [List.append_nil, List.nil_append]
    cases rest with
    | nil =>
      simp only [lexFrom, finish]
      cases atomOf fl w <;> rfl
    | cons c rest =>
      have hc := hrest c rfl
      simp only [lexFrom, step, hc, Bool.false_eq_true, if_false]
      cases atomOf fl w with
      | none => rfl
      | some a => simp [Function.comp_def]
  | cons c u ih =>
    have hc := hu c List.mem_cons_self
    rw [List.cons_append, lexFrom, step, if_pos hc, Option.bind_some,
      ih fun d hd => hu d (List.mem_cons_of_mem c hd), List.append_assoc]
    simp

theorem lexFrom_word {w rest : PyStr} {a : Atom F} (hne : w ≠ [])
    (hw : ∀ c ∈ w, isBare c = true) (ha : atomOf fl w = some a) (hrest : EndsWord rest) :
    lexFrom fl .between (w ++ rest) = (lexFrom fl .between rest).map (.atom a :: ·) := by
  cases w with
  | nil => exact absurd rfl hne
  | cons c w =>
    rw [List.cons_append, lexFrom, step, enter_of_isBare (hw c List.mem_cons_self),
      Option.bind_some, lexFrom_bare fl (fun d hd => hw d (List.mem_cons_of_mem c hd)) hrest,
      List.singleton_append, ha]
    simp [Function.comp_def]

theorem digit_val {d : ℕ} (h : d < 10) : (point ((ch '0').val + d)).val = 48 + d :=
  point_val (show 48 + d < 0x110000 by omega)

theorem natText_ne_nil (n : ℕ) : natText n ≠ [] := by
  unfold natText
  split_ifs with h
  · exact List.cons_ne_nil _ _
  · simpa [Nat.digits_eq_nil_iff_eq_zero] using h

theorem isDigit_natText (n : ℕ) : ∀ c ∈ natText n, isDigit c = true := by
  intro c hc
  unfold natText at hc
  split_ifs at hc with h
  · rw [List.mem_singleton] at hc
    exact hc ▸ rfl
  · obtain ⟨d, hd, rfl⟩ := List.mem_map.1 hc
    have hlt := Nat.digits_lt_base (by decide) (List.mem_reverse.1 hd)
    rw [isDigit_iff, digit_val hlt]
    omega

theorem ofDigits_natText (n : ℕ) : ofDigits (natText n) = n := by
  unfold natText ofDigits
  split_ifs with h
  · rw [h]
    rfl
  · have hdigit : ∀ d ∈ Nat.digits 10 n, (point ((ch '0').val + d)).val - (ch '0').val = d := by
      intro d hd
      rw [digit_val (Nat.digits_lt_base (by decide) hd)]
      exact Nat.add_sub_cancel_left 48 d
    have hmap : (Nat.digits 10 n).map ((fun c : CodePoint => c.val - (ch '0').val) ∘
        fun d => point ((ch '0').val + d)) = Nat.digits 10 n :=
      (List.map_congr_left hdigit).trans (List.map_id' _)
    rw [List.map_reverse, List.map_reverse, List.map_reverse, List.reverse_reverse, List.map_map,
      hmap, Nat.ofDigits_digits]

theorem isWhole_natText (n : ℕ) : isWhole (natText n) = true := by
  by_cases h : n = 0
  · rw [h]
    rfl
  · have hall : (natText n).all isDigit = true := List.all_eq_true.2 (isDigit_natText n)
    have hhead : (natText n).head? ≠ some (ch '0') := by
      have hdigits : Nat.digits 10 n ≠ [] := Nat.digits_ne_nil_iff_ne_zero.2 h
      have hlast := Nat.getLast_digit_ne_zero 10 h
      have hlt := Nat.digits_lt_base (m := n) (by decide) (List.getLast_mem hdigits)
      rw [natText, if_neg h, List.head?_map, List.head?_reverse,
        List.getLast?_eq_getLast_of_ne_nil hdigits]
      intro he
      have hval := congrArg Fin.val (Option.some.inj he)
      rw [digit_val hlt, ch_val] at hval
      exact hlast (by simpa using hval)
    simp [isWhole, natText_ne_nil, hall, hhead]

theorem takeWhile_natText (n : ℕ) : (natText n).takeWhile isDigit = natText n :=
  List.takeWhile_eq_self_iff.2 (isDigit_natText n)

theorem dropWhile_natText (n : ℕ) : (natText n).dropWhile isDigit = [] :=
  List.dropWhile_eq_nil_iff.2 (isDigit_natText n)

theorem head?_natText (n : ℕ) : (natText n).head? ≠ some (ch '-') := by
  intro h
  have hdigit := isDigit_natText n _ (List.mem_of_mem_head? h)
  exact absurd hdigit (by decide)

theorem unsigned_intText (n : ℤ) : unsigned (intText n) = natText n.natAbs := by
  unfold intText
  split_ifs
  · rfl
  · cases h : natText n.natAbs with
    | nil => rfl
    | cons c w =>
      have hne : c ≠ ch '-' := fun hc => head?_natText n.natAbs (by rw [h, hc]; rfl)
      rw [unsigned, if_neg hne]

theorem readNumber_intText (n : ℤ) : readNumber fl (intText n) = some (.int n) := by
  have hwhole : whole (intText n) = natText n.natAbs := by
    rw [whole, unsigned_intText, takeWhile_natText]
  have hfraction : fraction (intText n) = [] := by
    rw [fraction, unsigned_intText, dropWhile_natText]
  have hfloat : isFloatText (intText n) = false := by simp [isFloatText, hfraction]
  rw [readNumber, hfloat, if_neg Bool.false_ne_true, hwhole, hfraction, isWhole_natText,
    if_pos ⟨rfl, rfl⟩, ofDigits_natText]
  have hsign : (intText n).head? = some (ch '-') ↔ n < 0 := by
    unfold intText
    split_ifs with h
    · exact iff_of_true rfl h
    · exact iff_of_false (head?_natText _) h
  split_ifs with h
  · rw [hsign] at h
    rw [show -(n.natAbs : ℤ) = n by omega]
  · rw [hsign] at h
    rw [show (n.natAbs : ℤ) = n by omega]

theorem readNumber_repr (x : F) : readNumber fl (fl.repr x) = some (.float (.finite x)) := by
  rw [readNumber, if_pos (fl.isFloatText_repr x), fl.read_repr]

/-- The text of an atom is read back as the atom. -/
theorem atomOf_atomText (a : Atom F) : atomOf fl (atomText fl a) = some a := by
  cases a with
  | null => rfl
  | bool b => cases b <;> rfl
  | int n => rw [atomText, atomOf, readNumber_intText]
  | float x =>
    cases x with
    | finite x => rw [atomText, floatText, atomOf, readNumber_repr]
    | infinity negative => cases negative <;> rfl
    | nan => rfl

theorem isNumberChar_of_isDigit {c : CodePoint} (h : isDigit c = true) :
    isNumberChar c = true := by
  simp [isNumberChar, h]

theorem isNumberChar_intText (n : ℤ) : ∀ c ∈ intText n, isNumberChar c = true := by
  have hnat : ∀ c ∈ natText n.natAbs, isNumberChar c = true := fun c hc =>
    isNumberChar_of_isDigit (isDigit_natText _ c hc)
  unfold intText
  split_ifs
  · exact List.forall_mem_cons.2 ⟨by decide, hnat⟩
  · exact hnat

/-- The characters of an atom are printable and make one word. -/
theorem isBare_atomText (a : Atom F) :
    ∀ c ∈ atomText fl a, isBare c = true ∧ isPrintable c = true := by
  have hnumber : ∀ w : PyStr, (∀ c ∈ w, isNumberChar c = true) →
      ∀ c ∈ w, isBare c = true ∧ isPrintable c = true := fun w hw c hc =>
    ⟨isBare_of_isNumberChar (hw c hc), isPrintable_of_isNumberChar (hw c hc)⟩
  have hall : ∀ w ∈ ["null", "true", "false", "NaN", "Infinity", "-Infinity"],
      ((text (String.toList w)).all fun c => isBare c && isPrintable c) = true := by decide
  have hname : ∀ w ∈ ["null", "true", "false", "NaN", "Infinity", "-Infinity"],
      ∀ c ∈ text (String.toList w), isBare c = true ∧ isPrintable c = true := fun w hw c hc =>
    Bool.and_eq_true_iff.1 (List.all_eq_true.1 (hall w hw) c hc)
  cases a with
  | null => exact hname "null" (by simp)
  | bool b =>
    cases b with
    | false => exact hname "false" (by simp)
    | true => exact hname "true" (by simp)
  | int n => exact hnumber _ (isNumberChar_intText n)
  | float x =>
    cases x with
    | finite x => exact hnumber _ (List.all_eq_true.1 (fl.all_repr x))
    | infinity negative =>
      cases negative with
      | false => exact hname "Infinity" (by simp)
      | true => exact hname "-Infinity" (by simp)
    | nan => exact hname "NaN" (by simp)

theorem atomText_ne_nil (a : Atom F) : atomText fl a ≠ [] := by
  intro h
  have ha := atomOf_atomText fl a
  rw [h] at ha
  exact nomatch ha

theorem lexFrom_atomText (a : Atom F) {rest : PyStr} (hrest : EndsWord rest) :
    lexFrom fl .between (atomText fl a ++ rest) =
      (lexFrom fl .between rest).map (.atom a :: ·) :=
  lexFrom_word fl (atomText_ne_nil fl a) (fun c hc => (isBare_atomText fl a c hc).1)
    (atomOf_atomText fl a) hrest

/-! ## Strings -/

/-- What the lexer keeps of an escaped character. -/
def units (c : CodePoint) : List (Bool × CodePoint) :=
  if (shortEscapes.find? fun e => e.2 = c).isSome ∨ isPrintable c then [(false, c)]
  else if c.val < 0x10000 then [(true, c)]
  else [(true, highOf c), (true, lowOf c)]

theorem mem_shortEscapes {c : CodePoint} {e : CodePoint × CodePoint}
    (h : shortEscapes.find? (fun e => e.2 = c) = some e) : e ∈ shortEscapes ∧ e.2 = c :=
  ⟨List.mem_of_find?_eq_some h, by simpa using List.find?_some h⟩

/-- The letter of a short escape is printable, and stands for the character. -/
theorem unescape_letter {e : CodePoint × CodePoint} (he : e ∈ shortEscapes) :
    unescape e.1 = some e.2 ∧ e.1 ≠ ch 'u' ∧ isPrintable e.1 = true ∧ e.2.val < 0x80 := by
  have hall : (shortEscapes.all fun e => unescape e.1 = some e.2 && e.1 ≠ ch 'u' &&
      isPrintable e.1 && e.2.val < 0x80) = true := by decide
  have h := List.all_eq_true.1 hall e he
  simpa only [Bool.and_eq_true, decide_eq_true_eq, and_assoc] using h

theorem hexVal_hexDigit : ∀ d < 16, hexVal (hexDigit d) = some d := by
  decide

theorem isPrintable_hexDigit : ∀ d < 16, isPrintable (hexDigit d) = true := by
  decide

theorem lexFrom_silent {m n : Mode} {c : CodePoint} (h : step fl m c = some ([], n)) (s : PyStr) :
    lexFrom fl m (c :: s) = lexFrom fl n s := by
  rw [lexFrom, h]
  simp

theorem lexFrom_hex {u : List (Bool × CodePoint)} {left n d : ℕ} (hd : d < 16) (s : PyStr) :
    lexFrom fl (.hex u (left + 2) n) (hexDigit d :: s) =
      lexFrom fl (.hex u (left + 1) (n * 0x10 + d)) s := by
  apply lexFrom_silent
  rw [step, hexVal_hexDigit d hd]
  simp

theorem lexFrom_hex_last {u : List (Bool × CodePoint)} {n d : ℕ} (hd : d < 16) (s : PyStr) :
    lexFrom fl (.hex u 1 n) (hexDigit d :: s) =
      lexFrom fl (.string (u ++ [(true, point (n * 0x10 + d))])) s := by
  apply lexFrom_silent
  rw [step, hexVal_hexDigit d hd]
  rfl

theorem lexFrom_escapeUnit {u : List (Bool × CodePoint)} {c : CodePoint} (hc : c.val < 0x10000)
    (s : PyStr) :
    lexFrom fl (.string u) (escapeUnit c ++ s) = lexFrom fl (.string (u ++ [(true, c)])) s := by
  have hval : (((0 * 0x10 + c.val / 0x1000) * 0x10 + c.val / 0x100 % 0x10) * 0x10 +
      c.val / 0x10 % 0x10) * 0x10 + c.val % 0x10 = c.val := by omega
  simp only [escapeUnit, List.cons_append, List.nil_append]
  rw [lexFrom_silent fl (n := .escape u) rfl, lexFrom_silent fl (n := .hex u 4 0) rfl,
    lexFrom_hex fl (by omega), lexFrom_hex fl (by omega), lexFrom_hex fl (by omega),
    lexFrom_hex_last fl (by omega), hval, val_point]

/-- The lexer reads an escaped character inside a string. -/
theorem lexFrom_escape (u : List (Bool × CodePoint)) (c : CodePoint) (s : PyStr) :
    lexFrom fl (.string u) (escape c ++ s) = lexFrom fl (.string (u ++ units c)) s := by
  unfold escape units
  cases hshort : shortEscapes.find? fun e => e.2 = c with
  | some e =>
    obtain ⟨hmem, rfl⟩ := mem_shortEscapes hshort
    obtain ⟨hletter, hu, -, -⟩ := unescape_letter hmem
    have hescape : step fl (.escape u) e.1 = some ([], .string (u ++ [(false, e.2)])) := by
      rw [step, if_neg hu, hletter]
      rfl
    simp only [Option.isSome_some, true_or, if_true, List.cons_append, List.nil_append]
    rw [lexFrom_silent fl (n := .escape u) rfl, lexFrom_silent fl hescape]
  | none =>
    simp only [Option.isSome_none, Bool.false_eq_true, false_or, isPrintable_iff]
    by_cases hprint : 32 ≤ c.val ∧ c.val ≤ 126
    · rw [if_pos hprint, if_pos hprint]
      have hne : ∀ e ∈ shortEscapes, e.2 ≠ c := by
        intro e he
        simpa using List.find?_eq_none.1 hshort e he
      have hquote : c ≠ ch '"' := fun h => hne (ch '"', ch '"') (by simp [shortEscapes]) h.symm
      have hbackslash : c ≠ ch '\\' :=
        fun h => hne (ch '\\', ch '\\') (by simp [shortEscapes]) h.symm
      apply lexFrom_silent
      rw [step, if_neg hquote, if_neg hbackslash, if_neg (by omega)]
    · rw [if_neg hprint, if_neg hprint]
      split_ifs with hlt
      · exact lexFrom_escapeUnit fl hlt s
      · have hhigh : (highOf c).val < 0x10000 := by rw [highOf_val]; omega
        have hlow : (lowOf c).val < 0x10000 := by rw [lowOf_val]; omega
        rw [List.append_assoc, lexFrom_escapeUnit fl hhigh, lexFrom_escapeUnit fl hlow,
          List.append_assoc]
        rfl

theorem lexFrom_flatMap_escape (u : List (Bool × CodePoint)) (s rest : PyStr) :
    lexFrom fl (.string u) (s.flatMap escape ++ rest) =
      lexFrom fl (.string (u ++ s.flatMap units)) rest := by
  induction s generalizing u with
  | nil => simp
  | cons c s ih =>
    rw [List.flatMap_cons, List.append_assoc, lexFrom_escape, ih, List.flatMap_cons,
      List.append_assoc]

theorem combine_cons {u : Bool × CodePoint} {l : List (Bool × CodePoint)}
    (h : ∀ v ∈ l.head?, (v.1 && isHigh u.2 && isLow v.2) = false) :
    combine (u :: l) = u.2 :: combine l := by
  cases l with
  | nil => rfl
  | cons v l =>
    have hv := h v rfl
    rw [combine, if_neg]
    grind

theorem not_astral_of_isSome {c : CodePoint}
    (h : (shortEscapes.find? fun e => e.2 = c).isSome ∨ isPrintable c) :
    c.val < 0x80 := by
  rcases h with hshort | hprint
  · obtain ⟨e, he⟩ := Option.isSome_iff_exists.1 hshort
    obtain ⟨hmem, rfl⟩ := mem_shortEscapes he
    exact (unescape_letter hmem).2.2.2
  · rw [isPrintable_iff] at hprint
    omega

theorem units_cases (c : CodePoint) : units c = [(false, c)] ∧ c.val < 0x80 ∨
    units c = [(true, c)] ∧ c.val < 0x10000 ∨
      units c = [(true, highOf c), (true, lowOf c)] ∧ 0x10000 ≤ c.val := by
  unfold units
  split_ifs with hraw hlt
  · exact .inl ⟨rfl, not_astral_of_isSome hraw⟩
  · exact .inr (.inl ⟨rfl, hlt⟩)
  · exact .inr (.inr ⟨rfl, not_lt.1 hlt⟩)

theorem combine_units_append {c : CodePoint} {l : List (Bool × CodePoint)}
    (h : ∀ v ∈ l.head?, (v.1 && isHigh c && isLow v.2) = false) :
    combine (units c ++ l) = c :: combine l := by
  rcases units_cases c with ⟨hc, -⟩ | ⟨hc, -⟩ | ⟨hc, hastral⟩
  · rw [hc]
    exact combine_cons h
  · rw [hc]
    exact combine_cons h
  · rw [hc, List.cons_append, List.singleton_append, combine, if_pos, pair_of hastral]
    simp [isHigh_highOf, isLow_lowOf]

/-- A surrogate is one escape. -/
theorem units_of_surrogate {c : CodePoint} (h : isHigh c = true ∨ isLow c = true) :
    units c = [(true, c)] := by
  simp only [isHigh, isLow, Bool.and_eq_true, decide_eq_true_eq] at h
  rcases units_cases c with ⟨-, hlt⟩ | ⟨hunits, -⟩ | ⟨-, hastral⟩
  · omega
  · exact hunits
  · omega

theorem isLow_highOf (c : CodePoint) : isLow (highOf c) = false := by
  have hhigh := isHigh_highOf c
  simp only [isHigh, isLow, Bool.and_eq_true, Bool.and_eq_false_iff, decide_eq_true_eq,
    decide_eq_false_iff_not] at hhigh ⊢
  omega

/-- Read back, a string has its surrogate pairs joined. -/
theorem combine_units (s : PyStr) : combine (s.flatMap units) = PyStr.join s := by
  fun_induction PyStr.join s with
  | case1 => rfl
  | case2 c =>
    rw [List.flatMap_singleton, ← List.append_nil (units c), combine_units_append]
    · rfl
    · intro _ h
      cases h
  | case3 c d s h ih =>
    rw [Bool.and_eq_true] at h
    -- the two escapes stand side by side
    rw [List.flatMap_cons, List.flatMap_cons, units_of_surrogate (.inl h.1),
      units_of_surrogate (.inr h.2), List.singleton_append, List.singleton_append, combine,
      if_pos (by simp [h]), ih]
  | case4 c d s h ih =>
    rw [List.flatMap_cons, combine_units_append, ih]
    intro v hv
    rw [List.flatMap_cons] at hv
    rcases units_cases d with ⟨hd, -⟩ | ⟨hd, -⟩ | ⟨hd, -⟩
    · rw [hd] at hv
      obtain rfl := Option.some.inj hv
      rfl
    · rw [hd] at hv
      obtain rfl := Option.some.inj hv
      simpa using h
    · rw [hd] at hv
      obtain rfl := Option.some.inj hv
      rw [isLow_highOf, Bool.and_false]

theorem lexFrom_quote (s rest : PyStr) :
    lexFrom fl .between (quote s ++ rest) =
      (lexFrom fl .between rest).map (.str (PyStr.join s) :: ·) := by
  have hclose : ∀ u, step fl (.string u) (ch '"') = some ([.str (combine u)], .between) :=
    fun _ => rfl
  rw [quote, List.cons_append, List.cons_append, List.append_assoc,
    lexFrom_silent fl (n := .string []) rfl, lexFrom_flatMap_escape, List.nil_append,
    List.singleton_append, lexFrom, hclose, combine_units]
  rfl

/-! ## Values -/

theorem printItems_eq (items : List (Value F)) : printItems fl items = items.map (print fl) := by
  induction items with
  | nil => rfl
  | cons t items ih => rw [printItems, ih, List.map_cons]

theorem printMembers_eq (members : List (PyStr × Value F)) : printMembers fl members =
    members.map fun m => quote m.1 ++ ch ':' :: print fl m.2 := by
  induction members with
  | nil => rfl
  | cons m members ih => rw [printMembers, ih, List.map_cons]

mutual

/-- The tokens of a printed value. -/
def tokens : Value F → List (Token F)
  | .atom a => [.atom a]
  | .str s => [.str s]
  | .arr items => .punct .lbracket :: sepBy (.punct .comma) (tokensItems items) ++ [.punct .rbracket]
  | .obj members =>
    .punct .lbrace :: sepBy (.punct .comma) (tokensMembers members) ++ [.punct .rbrace]

def tokensItems : List (Value F) → List (List (Token F))
  | [] => []
  | t :: items => tokens t :: tokensItems items

def tokensMembers : List (PyStr × Value F) → List (List (Token F))
  | [] => []
  | (k, t) :: members => (.str k :: .punct .colon :: tokens t) :: tokensMembers members

end

theorem tokensItems_eq (items : List (Value F)) : tokensItems items = items.map tokens := by
  induction items with
  | nil => rfl
  | cons t items ih => rw [tokensItems, ih, List.map_cons]

theorem tokensMembers_eq (members : List (PyStr × Value F)) : tokensMembers members =
    members.map fun m => .str m.1 :: .punct .colon :: tokens m.2 := by
  induction members with
  | nil => rfl
  | cons m members ih => rw [tokensMembers, ih, List.map_cons]

/-- Between tokens the text `s` is read as the tokens `l`, whatever comes after the word. -/
def Lexes (s : PyStr) (l : List (Token F)) : Prop :=
  ∀ rest, EndsWord rest →
    lexFrom fl .between (s ++ rest) = (lexFrom fl .between rest).map (l ++ ·)

variable {fl}

theorem Lexes.nil : Lexes fl [] [] := by
  intro rest _
  simp

theorem Lexes.punct {c : CodePoint} {p : Punct} (hc : enter c = ([p], .between)) {s : PyStr}
    {l : List (Token F)} (h : Lexes fl s l) : Lexes fl (c :: s) (.punct p :: l) := by
  intro rest hrest
  rw [List.cons_append, lexFrom, step, hc, Option.bind_some, h rest hrest, Option.map_map]
  rfl

/-- A text goes on with punctuation. -/
theorem Lexes.append {s s' : PyStr} {c : CodePoint} {l l' : List (Token F)} (h : Lexes fl s l)
    (hc : isBare c = false) (h' : Lexes fl (c :: s') l') : Lexes fl (s ++ c :: s') (l ++ l') := by
  intro rest hrest
  have htail : EndsWord (c :: s' ++ rest) := endsWord_cons hc _
  rw [List.append_assoc, h _ htail, h' rest hrest, Option.map_map]
  congr 1
  funext x
  exact (List.append_assoc l l' x).symm

theorem Lexes.sepBy {ι : Type} {f : ι → PyStr} {g : ι → List (Token F)} {L : List ι}
    (h : ∀ i ∈ L, Lexes fl (f i) (g i)) :
    Lexes fl (sepBy (ch ',') (L.map f)) (sepBy (.punct .comma) (L.map g)) := by
  induction L with
  | nil => exact Lexes.nil
  | cons i L ih =>
    have hi := h i List.mem_cons_self
    have hL := ih fun j hj => h j (List.mem_cons_of_mem i hj)
    cases L with
    | nil => exact hi
    | cons j L => exact hi.append (by decide) (hL.punct (c := ch ',') rfl)

theorem Lexes.close {s : PyStr} {l : List (Token F)} {c : CodePoint} {p : Punct}
    (hc : enter c = ([p], .between)) (hbare : isBare c = false) (h : Lexes fl s l) :
    Lexes fl (s ++ [c]) (l ++ [.punct p]) :=
  h.append hbare (Lexes.nil.punct hc)

theorem lexes_quote (s : PyStr) : Lexes fl (quote s) [.str (PyStr.join s)] :=
  fun rest _ => lexFrom_quote fl s rest

theorem lexes_print (t : Value F) : Lexes fl (print fl t) (tokens t.join) := by
  induction t using Value.ind with
  | atom a =>
    rw [Value.join, Value.map_atom, print, tokens]
    exact fun rest hrest => lexFrom_atomText fl a hrest
  | str s =>
    rw [Value.join, Value.map_str, print, tokens]
    exact lexes_quote s
  | arr items ih =>
    have hitems := Lexes.sepBy ih
    rw [Value.join, Value.map_arr, print, tokens, printItems_eq, tokensItems_eq, List.map_map]
    exact (hitems.punct (c := ch '[') rfl).close rfl (by decide)
  | obj members ih =>
    have hmembers := Lexes.sepBy fun m hm =>
      (lexes_quote m.1).append (by decide) ((ih m hm).punct (c := ch ':') rfl)
    rw [Value.join, Value.map_obj, print, tokens, printMembers_eq, tokensMembers_eq, id, List.map_map]
    exact (hmembers.punct (c := ch '\x7b') rfl).close rfl (by decide)

/-- The tokens of a value start with none of punctuation that closes one. -/
theorem head?_tokens (t : Value F) :
    tokens t ≠ [] ∧ (tokens t).head? ≠ some (.punct .rbracket) := by
  cases t <;> simp [tokens]

theorem head?_sepBy_cons {α : Type} {c : α} {x : List α} (hx : x ≠ []) (L : List (List α))
    (s : List α) : (sepBy c (x :: L) ++ s).head? = x.head? := by
  obtain ⟨a, x, rfl⟩ := List.exists_cons_of_ne_nil hx
  cases L <;> rfl

theorem value_lbracket {n : ℕ} {l : List (Token F)} (h : l.head? ≠ some (.punct .rbracket)) :
    value (n + 1) (.punct .lbracket :: l) = (items n l).map fun r => (.arr r.1, r.2) := by
  rw [value]
  rintro l' rfl
  exact h rfl

theorem value_lbrace {n : ℕ} {l : List (Token F)} (h : l.head? ≠ some (.punct .rbrace)) :
    value (n + 1) (.punct .lbrace :: l) = (members n l).map fun r => (.obj r.1, r.2) := by
  rw [value]
  rintro l' rfl
  exact h rfl

/-- The tokens of a value are read as the value, with as much fuel as there are tokens. -/
def Reads (t : Value F) : Prop :=
  ∀ n rest, (tokens t).length ≤ n → value n (tokens t ++ rest) = some (t, rest)

theorem items_sepBy {ts : List (Value F)} (hne : ts ≠ []) (h : ∀ t ∈ ts, Reads t) (n : ℕ)
    (rest : List (Token F)) (hn : (sepBy (.punct .comma) (ts.map tokens)).length < n) :
    items n (sepBy (.punct .comma) (ts.map tokens) ++ .punct .rbracket :: rest) =
      some (ts, rest) := by
  induction ts generalizing n with
  | nil => exact absurd rfl hne
  | cons t ts ih =>
    obtain ⟨n, rfl⟩ : ∃ m, n = m + 1 := ⟨n - 1, by omega⟩
    have ht := h t List.mem_cons_self
    cases ts with
    | nil =>
      simp only [List.map_cons, List.map_nil, sepBy] at hn ⊢
      rw [items, ht n _ (by omega)]
    | cons u ts =>
      have hrest := ih (List.cons_ne_nil u ts) (fun v hv => h v (List.mem_cons_of_mem t hv)) n
      simp only [List.map_cons, sepBy, List.length_append, List.length_cons] at hn hrest ⊢
      rw [List.append_assoc, items, ht n _ (by omega), List.cons_append]
      simp only
      rw [hrest (by omega)]
      rfl

theorem members_sepBy {ms : List (PyStr × Value F)} (hne : ms ≠ []) (h : ∀ m ∈ ms, Reads m.2)
    (n : ℕ) (rest : List (Token F))
    (hn : (sepBy (.punct .comma)
      (ms.map fun m => .str m.1 :: .punct .colon :: tokens m.2)).length < n) :
    members n (sepBy (.punct .comma)
      (ms.map fun m => .str m.1 :: .punct .colon :: tokens m.2) ++ .punct .rbrace :: rest) =
        some (ms, rest) := by
  induction ms generalizing n with
  | nil => exact absurd rfl hne
  | cons m ms ih =>
    obtain ⟨n, rfl⟩ : ∃ m, n = m + 1 := ⟨n - 1, by omega⟩
    have ht := h m List.mem_cons_self
    cases ms with
    | nil =>
      simp only [List.map_cons, List.map_nil, sepBy, List.length_cons, List.cons_append] at hn ⊢
      rw [members, ht n _ (by omega)]
    | cons u ms =>
      have hrest := ih (List.cons_ne_nil u ms) (fun v hv => h v (List.mem_cons_of_mem m hv)) n
      simp only [List.map_cons, sepBy, List.length_append, List.length_cons, List.cons_append]
        at hn hrest ⊢
      rw [List.append_assoc, members, ht n _ (by omega), List.cons_append]
      simp only
      rw [hrest (by omega)]
      rfl

theorem value_tokens (t : Value F) : Reads t := by
  induction t using Value.ind with
  | atom a =>
    rintro (_ | n) rest hn
    · exact absurd hn (by simp [tokens])
    · rfl
  | str s =>
    rintro (_ | n) rest hn
    · exact absurd hn (by simp [tokens])
    · rfl
  | arr ts ih =>
    rintro (_ | n) rest hn
    · exact absurd hn (by simp [tokens])
    · rw [tokens, tokensItems_eq] at hn ⊢
      simp only [List.length_append, List.length_cons, List.cons_append, List.append_assoc,
        List.nil_append] at hn ⊢
      cases ts with
      | nil => rfl
      | cons t ts =>
        have hhead := head?_tokens t
        rw [value_lbracket, items_sepBy (List.cons_ne_nil t ts) ih n rest (by omega)]
        · rfl
        · rw [List.map_cons, head?_sepBy_cons hhead.1]
          exact hhead.2
  | obj ms ih =>
    rintro (_ | n) rest hn
    · exact absurd hn (by simp [tokens])
    · rw [tokens, tokensMembers_eq] at hn ⊢
      simp only [List.length_append, List.length_cons, List.cons_append, List.append_assoc,
        List.nil_append] at hn ⊢
      cases ms with
      | nil => rfl
      | cons m ms =>
        rw [value_lbrace, members_sepBy (List.cons_ne_nil m ms) ih n rest (by omega)]
        · rfl
        · rw [List.map_cons, head?_sepBy_cons (List.cons_ne_nil _ _), List.head?_cons]
          simp

variable (fl)

theorem ofTokens_tokens (t : Value F) : ofTokens (tokens t) = some t := by
  have h := value_tokens t (tokens t).length [] le_rfl
  rw [List.append_nil] at h
  rw [ofTokens, h]

theorem lexFrom_print (t : Value F) : lexFrom fl .between (print fl t) = some (tokens t.join) := by
  have h : lexFrom fl .between (print fl t ++ []) = _ := lexes_print t [] endsWord_nil
  rw [List.append_nil] at h
  rw [h]
  simp [lexFrom, finish]

/-- **Reading back a printed value** joins its surrogate pairs and makes its objects
dictionaries. -/
theorem parse_print (t : Value F) : parse fl (print fl t) = some t.join.collapse := by
  rw [parse, lexFrom_print, Option.bind_some, ofTokens_tokens]
  rfl

/-- A text fixes the value it prints, up to surrogate pairs. -/
theorem join_eq_of_print_eq {t u : Value F} (h : print fl t = print fl u) : t.join = u.join := by
  have ht := lexFrom_print fl t
  rw [h, lexFrom_print] at ht
  have hu := ofTokens_tokens u.join
  rw [Option.some.inj ht, ofTokens_tokens] at hu
  exact Option.some.inj hu

/-! ## The printed text -/

theorem isPrintable_escape (c : CodePoint) : ∀ d ∈ escape c, isPrintable d = true := by
  have hunit : ∀ c : CodePoint, c.val < 0x10000 → ∀ d ∈ escapeUnit c, isPrintable d = true := by
    intro c hc d hd
    simp only [escapeUnit, List.mem_cons, List.not_mem_nil, or_false] at hd
    rcases hd with rfl | rfl | rfl | rfl | rfl | rfl
    · rfl
    · rfl
    all_goals exact isPrintable_hexDigit _ (by omega)
  intro d hd
  unfold escape at hd
  cases hshort : shortEscapes.find? fun e => e.2 = c with
  | some e =>
    rw [hshort] at hd
    rcases List.mem_pair.1 hd with rfl | rfl
    · rfl
    · exact (unescape_letter (mem_shortEscapes hshort).1).2.2.1
  | none =>
    rw [hshort] at hd
    simp only at hd
    split_ifs at hd with hprint hlt
    · rw [List.mem_singleton] at hd
      rw [hd, isPrintable_iff]
      exact hprint
    · exact hunit c hlt d hd
    · rcases List.mem_append.1 hd with hd | hd
      · exact hunit _ (by rw [highOf_val]; omega) d hd
      · exact hunit _ (by rw [lowOf_val]; omega) d hd

theorem isPrintable_quote (s : PyStr) : ∀ c ∈ quote s, isPrintable c = true := by
  intro c hc
  rcases List.mem_append.1 hc with hc | hc
  · rcases List.mem_cons.1 hc with rfl | hc
    · rfl
    · obtain ⟨d, -, hd⟩ := List.mem_flatMap.1 hc
      exact isPrintable_escape d c hd
  · rw [List.mem_singleton.1 hc]
    rfl

theorem mem_sepBy {α : Type} {c a : α} {L : List (List α)} (h : a ∈ sepBy c L) :
    a = c ∨ ∃ x ∈ L, a ∈ x := by
  induction L with
  | nil => exact nomatch h
  | cons x L ih =>
    cases L with
    | nil => exact .inr ⟨x, List.mem_cons_self, h⟩
    | cons y L =>
      rcases List.mem_append.1 h with h | h
      · exact .inr ⟨x, List.mem_cons_self, h⟩
      · rcases List.mem_cons.1 h with h | h
        · exact .inl h
        · exact (ih h).imp_right fun ⟨z, hz, ha⟩ => ⟨z, List.mem_cons_of_mem x hz, ha⟩

/-- The text is ASCII on one line. -/
theorem isPrintable_print (t : Value F) : ∀ c ∈ print fl t, isPrintable c = true := by
  induction t using Value.ind with
  | atom a =>
    rw [print]
    exact fun c hc => (isBare_atomText fl a c hc).2
  | str s =>
    rw [print]
    exact isPrintable_quote s
  | arr items ih =>
    intro c hc
    rw [print, printItems_eq, List.mem_append, List.mem_cons, List.mem_singleton] at hc
    rcases hc with (rfl | hc) | rfl
    · rfl
    · rcases mem_sepBy hc with rfl | ⟨x, hx, hcx⟩
      · rfl
      · obtain ⟨t, ht, rfl⟩ := List.mem_map.1 hx
        exact ih t ht c hcx
    · rfl
  | obj members ih =>
    intro c hc
    rw [print, printMembers_eq, List.mem_append, List.mem_cons, List.mem_singleton] at hc
    rcases hc with (rfl | hc) | rfl
    · rfl
    · rcases mem_sepBy hc with rfl | ⟨x, hx, hcx⟩
      · rfl
      · obtain ⟨m, hm, rfl⟩ := List.mem_map.1 hx
        rcases List.mem_append.1 hcx with hcx | hcx
        · exact isPrintable_quote m.1 c hcx
        · rcases List.mem_cons.1 hcx with rfl | hcx
          · rfl
          · exact ih m hm c hcx
    · rfl

/-! ## A line break after the text -/

theorem lexFrom_break (m : Mode) (s : PyStr) :
    lexFrom fl m (s ++ [ch '\n']) = lexFrom fl m s := by
  induction s generalizing m with
  | nil =>
    cases m with
    | bare w =>
      have hstep : step fl (.bare w) (ch '\n') = (atomOf fl w).map fun a => ([.atom a], .between) :=
        rfl
      rw [List.nil_append, lexFrom, lexFrom, hstep, finish]
      cases atomOf fl w <;> rfl
    | _ => rfl
  | cons c s ih => simp only [List.cons_append, lexFrom, ih]

theorem parse_break (s : PyStr) : parse fl (s ++ [ch '\n']) = parse fl s := by
  rw [parse, lexFrom_break, parse]

/-! ## The members of a parsed object -/

/-- A word that is not yet a token. -/
def pending : Mode → ℕ
  | .bare _ => 1
  | _ => 0

end JsonText

end RagLeap
