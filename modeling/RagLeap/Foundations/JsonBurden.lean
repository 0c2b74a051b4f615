import RagLeap.Foundations.JsonParts

/-!
# What a JSON text can hold

A measure of texts that no reading increases. A character counts as much as is needed to write it
in a string (`burden`): a backslash one, the letter of a `\uXXXX` one more, and a character outside
ASCII as much as its escapes. What the parts of a value need to be written (`need`) is then at most
the burden of any text that `json.loads` reads as the value (`total_need_le`): a text that is
lighter than a value is not a text of it, however its quotes and backslashes stand.
-/

namespace RagLeap

namespace JsonText

open PyStr Value

variable {F : Type} (fl : Floats F)

/-! ## The measure -/

/-- The burden of a character of a text. -/
def burdenOf (c : CodePoint) : ℕ :=
  if c = ch '\\' ∨ c = ch 'u' then 1
  else if c.val < 0x7F then 0
  else if c.val < 0x10000 then 2
  else 4

/-- The burden of a text. -/
def burden (s : PyStr) : ℕ := (s.map burdenOf).sum

/-- What a character of a string needs to be written. -/
def needOf (c : CodePoint) : ℕ := burden (escape c)

/-- What a part of a value needs. -/
def need : Leaf F → ℕ
  | .atom a => burden (atomText fl a)
  | .name k => burden (k.flatMap escape)
  | .str s => burden (s.flatMap escape)

@[simp] theorem burden_nil : burden [] = 0 := rfl

@[simp] theorem burden_cons (c : CodePoint) (s : PyStr) :
    burden (c :: s) = burdenOf c + burden s := by
  rw [burden, List.map_cons, List.sum_cons, ← burden]

@[simp] theorem burden_append (s s' : PyStr) : burden (s ++ s') = burden s + burden s' := by
  rw [burden, List.map_append, List.sum_append, ← burden, ← burden]

theorem burden_flatMap_escape (s : PyStr) : burden (s.flatMap escape) = (s.map needOf).sum := by
  induction s with
  | nil => rfl
  | cons c s ih => rw [List.flatMap_cons, burden_append, ih, List.map_cons, List.sum_cons, needOf]

theorem burdenOf_hexDigit : ∀ d < 16, burdenOf (hexDigit d) = 0 := by decide

theorem burden_escapeUnit {c : CodePoint} (h : c.val < 0x10000) : burden (escapeUnit c) = 2 := by
  have hdigits : ∀ n < 16, burdenOf (hexDigit n) = 0 := burdenOf_hexDigit
  simp only [escapeUnit, burden_cons, burden_nil]
  rw [hdigits _ (by omega), hdigits _ (by omega), hdigits _ (by omega), hdigits _ (by omega)]
  decide

/-- What a character needs: its letter more than a backslash, itself, or its escapes. -/
theorem needOf_cases (c : CodePoint) :
    (∃ e ∈ shortEscapes, e.2 = c ∧ needOf c = 1 + burdenOf e.1) ∨
      (32 ≤ c.val ∧ c.val ≤ 126 ∧ c ≠ ch '"' ∧ c ≠ ch '\\' ∧ needOf c = burdenOf c) ∨
      (c.val < 0x10000 ∧ ¬ (32 ≤ c.val ∧ c.val ≤ 126) ∧ needOf c = 2) ∨
      0x10000 ≤ c.val ∧ needOf c = 4 := by
  unfold needOf escape
  cases hshort : shortEscapes.find? fun e => e.2 = c with
  | some e =>
    obtain ⟨hmem, heq⟩ := mem_shortEscapes hshort
    refine .inl ⟨e, hmem, heq, ?_⟩
    simp only [burden_cons, burden_nil, Nat.add_zero]
    rfl
  | none =>
    have hne : ∀ e ∈ shortEscapes, e.2 ≠ c := fun e he => by
      simpa using List.find?_eq_none.1 hshort e he
    right
    dsimp only
    split_ifs with hprint hlt
    · have hquote : c ≠ ch '"' := fun h => hne (ch '"', ch '"') (by simp [shortEscapes]) h.symm
      have hbackslash : c ≠ ch '\\' :=
        fun h => hne (ch '\\', ch '\\') (by simp [shortEscapes]) h.symm
      exact .inl ⟨hprint.1, hprint.2, hquote, hbackslash, by simp⟩
    · exact .inr (.inl ⟨hlt, hprint, burden_escapeUnit hlt⟩)
    · have hhigh : (highOf c).val < 0x10000 := by rw [highOf_val]; omega
      have hlow : (lowOf c).val < 0x10000 := by rw [lowOf_val]; omega
      refine .inr (.inr ⟨not_lt.1 hlt, ?_⟩)
      rw [burden_append, burden_escapeUnit hhigh, burden_escapeUnit hlow]

theorem burdenOf_cases (c : CodePoint) :
    (c = ch '\\' ∨ c = ch 'u') ∧ burdenOf c = 1 ∨
      (c ≠ ch '\\' ∧ c ≠ ch 'u') ∧
        (c.val < 0x7F ∧ burdenOf c = 0 ∨ 0x7F ≤ c.val ∧ c.val < 0x10000 ∧ burdenOf c = 2 ∨
          0x10000 ≤ c.val ∧ burdenOf c = 4) := by
  unfold burdenOf
  split_ifs with hone hascii hbmp
  · exact .inl ⟨hone, rfl⟩
  · exact .inr ⟨not_or.1 hone, .inl ⟨hascii, rfl⟩⟩
  · exact .inr ⟨not_or.1 hone, .inr (.inl ⟨not_lt.1 hascii, hbmp, rfl⟩)⟩
  · exact .inr ⟨not_or.1 hone, .inr (.inr ⟨not_lt.1 hbmp, rfl⟩)⟩

/-- The characters with a short escape, and the letters of those. -/
theorem of_mem_shortEscapes {e : CodePoint × CodePoint} (h : e ∈ shortEscapes) :
    (e.2 = ch '"' ∨ e.2 = ch '\\' ∨ e.2.val < 32) ∧ burdenOf e.2 ≤ burdenOf e.1 ∧
      burdenOf e.1 ≤ 1 := by
  have hall : (shortEscapes.all fun e => (e.2 = ch '"' || e.2 = ch '\\' || e.2.val < 32) &&
      burdenOf e.2 ≤ burdenOf e.1 && burdenOf e.1 ≤ 1) = true := by decide
  have he := List.all_eq_true.1 hall e h
  simpa only [Bool.and_eq_true, Bool.or_eq_true, decide_eq_true_eq, and_assoc, or_assoc] using he

/-- No character bears more than it needs. -/
theorem burdenOf_le_needOf (c : CodePoint) : burdenOf c ≤ needOf c := by
  rcases needOf_cases c with ⟨e, he, rfl, hneed⟩ | ⟨-, -, -, -, hneed⟩ | ⟨hlt, hprint, hneed⟩ |
    ⟨hge, hneed⟩
  · have hle := (of_mem_shortEscapes he).2.1
    omega
  · exact hneed.ge
  · rcases burdenOf_cases c with ⟨-, hb⟩ | ⟨-, ⟨-, hb⟩ | ⟨-, -, hb⟩ | ⟨hge, -⟩⟩ <;> omega
  · rcases burdenOf_cases c with ⟨-, hb⟩ | ⟨-, ⟨-, hb⟩ | ⟨-, -, hb⟩ | ⟨-, hb⟩⟩ <;> omega

/-- A character that stands for itself bears what it needs. -/
theorem needOf_le_burdenOf {c : CodePoint} (hquote : c ≠ ch '"') (hbackslash : c ≠ ch '\\')
    (hcontrol : 32 ≤ c.val) : needOf c ≤ burdenOf c := by
  rcases needOf_cases c with ⟨e, he, rfl, -⟩ | ⟨-, -, -, -, hneed⟩ | ⟨hlt, hprint, hneed⟩ |
    ⟨hge, hneed⟩
  · rcases (of_mem_shortEscapes he).1 with h | h | h
    · exact absurd h hquote
    · exact absurd h hbackslash
    · omega
  · exact hneed.le
  · rcases burdenOf_cases c with ⟨h, -⟩ | ⟨-, ⟨hascii, -⟩ | ⟨-, -, hb⟩ | ⟨hge, -⟩⟩
    · rcases h with rfl | rfl
      · exact absurd rfl hbackslash
      · exact absurd (by decide) hprint
    all_goals omega
  · rcases burdenOf_cases c with ⟨h, -⟩ | ⟨-, ⟨hascii, -⟩ | ⟨-, hlt, -⟩ | ⟨-, hb⟩⟩
    · rcases h with rfl | rfl <;> exact absurd hge (by decide)
    all_goals omega

/-- A character that cannot stand for itself needs more than it bears. -/
theorem burdenOf_lt_needOf {c : CodePoint} (h : c = ch '"' ∨ c = ch '\\' ∨ c.val < 32) :
    burdenOf c < needOf c := by
  rcases needOf_cases c with ⟨e, he, rfl, hneed⟩ | ⟨hge, -, hquote, hbackslash, -⟩ |
    ⟨hlt, hprint, hneed⟩ | ⟨hge, -⟩
  · have hle := (of_mem_shortEscapes he).2.1
    omega
  · rcases h with h | h | h
    · exact absurd h hquote
    · exact absurd h hbackslash
    · omega
  · rcases h with rfl | rfl | h
    · exact absurd (by decide) hprint
    · exact absurd (by decide) hprint
    · rcases burdenOf_cases c with ⟨hc, -⟩ | ⟨-, ⟨-, hb⟩ | ⟨hge, -, -⟩ | ⟨hge, -⟩⟩
      · rcases hc with rfl | rfl <;> exact absurd h (by decide)
      all_goals omega
  · rcases h with rfl | rfl | h
    · exact absurd hge (by decide)
    · exact absurd hge (by decide)
    · omega

/-- What is written by one escape needs no more than two. -/
theorem needOf_le_two {c : CodePoint} (h : c.val < 0x10000) : needOf c ≤ 2 := by
  rcases needOf_cases c with ⟨e, he, -, hneed⟩ | ⟨-, hle, -, -, hneed⟩ | ⟨-, -, hneed⟩ | ⟨hge, -⟩
  · have hle := (of_mem_shortEscapes he).2.2
    omega
  · rcases burdenOf_cases c with ⟨-, hb⟩ | ⟨-, ⟨-, hb⟩ | ⟨hge, -⟩ | ⟨hge, -⟩⟩ <;> omega
  · exact hneed.le
  · omega

theorem needOf_pair {h l : CodePoint} (hh : isHigh h = true) (hl : isLow l = true) :
    needOf (pair h l) ≤ needOf h + needOf l := by
  have hsurrogate : ∀ c : CodePoint, 0xD800 ≤ c.val → c.val < 0xE000 → needOf c = 2 := by
    intro c hge hlt
    rcases needOf_cases c with ⟨e, he, rfl, -⟩ | ⟨-, hle, -⟩ | ⟨-, -, hneed⟩ | ⟨hge', -⟩
    · rcases (of_mem_shortEscapes he).1 with h | h | h
      · rw [h] at hge
        exact absurd hge (by decide)
      · rw [h] at hge
        exact absurd hge (by decide)
      · omega
    · omega
    · exact hneed
    · omega
  have hle : needOf (pair h l) ≤ 4 := by
    rcases needOf_cases (pair h l) with ⟨e, he, -, hneed⟩ | ⟨-, hle, -⟩ | ⟨-, -, hneed⟩ |
      ⟨-, hneed⟩
    · have hle := (of_mem_shortEscapes he).2.2
      omega
    · have hge := le_pair hh hl
      omega
    · omega
    · exact hneed.le
  simp only [isHigh, isLow, Bool.and_eq_true, decide_eq_true_eq] at hh hl
  rw [hsurrogate h hh.1 (by omega), hsurrogate l (by omega) hl.2]
  exact hle

/-! ## Reading -/

/-- What a token needs. -/
def tokenNeed : Token F → ℕ
  | .punct _ => 0
  | .atom a => burden (atomText fl a)
  | .str s => burden (s.flatMap escape)

/-- What the characters of a string need that has been begun. -/
def unitsNeed (u : List (Bool × CodePoint)) : ℕ := (u.map fun x => needOf x.2).sum

/-- What the lexer holds. -/
def held : Mode → ℕ
  | .between => 0
  | .bare w => burden w
  | .string u => unitsNeed u
  | .escape u => unitsNeed u + 1
  | .hex u _ _ => unitsNeed u + 2

/-- The number of an escape fits into its digits. -/
def Ready : Mode → Prop
  | .hex _ left n => 1 ≤ left ∧ (n + 1) * 16 ^ left ≤ 0x10000
  | _ => True

theorem unitsNeed_append (u : List (Bool × CodePoint)) (x : Bool × CodePoint) :
    unitsNeed (u ++ [x]) = unitsNeed u + needOf x.2 := by
  rw [unitsNeed, List.map_append, List.sum_append, ← unitsNeed, List.map_singleton,
    List.sum_singleton]

/-- Putting surrogate pairs together makes a string need no more. -/
theorem needs_combine (u : List (Bool × CodePoint)) :
    ((combine u).map needOf).sum ≤ unitsNeed u := by
  fun_induction combine u with
  | case1 => exact le_rfl
  | case2 x => exact le_rfl
  | case3 x y u h ih =>
    simp only [Bool.and_eq_true] at h
    have hpair := needOf_pair h.1.2 h.2
    simp only [unitsNeed, List.map_cons, List.sum_cons] at ih ⊢
    omega
  | case4 x y u h ih =>
    simp only [unitsNeed, List.map_cons, List.sum_cons] at ih ⊢
    omega

theorem burden_eq_zero_of_isNumberChar {w : PyStr} (h : ∀ c ∈ w, isNumberChar c = true) :
    burden w = 0 := by
  have hone : ∀ c : CodePoint, isNumberChar c = true → burdenOf c = 0 := by
    intro c hc
    rcases burdenOf_cases c with ⟨hc', -⟩ | ⟨-, ⟨-, hb⟩ | ⟨hge, -⟩ | ⟨hge, -⟩⟩
    · rcases hc' with rfl | rfl <;> exact absurd hc (by decide)
    · exact hb
    all_goals
      have hprint := isPrintable_iff.1 (isPrintable_of_isNumberChar hc)
      omega
  rw [burden]
  exact List.sum_eq_zero fun x hx => by
    obtain ⟨c, hc, rfl⟩ := List.mem_map.1 hx
    exact hone c (h c hc)

/-- The text of a number or a name is as light as any word for it. -/
theorem burden_atomText_le {w : PyStr} {a : Atom F} (h : atomOf fl w = some a) :
    burden (atomText fl a) ≤ burden w := by
  have hfloat : ∀ x : Flt F, burden (atomText fl (.float x)) = 0 := by
    intro x
    cases x with
    | finite x => exact burden_eq_zero_of_isNumberChar (List.all_eq_true.1 (fl.all_repr x))
    | infinity negative => cases negative <;> rfl
    | nan => rfl
  have hnumber : ∀ b, readNumber fl w = some b → burden (atomText fl b) = 0 := by
    intro b hb
    unfold readNumber at hb
    split at hb
    · obtain rfl := Option.some.inj hb
      exact hfloat _
    split at hb
    · obtain rfl := Option.some.inj hb
      exact burden_eq_zero_of_isNumberChar (isNumberChar_intText _)
    · exact nomatch hb
  unfold atomOf at h
  split at h
  · rename_i b hb
    obtain rfl := Option.some.inj h
    rw [hnumber b hb]
    exact Nat.zero_le _
  · split_ifs at h with hnull htrue hfalse hnan hinf hneg
    all_goals obtain rfl := Option.some.inj h
    · rw [hnull]
      exact le_rfl
    · rw [htrue]
      exact le_rfl
    · rw [hfalse]
      exact le_rfl
    all_goals
      rw [hfloat]
      exact Nat.zero_le _

theorem held_enter (c : CodePoint) :
    Ready (enter c).2 ∧ held (enter c).2 ≤ burdenOf c := by
  unfold enter
  split_ifs
  · exact ⟨trivial, Nat.zero_le _⟩
  · exact ⟨trivial, Nat.zero_le _⟩
  · cases punctuation c with
    | some p => exact ⟨trivial, Nat.zero_le _⟩
    | none => exact ⟨trivial, by simp [held]⟩

theorem tokenNeed_puncts (l : List Punct) :
    ((l.map (Token.punct : Punct → Token F)).map (tokenNeed fl)).sum = 0 := by
  rw [List.map_map]
  exact List.sum_eq_zero fun x hx => by
    obtain ⟨p, -, rfl⟩ := List.mem_map.1 hx
    rfl

theorem hexVal_lt {c : CodePoint} {d : ℕ} (h : hexVal c = some d) : d < 16 := by
  unfold hexVal at h
  split_ifs at h with hdigit hlower hupper
  · obtain rfl := Option.some.inj h
    have hle := isDigit_iff.1 hdigit
    have hzero : (ch '0').val = 48 := rfl
    omega
  · obtain rfl := Option.some.inj h
    simp only [Bool.and_eq_true, decide_eq_true_eq, Fin.le_def] at hlower
    have ha : (ch 'a').val = 97 := rfl
    have hf : (ch 'f').val = 102 := rfl
    omega
  · obtain rfl := Option.some.inj h
    simp only [Bool.and_eq_true, decide_eq_true_eq, Fin.le_def] at hupper
    have ha : (ch 'A').val = 65 := rfl
    have hf : (ch 'F').val = 70 := rfl
    omega

theorem needOf_unescape {c d : CodePoint} (h : unescape c = some d) :
    needOf d ≤ 1 + burdenOf c := by
  unfold unescape at h
  split at h
  · rename_i hslash
    obtain rfl := Option.some.inj h
    rw [hslash]
    decide
  · obtain ⟨e, he, rfl⟩ := Option.map_eq_some_iff.1 h
    have hmem := List.mem_of_find?_eq_some he
    have hletter : e.1 = c := by simpa using List.find?_some he
    have hall : (shortEscapes.all fun e => needOf e.2 ≤ 1 + burdenOf e.1) = true := by decide
    have hneed := List.all_eq_true.1 hall e hmem
    rw [← hletter]
    simpa using hneed

/-- **One step** makes nothing out of nothing. -/
theorem held_step {m n : Mode} {c : CodePoint} {out : List (Token F)} (hm : Ready m)
    (h : step fl m c = some (out, n)) :
    Ready n ∧ (out.map (tokenNeed fl)).sum + held n ≤ held m + burdenOf c := by
  obtain ⟨hready, henter⟩ := held_enter c
  cases m with
  | between =>
    obtain ⟨rfl, rfl⟩ := Prod.mk.inj (Option.some.inj h)
    rw [tokenNeed_puncts]
    exact ⟨hready, by simp only [held] at *; omega⟩
  | bare w =>
    simp only [step] at h
    split_ifs at h
    · obtain ⟨rfl, rfl⟩ := Prod.mk.inj (Option.some.inj h)
      refine ⟨trivial, ?_⟩
      simp [held]
    · obtain ⟨a, ha, hout⟩ := Option.map_eq_some_iff.1 h
      obtain ⟨rfl, rfl⟩ := Prod.mk.inj hout
      have hatom := burden_atomText_le fl ha
      refine ⟨hready, ?_⟩
      rw [List.map_cons, List.sum_cons, tokenNeed_puncts, tokenNeed]
      simp only [held] at *
      omega
  | string u =>
    simp only [step] at h
    split_ifs at h with hquote hbackslash hcontrol
    · obtain ⟨rfl, rfl⟩ := Prod.mk.inj (Option.some.inj h)
      refine ⟨trivial, ?_⟩
      have hneeds := needs_combine u
      simp only [List.map_singleton, List.sum_singleton, tokenNeed, burden_flatMap_escape, held]
      omega
    · obtain ⟨rfl, rfl⟩ := Prod.mk.inj (Option.some.inj h)
      refine ⟨trivial, ?_⟩
      rw [hbackslash]
      exact le_of_eq (Nat.zero_add _)
    · obtain ⟨rfl, rfl⟩ := Prod.mk.inj (Option.some.inj h)
      have hle := needOf_le_burdenOf hquote hbackslash (not_lt.1 hcontrol)
      refine ⟨trivial, ?_⟩
      simp only [List.map_nil, List.sum_nil, held, unitsNeed_append]
      omega
  | escape u =>
    simp only [step] at h
    split_ifs at h with hu
    · obtain ⟨rfl, rfl⟩ := Prod.mk.inj (Option.some.inj h)
      refine ⟨⟨by decide, by decide⟩, ?_⟩
      rw [hu]
      exact le_of_eq (Nat.zero_add _)
    · obtain ⟨d, hd, hout⟩ := Option.map_eq_some_iff.1 h
      obtain ⟨rfl, rfl⟩ := Prod.mk.inj hout
      have hle := needOf_unescape hd
      refine ⟨trivial, ?_⟩
      simp only [List.map_nil, List.sum_nil, held, unitsNeed_append]
      omega
  | hex u left k =>
    obtain ⟨d, hd, hout⟩ := Option.map_eq_some_iff.1 h
    have hlt := hexVal_lt hd
    obtain ⟨hleft, hfits⟩ := hm
    split_ifs at hout with hlast
    · obtain ⟨rfl, rfl⟩ := Prod.mk.inj hout
      obtain rfl : left = 1 := le_antisymm hlast hleft
      have hval : (point (k * 0x10 + d)).val < 0x10000 := by
        rw [point_val (by omega)]
        omega
      have hle := needOf_le_two hval
      refine ⟨trivial, ?_⟩
      simp only [List.map_nil, List.sum_nil, held, unitsNeed_append]
      omega
    · obtain ⟨rfl, rfl⟩ := Prod.mk.inj hout
      obtain ⟨rest, rfl⟩ := Nat.exists_eq_add_of_le' (by omega : 2 ≤ left)
      refine ⟨⟨by omega, ?_⟩, ?_⟩
      · rw [Nat.add_succ_sub_one]
        calc (k * 0x10 + d + 1) * 16 ^ (rest + 1) ≤ ((k + 1) * 16) * 16 ^ (rest + 1) :=
              Nat.mul_le_mul_right _ (by omega)
          _ = (k + 1) * 16 ^ (rest + 2) := by rw [Nat.mul_assoc, ← Nat.pow_succ']
          _ ≤ 0x10000 := hfits
      · simp only [List.map_nil, List.sum_nil, held]
        omega

theorem tokenNeed_lexFrom {m : Mode} {s : PyStr} {l : List (Token F)} (hm : Ready m)
    (h : lexFrom fl m s = some l) : (l.map (tokenNeed fl)).sum ≤ held m + burden s := by
  induction s generalizing m l with
  | nil =>
    cases m with
    | between =>
      obtain rfl := Option.some.inj h
      exact Nat.zero_le _
    | bare w =>
      obtain ⟨a, ha, rfl⟩ := Option.map_eq_some_iff.1 h
      have hatom := burden_atomText_le fl ha
      simpa [tokenNeed, held] using hatom
    | _ => exact nomatch h
  | cons c s ih =>
    obtain ⟨⟨out, n⟩, hstep, hrest⟩ := Option.bind_eq_some_iff.1 h
    obtain ⟨l, hl, rfl⟩ := Option.map_eq_some_iff.1 hrest
    obtain ⟨hn, hout⟩ := held_step fl hm hstep
    have hs : (l.map (tokenNeed fl)).sum ≤ held n + burden s := ih hn hl
    rw [List.map_append, List.sum_append, burden_cons]
    calc (out.map (tokenNeed fl)).sum + (l.map (tokenNeed fl)).sum
        ≤ (out.map (tokenNeed fl)).sum + (held n + burden s) := Nat.add_le_add_left hs _
      _ ≤ held m + (burdenOf c + burden s) := by omega

/-- What the tokens of a list need. -/
def tokensNeed (l : List (Token F)) : ℕ := (l.map (tokenNeed fl)).sum

theorem tokensNeed_cons (x : Token F) (l : List (Token F)) :
    tokensNeed fl (x :: l) = tokenNeed fl x + tokensNeed fl l := by
  rw [tokensNeed, List.map_cons, List.sum_cons, ← tokensNeed]

@[simp] theorem tokensNeed_punct (p : Punct) (l : List (Token F)) :
    tokensNeed fl (.punct p :: l) = tokensNeed fl l := by
  rw [tokensNeed_cons, tokenNeed, Nat.zero_add]

theorem total_need_atom (a : Atom F) : total (need fl) (.atom a) = tokenNeed fl (.atom a) :=
  Nat.add_zero _

theorem total_need_str (s : PyStr) : total (need fl) (.str s) = tokenNeed fl (.str s) :=
  Nat.add_zero _

theorem total_need_arr_cons (t : Value F) (items : List (Value F)) :
    total (need fl) (.arr (t :: items)) =
      total (need fl) t + total (need fl) (.arr items) := by
  rw [total_arr, total_arr, List.map_cons, List.sum_cons]

theorem total_need_obj_cons (k : PyStr) (t : Value F) (members : List (PyStr × Value F)) :
    total (need fl) (.obj ((k, t) :: members)) =
      tokenNeed fl (.str k) + total (need fl) t + total (need fl) (.obj members) := by
  rw [total_obj, total_obj, List.map_cons, List.sum_cons]
  rfl

/-- Reading values from tokens makes nothing out of nothing. -/
theorem total_need_value (n : ℕ) :
    (∀ (l rest : List (Token F)) (t : Value F), value n l = some (t, rest) →
        total (need fl) t + tokensNeed fl rest ≤ tokensNeed fl l) ∧
      (∀ (l rest : List (Token F)) (ts : List (Value F)), items n l = some (ts, rest) →
        total (need fl) (.arr ts) + tokensNeed fl rest ≤ tokensNeed fl l) ∧
      ∀ (l rest : List (Token F)) (ms : List (PyStr × Value F)), members n l = some (ms, rest) →
        total (need fl) (.obj ms) + tokensNeed fl rest ≤ tokensNeed fl l := by
  induction n with
  | zero =>
    refine ⟨fun l rest t h => ?_, fun l rest ts h => ?_, fun l rest ms h => ?_⟩
    · simp [value] at h
    · simp [items] at h
    · simp [members] at h
  | succ n ih =>
    obtain ⟨ihvalue, ihitems, ihmembers⟩ := ih
    refine ⟨fun l rest t h => ?_, fun l rest ts h => ?_, fun l rest ms h => ?_⟩
    · rw [value.eq_def] at h
      split at h
      · obtain ⟨rfl, rfl⟩ := Prod.mk.inj (Option.some.inj h)
        rw [total_need_atom, tokensNeed_cons]
      · obtain ⟨rfl, rfl⟩ := Prod.mk.inj (Option.some.inj h)
        rw [total_need_str, tokensNeed_cons]
      · obtain ⟨rfl, rfl⟩ := Prod.mk.inj (Option.some.inj h)
        rw [tokensNeed_punct, tokensNeed_punct]
        exact (Nat.zero_add _).le
      · rename_i hn
        obtain ⟨⟨ts, l'⟩, hitems, hr⟩ := Option.map_eq_some_iff.1 h
        obtain ⟨rfl, rfl⟩ := Prod.mk.inj hr
        obtain rfl := Nat.succ.inj hn
        rw [tokensNeed_punct]
        exact ihitems _ _ _ hitems
      · obtain ⟨rfl, rfl⟩ := Prod.mk.inj (Option.some.inj h)
        rw [tokensNeed_punct, tokensNeed_punct]
        exact (Nat.zero_add _).le
      · rename_i hn
        obtain ⟨⟨ms, l'⟩, hmembers, hr⟩ := Option.map_eq_some_iff.1 h
        obtain ⟨rfl, rfl⟩ := Prod.mk.inj hr
        obtain rfl := Nat.succ.inj hn
        rw [tokensNeed_punct]
        exact ihmembers _ _ _ hmembers
      · cases h
    · rw [items] at h
      split at h
      · rename_i t l' hvalue
        obtain ⟨rfl, rfl⟩ := Prod.mk.inj (Option.some.inj h)
        have hle := ihvalue _ _ _ hvalue
        rw [tokensNeed_punct] at hle
        rw [total_need_arr_cons]
        exact hle
      · rename_i t l' hvalue
        obtain ⟨⟨ts', l''⟩, hitems, hr⟩ := Option.map_eq_some_iff.1 h
        obtain ⟨rfl, rfl⟩ := Prod.mk.inj hr
        have hle := ihvalue _ _ _ hvalue
        have hrest := ihitems _ _ _ hitems
        rw [tokensNeed_punct] at hle
        rw [total_need_arr_cons, Nat.add_assoc]
        exact (Nat.add_le_add_left hrest _).trans hle
      · cases h
    · rw [members.eq_def] at h
      split at h
      · rename_i n' k l₀ hn
        obtain rfl := Nat.succ.inj hn
        rw [tokensNeed_cons, tokensNeed_punct]
        split at h
        · rename_i t l' hvalue
          obtain ⟨rfl, rfl⟩ := Prod.mk.inj (Option.some.inj h)
          have hle := ihvalue _ _ _ hvalue
          rw [tokensNeed_punct] at hle
          rw [total_need_obj_cons]
          have hnil : total (need fl) (.obj []) = 0 := rfl
          omega
        · rename_i t l' hvalue
          obtain ⟨⟨ms', l''⟩, hmembers, hr⟩ := Option.map_eq_some_iff.1 h
          obtain ⟨rfl, rfl⟩ := Prod.mk.inj hr
          have hle := ihvalue _ _ _ hvalue
          have hrest := ihmembers _ _ _ hmembers
          rw [tokensNeed_punct] at hle
          rw [total_need_obj_cons, Nat.add_assoc, Nat.add_assoc]
          exact Nat.add_le_add_left ((Nat.add_le_add_left hrest _).trans hle) _
        · cases h
      · cases h

/-- **A text bears what the value needs** that it is read as. -/
theorem total_need_le {s : PyStr} {t : Value F} (h : parse fl s = some t) :
    t.total (need fl) ≤ burden s := by
  obtain ⟨t, ht, rfl⟩ := Option.map_eq_some_iff.1 h
  obtain ⟨l, hl, hvalue⟩ := Option.bind_eq_some_iff.1 ht
  refine (total_collapse_le t).trans ?_
  unfold ofTokens at hvalue
  split at hvalue
  · rename_i t' hvalue'
    obtain rfl := Option.some.inj hvalue
    have hread := (total_need_value fl l.length).1 l [] t' hvalue'
    have hlex : tokensNeed fl l ≤ held .between + burden s := tokenNeed_lexFrom fl trivial hl
    simp only [held] at hlex
    omega
  · exact nomatch hvalue

end JsonText

end RagLeap
