import Mathlib.Data.List.TakeWhile
import RagLeap.Rag.Rtf

/-!
# The tokens of RTF

What the tokenizer makes of a control word (`token_control`), of an escaped character and of one
that stands for itself, and that in a group whose inner groups are closed no token reaches over the
brace that closes it (`token_behind`).
-/

namespace RagLeap.Rag.Rtf

open JStr

/-! ## What an encoder writes -/

/-- A character that stands for itself. -/
def isPlain (c : JChar) : Bool :=
  c.val < 0x80 && c ≠ jc '\\' && c ≠ jc '\x7b' && c ≠ jc '\x7d' && !isBreak c

/-- A control word with its argument and a space or nothing behind it. -/
def control (w arg : JStr) (space : Bool) : JStr :=
  jc '\\' :: (w ++ arg ++ if space then [jc ' '] else [])

/-- If no space ends a control word, then what follows cannot be taken for a part of it. -/
def Delimited (arg : JStr) (space : Bool) (rest : JStr) : Prop :=
  space = false → rest.head? ≠ some (jc ' ') ∧
    if arg = [] then (∀ c ∈ rest.head?, isLetter c = false) ∧ number rest = []
    else ∀ c ∈ rest.head?, isDigit c = false

structure IsControl (w arg : JStr) : Prop where
  ne_nil : w ≠ []
  length_le : w.length ≤ 32
  letters : ∀ c ∈ w, isLetter c = true
  arg : number arg = arg

/-- The groups in a text are closed, with `n` more open at its start and, if `escaped`, a backslash
before it. -/
def closes : Bool → ℕ → JStr → Bool
  | escaped, n, [] => !escaped && n = 0
  | true, n, _ :: s => closes false n s
  | false, n, c :: s =>
    if c = jc '\\' then closes true n s
    else if c = jc '\x7b' then closes false (n + 1) s
    else if c = jc '\x7d' then 0 < n && closes false (n - 1) s
    else closes false n s

/-! ## Tokens -/

/-! ### One token after another -/

theorem exists_token {s : JStr} (h : s ≠ []) : ∃ t rest, token s = some (t, rest) := by
  obtain ⟨c, s, rfl⟩ := List.exists_cons_of_ne_nil h
  rw [token.eq_def]
  dsimp only
  split_ifs
  · cases s with
    | nil => exact ⟨_, _, rfl⟩
    | cons d s => exact ⟨_, _, rfl⟩
  all_goals exact ⟨_, _, rfl⟩

theorem suffix_of_controlWord (s : JStr) : (controlWord s).2 <:+ s := by
  have hdrop (s' : JStr) :
      (if s'.head? = some (jc ' ') then s'.drop 1 else s') <:+ s' := by
    split_ifs
    · exact List.drop_suffix 1 s'
    · exact List.suffix_rfl
  exact (hdrop _).trans ((List.drop_suffix _ _).trans (List.drop_suffix _ _))

theorem suffix_of_controlSymbol (s : JStr) : (controlSymbol s).2 <:+ s := by
  unfold controlSymbol
  dsimp only
  split_ifs
  · exact List.drop_suffix 3 s
  · exact List.drop_suffix _ s

/-- A token takes a character away at least. -/
theorem suffix_of_token {c : JChar} {s rest : JStr} {t : Token}
    (h : token (c :: s) = some (t, rest)) : rest <:+ s := by
  unfold token at h
  split at h
  · exact nomatch h
  · rename_i c s heq
    obtain ⟨rfl, rfl⟩ := List.cons.inj heq
    split_ifs at h
    · split at h
      · obtain ⟨rfl, rfl⟩ := Prod.mk.inj (Option.some.inj h)
        exact List.suffix_rfl
      · rename_i d s
        have hrest := Option.some.inj h
        split_ifs at hrest
        · have hsuffix := suffix_of_controlWord (d :: s)
          rwa [hrest] at hsuffix
        · have hsuffix := suffix_of_controlSymbol (d :: s)
          rwa [hrest] at hsuffix
    · obtain ⟨rfl, rfl⟩ := Prod.mk.inj (Option.some.inj h)
      exact List.suffix_rfl
    · obtain ⟨rfl, rfl⟩ := Prod.mk.inj (Option.some.inj h)
      exact List.suffix_rfl
    · obtain ⟨rfl, rfl⟩ := Prod.mk.inj (Option.some.inj h)
      exact List.dropWhile_suffix _
    · obtain ⟨rfl, rfl⟩ := Prod.mk.inj (Option.some.inj h)
      have hne := firstCodePoint_ne_nil (List.cons_ne_nil c s)
      obtain ⟨n, hn⟩ := Nat.exists_eq_succ_of_ne_zero
        (fun h0 => hne (List.eq_nil_of_length_eq_zero h0))
      rw [hn, List.drop_succ_cons]
      exact List.drop_suffix n s

theorem length_token {s rest : JStr} {t : Token} (h : token s = some (t, rest)) :
    rest.length < s.length := by
  cases s with
  | nil => exact nomatch h
  | cons c s =>
    have hle := (suffix_of_token h).length_le
    rw [List.length_cons]
    omega

theorem tokenize_succ {n : ℕ} {s : JStr} (h : s.length ≤ n) :
    tokenize (n + 1) s = tokenize n s := by
  induction n generalizing s with
  | zero =>
    obtain rfl := List.eq_nil_of_length_eq_zero (Nat.le_zero.1 h)
    rfl
  | succ n ih =>
    rw [tokenize, tokenize]
    cases htoken : token s with
    | none => rfl
    | some r =>
      have hlt := length_token htoken
      exact congrArg (r.1 :: ·) (ih (by omega))

theorem tokenize_eq_tokens {n : ℕ} {s : JStr} (h : s.length ≤ n) : tokenize n s = tokens s := by
  induction n, h using Nat.le_induction with
  | base => rfl
  | succ n h ih => rw [tokenize_succ h, ih]

theorem tokens_cons {s rest : JStr} {t : Token} (h : token s = some (t, rest)) :
    tokens s = t :: tokens rest := by
  have hlt := length_token h
  obtain ⟨n, hn⟩ := Nat.exists_eq_succ_of_ne_zero (Nat.ne_zero_of_lt hlt)
  rw [tokens, hn, tokenize, h]
  exact congrArg (t :: ·) (tokenize_eq_tokens (by omega))

/-! ### Control words and characters -/

/-- The letters or digits at the start, as many as may be taken. -/
theorem takeWhile_take {p : JChar → Bool} {n : ℕ} {w : JStr} (rest : JStr) (hlen : w.length ≤ n)
    (hall : ∀ c ∈ w, p c = true) (hrest : ∀ c ∈ rest.head?, p c = false) :
    ((w ++ rest).take n).takeWhile p = w := by
  have hnone : ∀ m, (rest.take m).takeWhile p = [] := by
    intro m
    cases rest with
    | nil => rw [List.take_nil, List.takeWhile_nil]
    | cons c rest =>
      cases m with
      | zero => rfl
      | succ m => exact List.takeWhile_cons_of_neg (by simp [hrest c rfl])
  rw [List.take_append, List.take_of_length_le hlen, List.takeWhile_append_of_pos hall, hnone,
    List.append_nil]

/-- A number is read to its end. -/
theorem number_append {arg rest : JStr} (harg : number arg = arg) (hne : arg ≠ [])
    (hrest : ∀ c ∈ rest.head?, isDigit c = false) : number (arg ++ rest) = arg := by
  have hdigits (w : JStr) (hw : (w.take 10).takeWhile isDigit = w) :
      ((w ++ rest).take 10).takeWhile isDigit = w := by
    have hlen : w.length ≤ 10 := by
      have hle := (List.takeWhile_prefix (l := w.take 10) isDigit).length_le
      rw [hw, List.length_take] at hle
      omega
    refine takeWhile_take _ hlen (fun c hc => ?_) hrest
    exact List.mem_takeWhile_imp (by rwa [hw])
  obtain ⟨c, w, rfl⟩ := List.exists_cons_of_ne_nil hne
  rw [number] at harg
  rw [List.cons_append, number]
  split_ifs at harg ⊢ with hsign
  · dsimp only at harg ⊢
    split_ifs at harg with hnone
    have hw := (List.cons.inj harg).2
    rw [hdigits w hw]
    exact if_neg fun h => hnone (hw.trans h)
  · exact hdigits _ harg

theorem number_decimal {n : ℤ} (h : n.natAbs < 10 ^ 10) : number (decimal n) = decimal n := by
  have hdigits : ((natText n.natAbs).take 10).takeWhile isDigit = natText n.natAbs := by
    have htake := takeWhile_take [] (length_natText_le (by decide) h)
      (isDigit_natText n.natAbs) (fun c hc => nomatch hc)
    rwa [List.append_nil] at htake
  unfold decimal
  split_ifs
  · rw [number, if_pos rfl, hdigits]
    exact if_neg (natText_ne_nil _)
  · obtain ⟨c, w, hcw⟩ := List.exists_cons_of_ne_nil (natText_ne_nil n.natAbs)
    have hne : c ≠ jc '-' := by
      rintro rfl
      have hdigit := isDigit_natText n.natAbs (jc '-') (hcw ▸ List.mem_cons_self)
      exact absurd hdigit (by decide)
    rw [hcw] at hdigits ⊢
    rw [number, if_neg hne, hdigits]

theorem decimal_ne_nil (n : ℤ) : decimal n ≠ [] := by
  unfold decimal
  split_ifs
  · exact List.cons_ne_nil _ _
  · exact natText_ne_nil _

/-- The first character of a number is none of a word. -/
theorem not_isLetter_head_number {arg rest : JStr} (harg : number arg = arg) (hne : arg ≠ []) :
    ∀ c ∈ (arg ++ rest).head?, isLetter c = false := by
  obtain ⟨d, w, rfl⟩ := List.exists_cons_of_ne_nil hne
  intro c hc
  obtain rfl : d = c := Option.some.inj hc
  rw [number] at harg
  split_ifs at harg with hsign
  · rw [hsign]
    decide
  · have hmem : d ∈ ((d :: w).take 10).takeWhile isDigit := harg.symm ▸ List.mem_cons_self
    have hdigit := isDigit_iff.1 (List.mem_takeWhile_imp hmem)
    exact not_isLetter_of_lt (by omega)

/-- **A control word is one token.** -/
theorem token_control {w arg rest : JStr} {space : Bool} (h : IsControl w arg)
    (hrest : Delimited arg space rest) : token (control w arg space ++ rest) =
      some (.word w (if arg = [] then none else some arg), rest) := by
  obtain ⟨d, w', hw⟩ := List.exists_cons_of_ne_nil h.ne_nil
  have hletter : isLetter d = true := h.letters d (hw ▸ List.mem_cons_self)
  -- what follows the argument, with the space
  let behind : JStr := (if space then [jc ' '] else []) ++ rest
  have hword : ((w ++ (arg ++ behind)).take 32).takeWhile isLetter = w := by
    refine takeWhile_take _ h.length_le h.letters ?_
    by_cases harg : arg = []
    · rw [harg, List.nil_append]
      cases space with
      | true => exact fun c hc => by obtain rfl := Option.some.inj hc; decide
      | false =>
        have hfree := (hrest rfl).2
        rw [if_pos harg] at hfree
        exact hfree.1
    · exact not_isLetter_head_number h.arg harg
  have hnumber : number (arg ++ behind) = arg := by
    by_cases harg : arg = []
    · rw [harg, List.nil_append]
      cases space with
      | true => rfl
      | false =>
        have hfree := (hrest rfl).2
        rw [if_pos harg] at hfree
        exact hfree.2
    · refine number_append h.arg harg ?_
      cases space with
      | true => exact fun c hc => by obtain rfl := Option.some.inj hc; decide
      | false =>
        have hfree := (hrest rfl).2
        rwa [if_neg harg] at hfree
  have hspace : (if behind.head? = some (jc ' ') then behind.drop 1 else behind) = rest := by
    cases space with
    | true => exact if_pos rfl
    | false => exact if_neg (hrest rfl).1
  have hcontrol : controlWord (w ++ (arg ++ behind)) =
      (.word w (if arg = [] then none else some arg), rest) := by
    simp only [controlWord]
    rw [hword, List.drop_left, hnumber, List.drop_left, hspace]
  have happend : control w arg space ++ rest = jc '\\' :: (w ++ (arg ++ behind)) := by
    simp [control, behind]
  rw [happend, token.eq_def]
  simp only [if_pos]
  rw [hw, List.cons_append] at hcontrol ⊢
  simp only [if_pos hletter, hcontrol]

theorem isHigh_of_lt {c : JChar} (h : c.val < 0x80) : isHigh c = false := by
  rw [isHigh, Bool.and_eq_false_iff, decide_eq_false_iff_not]
  exact .inl (by omega)

theorem token_plain {c : JChar} (h : isPlain c = true) (s : JStr) :
    token (c :: s) = some (.char [c], s) := by
  simp only [isPlain, Bool.and_eq_true, decide_eq_true_eq, Bool.not_eq_true'] at h
  obtain ⟨⟨⟨⟨hascii, hbackslash⟩, hopening⟩, hclosing⟩, hbreak⟩ := h
  have hfirst := firstCodePoint_cons (isHigh_of_lt hascii) s
  rw [token.eq_def]
  simp only [if_neg hbackslash, if_neg hopening, if_neg hclosing, hbreak, hfirst]
  rfl

theorem token_escaped {c : JChar} (h : c = jc '\\' ∨ c = jc '\x7b' ∨ c = jc '\x7d') (s : JStr) :
    token (jc '\\' :: c :: s) = some (.escaped [c], s) := by
  have hsymbol : isLetter c = false ∧ c ≠ jc '\'' ∧ isHigh c = false := by
    rcases h with rfl | rfl | rfl <;> decide
  obtain ⟨hletter, hquote, hhigh⟩ := hsymbol
  have hcontrol : controlSymbol (c :: s) = (.escaped [c], s) := by
    rw [controlSymbol]
    simp only [List.head?_cons, Option.some.injEq, hquote, false_and, if_false,
      firstCodePoint_cons hhigh]
    rfl
  rw [token.eq_def]
  simp only [if_pos, hletter, Bool.false_eq_true, if_false, hcontrol]

theorem token_hex {d e : JChar} (hd : isHexDigit d = true) (he : isHexDigit e = true) (s : JStr) :
    token (jc '\\' :: jc '\'' :: d :: e :: s) = some (.hex [d, e], s) := by
  have hletter : isLetter (jc '\'') = false := by decide
  have hcontrol : controlSymbol (jc '\'' :: d :: e :: s) = (.hex [d, e], s) := by
    simp [controlSymbol, hd, he]
  rw [token.eq_def]
  simp only [if_pos, hletter, Bool.false_eq_true, if_false, hcontrol]

theorem token_opening (s : JStr) : token (jc '\x7b' :: s) = some (.opening, s) := rfl

theorem token_closing (s : JStr) : token (jc '\x7d' :: s) = some (.closing, s) := rfl

/-! ### In a group that is ignored -/

/-- A character that opens or closes nothing. -/
def IsOrdinary (c : JChar) : Prop := c ≠ jc '\\' ∧ c ≠ jc '\x7b' ∧ c ≠ jc '\x7d'

theorem isOrdinary_of {p : JChar → Bool}
    (h : p (jc '\\') = false ∧ p (jc '\x7b') = false ∧ p (jc '\x7d') = false) {c : JChar}
    (hc : p c = true) : IsOrdinary c := by
  refine ⟨?_, ?_, ?_⟩ <;> rintro rfl
  · exact Bool.false_ne_true (h.1.symm.trans hc)
  · exact Bool.false_ne_true (h.2.1.symm.trans hc)
  · exact Bool.false_ne_true (h.2.2.symm.trans hc)

theorem closes_cons {c : JChar} (h : IsOrdinary c) (n : ℕ) (s : JStr) :
    closes false n (c :: s) = closes false n s := by
  rw [closes, if_neg h.1, if_neg h.2.1, if_neg h.2.2]

theorem closes_append {w : JStr} (h : ∀ c ∈ w, IsOrdinary c) (n : ℕ) (s : JStr) :
    closes false n (w ++ s) = closes false n s := by
  induction w with
  | nil => rfl
  | cons c w ih =>
    obtain ⟨hc, hw⟩ := List.forall_mem_cons.1 h
    rw [List.cons_append, closes_cons hc, ih hw]

section Closing

variable (r : JStr)

/-- What the closing brace of the group starts. -/
def behind : JStr := jc '\x7d' :: r

theorem takeWhile_take_behind {p : JChar → Bool} (hp : p (jc '\x7d') = false) (n : ℕ) (s : JStr) :
    ((s ++ behind r).take n).takeWhile p = (s.take n).takeWhile p := by
  induction s generalizing n with
  | nil =>
    cases n with
    | zero => rfl
    | succ n => exact List.takeWhile_cons_of_neg (by simp [hp])
  | cons c s ih =>
    cases n with
    | zero => rfl
    | succ n => rw [List.cons_append, List.take_succ_cons, List.take_succ_cons, List.takeWhile_cons,
        List.takeWhile_cons, ih]

theorem number_behind (s : JStr) : number (s ++ behind r) = number s := by
  have hdigits := takeWhile_take_behind r (p := isDigit) (by decide) 10
  cases s with
  | nil => exact hdigits []
  | cons c s =>
    rw [List.cons_append, number, number, hdigits s, ← List.cons_append, hdigits (c :: s)]

theorem prefix_number (s : JStr) : number s <+: s := by
  have hdigits (s : JStr) : (s.take 10).takeWhile isDigit <+: s :=
    (List.takeWhile_prefix isDigit).trans (List.take_prefix 10 s)
  cases s with
  | nil => exact List.prefix_rfl
  | cons c s =>
    rw [number]
    split_ifs
    · dsimp only
      split_ifs
      · exact List.nil_prefix
      · exact List.cons_prefix_cons.2 ⟨rfl, hdigits s⟩
    · exact hdigits (c :: s)

theorem isOrdinary_of_mem_number {s : JStr} : ∀ c ∈ number s, IsOrdinary c := by
  have hdigits (s : JStr) : ∀ c ∈ (s.take 10).takeWhile isDigit, IsOrdinary c := fun c hc =>
    isOrdinary_of (by decide) (List.mem_takeWhile_imp hc)
  cases s with
  | nil => exact fun c hc => nomatch hc
  | cons c s =>
    rw [number]
    split_ifs with hsign
    · dsimp only
      split_ifs
      · exact fun c hc => nomatch hc
      · exact List.forall_mem_cons.2 ⟨by rw [hsign, IsOrdinary]; decide, hdigits s⟩
    · exact hdigits (c :: s)

theorem drop_prefix_behind {w s : JStr} (h : w <+: s) :
    (s ++ behind r).drop w.length = s.drop w.length ++ behind r :=
  List.drop_append_of_le_length h.length_le

/-- A control word ends before the closing brace. -/
theorem controlWord_behind (s : JStr) : controlWord (s ++ behind r) =
    ((controlWord s).1, (controlWord s).2 ++ behind r) := by
  have hword := takeWhile_take_behind r (p := isLetter) (by decide) 32 s
  have hprefix : (s.take 32).takeWhile isLetter <+: s :=
    (List.takeWhile_prefix isLetter).trans (List.take_prefix 32 s)
  simp only [controlWord]
  rw [hword, drop_prefix_behind r hprefix, number_behind, drop_prefix_behind r (prefix_number _)]
  generalize (s.drop _).drop _ = rest
  cases rest with
  | nil => rfl
  | cons c rest =>
    simp only [List.cons_append, List.head?_cons, List.drop_succ_cons, List.drop_zero]
    split_ifs <;> rfl

/-- What a control word takes opens and closes nothing. -/
theorem closes_controlWord (n : ℕ) (s : JStr) :
    closes false n (controlWord s).2 = closes false n s := by
  have hdrop (w s : JStr) (h : w <+: s) (hw : ∀ c ∈ w, IsOrdinary c) :
      closes false n (s.drop w.length) = closes false n s := by
    obtain ⟨rest, rfl⟩ := h
    rw [List.drop_left, closes_append hw]
  have hspace (s : JStr) :
      closes false n (if s.head? = some (jc ' ') then s.drop 1 else s) = closes false n s := by
    split_ifs with hhead
    · obtain ⟨rest, rfl⟩ := List.head?_eq_some_iff.1 hhead
      exact (closes_cons (by rw [IsOrdinary]; decide) n rest).symm
    · rfl
  have hprefix : (s.take 32).takeWhile isLetter <+: s :=
    (List.takeWhile_prefix isLetter).trans (List.take_prefix 32 s)
  simp only [controlWord]
  rw [hspace, hdrop _ _ (prefix_number _) isOrdinary_of_mem_number, hdrop _ _ hprefix]
  exact fun c hc => isOrdinary_of (by decide) (List.mem_takeWhile_imp hc)

theorem firstCodePoint_behind (c : JChar) (s : JStr) :
    firstCodePoint (c :: s ++ behind r) = firstCodePoint (c :: s) := by
  cases s with
  | nil =>
    have hlow : isLow (jc '\x7d') = false := by decide
    simp only [List.cons_append, List.nil_append, behind, firstCodePoint, hlow, Bool.and_false,
      Bool.false_eq_true, if_false]
  | cons d s => rfl

theorem drop_firstCodePoint_behind (c : JChar) (s : JStr) :
    (c :: s ++ behind r).drop (firstCodePoint (c :: s)).length =
      (c :: s).drop (firstCodePoint (c :: s)).length ++ behind r :=
  drop_prefix_behind r (prefix_firstCodePoint _)

/-- A low surrogate opens and closes nothing. -/
theorem closes_firstCodePoint (n : ℕ) (c : JChar) (s : JStr) :
    closes false n ((c :: s).drop (firstCodePoint (c :: s)).length) = closes false n s := by
  cases s with
  | nil => rfl
  | cons d s =>
    rw [firstCodePoint]
    split_ifs with hpair
    · rw [Bool.and_eq_true] at hpair
      exact (closes_cons (isOrdinary_of (by decide) hpair.2) n s).symm
    · rfl

theorem controlSymbol_behind (d : JChar) (s : JStr) : controlSymbol (d :: s ++ behind r) =
    ((controlSymbol (d :: s)).1, (controlSymbol (d :: s)).2 ++ behind r) := by
  by_cases hlen : 2 ≤ s.length
  · have htake : (s ++ behind r).take 2 = s.take 2 := List.take_append_of_le_length hlen
    have hdrop : (s ++ behind r).drop 2 = s.drop 2 ++ behind r := List.drop_append_of_le_length hlen
    simp only [controlSymbol, List.cons_append, List.head?_cons, List.drop_succ_cons,
      List.drop_zero, htake, hdrop]
    split_ifs
    · rfl
    · rw [← List.cons_append, firstCodePoint_behind, drop_firstCodePoint_behind]
  · -- too little is left for a hexadecimal escape, and the brace is no digit
    have hshort : (s.take 2).length ≠ 2 := by
      rw [List.length_take]
      omega
    have hnot : ((s ++ behind r).take 2).all isHexDigit = false := by
      have hmem : jc '\x7d' ∈ (s ++ behind r).take 2 := by
        rw [List.take_append, List.take_of_length_le (by omega)]
        obtain ⟨m, hm⟩ := Nat.exists_eq_add_of_lt (not_le.1 hlen)
        have hsub : 2 - s.length = m + 1 := by omega
        rw [hsub]
        exact List.mem_append_right s List.mem_cons_self
      exact List.all_eq_false.2 ⟨_, hmem, by decide⟩
    simp only [controlSymbol, List.cons_append, List.head?_cons, List.drop_succ_cons,
      List.drop_zero, hshort, hnot, Bool.false_eq_true, and_false, false_and, if_false]
    rw [← List.cons_append, firstCodePoint_behind, drop_firstCodePoint_behind]

theorem closes_controlSymbol (n : ℕ) (d : JChar) (s : JStr) :
    closes false n (controlSymbol (d :: s)).2 = closes false n s := by
  simp only [controlSymbol]
  split_ifs with hhex
  · obtain ⟨-, -, hall⟩ := hhex
    have hdigits : ∀ c ∈ s.take 2, IsOrdinary c := fun c hc =>
      isOrdinary_of (by decide) (List.all_eq_true.1 hall c hc)
    have happend := closes_append hdigits n (s.drop 2)
    rw [List.take_append_drop] at happend
    exact happend.symm
  · exact closes_firstCodePoint n d s

/-- The depth that a token leads to. -/
def Nests : Token → ℕ → ℕ → Prop
  | .opening, n, n' => n' = n + 1
  | .closing, n, n' => n = n' + 1
  | _, n, n' => n' = n

/-- **A token of a group that is ignored** ends before the brace that closes the group. -/
theorem token_behind {n : ℕ} {body rest : JStr} {t : Token} (h : closes false n body = true)
    (ht : token body = some (t, rest)) : token (body ++ behind r) = some (t, rest ++ behind r) ∧
      ∃ n', closes false n' rest = true ∧ Nests t n n' := by
  cases body with
  | nil => exact nomatch ht
  | cons c s =>
    rw [token.eq_def] at ht
    rw [token.eq_def]
    dsimp only [List.cons_append] at ht ⊢
    by_cases hbackslash : c = jc '\\'
    · rw [closes, if_pos hbackslash] at h
      rw [if_pos hbackslash] at ht ⊢
      cases s with
      | nil => exact absurd h (by simp [closes])
      | cons d s =>
        rw [closes] at h
        dsimp only [List.cons_append] at ht ⊢
        split_ifs at ht ⊢ with hletter
        · have hd : IsOrdinary d := isOrdinary_of (by decide) hletter
          have hclose := closes_controlWord n (d :: s)
          rw [← List.cons_append, controlWord_behind]
          rw [Option.some.inj ht] at hclose ⊢
          refine ⟨rfl, n, ?_, ?_⟩
          · rw [hclose, closes_cons hd, h]
          · have hword : (controlWord (d :: s)).1 = t := congrArg Prod.fst (Option.some.inj ht)
            rw [← hword]
            exact rfl
        · have hclose := closes_controlSymbol n d s
          have hsymbol : (controlSymbol (d :: s)).1 = t :=
            congrArg Prod.fst (Option.some.inj ht)
          rw [← List.cons_append, controlSymbol_behind]
          rw [Option.some.inj ht] at hclose ⊢
          refine ⟨rfl, n, hclose.trans h, ?_⟩
          simp only [controlSymbol] at hsymbol
          split_ifs at hsymbol <;> rw [← hsymbol] <;> rfl
    · rw [closes, if_neg hbackslash] at h
      rw [if_neg hbackslash] at ht ⊢
      split_ifs at h ht ⊢ with hopening hclosing hbreak
      · obtain ⟨rfl, rfl⟩ := Prod.mk.inj (Option.some.inj ht)
        exact ⟨rfl, n + 1, h, rfl⟩
      · obtain ⟨rfl, rfl⟩ := Prod.mk.inj (Option.some.inj ht)
        simp only [Bool.and_eq_true, decide_eq_true_eq] at h
        exact ⟨rfl, n - 1, h.2, (Nat.sub_add_cancel h.1).symm⟩
      · obtain ⟨rfl, rfl⟩ := Prod.mk.inj (Option.some.inj ht)
        have hbreaks : ∀ c ∈ s.takeWhile isBreak, IsOrdinary c := fun c hc =>
          isOrdinary_of (by decide) (List.mem_takeWhile_imp hc)
        have hclose := closes_append hbreaks n (s.dropWhile isBreak)
        rw [List.takeWhile_append_dropWhile] at hclose
        have hdrop : (s ++ behind r).dropWhile isBreak = s.dropWhile isBreak ++ behind r := by
          rw [List.dropWhile_append]
          split_ifs with hnil
          · rw [List.isEmpty_iff.1 hnil]
            rfl
          · rfl
        rw [hdrop]
        exact ⟨rfl, n, hclose.symm.trans h, rfl⟩
      · obtain ⟨rfl, rfl⟩ := Prod.mk.inj (Option.some.inj ht)
        rw [← List.cons_append, firstCodePoint_behind, drop_firstCodePoint_behind]
        exact ⟨rfl, n, (closes_firstCodePoint n c s).trans h, rfl⟩

end Closing

end RagLeap.Rag.Rtf
