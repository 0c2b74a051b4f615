import RagLeap.Rag.RtfTokens

/-!
# Text written as RTF

`Encodes` says that an RTF text stands for a text: characters as they are or escaped, control words
for line ends and tabs, `\uN` with as many fallback characters as `\ucN` has asked for, groups, and
groups that are to be ignored. The converter gives back the text (`rtfToText_of_encodes`) unless its
pattern for hyperlinks is found in the RTF.
-/

namespace RagLeap.Rag.Rtf

open JStr

/-! ## RTF that stands for a text -/

/-- A character that is shown where `\uN` is not known. -/
inductive Fallback
  | char (c : JChar)
  | hex (d e : JChar)

namespace Fallback

def rtf : Fallback → JStr
  | char c => [c]
  | hex d e => [jc '\\', jc '\'', d, e]

def isValid : Fallback → Bool
  | char c => isPlain c
  | hex d e => isHexDigit d && isHexDigit e

end Fallback

/-- A control word that says nothing about the text. -/
structure IsFormatting (w arg : JStr) : Prop extends IsControl w arg where
  destination : w ∉ DESTINATIONS
  special : SPECIAL.lookup w = none
  uc : w ≠ lit "uc"
  u : w ≠ lit "u"

/-- The content of a group that is to be ignored: `\*` or the control word of a destination, and
anything with its groups closed. -/
structure IsIgnorable (body : JStr) : Prop where
  closes : closes false 0 body = true
  destination : ∃ t rest, token body = some (t, rest) ∧
    (t = .escaped (lit "*") ∨ ∃ w ∈ DESTINATIONS, ∃ arg, t = .word w arg)

/-- The code unit as a signed number of 16 bits. -/
def signed (c : JChar) : ℤ := if c.val < 0x8000 then c.val else c.val - 0x10000

/-- The RTF stands for the text, where `\uN` has `k` fallback characters and the groups around it go
back to the numbers `ks`. -/
inductive Encodes : ℕ → List ℕ → JStr → JStr → Prop
  | nil {k : ℕ} : Encodes k [] [] []
  | plain {k : ℕ} {ks : List ℕ} {r t : JStr} {c : JChar} : isPlain c = true →
      Encodes k ks r t → Encodes k ks (c :: r) (c :: t)
  | escaped {k : ℕ} {ks : List ℕ} {r t : JStr} {c : JChar} :
      c = jc '\\' ∨ c = jc '\x7b' ∨ c = jc '\x7d' →
      Encodes k ks r t → Encodes k ks (jc '\\' :: c :: r) (c :: t)
  | newline {k : ℕ} {ks : List ℕ} {r t : JStr} {space : Bool} : Delimited [] space r →
      Encodes k ks r t → Encodes k ks (control (lit "par") [] space ++ r) (jc '\n' :: t)
  | tab {k : ℕ} {ks : List ℕ} {r t : JStr} {space : Bool} : Delimited [] space r →
      Encodes k ks r t → Encodes k ks (control (lit "tab") [] space ++ r) (jc '\t' :: t)
  | unicode {k : ℕ} {ks : List ℕ} {r t : JStr} {c : JChar} {space : Bool}
      {fallback : List Fallback} : 0x80 ≤ c.val → fallback.length = k →
      (∀ f ∈ fallback, f.isValid = true) →
      Delimited (decimal (signed c)) space (fallback.flatMap Fallback.rtf ++ r) →
      Encodes k ks r t → Encodes k ks (control (lit "u") (decimal (signed c)) space ++
        (fallback.flatMap Fallback.rtf ++ r)) (c :: t)
  | uc {k k' : ℕ} {ks : List ℕ} {r t : JStr} {space : Bool} : k' < 10 ^ 10 →
      Delimited (natText k') space r →
      Encodes k' ks r t → Encodes k ks (control (lit "uc") (natText k') space ++ r) t
  | word {k : ℕ} {ks : List ℕ} {r t w arg : JStr} {space : Bool} : IsFormatting w arg →
      Delimited arg space r → Encodes k ks r t → Encodes k ks (control w arg space ++ r) t
  | opening {k : ℕ} {ks : List ℕ} {r t : JStr} : Encodes k (k :: ks) r t →
      Encodes k ks (jc '\x7b' :: r) t
  | closing {k k' : ℕ} {ks : List ℕ} {r t : JStr} : Encodes k' ks r t →
      Encodes k (k' :: ks) (jc '\x7d' :: r) t
  | ignored {k : ℕ} {ks : List ℕ} {body r t : JStr} : IsIgnorable body →
      Encodes k ks r t → Encodes k ks (jc '\x7b' :: (body ++ jc '\x7d' :: r)) t

/-- The pattern for hyperlinks is found nowhere. -/
def NoLink (s : JStr) : Prop := ∀ s', s' <:+ s → findLink s' = none

theorem addLinks_eq_self {s : JStr} (h : NoLink s) : addLinks s = s := by
  rw [addLinks]
  induction s with
  | nil => rfl
  | cons c s ih =>
    rw [addLinksFrom, h _ List.suffix_rfl]
    exact congrArg (c :: ·) (ih fun s' hs' => h s' (hs'.trans (List.suffix_cons c s)))

/-! ## Runs -/

section Runs

variable {C : Type} (cs : Charsets C)

/-- The loop over the tokens of a text. -/
def run (st : State C) (s : JStr) : Except (Error C) (State C) := (tokens s).foldlM (step cs) st

theorem run_cons {s rest : JStr} {t : Token} (h : token s = some (t, rest)) {st st' : State C}
    (hstep : step cs st t = .ok st') : run cs st s = run cs st' rest := by
  rw [run, tokens_cons h, List.foldlM_cons, hstep]
  rfl

/-- The stack of groups that are shown. -/
def groups (ks : List ℕ) : List (ℤ × Bool) := ks.map fun k : ℕ => ((k : ℤ), false)

/-- The state between the tokens of a text that is shown. -/
def shown (k : ℕ) (ks : List ℕ) (encoding : C) (out : JStr) : State C :=
  ⟨groups ks, false, k, 0, none, encoding, out⟩

variable {k : ℕ} {ks : List ℕ} {encoding : C} {out : JStr}

theorem isControl {w arg : JStr} (h : w ∈ [lit "par", lit "tab", lit "uc", lit "u"])
    (harg : number arg = arg) : IsControl w arg := by
  have hall : ∀ w ∈ [lit "par", lit "tab", lit "uc", lit "u"],
      w ≠ [] ∧ w.length ≤ 32 ∧ w.all isLetter = true := by decide
  obtain ⟨hne, hlen, hletters⟩ := hall w h
  exact ⟨hne, hlen, List.all_eq_true.1 hletters, harg⟩

theorem special_par : SPECIAL.lookup (lit "par") = some [jc '\n'] := by decide

theorem special_tab : SPECIAL.lookup (lit "tab") = some [jc '\t'] := by decide

/-- None of the control words that an encoder needs starts a destination. -/
theorem not_mem_destinations : ∀ w ∈ DESTINATIONS,
    w ∉ [lit "par", lit "tab", lit "uc", lit "u", lit "rtf", lit "ansi"] := by
  decide +kernel

theorem step_char (c : JStr) : step cs (shown k ks encoding out) (.char c) =
    .ok (shown k ks encoding (out ++ c)) := rfl

theorem step_escaped {c : JChar} (h : c = jc '\\' ∨ c = jc '\x7b' ∨ c = jc '\x7d') :
    step cs (shown k ks encoding out) (.escaped [c]) = .ok (shown k ks encoding (out ++ [c])) := by
  have hspecial : SPECIAL.lookup [c] = some [c] := by
    rcases h with rfl | rfl | rfl <;> decide
  simp only [step, flush, shown, Except.bind, onToken, hspecial]
  rfl

section Word

variable {w : JStr} (hw : w ∉ DESTINATIONS) (hansi : w ≠ lit "ansicpg")
include hw hansi

theorem step_special {special : JStr} (h : SPECIAL.lookup w = some special) (arg : Option JStr) :
    step cs (shown k ks encoding out) (.word w arg) =
      .ok (shown k ks encoding (out ++ special)) := by
  simp only [step, flush, shown, Except.bind, onToken, onWord, if_neg hw, if_neg hansi, h]
  rfl

theorem step_uc {k' : ℕ} {arg : JStr} (hspecial : SPECIAL.lookup w = none) (huc : w = lit "uc")
    (h : parseDecimal arg = k') : step cs (shown k ks encoding out) (.word w (some arg)) =
      .ok (shown k' ks encoding out) := by
  simp only [step, flush, shown, Except.bind, onToken, onWord, if_neg hw, if_neg hansi, hspecial,
    if_pos huc, h]
  rfl

/-- `\uN` shows the code unit, and skips the fallback. -/
theorem step_unicode (hspecial : SPECIAL.lookup w = none) (huc : w ≠ lit "uc") (hu : w = lit "u")
    (c : JChar) : step cs (shown k ks encoding out) (.word w (some (decimal (signed c)))) =
      .ok { shown k ks encoding (out ++ [c]) with curskip := k } := by
  have hcode : (if signed c < 0 then signed c + 0x10000 else signed c) = c.val := by
    have hlt := c.isLt
    unfold signed
    split_ifs <;> omega
  have hrange : ¬ ((c.val : ℤ) < 0 ∨ 0x10FFFF < (c.val : ℤ)) := by
    have hlt := c.isLt
    omega
  have hunit : ofCodePoint (c.val : ℤ).toNat = [c] := by
    rw [Int.toNat_natCast, ofCodePoint, if_pos c.isLt]
    exact congrArg (fun c => [c]) (Fin.ext (Nat.mod_eq_of_lt c.isLt))
  simp only [step, flush, shown, Except.bind, onToken, onWord, if_neg hw, if_neg hansi, if_neg huc,
    hspecial, Bool.false_eq_true, if_false, if_pos hu, unicode, parseDecimal_decimal, hcode,
    if_neg hrange, hunit]

end Word

theorem step_formatting {w arg : JStr} (h : IsFormatting w arg) (a : Option JStr) :
    ∃ encoding', step cs (shown k ks encoding out) (.word w a) =
      .ok (shown k ks encoding' out) := by
  by_cases hansi : w = lit "ansicpg"
  · refine ⟨charsetForCodepage cs a, ?_⟩
    simp only [step, flush, shown, Except.bind, onToken, onWord, if_neg h.destination, if_pos hansi,
      h.special, if_neg h.uc, if_neg h.u, Bool.false_eq_true, if_false]
  · refine ⟨encoding, ?_⟩
    simp only [step, flush, shown, Except.bind, onToken, onWord, if_neg h.destination, if_neg hansi,
      h.special, if_neg h.uc, if_neg h.u, Bool.false_eq_true, if_false]

/-- The fallback is skipped. -/
theorem run_fallback {fallback : List Fallback} (h : ∀ f ∈ fallback, f.isValid = true) (r : JStr) :
    run cs { shown k ks encoding out with curskip := (fallback.length : ℤ) }
        (fallback.flatMap Fallback.rtf ++ r) = run cs (shown k ks encoding out) r := by
  induction fallback with
  | nil => rfl
  | cons f fallback ih =>
    obtain ⟨hf, hall⟩ := List.forall_mem_cons.1 h
    have hpos : (0 : ℤ) < (f :: fallback).length := by
      rw [List.length_cons]
      omega
    have hskip : ((f :: fallback).length : ℤ) - 1 = fallback.length := by
      rw [List.length_cons]
      omega
    rw [List.flatMap_cons, List.append_assoc, ← ih hall]
    cases f with
    | char c =>
      refine run_cons cs (token_plain hf _) ?_
      simp only [step, flush, shown, Except.bind, onToken, State.show, if_pos hpos, hskip]
    | hex d e =>
      simp only [Fallback.isValid, Bool.and_eq_true] at hf
      refine run_cons cs (token_hex hf.1 hf.2 _) ?_
      simp only [step, onHex, shown, if_pos hpos, hskip]

/-! ### Groups that are ignored -/

/-- The state in a group that is ignored; `inner` are the groups in it that are open. -/
def hidden (k : ℕ) (ks : List ℕ) (inner : List ℤ) (ucskip curskip : ℤ) (encoding : C) (out : JStr) :
    State C :=
  ⟨inner.map (fun u => (u, true)) ++ groups (k :: ks), true, ucskip, curskip, none, encoding, out⟩

variable {inner : List ℤ} {ucskip curskip : ℤ}

/-- A token in a group that is ignored says nothing. -/
theorem step_hidden (k : ℕ) (ks : List ℕ) (ucskip curskip : ℤ) (encoding : C) (out : JStr)
    {t : Token} {n' : ℕ} (h : Nests t inner.length n') :
    ∃ (inner' : List ℤ) (ucskip' curskip' : ℤ) (encoding' : C), inner'.length = n' ∧
      step cs (hidden k ks inner ucskip curskip encoding out) t =
        .ok (hidden k ks inner' ucskip' curskip' encoding' out) := by
  cases t with
  | opening => exact ⟨ucskip :: inner, ucskip, 0, encoding, h.symm, rfl⟩
  | closing =>
    cases inner with
    | nil => exact nomatch h
    | cons u inner => exact ⟨inner, u, 0, encoding, Nat.succ.inj h, rfl⟩
  | word w arg =>
    obtain rfl : n' = inner.length := h
    by_cases hw : w ∈ DESTINATIONS
    · refine ⟨inner, ucskip, 0, encoding, rfl, ?_⟩
      simp only [step, flush, hidden, Except.bind, onToken, onWord, if_pos hw]
      rfl
    · by_cases hansi : w = lit "ansicpg"
      · refine ⟨inner, ucskip, 0, charsetForCodepage cs arg, rfl, ?_⟩
        simp only [step, flush, hidden, Except.bind, onToken, onWord, if_neg hw, if_pos hansi]
        rfl
      · refine ⟨inner, ucskip, 0, encoding, rfl, ?_⟩
        simp only [step, flush, hidden, Except.bind, onToken, onWord, if_neg hw, if_neg hansi]
        rfl
  | escaped c =>
    obtain rfl : n' = inner.length := h
    refine ⟨inner, ucskip, 0, encoding, rfl, ?_⟩
    simp only [step, flush, hidden, Except.bind, onToken]
    split
    · rfl
    · split_ifs <;> rfl
  | char c =>
    obtain rfl : n' = inner.length := h
    by_cases hskip : 0 < curskip
    · refine ⟨inner, ucskip, curskip - 1, encoding, rfl, ?_⟩
      simp only [step, flush, hidden, Except.bind, onToken, State.show, if_pos hskip]
    · refine ⟨inner, ucskip, curskip, encoding, rfl, ?_⟩
      simp only [step, flush, hidden, Except.bind, onToken, State.show, if_neg hskip]
      rfl
  | hex h' =>
    obtain rfl : n' = inner.length := h
    by_cases hskip : 0 < curskip
    · refine ⟨inner, ucskip, curskip - 1, encoding, rfl, ?_⟩
      simp only [step, hidden, onHex, if_pos hskip]
    · refine ⟨inner, ucskip, curskip, encoding, rfl, ?_⟩
      simp only [step, hidden, onHex, if_neg hskip]
      rfl
  | breaks =>
    obtain rfl : n' = inner.length := h
    exact ⟨inner, ucskip, curskip, encoding, rfl, rfl⟩

/-- **A group is ignored** up to the brace that closes it. -/
theorem run_hidden {body : JStr} (h : closes false inner.length body = true) (r : JStr) :
    ∃ encoding', run cs (hidden k ks inner ucskip curskip encoding out) (body ++ behind r) =
      run cs (shown k ks encoding' out) r := by
  induction hn : body.length using Nat.strong_induction_on
    generalizing body inner ucskip curskip encoding with
  | _ n ih =>
    by_cases hne : body = []
    · rw [hne, closes, Bool.not_false, Bool.true_and, decide_eq_true_eq] at h
      obtain rfl := List.eq_nil_of_length_eq_zero h
      rw [hne]
      exact ⟨encoding, run_cons cs (token_closing r) rfl⟩
    · obtain ⟨t, rest, ht⟩ := exists_token hne
      obtain ⟨htoken, n', hclose, hnests⟩ := token_behind r h ht
      obtain ⟨inner', ucskip', curskip', encoding', hlen, hstep⟩ :=
        step_hidden cs k ks ucskip curskip encoding out hnests
      have hlt := length_token ht
      rw [run_cons cs htoken hstep]
      exact ih rest.length (by omega) (hlen.symm ▸ hclose) rfl

/-- The content of a group that is to be ignored hides it from its first token on. -/
theorem run_ignored {body : JStr} (h : IsIgnorable body) (r : JStr) :
    ∃ encoding', run cs (shown k ks encoding out) (jc '\x7b' :: (body ++ behind r)) =
      run cs (shown k ks encoding' out) r := by
  obtain ⟨t, rest, ht, hdest⟩ := h.destination
  obtain ⟨htoken, n', hclose, hnests⟩ := token_behind r h.closes ht
  have hstep : step cs (shown k (k :: ks) encoding out) t =
      .ok (hidden k ks [] k 0 encoding out) := by
    rcases hdest with rfl | ⟨w, hw, arg, rfl⟩
    · have hspecial : SPECIAL.lookup (lit "*") = none := by decide
      simp only [step, flush, shown, Except.bind, onToken, hspecial, if_pos]
      rfl
    · simp only [step, flush, shown, Except.bind, onToken, onWord, if_pos hw]
      rfl
  obtain rfl : n' = 0 := by
    rcases hdest with rfl | ⟨w, hw, arg, rfl⟩
    · exact hnests
    · exact hnests
  have hopening : step cs (shown k ks encoding out) .opening =
      .ok (shown k (k :: ks) encoding out) := rfl
  have hdepth : closes false ([] : List ℤ).length rest = true := hclose
  rw [run_cons cs (token_opening _) hopening, run_cons cs htoken hstep]
  exact run_hidden cs hdepth r

end Runs

/-- **RTF that stands for a text** is converted to the text. -/
theorem run_of_encodes {C : Type} (cs : Charsets C) {k : ℕ} {ks : List ℕ} {r t : JStr}
    (h : Encodes k ks r t) (encoding : C) (out : JStr) :
    (run cs (shown k ks encoding out) r).map State.out = .ok (out ++ t) := by
  induction h generalizing encoding out with
  | nil => exact congrArg Except.ok (List.append_nil out).symm
  | plain hc _ ih =>
    rw [run_cons cs (token_plain hc _) (step_char cs _), ih, List.append_assoc]
    rfl
  | escaped hc _ ih =>
    rw [run_cons cs (token_escaped hc _) (step_escaped cs hc), ih, List.append_assoc]
    rfl
  | newline hrest _ ih =>
    have hw : lit "par" ∉ DESTINATIONS := fun h => not_mem_destinations _ h (by simp)
    rw [run_cons cs (token_control (isControl (by simp) rfl) hrest)
      (step_special cs hw (by decide) special_par _), ih, List.append_assoc]
    rfl
  | tab hrest _ ih =>
    have hw : lit "tab" ∉ DESTINATIONS := fun h => not_mem_destinations _ h (by simp)
    rw [run_cons cs (token_control (isControl (by simp) rfl) hrest)
      (step_special cs hw (by decide) special_tab _), ih, List.append_assoc]
    rfl
  | @unicode k ks r t c space fallback hc hlen hvalid hrest _ ih =>
    have hnumber : number (decimal (signed c)) = decimal (signed c) := by
      have hlt := c.isLt
      refine number_decimal ?_
      unfold signed
      split_ifs <;> omega
    have htoken := token_control (isControl (w := lit "u") (by simp) hnumber) hrest
    rw [if_neg (decimal_ne_nil _)] at htoken
    subst hlen
    have hw : lit "u" ∉ DESTINATIONS := fun h => not_mem_destinations _ h (by simp)
    have hstep : step cs (shown fallback.length ks encoding out) _ = _ :=
      step_unicode cs hw (by decide) (by decide) (by decide) rfl c
    rw [run_cons cs htoken hstep, run_fallback cs hvalid, ih, List.append_assoc]
    rfl
  | @uc k k' ks r t space hk hrest _ ih =>
    have hnumber : number (natText k') = natText k' := number_decimal (n := (k' : ℤ)) hk
    have htoken := token_control (isControl (w := lit "uc") (by simp) hnumber) hrest
    rw [if_neg (natText_ne_nil _)] at htoken
    have hw : lit "uc" ∉ DESTINATIONS := fun h => not_mem_destinations _ h (by simp)
    have hstep : step cs (shown k ks encoding out) _ = .ok (shown k' ks encoding out) :=
      step_uc cs hw (by decide) (by decide) rfl (parseDecimal_natText k')
    rw [run_cons cs htoken hstep, ih]
  | word hw hrest _ ih =>
    obtain ⟨encoding', hstep⟩ := step_formatting cs hw _
    rw [run_cons cs (token_control hw.toIsControl hrest) hstep, ih]
  | opening _ ih =>
    rw [run_cons cs (token_opening _) rfl]
    exact ih encoding out
  | closing _ ih =>
    rw [run_cons cs (token_closing _) rfl]
    exact ih encoding out
  | ignored hbody _ ih =>
    obtain ⟨encoding', hrun⟩ := run_ignored cs hbody _
    exact (congrArg _ hrun).trans (ih encoding' out)

/-! ## Hyperlinks -/

/-- A field starts here. -/
def OpensField (s : JStr) : Prop :=
  ∃ c rest, s = jc '\x7b' :: jc '\\' :: c :: rest ∧ fold c = jc 'f'

theorem eq_of_fold_eq {c d : JChar} (h : fold c = d) (hd : d.val < 0x61 ∨ 0x7A < d.val) :
    c = d := by
  subst h
  unfold fold at hd ⊢
  split_ifs at hd ⊢ with hcapital
  · have hval : (Fin.ofNat 0x10000 (c.val + 0x20)).val = c.val + 0x20 :=
      Nat.mod_eq_of_lt (by omega)
    omega
  · exact absurd hd (by decide)
  · exact absurd hd (by decide)
  · exact absurd hd (by decide)
  · rfl

theorem eq_of_literal {c : Char} {d : JChar} (h : (fold d == fold (jc c)) = true)
    (hfold : fold (jc c) = jc c) (hc : (jc c).val < 0x61 ∨ 0x7A < (jc c).val) : d = jc c :=
  eq_of_fold_eq ((beq_iff_eq.1 h).trans hfold) hc

/-- The pattern for hyperlinks is found only where a field starts. -/
theorem opensField_of_findLink {s : JStr} (h : findLink s ≠ none) : OpensField s := by
  obtain ⟨r, hr⟩ := Option.ne_none_iff_exists'.1 h
  obtain ⟨c, hc, -⟩ := List.mem_flatMap.1 (List.mem_of_head? hr)
  obtain ⟨d, hd, -⟩ := List.mem_flatMap.1 hc
  obtain ⟨w, hw, hall⟩ := Rx.ends_letters hd
  have hletters : "\x7b\\field\x7b".toList =
      '\x7b' :: '\\' :: 'f' :: ['i', 'e', 'l', 'd', '\x7b'] := rfl
  rw [hletters, List.map_cons, List.map_cons, List.map_cons] at hall
  cases hall with
  | cons ha hall =>
    cases hall with
    | cons hb hall =>
      cases hall with
      | @cons _ c _ w hc hall =>
        obtain rfl := eq_of_literal ha (by decide) (by decide)
        obtain rfl := eq_of_literal hb (by decide) (by decide)
        exact ⟨c, w ++ d.2, hw, beq_iff_eq.1 hc⟩

theorem noLink_of {s : JStr} (h : ∀ s', s' <:+ s → ¬ OpensField s') : NoLink s := fun s' hs' =>
  not_not.1 fun hlink => h s' hs' (opensField_of_findLink hlink)

/-! ## A standard document -/

/-- A code unit in RTF. -/
def encodeUnit (c : JChar) : JStr :=
  if c = jc '\\' ∨ c = jc '\x7b' ∨ c = jc '\x7d' then [jc '\\', c]
  else if c = jc '\n' then control (lit "par") [] true
  else if c = jc '\t' then control (lit "tab") [] true
  else if c.val < 0x80 then [c]
  else control (lit "u") (decimal (signed c)) false ++ [jc '?']

/-- The document of a text. -/
def document (t : JStr) : JStr :=
  jc '\x7b' :: (control (lit "rtf") (lit "1") false ++
    (control (lit "ansi") [] true ++ (t.flatMap encodeUnit ++ [jc '\x7d'])))

/-- No field starts in the text, nor with a brace before it. -/
structure FieldFree (s : JStr) : Prop where
  inside : ∀ s', s' <:+ s → ¬ OpensField s'
  start : ∀ c rest, s = jc '\\' :: c :: rest → fold c ≠ jc 'f'

theorem FieldFree.inside_cons {s : JStr} (h : FieldFree s) (c : JChar) :
    ∀ s', s' <:+ c :: s → ¬ OpensField s' := by
  intro s' hs'
  rcases List.suffix_cons_iff.1 hs' with rfl | hs'
  · rintro ⟨d, rest, heq, hd⟩
    exact h.start d rest (List.cons.inj heq).2 hd
  · exact h.inside s' hs'

theorem FieldFree.inside_append {s : JStr} (h : ∀ s', s' <:+ s → ¬ OpensField s') {w : JStr}
    (hw : jc '\x7b' ∉ w) : ∀ s', s' <:+ w ++ s → ¬ OpensField s' := by
  induction w with
  | nil => exact h
  | cons c w ih =>
    rw [List.mem_cons, not_or] at hw
    intro s' hs'
    rcases List.suffix_cons_iff.1 hs' with rfl | hs'
    · rintro ⟨d, rest, heq, -⟩
      exact hw.1 (List.cons.inj heq).1.symm
    · exact ih hw.2 s' hs'

theorem not_mem_decimal {c : JChar} (hdigit : isDigit c = false) (hsign : c ≠ jc '-') (n : ℤ) :
    c ∉ decimal n := by
  have hnat : c ∉ natText n.natAbs := fun h =>
    Bool.false_ne_true (hdigit.symm.trans (isDigit_natText _ c h))
  unfold decimal
  split_ifs
  · exact List.not_mem_cons_of_ne_of_not_mem hsign hnat
  · exact hnat

/-- A code unit opens no field. -/
theorem FieldFree.encodeUnit {s : JStr} (h : FieldFree s) (c : JChar) :
    FieldFree (encodeUnit c ++ s) := by
  have hword {w : JStr} (d : JChar) (hd : fold d ≠ jc 'f')
      (hw : jc '\x7b' ∉ jc '\\' :: d :: w) : FieldFree (jc '\\' :: d :: w ++ s) := by
    refine ⟨FieldFree.inside_append h.inside hw, fun e rest heq => ?_⟩
    obtain rfl : d = e := (List.cons.inj (List.cons.inj heq).2).1
    exact hd
  unfold Rtf.encodeUnit
  split_ifs with hspecial hnewline htab hascii
  · have hfold : fold c ≠ jc 'f' := by rcases hspecial with rfl | rfl | rfl <;> decide
    refine ⟨?_, fun e rest heq => ?_⟩
    · exact FieldFree.inside_append (w := [jc '\\']) (h.inside_cons c) (by decide)
    · obtain rfl : c = e := (List.cons.inj (List.cons.inj heq).2).1
      exact hfold
  · exact hword (jc 'p') (by decide) (by decide)
  · exact hword (jc 't') (by decide) (by decide)
  · rw [not_or, not_or] at hspecial
    refine ⟨FieldFree.inside_append h.inside ?_, fun e rest heq => ?_⟩
    · exact fun hmem => hspecial.2.1 (List.mem_singleton.1 hmem).symm
    · exact absurd (List.cons.inj heq).1 hspecial.1
  · have hbrace : jc '\x7b' ∉ decimal (signed c) := not_mem_decimal (by decide) (by decide) _
    have hmem : jc '\x7b' ∉ jc '\\' :: jc 'u' :: (decimal (signed c) ++ [] ++ [jc '?']) := by
      simp only [List.append_nil, List.mem_cons, List.mem_append, List.not_mem_nil, or_false,
        hbrace, false_or]
      decide
    exact hword (jc 'u') (by decide) hmem

theorem fieldFree_document (t : JStr) : ∀ s', s' <:+ document t → ¬ OpensField s' := by
  have hclosing : FieldFree [jc '\x7d'] := by
    refine ⟨fun s' hs' => ?_, fun c rest heq => ?_⟩
    · rintro ⟨c, rest, rfl, -⟩
      exact absurd hs'.length_le (by simp)
    · exact absurd (List.cons.inj heq).1 (by decide)
  have htext : FieldFree (t.flatMap encodeUnit ++ [jc '\x7d']) := by
    induction t with
    | nil => exact hclosing
    | cons c t ih =>
      rw [List.flatMap_cons, List.append_assoc]
      exact ih.encodeUnit c
  have hheader : FieldFree (control (lit "rtf") (lit "1") false ++
      (control (lit "ansi") [] true ++ (t.flatMap encodeUnit ++ [jc '\x7d']))) := by
    have hansi : jc '\x7b' ∉ control (lit "ansi") [] true := by decide
    have hinside := FieldFree.inside_append htext.inside hansi
    refine ⟨FieldFree.inside_append hinside (by decide), fun c rest heq => ?_⟩
    obtain rfl : jc 'r' = c := (List.cons.inj (List.cons.inj heq).2).1
    decide
  exact hheader.inside_cons (jc '\x7b')

theorem encodes_flatMap {t : JStr} (h : jc '\r' ∉ t) :
    Encodes 1 [1] (t.flatMap encodeUnit ++ [jc '\x7d']) t := by
  induction t with
  | nil => exact .closing .nil
  | cons c t ih =>
    rw [List.mem_cons, not_or] at h
    rw [List.flatMap_cons, List.append_assoc]
    have hrest := ih h.2
    unfold encodeUnit
    split_ifs with hspecial hnewline htab hascii
    · exact .escaped hspecial hrest
    · rw [hnewline]
      exact .newline (fun hspace => nomatch hspace) hrest
    · rw [htab]
      exact .tab (fun hspace => nomatch hspace) hrest
    · rw [not_or, not_or] at hspecial
      have hplain : isPlain c = true := by
        simp only [isPlain, isBreak, Bool.and_eq_true, decide_eq_true_eq, Bool.not_eq_true',
          Bool.or_eq_false_iff, decide_eq_false_iff_not]
        refine ⟨⟨⟨⟨hascii, hspecial.1⟩, hspecial.2.1⟩, hspecial.2.2⟩, ?_, hnewline⟩
        exact fun hc => h.1 hc.symm
      exact .plain hplain hrest
    · have hmark : Delimited (decimal (signed c)) false
          ([.char (jc '?')].flatMap Fallback.rtf ++ (t.flatMap encodeUnit ++ [jc '\x7d'])) := by
        refine fun _ => ⟨(by decide : some (jc '?') ≠ some (jc ' ')), ?_⟩
        rw [if_neg (decimal_ne_nil _)]
        exact fun d hd => by obtain rfl := Option.some.inj hd; decide
      rw [List.append_assoc]
      exact .unicode (not_lt.1 hascii) rfl (by decide) hmark hrest

/-- The document of a text stands for the text if there is no carriage return in it. -/
theorem encodes_document {t : JStr} (h : jc '\r' ∉ t) : Encodes 1 [] (document t) t := by
  have hrtf : IsFormatting (lit "rtf") (lit "1") :=
    { ne_nil := by decide, length_le := by decide
      letters := List.all_eq_true.1 (by decide : (lit "rtf").all isLetter = true), arg := by decide
      destination := fun hmem => not_mem_destinations _ hmem (by simp), special := by decide
      uc := by decide, u := by decide }
  have hansi : IsFormatting (lit "ansi") [] :=
    { ne_nil := by decide, length_le := by decide
      letters := List.all_eq_true.1 (by decide : (lit "ansi").all isLetter = true), arg := rfl
      destination := fun hmem => not_mem_destinations _ hmem (by simp), special := by decide
      uc := by decide, u := by decide }
  have hmark : Delimited (lit "1") false
      (control (lit "ansi") [] true ++ (t.flatMap encodeUnit ++ [jc '\x7d'])) := by
    refine fun _ => ⟨(by decide : some (jc '\\') ≠ some (jc ' ')), ?_⟩
    rw [if_neg (by decide)]
    intro d hd
    obtain rfl : jc '\\' = d := Option.some.inj hd
    decide
  have hspace : Delimited [] true (t.flatMap encodeUnit ++ [jc '\x7d']) := fun h => nomatch h
  exact .opening (.word hrtf hmark (.word hansi hspace (encodes_flatMap h)))

/-- **The text comes back** from the standard document, and from all RTF that stands for it and has
no hyperlink. -/
theorem rtfToText_roundTrip {C : Type} (cs : Charsets C) :
    (∀ t, jc '\r' ∉ t → Encodes 1 [] (document t) t ∧ NoLink (document t)) ∧
      ∀ r t, Encodes 1 [] r t → NoLink r → rtfToText cs r = .ok t := by
  refine ⟨fun t ht => ⟨encodes_document ht, noLink_of (fieldFree_document t)⟩, ?_⟩
  intro r t h hlinks
  rw [rtfToText, addLinks_eq_self hlinks]
  exact run_of_encodes cs h cs.windows1252 []

namespace Sample

/-- A platform with one character set, in which a byte is a character. -/
def charsets : Charsets Unit :=
  ⟨fun _ => none, (), (), fun _ bytes => some (bytes.map (Fin.ofNat 0x10000))⟩

theorem letters_back : rtfToText charsets (document (lit "a\n\u00E9\\")) =
    .ok (lit "a\n\u00E9\\") := by
  obtain ⟨hencodes, hlinks⟩ := (rtfToText_roundTrip charsets).1 (lit "a\n\u00E9\\") (by decide)
  exact (rtfToText_roundTrip charsets).2 _ _ hencodes hlinks

/-- A hyperlink without a text. -/
def body : JStr := lit "\\*\x7b\\field\x7b\\*\\fldinst\x7bHYPERLINK \"\"\x7d\x7d\x7b \x7d\x7d"

/-- The hyperlink in a group that is to be ignored. -/
def linked : JStr := jc '\x7b' :: (body ++ [jc '\x7d'])

theorem isIgnorable_body : IsIgnorable body := ⟨by decide, _, _, rfl, .inl rfl⟩

/-- A carriage return is lost, the destination of a hyperlink is written behind a group that is to
be ignored, and of the argument of a control word ten digits are read. -/
theorem not_roundTrip : rtfToText charsets (lit "\x7b\r\x7d") = .ok [] ∧
    (Encodes 1 [] linked [] ∧ rtfToText charsets linked = .ok (lit "(\"\")")) ∧
    rtfToText charsets (lit "\\uc10000000000 ") = .ok (lit "0 ") := by
  refine ⟨rfl, ⟨.ignored isIgnorable_body .nil, ?_⟩, ?_⟩
  · have hlinks : addLinks linked = linked ++ lit "(\"\")" := by decide +kernel
    have happend : linked ++ lit "(\"\")" = jc '\x7b' :: (body ++ jc '\x7d' :: lit "(\"\")") := by
      rw [linked, List.cons_append, List.append_assoc, List.singleton_append]
    have hencodes : Encodes 1 [] (linked ++ lit "(\"\")") (lit "(\"\")") := by
      rw [happend]
      exact .ignored isIgnorable_body
        (.plain (by decide) (.plain (by decide) (.plain (by decide) (.plain (by decide) .nil))))
    rw [rtfToText, hlinks]
    exact run_of_encodes charsets hencodes () []
  · have hlinks : addLinks (lit "\\uc10000000000 ") = lit "\\uc10000000000 " := by decide +kernel
    have htoken : token (lit "\\uc10000000000 ") =
        some (.word (lit "uc") (some (lit "1000000000")), lit "0 ") := rfl
    have harg : parseDecimal (lit "1000000000") = (1000000000 : ℕ) := by decide
    have hstep : step charsets (.initial charsets) (.word (lit "uc") (some (lit "1000000000"))) =
        .ok (shown 1000000000 [] () []) := by
      have hw : lit "uc" ∉ DESTINATIONS := fun h => not_mem_destinations _ h (by simp)
      have hinitial : State.initial charsets = shown 1 [] () [] := rfl
      rw [hinitial]
      exact step_uc charsets hw (by decide) (by decide) rfl harg
    have hrest : Encodes 1000000000 [] (lit "0 ") (lit "0 ") :=
      .plain (by decide) (.plain (by decide) .nil)
    rw [rtfToText, hlinks]
    refine (congrArg (Except.map State.out) (run_cons charsets htoken hstep)).trans ?_
    exact run_of_encodes charsets hrest () []

end Sample

end RagLeap.Rag.Rtf
