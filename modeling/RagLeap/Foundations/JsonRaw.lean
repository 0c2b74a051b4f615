import RagLeap.Foundations.JsonRoundTrip
import RagLeap.Foundations.Utf8

/-!
# JSON text that is not confined to ASCII

`json.dumps(value, ensure_ascii=False)` (`printRaw`): only quotation marks, backslashes and control
characters are escaped, and a space follows each comma and colon. Reading the text back gives the
value, surrogates and all (`parse_printRaw`), and exchanging surrogates for another character in
the text exchanges them in the value (`printRaw_map`).
-/

namespace RagLeap

namespace JsonText

open PyStr

variable {F : Type} (fl : Floats F)

/-! ## Printing -/

/-- `ESCAPE.sub(replace, c)`. -/
def escapeRaw (c : CodePoint) : PyStr :=
  match shortEscapes.find? fun e => e.2 = c with
  | some (letter, _) => [ch '\\', letter]
  | none => if c.val < 0x20 then escapeUnit c else [c]

/-- `encode_basestring`. -/
def quoteRaw (s : PyStr) : PyStr := ch '"' :: s.flatMap escapeRaw ++ [ch '"']

/-- The texts with a comma and a space between them. -/
def commaSep (l : List PyStr) : PyStr := [ch ',', ch ' '].intercalate l

mutual

/-- `json.dumps(value, ensure_ascii=False)`. -/
def printRaw : Value F → PyStr
  | .atom a => atomText fl a
  | .str s => quoteRaw s
  | .arr items => ch '[' :: commaSep (printRawItems items) ++ [ch ']']
  | .obj members => ch '\x7b' :: commaSep (printRawMembers members) ++ [ch '\x7d']

def printRawItems : List (Value F) → List PyStr
  | [] => []
  | t :: items => printRaw t :: printRawItems items

def printRawMembers : List (PyStr × Value F) → List PyStr
  | [] => []
  | (k, t) :: members => (quoteRaw k ++ ch ':' :: ch ' ' :: printRaw t) :: printRawMembers members

end

theorem printRawItems_eq (items : List (Value F)) :
    printRawItems fl items = items.map (printRaw fl) := by
  induction items with
  | nil => rfl
  | cons t items ih => rw [printRawItems, ih, List.map_cons]

theorem printRawMembers_eq (members : List (PyStr × Value F)) : printRawMembers fl members =
    members.map fun m => quoteRaw m.1 ++ ch ':' :: ch ' ' :: printRaw fl m.2 := by
  induction members with
  | nil => rfl
  | cons m members ih => rw [printRawMembers, ih, List.map_cons]

/-! ## Reading back -/

/-- Whether a `\u` escape writes the character. -/
def isEscapedUnit (c : CodePoint) : Bool :=
  (shortEscapes.find? fun e => e.2 = c).isNone && c.val < 0x20

theorem lexFrom_escapeRaw (u : List (Bool × CodePoint)) (c : CodePoint) (s : PyStr) :
    lexFrom fl (.string u) (escapeRaw c ++ s) =
      lexFrom fl (.string (u ++ [(isEscapedUnit c, c)])) s := by
  unfold escapeRaw isEscapedUnit
  cases hshort : shortEscapes.find? fun e => e.2 = c with
  | some e =>
    obtain ⟨hmem, rfl⟩ := mem_shortEscapes hshort
    obtain ⟨hletter, hu, -, -⟩ := unescape_letter hmem
    have hescape : step fl (.escape u) e.1 = some ([], .string (u ++ [(false, e.2)])) := by
      rw [step, if_neg hu, hletter]
      rfl
    simp only [List.cons_append, List.nil_append, Option.isNone_some, Bool.false_and]
    rw [lexFrom_silent fl (n := .escape u) rfl, lexFrom_silent fl hescape]
  | none =>
    have hne : ∀ e ∈ shortEscapes, e.2 ≠ c := by
      intro e he
      simpa using List.find?_eq_none.1 hshort e he
    simp only [Option.isNone_none, Bool.true_and]
    by_cases hlow : c.val < 0x20
    · rw [if_pos hlow, decide_eq_true hlow, lexFrom_escapeUnit fl (by omega)]
    · have hquote : c ≠ ch '"' := fun h => hne (ch '"', ch '"') (by simp [shortEscapes]) h.symm
      have hbackslash : c ≠ ch '\\' :=
        fun h => hne (ch '\\', ch '\\') (by simp [shortEscapes]) h.symm
      rw [if_neg hlow, decide_eq_false hlow]
      apply lexFrom_silent
      rw [step, if_neg hquote, if_neg hbackslash, if_neg hlow]

theorem lexFrom_flatMap_escapeRaw (u : List (Bool × CodePoint)) (s rest : PyStr) :
    lexFrom fl (.string u) (s.flatMap escapeRaw ++ rest) =
      lexFrom fl (.string (u ++ s.map fun c => (isEscapedUnit c, c))) rest := by
  induction s generalizing u with
  | nil => simp
  | cons c s ih =>
    rw [List.flatMap_cons, List.append_assoc, lexFrom_escapeRaw, ih, List.map_cons,
      List.append_assoc, List.singleton_append]

/-- No escape the printer writes is a surrogate, so none are put together. -/
theorem combine_raw (s : PyStr) : combine (s.map fun c => (isEscapedUnit c, c)) = s := by
  induction s with
  | nil => rfl
  | cons c s ih =>
    rw [List.map_cons, combine_cons, ih]
    intro v hv
    obtain ⟨d, -, rfl⟩ := List.mem_map.1 (List.mem_of_mem_head? hv)
    by_cases hlow : d.val < 0x20
    · have hd : isLow d = false := by
        simp only [isLow, Bool.and_eq_false_iff, decide_eq_false_iff_not]
        omega
      simp [hd]
    · simp [isEscapedUnit, hlow]

variable {fl}

theorem lexes_quoteRaw (s : PyStr) : Lexes fl (quoteRaw s) [.str s] := by
  have hclose : ∀ u, step fl (.string u) (ch '"') = some ([.str (combine u)], .between) :=
    fun _ => rfl
  intro rest _
  rw [quoteRaw, List.cons_append, List.cons_append, List.append_assoc,
    lexFrom_silent fl (n := .string []) rfl, lexFrom_flatMap_escapeRaw, List.nil_append,
    List.singleton_append, lexFrom, hclose, combine_raw]
  rfl

theorem Lexes.space {s : PyStr} {l : List (Token F)} (h : Lexes fl s l) :
    Lexes fl (ch ' ' :: s) l := by
  intro rest hrest
  rw [List.cons_append, lexFrom_silent fl (n := .between) rfl, h rest hrest]

theorem Lexes.commaSep {ι : Type} {f : ι → PyStr} {g : ι → List (Token F)} {L : List ι}
    (h : ∀ i ∈ L, Lexes fl (f i) (g i)) :
    Lexes fl (commaSep (L.map f)) (JsonText.sepBy (.punct .comma) (L.map g)) := by
  induction L with
  | nil => exact Lexes.nil
  | cons i L ih =>
    have hi := h i List.mem_cons_self
    have hL := ih fun j hj => h j (List.mem_cons_of_mem i hj)
    cases L with
    | nil => simpa [JsonText.commaSep, JsonText.sepBy] using hi
    | cons j L =>
      have hcons : JsonText.commaSep ((i :: j :: L).map f) =
          f i ++ ch ',' :: ch ' ' :: JsonText.commaSep ((j :: L).map f) := by
        rw [JsonText.commaSep, List.map_cons, List.intercalate_cons_of_ne_nil (by simp)]
        simp [JsonText.commaSep]
      rw [hcons]
      exact hi.append (by decide) (hL.space.punct (c := ch ',') rfl)

theorem lexes_printRaw (t : Value F) : Lexes fl (printRaw fl t) (tokens t) := by
  induction t using Value.ind with
  | atom a =>
    rw [printRaw, tokens]
    exact fun rest hrest => lexFrom_atomText fl a hrest
  | str s =>
    rw [printRaw, tokens]
    exact lexes_quoteRaw s
  | arr items ih =>
    have hitems := Lexes.commaSep ih
    rw [printRaw, tokens, printRawItems_eq, tokensItems_eq]
    exact (hitems.punct (c := ch '[') rfl).close rfl (by decide)
  | obj members ih =>
    have hmembers := Lexes.commaSep fun m hm =>
      (lexes_quoteRaw m.1).append (by decide) ((ih m hm).space.punct (c := ch ':') rfl)
    rw [printRaw, tokens, printRawMembers_eq, tokensMembers_eq]
    exact (hmembers.punct (c := ch '\x7b') rfl).close rfl (by decide)

variable (fl)

theorem lexFrom_printRaw (t : Value F) :
    lexFrom fl .between (printRaw fl t) = some (tokens t) := by
  have h : lexFrom fl .between (printRaw fl t ++ []) = _ := lexes_printRaw t [] endsWord_nil
  rw [List.append_nil] at h
  rw [h]
  simp [lexFrom, finish]

/-- **Reading back** a text printed so gives the value, its objects made dictionaries. -/
theorem parse_printRaw (t : Value F) : parse fl (printRaw fl t) = some t.collapse := by
  rw [parse, lexFrom_printRaw, Option.bind_some, ofTokens_tokens]
  rfl

/-! ## Surrogates exchanged -/

/-- The characters the printer writes itself are left alone. -/
def FixesAscii (r : CodePoint → CodePoint) : Prop :=
  ∀ c, c.val < 0x80 → r c = c

theorem escapeRaw_map {r : CodePoint → CodePoint} (hr : FixesAscii r)
    (hhigh : ∀ c, 0x80 ≤ c.val → 0x80 ≤ (r c).val) (c : CodePoint) :
    (escapeRaw c).map r = escapeRaw (r c) := by
  have hprint : ∀ d, isPrintable d = true → r d = d := fun d hd => by
    rw [isPrintable_iff] at hd
    exact hr d (by omega)
  have hlit : ∀ d : CodePoint, 0x80 ≤ d.val → escapeRaw d = [d] := by
    intro d hd
    have hnone : (shortEscapes.find? fun e => e.2 = d) = none := by
      by_contra hsome
      have := not_astral_of_isSome (.inl (Option.isSome_iff_ne_none.2 hsome))
      omega
    rw [escapeRaw, hnone]
    exact if_neg (by omega)
  by_cases hc : c.val < 0x80
  · rw [hr c hc]
    unfold escapeRaw
    cases hshort : shortEscapes.find? fun e => e.2 = c with
    | some e =>
      have he := (unescape_letter (mem_shortEscapes hshort).1).2.2.1
      simp [hprint e.1 he, hprint (ch '\\') (by decide)]
    | none =>
      simp only
      split_ifs with hlow
      · simp only [escapeUnit, List.map_cons, List.map_nil]
        rw [hprint _ (isPrintable_hexDigit _ (by omega)),
          hprint _ (isPrintable_hexDigit _ (by omega)),
          hprint _ (isPrintable_hexDigit _ (by omega)),
          hprint _ (isPrintable_hexDigit _ (by omega)), hprint (ch '\\') (by decide),
          hprint (ch 'u') (by decide)]
      · rw [List.map_singleton, hr c hc]
  · rw [hlit c (by omega), hlit (r c) (hhigh c (by omega)), List.map_singleton]

theorem quoteRaw_map {r : CodePoint → CodePoint} (hr : FixesAscii r)
    (hhigh : ∀ c, 0x80 ≤ c.val → 0x80 ≤ (r c).val) (s : PyStr) :
    (quoteRaw s).map r = quoteRaw (s.map r) := by
  have h : (s.flatMap escapeRaw).map r = (s.map r).flatMap escapeRaw := by
    rw [List.map_flatMap, List.flatMap_map]
    congr 1
    funext c
    exact escapeRaw_map hr hhigh c
  rw [quoteRaw, quoteRaw, List.map_append, List.map_cons, h, List.map_singleton,
    hr (ch '"') (by decide)]

theorem commaSep_map {r : CodePoint → CodePoint} (hr : FixesAscii r) (l : List PyStr) :
    (commaSep l).map r = commaSep (l.map (List.map r)) := by
  have hsep : [ch ',', ch ' '].map r = [ch ',', ch ' '] := by
    simp [hr (ch ',') (by decide), hr (ch ' ') (by decide)]
  unfold commaSep
  induction l with
  | nil => rfl
  | cons x l ih =>
    rcases eq_or_ne l [] with rfl | hl
    · simp
    · rw [List.intercalate_cons_of_ne_nil hl, List.map_cons,
        List.intercalate_cons_of_ne_nil (by simpa using hl), List.map_append, List.map_append, ih,
        hsep]

/-- **Exchanging characters beyond ASCII** in the text exchanges them in the strings. -/
theorem printRaw_map {r : CodePoint → CodePoint} (hr : FixesAscii r)
    (hhigh : ∀ c, 0x80 ≤ c.val → 0x80 ≤ (r c).val) (t : Value F) :
    (printRaw fl t).map r = printRaw fl (t.map (List.map r) id) := by
  induction t using Value.ind with
  | atom a =>
    have hfix : ∀ c ∈ atomText fl a, r c = c := fun c hc => by
      have hprint := (isBare_atomText fl a c hc).2
      rw [isPrintable_iff] at hprint
      exact hr c (by omega)
    rw [Value.map_atom, printRaw, List.map_congr_left hfix, List.map_id']
  | str s => rw [Value.map_str, printRaw, printRaw, quoteRaw_map hr hhigh]
  | arr items ih =>
    have hitems : items.map (List.map r ∘ printRaw fl) =
        items.map (printRaw fl ∘ Value.map (List.map r) id) := List.map_congr_left ih
    rw [Value.map_arr, printRaw, printRaw, printRawItems_eq, printRawItems_eq, List.map_append,
      List.map_cons, commaSep_map hr, List.map_map, List.map_map, hitems, List.map_singleton,
      hr (ch '[') (by decide), hr (ch ']') (by decide)]
  | obj members ih =>
    have hmembers : members.map (List.map r ∘ fun m =>
        quoteRaw m.1 ++ ch ':' :: ch ' ' :: printRaw fl m.2) =
          members.map ((fun m => quoteRaw m.1 ++ ch ':' :: ch ' ' :: printRaw fl m.2) ∘
            fun m => (m.1.map r, Value.map (List.map r) id m.2)) := by
      apply List.map_congr_left
      intro m hm
      rw [Function.comp_apply, Function.comp_apply, List.map_append, quoteRaw_map hr hhigh,
        List.map_cons, List.map_cons, ih m hm, hr (ch ':') (by decide), hr (ch ' ') (by decide)]
    rw [Value.map_obj, printRaw, printRaw, printRawMembers_eq, printRawMembers_eq, id,
      List.map_append, List.map_cons, commaSep_map hr, List.map_map, List.map_map, hmembers,
      List.map_singleton, hr (ch '\x7b') (by decide), hr (ch '\x7d') (by decide)]

/-! ## The characters of the text -/

theorem forall_mem_escapeRaw {P : CodePoint → Prop} (hP : ∀ c, c.val < 0x80 → P c)
    (c : CodePoint) : (∀ d ∈ escapeRaw c, P d) ↔ P c := by
  by_cases hc : c.val < 0x80
  · apply iff_of_true _ (hP c hc)
    intro d hd
    -- the characters of an escape are printable
    have hescape : isPrintable d = true ∨ d = c := by
      unfold escapeRaw at hd
      cases hshort : shortEscapes.find? fun e => e.2 = c with
      | some e =>
        rw [hshort] at hd
        rcases List.mem_pair.1 hd with rfl | rfl
        · exact .inl rfl
        · exact .inl (unescape_letter (mem_shortEscapes hshort).1).2.2.1
      | none =>
        rw [hshort] at hd
        simp only at hd
        split_ifs at hd with hlow
        · simp only [escapeUnit, List.mem_cons, List.not_mem_nil, or_false] at hd
          rcases hd with rfl | rfl | rfl | rfl | rfl | rfl
          · exact .inl rfl
          · exact .inl rfl
          all_goals exact .inl (isPrintable_hexDigit _ (by omega))
        · exact .inr (List.mem_singleton.1 hd)
    rcases hescape with hprint | rfl
    · rw [isPrintable_iff] at hprint
      exact hP d (by omega)
    · exact hP d hc
  · have hnone : (shortEscapes.find? fun e => e.2 = c) = none := by
      by_contra hsome
      have := not_astral_of_isSome (.inl (Option.isSome_iff_ne_none.2 hsome))
      omega
    rw [escapeRaw, hnone]
    simp only
    rw [if_neg (by omega)]
    simp

theorem forall_mem_quoteRaw {P : CodePoint → Prop} (hP : ∀ c, c.val < 0x80 → P c) (s : PyStr) :
    (∀ c ∈ quoteRaw s, P c) ↔ ∀ c ∈ s, P c := by
  have hquote : P (ch '"') := hP _ (by decide)
  have hmem : (∀ c ∈ s.flatMap escapeRaw, P c) ↔ ∀ c ∈ s, P c := by
    simp only [List.mem_flatMap, forall_exists_index, and_imp]
    constructor
    · intro h c hc
      exact (forall_mem_escapeRaw hP c).1 fun d hd => h d c hc hd
    · intro h d c hc hd
      exact (forall_mem_escapeRaw hP c).2 (h c hc) d hd
  rw [quoteRaw, List.forall_mem_append, List.forall_mem_cons, hmem]
  simp [hquote]

theorem forall_mem_commaSep {P : CodePoint → Prop} (hP : ∀ c, c.val < 0x80 → P c)
    (l : List PyStr) : (∀ c ∈ commaSep l, P c) ↔ ∀ s ∈ l, ∀ c ∈ s, P c := by
  have hcomma : P (ch ',') := hP _ (by decide)
  have hspace : P (ch ' ') := hP _ (by decide)
  unfold commaSep
  induction l with
  | nil => simp
  | cons s l ih =>
    rcases eq_or_ne l [] with rfl | hl
    · simp
    · rw [List.intercalate_cons_of_ne_nil hl, List.forall_mem_append, List.forall_mem_append,
        List.forall_mem_cons]
      simp only [ih, List.mem_cons, List.not_mem_nil, or_false, forall_eq_or_imp, forall_eq, hcomma,
        hspace, and_true]

/-- What holds of ASCII holds of the whole text if it holds of the strings in the value. -/
theorem forall_mem_printRaw {P : CodePoint → Prop} (hP : ∀ c, c.val < 0x80 → P c)
    (t : Value F) : (∀ c ∈ printRaw fl t, P c) ↔
      Value.All (fun s => ∀ c ∈ s, P c) (fun _ => True) t := by
  induction t using Value.ind with
  | atom a =>
    rw [printRaw]
    apply iff_of_true _ (.atom a)
    intro c hc
    have hprint := (isBare_atomText fl a c hc).2
    rw [isPrintable_iff] at hprint
    exact hP c (by omega)
  | str s => rw [printRaw, forall_mem_quoteRaw hP, Value.all_str]
  | arr items ih =>
    rw [printRaw, printRawItems_eq, List.forall_mem_append, List.forall_mem_cons,
      forall_mem_commaSep hP, Value.all_arr, List.forall_mem_map]
    simp only [List.mem_singleton, forall_eq, hP (ch '[') (by decide), hP (ch ']') (by decide),
      true_and, and_true]
    exact forall₂_congr ih
  | obj members ih =>
    have hmember : ∀ m ∈ members,
        (∀ c ∈ quoteRaw m.1 ++ ch ':' :: ch ' ' :: printRaw fl m.2, P c) ↔
          (∀ c ∈ m.1, P c) ∧ Value.All (fun s => ∀ c ∈ s, P c) (fun _ => True) m.2 := by
      intro m hm
      rw [List.forall_mem_append, List.forall_mem_cons, List.forall_mem_cons,
        forall_mem_quoteRaw hP, ih m hm]
      simp [hP (ch ':') (by decide), hP (ch ' ') (by decide)]
    rw [printRaw, printRawMembers_eq, List.forall_mem_append, List.forall_mem_cons,
      forall_mem_commaSep hP, Value.all_obj, List.forall_mem_map]
    simp only [List.mem_singleton, forall_eq, hP (ch '\x7b') (by decide),
      hP (ch '\x7d') (by decide), true_and, and_true]
    rw [forall₂_congr hmember, ← forall₂_and]

end JsonText

end RagLeap
