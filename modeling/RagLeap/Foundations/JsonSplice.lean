import RagLeap.Foundations.JsonBurden
import RagLeap.Foundations.Substitution

/-!
# A replacement in the text of a JSON value

`s.replace(old, new)` on the text that `json.dumps` writes, for an `old` that starts with two
braces. The replacement is one of every string and name by itself (`substitute_spell`), and leaves
in it the characters of the value, which are escaped, and characters of `new`, which are not
(`Piece`). Where all of `new` stands for itself in a string, a string so written is read as its
characters, but for surrogates that the replacement has brought together (`lexes_written`).
-/

namespace RagLeap

/-! ## Occurrences -/

section Occurrences

variable {α : Type} [DecidableEq α] {old new : List α}

theorem substitute_eq_self {s : List α} (h : ¬ old <:+: s) : substitute old new s = s := by
  induction s with
  | nil => rfl
  | cons c s ih =>
    rw [List.infix_cons_iff, not_or] at h
    rw [substitute_cons_of_not h.1, ih h.2]

theorem count_substitute_le {c : α} (hold : old ≠ []) (hc : c ∉ new) (s : List α) :
    (substitute old new s).count c ≤ s.count c := by
  have hspliced : Spliced (fun _ n => n = new) s (substitute old new s) :=
    spliced_substitute hold s
  generalize substitute old new s = s' at hspliced
  induction hspliced with
  | nil => exact le_rfl
  | keep d _ ih =>
    rw [List.count_cons, List.count_cons]
    omega
  | put hput _ ih =>
    rw [List.count_append, List.count_append, hput, List.count_eq_zero_of_not_mem hc]
    omega

/-- A letter that only the text replaced has is lost. -/
theorem count_substitute_lt {c : α} (hin : c ∈ old) (hc : c ∉ new) {s : List α}
    (h : old <:+: s) : (substitute old new s).count c < s.count c := by
  have hold : old ≠ [] := List.ne_nil_of_mem hin
  induction s with
  | nil => exact absurd (List.eq_nil_of_infix_nil h) hold
  | cons d s ih =>
    by_cases hpre : old <+: d :: s
    · obtain ⟨z, hz⟩ := hpre
      have hle := count_substitute_le hold hc z
      have hpos := List.count_pos_iff.2 hin
      rw [← hz, substitute_append_self hold, List.count_append, List.count_append,
        List.count_eq_zero_of_not_mem hc]
      omega
    · have hlt := ih ((List.infix_cons_iff.1 h).resolve_left hpre)
      rw [substitute_cons_of_not hpre, List.count_cons, List.count_cons]
      omega

end Occurrences

namespace JsonText

open PyStr Value

/-! ## Pieces -/

/-- A character in the text of a string: one of the string, which is escaped, or one that a
replacement has put there. -/
inductive Piece
  | own (c : CodePoint)
  | put (c : CodePoint)

namespace Piece

def char : Piece → CodePoint
  | own c | put c => c

def text : Piece → PyStr
  | own c => escape c
  | put c => [c]

/-- What the lexer keeps of the piece. -/
def kept : Piece → List (Bool × CodePoint)
  | own c => units c
  | put c => [(false, c)]

/-- Whether the two pieces are read as one character. -/
def pairs : Piece → Piece → Bool
  | own c, own d => isHigh c && isLow d
  | _, _ => false

end Piece

/-- The text of a string of pieces. -/
def written (x : List Piece) : PyStr := ch '"' :: x.flatMap Piece.text ++ [ch '"']

theorem quote_eq_written (s : PyStr) : quote s = written (s.map .own) := by
  rw [quote, written, List.flatMap_map]
  rfl

/-- The pieces with `old` replaced, with the pieces of an occurrence still to be skipped. -/
def markFrom (old new : PyStr) : ℕ → List Piece → List Piece
  | _, [] => []
  | skip + 1, _ :: x => markFrom old new skip x
  | 0, p :: x =>
    if old <+: (p :: x).map Piece.char then new.map .put ++ markFrom old new (old.length - 1) x
    else p :: markFrom old new 0 x

def mark (old new : PyStr) (x : List Piece) : List Piece := markFrom old new 0 x

section Mark

variable {old new : PyStr}

@[simp] theorem mark_nil : mark old new [] = [] := rfl

theorem mark_cons_of_not {p : Piece} {x : List Piece} (h : ¬ old <+: (p :: x).map Piece.char) :
    mark old new (p :: x) = p :: mark old new x := by
  rw [mark, markFrom, if_neg h, mark]

theorem markFrom_append (y x : List Piece) :
    markFrom old new y.length (y ++ x) = mark old new x := by
  induction y with
  | nil => rfl
  | cons p y ih => exact ih

theorem mark_append_self (hold : old ≠ []) {y : List Piece} (hy : y.map Piece.char = old)
    (x : List Piece) : mark old new (y ++ x) = new.map .put ++ mark old new x := by
  cases y with
  | nil => exact absurd hy.symm hold
  | cons p y =>
    have hpre : old <+: (p :: (y ++ x)).map Piece.char := by
      rw [← List.cons_append, List.map_append, hy]
      exact List.prefix_append _ _
    have hlen : old.length - 1 = y.length := by
      rw [← hy, List.length_map, List.length_cons, Nat.add_sub_cancel]
    rw [mark, List.cons_append, markFrom, if_pos hpre, hlen, markFrom_append]

/-- Pieces start with an occurrence, or with a piece that stays. -/
theorem mark_cases (hold : old ≠ []) (new : PyStr) (p : Piece) (x : List Piece) :
    (∃ y z, p :: x = y ++ z ∧ y.map Piece.char = old ∧ z.length ≤ x.length ∧
      mark old new (p :: x) = new.map .put ++ mark old new z) ∨
    ¬ old <+: (p :: x).map Piece.char ∧ mark old new (p :: x) = p :: mark old new x := by
  by_cases h : old <+: (p :: x).map Piece.char
  · obtain ⟨r, hr⟩ := h
    obtain ⟨y, z, hyz, hy, -⟩ := List.map_eq_append_iff.1 hr.symm
    refine .inl ⟨y, z, hyz, hy, ?_, by rw [hyz, mark_append_self hold hy]⟩
    have hlen := congrArg List.length hyz
    have hpos : 0 < y.length := by
      rw [← List.length_map (f := Piece.char), hy]
      exact List.length_pos_of_ne_nil hold
    rw [List.length_append, List.length_cons] at hlen
    omega
  · exact .inr ⟨h, mark_cons_of_not h⟩

/-- The pieces and what a replacement makes of them, from one occurrence to the next. -/
inductive Marks (old new : PyStr) : List Piece → List Piece → Prop
  | nil : Marks old new [] []
  | occurs {y z z' : List Piece} : y.map Piece.char = old → Marks old new z z' →
      Marks old new (y ++ z) (new.map .put ++ z')
  | stays {p : Piece} {x x' : List Piece} : ¬ old <+: (p :: x).map Piece.char →
      Marks old new x x' → Marks old new (p :: x) (p :: x')

theorem marks_mark (hold : old ≠ []) (new : PyStr) (x : List Piece) :
    Marks old new x (mark old new x) := by
  induction hn : x.length using Nat.strong_induction_on generalizing x with
  | _ n ih =>
    cases x with
    | nil => exact .nil
    | cons p x =>
      rw [List.length_cons] at hn
      rcases mark_cases hold new p x with ⟨y, z, hyz, hy, hlen, hmark⟩ | ⟨hnot, hmark⟩
      · rw [hmark, hyz]
        exact .occurs hy (ih z.length (by omega) z rfl)
      · rw [hmark]
        exact .stays hnot (ih x.length (by omega) x rfl)

theorem map_char_put (w : PyStr) : (w.map Piece.put).map Piece.char = w := by
  rw [List.map_map]
  exact List.map_id' _

theorem map_char_own (w : PyStr) : (w.map Piece.own).map Piece.char = w := by
  rw [List.map_map]
  exact List.map_id' _

/-- The characters are replaced as in the string. -/
theorem map_char_mark (hold : old ≠ []) (x : List Piece) :
    (mark old new x).map Piece.char = substitute old new (x.map Piece.char) := by
  have hmarks := marks_mark hold new x
  generalize mark old new x = x' at hmarks
  induction hmarks with
  | nil => rfl
  | occurs hy _ ih =>
    rw [List.map_append, List.map_append, hy, substitute_append_self hold, map_char_put, ih]
  | stays hnot _ ih =>
    rw [List.map_cons, ih, List.map_cons, substitute_cons_of_not hnot]

theorem mark_eq_self {x : List Piece} (h : ¬ old <:+: x.map Piece.char) : mark old new x = x := by
  induction x with
  | nil => rfl
  | cons p x ih =>
    rw [List.map_cons, List.infix_cons_iff, not_or] at h
    rw [mark_cons_of_not h.1, ih h.2]

/-- An occurrence puts all of the new text there. -/
theorem put_mem_mark (hold : old ≠ []) {x : List Piece} (h : old <:+: x.map Piece.char)
    {c : CodePoint} (hc : c ∈ new) : .put c ∈ mark old new x := by
  have hmarks := marks_mark hold new x
  generalize mark old new x = x' at hmarks
  induction hmarks with
  | nil => exact absurd (List.eq_nil_of_infix_nil h) hold
  | occurs _ _ _ => exact List.mem_append_left _ (List.mem_map_of_mem hc)
  | stays hnot _ ih =>
    exact List.mem_cons_of_mem _ (ih ((List.infix_cons_iff.1 h).resolve_left hnot))

/-- What is in the pieces was there or has been put there. -/
theorem mem_mark (hold : old ≠ []) {x : List Piece} {p : Piece} (h : p ∈ mark old new x) :
    p ∈ x ∨ ∃ c ∈ new, p = .put c := by
  have hmarks := marks_mark hold new x
  generalize mark old new x = x' at hmarks h
  induction hmarks with
  | nil => exact .inl h
  | occurs _ _ ih =>
    rcases List.mem_append.1 h with hput | hrest
    · obtain ⟨c, hc, rfl⟩ := List.mem_map.1 hput
      exact .inr ⟨c, hc, rfl⟩
    · exact (ih hrest).imp_left (List.mem_append_right _)
  | stays _ _ ih =>
    rcases List.mem_cons.1 h with rfl | hrest
    · exact .inl List.mem_cons_self
    · exact (ih hrest).imp_left (List.mem_cons_of_mem _)

end Mark

/-! ## The text -/

/-- A character that the printer writes as it is. -/
def isLiteral (c : CodePoint) : Bool := isPrintable c && c ≠ ch '"' && c ≠ ch '\\'

/-- A placeholder that the printer writes as it is, with two braces at its head. -/
structure Placeholder (old : PyStr) : Prop where
  braces : ∃ t, old = ch '\x7b' :: ch '\x7b' :: t
  literal : ∀ c ∈ old, isLiteral c = true

theorem Placeholder.ne_nil {old : PyStr} (h : Placeholder old) : old ≠ [] := by
  obtain ⟨t, rfl⟩ := h.braces
  exact List.cons_ne_nil _ _

/-- A character is written as it is, or behind a backslash and with no brace. -/
theorem escape_cases (c : CodePoint) : escape c = [c] ∨
    isLiteral c = false ∧ (∃ t, escape c = ch '\\' :: t) ∧ ch '\x7b' ∉ escape c := by
  have hunit : ∀ d : CodePoint, d.val < 0x10000 → ch '\x7b' ∉ escapeUnit d := by
    intro d hd
    have hdigit : ∀ n < 16, hexDigit n ≠ ch '\x7b' := by decide
    simp only [escapeUnit, List.mem_cons, List.not_mem_nil, or_false, not_or]
    exact ⟨by decide, by decide, (hdigit _ (by omega)).symm, (hdigit _ (by omega)).symm,
      (hdigit _ (by omega)).symm, (hdigit _ (by omega)).symm⟩
  unfold escape
  cases hshort : shortEscapes.find? fun e => e.2 = c with
  | some e =>
    obtain ⟨hmem, rfl⟩ := mem_shortEscapes hshort
    have hall : (shortEscapes.all fun e => !isLiteral e.2 && e.1 ≠ ch '\x7b') = true := by decide
    have he := List.all_eq_true.1 hall e hmem
    simp only [Bool.and_eq_true, Bool.not_eq_true', decide_eq_true_eq] at he
    refine .inr ⟨he.1, ⟨_, rfl⟩, ?_⟩
    simp only [List.mem_cons, List.not_mem_nil, or_false, not_or]
    exact ⟨by decide, he.2.symm⟩
  | none =>
    dsimp only
    split_ifs with hprint hlt
    · exact .inl rfl
    all_goals
      right
      have hliteral : isLiteral c = false := by
        have hfalse : isPrintable c = false :=
          Bool.eq_false_iff.2 fun h => hprint (isPrintable_iff.1 h)
        rw [isLiteral, hfalse, Bool.false_and, Bool.false_and]
    · exact ⟨hliteral, ⟨_, rfl⟩, hunit c hlt⟩
    · have hhigh : (highOf c).val < 0x10000 := by rw [highOf_val]; omega
      have hlow : (lowOf c).val < 0x10000 := by rw [lowOf_val]; omega
      refine ⟨hliteral, ⟨_, rfl⟩, fun h => ?_⟩
      exact (List.mem_append.1 h).elim (hunit _ hhigh) (hunit _ hlow)

theorem Piece.text_cases (p : Piece) : p.text = [p.char] ∨
    isLiteral p.char = false ∧ (∃ t, p.text = ch '\\' :: t) ∧ ch '\x7b' ∉ p.text :=
  match p with
  | .own c => escape_cases c
  | .put _ => .inl rfl

/-- What starts the text of pieces starts their characters. -/
theorem prefix_of_text {w : PyStr} {x : List Piece} (rest : PyStr)
    (hw : ∀ c ∈ w, isLiteral c = true) (h : w <+: x.flatMap Piece.text ++ ch '"' :: rest) :
    w <+: x.map Piece.char := by
  induction x generalizing w with
  | nil =>
    cases w with
    | nil => exact List.nil_prefix
    | cons c w =>
      have hquote : c = ch '"' := (List.cons_prefix_cons.1 h).1
      exact absurd (hw c List.mem_cons_self) (by rw [hquote]; decide)
  | cons p x ih =>
    cases w with
    | nil => exact List.nil_prefix
    | cons c w =>
      rw [List.flatMap_cons, List.append_assoc] at h
      rcases p.text_cases with htext | ⟨-, ⟨t, htext⟩, -⟩
      · rw [htext, List.singleton_append, List.cons_prefix_cons] at h
        rw [List.map_cons, List.cons_prefix_cons]
        exact ⟨h.1, ih (fun d hd => hw d (List.mem_cons_of_mem c hd)) h.2⟩
      · rw [htext, List.cons_append, List.cons_prefix_cons] at h
        exact absurd (hw c List.mem_cons_self) (by rw [h.1]; decide)

section Text

variable {F : Type} {old new : PyStr}

/-- No occurrence starts at a character other than the first of the placeholder. -/
theorem Placeholder.substitute_append (h : Placeholder old) {u : PyStr} (hu : ch '\x7b' ∉ u)
    (s : PyStr) : substitute old new (u ++ s) = u ++ substitute old new s := by
  obtain ⟨t, rfl⟩ := h.braces
  refine substitute_append_of_none fun a b heq => not_lt.1 fun hlt => hu ?_
  rw [List.append_assoc] at heq
  obtain ⟨m, rfl⟩ := exists_append_of_append_eq heq.symm hlt.le
  rw [List.append_assoc, List.append_cancel_left_eq] at heq
  cases m with
  | nil => simp at hlt
  | cons d m =>
    obtain ⟨rfl, -⟩ := List.cons.inj heq
    exact List.mem_append_right a List.mem_cons_self

/-- In the text of a string the replacement is one of its pieces. -/
theorem substitute_text (h : Placeholder old) (x : List Piece) (rest : PyStr) :
    substitute old new (x.flatMap Piece.text ++ ch '"' :: rest) =
      (mark old new x).flatMap Piece.text ++ ch '"' :: substitute old new rest := by
  have hmarks := marks_mark h.ne_nil new x
  generalize mark old new x = x' at hmarks
  induction hmarks with
  | nil => exact h.substitute_append (u := [ch '"']) (by decide) rest
  | @occurs y z z' hy _ ih =>
    have htext : y.flatMap Piece.text = old := by
      rw [← hy, List.map_eq_flatMap]
      refine List.flatMap_congr fun p hp => p.text_cases.resolve_right fun hcase => ?_
      have hliteral := h.literal p.char (hy ▸ List.mem_map_of_mem hp)
      exact Bool.false_ne_true (hcase.1.symm.trans hliteral)
    have hput : (new.map Piece.put).flatMap Piece.text = new := by
      rw [List.flatMap_map]
      exact List.flatMap_singleton' new
    rw [List.flatMap_append, List.flatMap_append, htext, hput, List.append_assoc, List.append_assoc,
      substitute_append_self h.ne_nil, ih]
  | @stays p x x' hnot _ ih =>
    rw [List.flatMap_cons, List.flatMap_cons, List.append_assoc, List.append_assoc, ← ih]
    rcases p.text_cases with htext | ⟨-, -, hbrace⟩
    · rw [htext, List.singleton_append, List.singleton_append]
      refine substitute_cons_of_not fun hpre => hnot ?_
      refine prefix_of_text rest h.literal (x := p :: x) ?_
      rwa [List.flatMap_cons, htext]
    · exact h.substitute_append hbrace _

variable (fl : Floats F)

theorem substitute_written (h : Placeholder old) (x : List Piece) (rest : PyStr) :
    substitute old new (written x ++ rest) =
      written (mark old new x) ++ substitute old new rest := by
  rw [written, written, List.cons_append, List.cons_append, List.append_assoc,
    List.singleton_append, ← List.singleton_append, h.substitute_append (by decide),
    substitute_text h]
  simp

theorem substitute_commaSep (h : Placeholder old) {ι : Type} {f f' : ι → PyStr} {L : List ι}
    (hL : ∀ i ∈ L, ∀ rest, substitute old new (f i ++ rest) = f' i ++ substitute old new rest)
    (rest : PyStr) : substitute old new (commaSep (L.map f) ++ rest) =
      commaSep (L.map f') ++ substitute old new rest := by
  induction L with
  | nil => rfl
  | cons i L ih =>
    obtain ⟨hi, hL⟩ := List.forall_mem_cons.1 hL
    cases L with
    | nil => simpa [commaSep] using hi rest
    | cons j L =>
      have hsep : ∀ l : List PyStr, ∀ a b : PyStr,
          commaSep (a :: b :: l) = a ++ ([ch ',', ch ' '] ++ commaSep (b :: l)) := fun l a b => rfl
      rw [List.map_cons, List.map_cons, hsep, List.map_cons, List.map_cons, hsep,
        List.append_assoc, hi, List.append_assoc, List.append_assoc, List.append_assoc,
        h.substitute_append (by decide), ← List.map_cons, ih hL, List.map_cons]

/-- An object's own brace starts no occurrence. -/
theorem Placeholder.substitute_brace (h : Placeholder old) {c : CodePoint} (hc : c ≠ ch '\x7b')
    (s : PyStr) :
    substitute old new (ch '\x7b' :: c :: s) = ch '\x7b' :: substitute old new (c :: s) := by
  obtain ⟨t, rfl⟩ := h.braces
  refine substitute_cons_of_not fun hpre => hc ?_
  rw [List.cons_prefix_cons, List.cons_prefix_cons] at hpre
  exact hpre.2.1.symm

/-- **The replacement in the text of a value** is one in each of its strings and names. -/
theorem substitute_spell (h : Placeholder old) (new : PyStr) (m : PyStr → List Piece) (t : Value F)
    (rest : PyStr) : substitute old new (spell fl (fun s => written (m s)) t ++ rest) =
      spell fl (fun s => written (mark old new (m s))) t ++ substitute old new rest := by
  induction t using Value.ind generalizing rest with
  | atom a =>
    refine h.substitute_append (fun hbrace => ?_) rest
    exact absurd (isBare_atomText fl a _ hbrace).1 (by decide)
  | str s => exact substitute_written h (m s) rest
  | arr items ih =>
    rw [spell_arr, spell_arr, List.cons_append, List.cons_append, List.append_assoc,
      List.append_assoc, ← List.singleton_append (x := ch '['), h.substitute_append (by decide),
      substitute_commaSep h fun t ht rest => ih t ht rest, h.substitute_append (by decide)]
    rfl
  | obj members ih =>
    have hmember : ∀ k ∈ members, ∀ rest, substitute old new
        ((written (m k.1) ++ ch ':' :: ch ' ' :: spell fl (fun s => written (m s)) k.2) ++ rest) =
          (written (mark old new (m k.1)) ++
            ch ':' :: ch ' ' :: spell fl (fun s => written (mark old new (m s))) k.2) ++
              substitute old new rest := by
      intro k hk rest
      have hcolon : ∀ s : PyStr, substitute old new (ch ':' :: ch ' ' :: s) =
          ch ':' :: ch ' ' :: substitute old new s :=
        h.substitute_append (u := [ch ':', ch ' ']) (by decide)
      rw [List.append_assoc, substitute_written h, List.cons_append, List.cons_append, hcolon,
        ih k hk, List.append_assoc, List.cons_append, List.cons_append]
    have hhead : ∃ c s, c ≠ ch '\x7b' ∧ commaSep (members.map fun k =>
        written (m k.1) ++ ch ':' :: ch ' ' :: spell fl (fun s => written (m s)) k.2) ++
          ([ch '\x7d'] ++ rest) = c :: s := by
      cases members with
      | nil => exact ⟨_, _, by decide, rfl⟩
      | cons k members =>
        cases members with
        | nil => exact ⟨_, _, by decide, rfl⟩
        | cons k' members => exact ⟨_, _, by decide, rfl⟩
    obtain ⟨c, s, hc, hs⟩ := hhead
    rw [spell_obj, spell_obj, List.cons_append, List.cons_append, List.append_assoc, hs,
      h.substitute_brace hc, ← hs, substitute_commaSep h hmember, h.substitute_append (by decide)]
    simp

end Text

/-! ## Weight -/

/-- What the pieces of a string need to be written, and what they bear as they are. -/
theorem burden_pieces_le (x : List Piece) :
    burden (x.flatMap Piece.text) ≤ burden ((x.map Piece.char).flatMap escape) := by
  induction x with
  | nil => exact le_rfl
  | cons p x ih =>
    have hp : burden p.text ≤ burden (escape p.char) := by
      cases p with
      | own c => exact le_rfl
      | put c => exact (Nat.add_zero _).trans_le (burdenOf_le_needOf c)
    rw [List.flatMap_cons, List.map_cons, List.flatMap_cons, burden_append, burden_append]
    exact Nat.add_le_add hp ih

/-- A string is written by no text in which one of its characters is missing its escape. -/
theorem burden_pieces_lt {x : List Piece} {c : CodePoint} (hc : .put c ∈ x)
    (hbad : c = ch '"' ∨ c = ch '\\' ∨ c.val < 32) :
    burden (x.flatMap Piece.text) < burden ((x.map Piece.char).flatMap escape) := by
  obtain ⟨y, z, rfl⟩ := List.append_of_mem hc
  have hlt := burdenOf_lt_needOf hbad
  have hy := burden_pieces_le y
  have hz := burden_pieces_le z
  rw [needOf] at hlt
  simp only [List.flatMap_append, List.flatMap_cons, List.map_append, List.map_cons, burden_append,
    Piece.text, Piece.char, burden_cons, burden_nil]
  omega

theorem burden_commaSep (l : List PyStr) : burden (commaSep l) = (l.map burden).sum := by
  induction l with
  | nil => rfl
  | cons s l ih =>
    cases l with
    | nil => simp [commaSep]
    | cons s' l =>
      have hsep : commaSep (s :: s' :: l) = s ++ ([ch ',', ch ' '] ++ commaSep (s' :: l)) := rfl
      have hlight : burden [ch ',', ch ' '] = 0 := by decide
      rw [hsep, burden_append, burden_append, ih, hlight, Nat.zero_add]
      rfl

/-- What a part bears if strings are written as `q` does. -/
def borne {F : Type} (fl : Floats F) (q : PyStr → PyStr) : Leaf F → ℕ
  | .atom a => burden (atomText fl a)
  | .name s | .str s => burden (q s)

theorem burden_around {c d : CodePoint} (hc : burdenOf c = 0) (hd : burdenOf d = 0) (s : PyStr) :
    burden (c :: s ++ [d]) = burden s := by
  rw [burden_append, burden_cons, burden_cons, hc, hd, Nat.zero_add]
  rfl

/-- The text of a value bears what its parts do. -/
theorem burden_spell {F : Type} (fl : Floats F) (q : PyStr → PyStr) (t : Value F) :
    burden (spell fl q t) = total (borne fl q) t := by
  induction t using Value.ind with
  | atom a => exact (Nat.add_zero _).symm
  | str s => exact (Nat.add_zero _).symm
  | arr items ih =>
    rw [spell_arr, total_arr, burden_around (by decide) (by decide), burden_commaSep, List.map_map]
    exact congrArg List.sum (List.map_congr_left ih)
  | obj members ih =>
    rw [spell_obj, total_obj, burden_around (by decide) (by decide), burden_commaSep, List.map_map]
    refine congrArg List.sum (List.map_congr_left fun m hm => ?_)
    have hcolon : burdenOf (ch ':') = 0 := by decide
    have hspace : burdenOf (ch ' ') = 0 := by decide
    rw [Function.comp_apply, burden_append, burden_cons, burden_cons, hcolon, hspace, ih m hm,
      Nat.zero_add, Nat.zero_add, borne]

/-! ## Reading -/

/-- Whether a character stands for itself in a string. -/
def isRaw (c : CodePoint) : Bool := c ≠ ch '"' && c ≠ ch '\\' && 0x20 ≤ c.val

/-- The pieces as they are read. -/
def readPieces : List Piece → PyStr
  | [] => []
  | [p] => [p.char]
  | p :: q :: x =>
    if p.pairs q then pair p.char q.char :: readPieces x else p.char :: readPieces (q :: x)

/-- No two pieces are read as one character. -/
def Apart (x : List Piece) : Prop := x.IsChain fun p q => p.pairs q = false

theorem kept_append {p : Piece} {l : List (Bool × CodePoint)}
    (h : ∀ v ∈ l.head?, ∀ c, p = .own c → (v.1 && isHigh c && isLow v.2) = false) :
    combine (p.kept ++ l) = p.char :: combine l := by
  cases p with
  | own c => exact combine_units_append fun v hv => h v hv c rfl
  | put c =>
    cases l with
    | nil => rfl
    | cons v l => exact if_neg (by simp)

theorem combine_kept (x : List Piece) : combine (x.flatMap Piece.kept) = readPieces x := by
  fun_induction readPieces x with
  | case1 => rfl
  | case2 p =>
    rw [List.flatMap_singleton, ← List.append_nil p.kept, kept_append]
    · rfl
    · exact fun _ h => nomatch h
  | case3 p q x h ih =>
    cases p with
    | put c => exact absurd h Bool.false_ne_true
    | own c =>
      cases q with
      | put d => exact absurd h Bool.false_ne_true
      | own d =>
        simp only [Piece.pairs, Bool.and_eq_true] at h
        rw [List.flatMap_cons, List.flatMap_cons, Piece.kept, Piece.kept,
          units_of_surrogate (.inl h.1), units_of_surrogate (.inr h.2), List.singleton_append,
          List.singleton_append, combine, if_pos (by simp [h]), ih]
        rfl
  | case4 p q x h ih =>
    rw [List.flatMap_cons, kept_append, ih]
    rintro v hv c rfl
    rw [List.flatMap_cons] at hv
    cases q with
    | put d =>
      obtain rfl := Option.some.inj hv
      rfl
    | own d =>
      rw [Piece.kept] at hv
      rcases units_cases d with ⟨hd, -⟩ | ⟨hd, -⟩ | ⟨hd, -⟩
      · rw [hd] at hv
        obtain rfl := Option.some.inj hv
        rfl
      · rw [hd] at hv
        obtain rfl := Option.some.inj hv
        simpa [Piece.pairs] using h
      · rw [hd] at hv
        obtain rfl := Option.some.inj hv
        rw [isLow_highOf, Bool.and_false]

theorem lexFrom_pieces {F : Type} (fl : Floats F) (u : List (Bool × CodePoint)) {x : List Piece}
    (hx : ∀ c, .put c ∈ x → isRaw c = true) (rest : PyStr) :
    lexFrom fl (.string u) (x.flatMap Piece.text ++ rest) =
      lexFrom fl (.string (u ++ x.flatMap Piece.kept)) rest := by
  induction x generalizing u with
  | nil => simp
  | cons p x ih =>
    have hp : ∀ rest, lexFrom fl (.string u) (p.text ++ rest) =
        lexFrom fl (.string (u ++ p.kept)) rest := by
      intro rest
      cases p with
      | own c => exact lexFrom_escape fl u c rest
      | put c =>
        have hraw := hx c List.mem_cons_self
        simp only [isRaw, Bool.and_eq_true, decide_eq_true_eq] at hraw
        refine lexFrom_silent fl ?_ rest
        rw [step, if_neg hraw.1.1, if_neg hraw.1.2, if_neg (by omega), Piece.kept]
    rw [List.flatMap_cons, List.append_assoc, hp, ih _ fun c hc => hx c (List.mem_cons_of_mem p hc),
      List.flatMap_cons, List.append_assoc]

/-- **A string of pieces is read** if all that was put there stands for itself. -/
theorem lexes_written {F : Type} {fl : Floats F} {x : List Piece}
    (hx : ∀ c, .put c ∈ x → isRaw c = true) : Lexes fl (written x) [.str (readPieces x)] := by
  have hclose : ∀ u, step fl (.string u) (ch '"') = some ([.str (combine u)], .between) :=
    fun _ => rfl
  intro rest _
  rw [written, List.cons_append, List.cons_append, List.append_assoc,
    lexFrom_silent fl (n := .string []) rfl, lexFrom_pieces fl [] hx, List.nil_append,
    List.singleton_append, lexFrom, hclose, combine_kept]
  rfl

theorem length_readPieces (x : List Piece) : (readPieces x).length ≤ x.length ∧
    ((readPieces x).length = x.length → Apart x) := by
  fun_induction readPieces x with
  | case1 => exact ⟨le_rfl, fun _ => .nil⟩
  | case2 p => exact ⟨le_rfl, fun _ => .singleton p⟩
  | case3 p q x h ih =>
    simp only [List.length_cons]
    exact ⟨by omega, fun heq => by omega⟩
  | case4 p q x h ih =>
    simp only [List.length_cons] at ih ⊢
    exact ⟨by omega, fun heq => .cons_cons (Bool.eq_false_iff.2 h) (ih.2 (by omega))⟩

theorem readPieces_eq {x : List Piece} (h : Apart x) : readPieces x = x.map Piece.char := by
  fun_induction readPieces x with
  | case1 => rfl
  | case2 p => rfl
  | case3 p q x hpair ih =>
    exact absurd ((List.isChain_cons_cons.1 h).1.symm.trans hpair) Bool.false_ne_true
  | case4 p q x hpair ih => exact congrArg (p.char :: ·) (ih (List.isChain_cons_cons.1 h).2)

/-- No brace is read that is not there, and none is lost. -/
theorem count_readPieces (x : List Piece) :
    (readPieces x).count (ch '\x7b') = (x.map Piece.char).count (ch '\x7b') := by
  have hsurrogate : ∀ c, isHigh c = true ∨ isLow c = true → c ≠ ch '\x7b' := by
    rintro c hc rfl
    exact absurd hc (by decide)
  fun_induction readPieces x with
  | case1 => rfl
  | case2 p => rfl
  | case3 p q x h ih =>
    cases p with
    | put c => exact absurd h Bool.false_ne_true
    | own c =>
      cases q with
      | put d => exact absurd h Bool.false_ne_true
      | own d =>
        simp only [Piece.pairs, Bool.and_eq_true] at h
        have hpair : pair c d ≠ ch '\x7b' := fun heq => by
          have hle := le_pair h.1 h.2
          rw [heq] at hle
          exact absurd hle (by decide)
        change (pair c d :: readPieces x).count _ = (c :: d :: x.map Piece.char).count _
        rw [List.count_cons_of_ne hpair, ih,
          List.count_cons_of_ne (hsurrogate c (.inl h.1)),
          List.count_cons_of_ne (hsurrogate d (.inr h.2))]
  | case4 p q x h ih => rw [List.map_cons, List.count_cons, List.count_cons, ih]

theorem apart_own_iff (s : PyStr) : Apart (s.map .own) ↔ PyStr.Joined s := by
  rw [Apart, List.isChain_map, PyStr.Joined]
  refine iff_of_eq (congrArg (fun R => List.IsChain R s) (funext fun c => funext fun d => ?_))
  rw [Piece.pairs, Bool.and_eq_false_iff, ← Bool.not_eq_true, ← Bool.not_eq_true, not_and_or]

/-- A piece that is read as one character with no other. -/
def Piece.Alone (p : Piece) : Prop := ∀ q : Piece, p.pairs q = false ∧ q.pairs p = false

theorem Piece.alone_put (c : CodePoint) : (Piece.put c).Alone := fun q => by
  cases q <;> exact ⟨rfl, rfl⟩

theorem Piece.alone_of_isLiteral {p : Piece} (h : isLiteral p.char = true) : p.Alone := by
  have hsurrogate : isHigh p.char = false ∧ isLow p.char = false := by
    simp only [isLiteral, Bool.and_eq_true] at h
    have hprint := isPrintable_iff.1 h.1.1
    simp only [isHigh, isLow, Bool.and_eq_false_iff, decide_eq_false_iff_not]
    omega
  intro q
  cases p with
  | put c => exact alone_put c q
  | own c =>
    cases q with
    | put d => exact ⟨rfl, rfl⟩
    | own d => exact ⟨Bool.and_eq_false_iff.2 (.inl hsurrogate.1),
        Bool.and_eq_false_iff.2 (.inr hsurrogate.2)⟩

theorem apart_append_iff {y z : List Piece} (hy : ∀ p ∈ y, p.Alone) :
    Apart (y ++ z) ↔ Apart z := by
  induction y with
  | nil => exact Iff.rfl
  | cons p y ih =>
    obtain ⟨hp, hy⟩ := List.forall_mem_cons.1 hy
    rw [Apart, List.cons_append, List.isChain_cons]
    exact (and_iff_right fun q _ => (hp q).1).trans (ih hy)

/-- Where something is put in the place of a placeholder, what stands apart stays so. -/
theorem apart_mark_iff {old new : PyStr} (hold : Placeholder old) (hnew : new ≠ [])
    (x : List Piece) : Apart (mark old new x) ↔ Apart x := by
  have hmarks := marks_mark hold.ne_nil new x
  generalize mark old new x = x' at hmarks
  suffices (Apart x' ↔ Apart x) ∧ ∀ p : Piece,
      (∀ q ∈ x'.head?, p.pairs q = false) ↔ ∀ q ∈ x.head?, p.pairs q = false from this.1
  induction hmarks with
  | nil => exact ⟨Iff.rfl, fun p => Iff.rfl⟩
  | @occurs y z z' hy _ ih =>
    have hput : ∀ p ∈ new.map Piece.put, p.Alone := fun p hp => by
      obtain ⟨c, -, rfl⟩ := List.mem_map.1 hp
      exact Piece.alone_put c
    have halone : ∀ p ∈ y, p.Alone := fun p hp =>
      Piece.alone_of_isLiteral (hold.literal p.char (hy ▸ List.mem_map_of_mem hp))
    have hhead : ∀ u v : List Piece, u ≠ [] → (∀ p ∈ u, p.Alone) →
        ∀ p : Piece, ∀ q ∈ (u ++ v).head?, p.pairs q = false := by
      intro u v hne hu p q hq
      rw [List.head?_append_of_ne_nil u hne] at hq
      exact (hu q (List.mem_of_mem_head? hq) p).2
    have hne : y ≠ [] := fun h => hold.ne_nil (by rw [← hy, h]; rfl)
    refine ⟨(apart_append_iff hput).trans (ih.1.trans (apart_append_iff halone).symm), fun p => ?_⟩
    exact iff_of_true (hhead _ _ (by simpa using hnew) hput p) (hhead _ _ hne halone p)
  | @stays p x x' _ _ ih =>
    refine ⟨?_, fun q => Iff.rfl⟩
    rw [Apart, Apart, List.isChain_cons, List.isChain_cons]
    exact and_congr (ih.2 p) ih.1

end JsonText

end RagLeap
