import RagLeap.Foundations.JsonRoundTrip

/-!
# Conditions as text

A condition on the fields of a row, tests joined by `and`, `or` and `not`, as a text. `lex` splits
the text into tokens and `parse` reads the condition; a `TextSyntax` says how strings are quoted, which
words are reserved and how equality and conjunction are written.

The main result is `read_render_iff`: a text written as a conjunction of tests is read as that
conjunction exactly if the text of every value is read as the value.
-/

namespace RagLeap

namespace FilterText

open JsonText (Atom Floats isDigit isNumberChar isSpace readNumber)

variable {F : Type}

/-! ## Conditions -/

/-- What a test compares. -/
inductive Operand (F : Type)
  | field (name : PyStr)
  | str (s : PyStr)
  | atom (a : Atom F)

inductive Cmp
  | eq
  | ne
  | lt
  | le
  | gt
  | ge

/-- A condition; `all` is none. -/
inductive Cond (F : Type)
  | all
  | test (o : Cmp) (a b : Operand F)
  | not (e : Cond F)
  | and (e e' : Cond F)
  | or (e e' : Cond F)

/-- A token; `reserved` is a word that the conditions here do not use. -/
inductive Token (F : Type)
  | operand (a : Operand F)
  | reserved
  | cmp (o : Cmp)
  | and
  | or
  | not
  | lparen
  | rparen

/-- A token that stands for a field or a value. -/
def Token.isLeaf : Token F → Bool
  | operand _ | reserved => true
  | _ => false

def Token.isAnd : Token F → Bool
  | and => true
  | _ => false

def Token.isOr : Token F → Bool
  | or => true
  | _ => false

/-- The fields and values of a condition in order. -/
def Cond.leaves : Cond F → List (Token F)
  | all => []
  | test _ a b => [.operand a, .operand b]
  | not e => e.leaves
  | and e e' | or e e' => e.leaves ++ e'.leaves

/-! ## Parsing -/

/-- A parser of a part: the condition it reads and the tokens that follow. -/
abbrev Reader (F : Type) : Type := List (Token F) → Option (Cond F × List (Token F))

/-- The further parts of a chain of at most `n`, each after a token of the kind `sep`. -/
def chain (sep : Token F → Bool) (mk : Cond F → Cond F → Cond F) (part : Reader F) :
    ℕ → Cond F → Reader F
  | n + 1, e, t :: ts =>
    if sep t then (part ts).bind fun (e', rest) => chain sep mk part n (mk e e') rest
    else some (e, t :: ts)
  | _, e, ts => some (e, ts)

def andLevel (part : Reader F) : Reader F := fun ts =>
  (part ts).bind fun (e, rest) => chain Token.isAnd .and part rest.length e rest

def orLevel (part : Reader F) : Reader F := fun ts =>
  (andLevel part ts).bind fun (e, rest) => chain Token.isOr .or (andLevel part) rest.length e rest

/-- A test, a negation or a condition in parentheses, nested at most `n` deep. -/
def factor : ℕ → Reader F
  | n + 1, .not :: ts => (factor n ts).map fun (e, rest) => (.not e, rest)
  | n + 1, .lparen :: ts => (orLevel (factor n) ts).bind fun
    | (e, .rparen :: rest) => some (e, rest)
    | _ => none
  | _ + 1, .operand a :: .cmp o :: .operand b :: ts => some (.test o a b, ts)
  | _, _ => none

/-- The condition of the tokens. -/
def parse (ts : List (Token F)) : Option (Cond F) :=
  match orLevel (factor ts.length) ts with
  | some (e, []) => some e
  | _ => none

/-! ## Lexing -/

def isWordStart (c : CodePoint) : Bool :=
  (ch 'A' ≤ c && c ≤ ch 'Z') || (ch 'a' ≤ c && c ≤ ch 'z') || c = ch '_'

def isWordChar (c : CodePoint) : Bool := isWordStart c || isDigit c

def isSymbol (c : CodePoint) : Bool := c ∈ text "=<>!&|".toList

/-- A language of conditions. `literal` reads a string after its opening mark; `word` knows the words
that are no fields; `equals` and `conj` write an equality and a conjunction. -/
structure TextSyntax (F : Type) where
  floats : Floats F
  quote : CodePoint
  literal : PyStr → Option (PyStr × PyStr)
  word : PyStr → Option (Token F)
  symbol : PyStr → Option (Token F)
  equals : PyStr
  conj : PyStr
  quote_mem : quote ∈ [ch '"', ch '\'']
  equals_symbol : equals ≠ [] ∧ equals.all isSymbol = true ∧ symbol equals = some (.cmp .eq)
  conj_word : conj ≠ [] ∧ conj.all isWordStart = true ∧ word conj = some .and

variable (L : TextSyntax F)

/-- The first token of a text that does not begin with white space. -/
def first : PyStr → Option (Token F × PyStr)
  | [] => none
  | c :: s =>
    if c = L.quote then (L.literal s).map fun (t, rest) => (.operand (.str t), rest)
    else if c = ch '(' then some (.lparen, s)
    else if c = ch ')' then some (.rparen, s)
    else if isDigit c || c = ch '-' then
      (readNumber L.floats ((c :: s).takeWhile isNumberChar)).map fun a =>
        (.operand (.atom a), (c :: s).dropWhile isNumberChar)
    else if isWordStart c then
      let w := (c :: s).takeWhile isWordChar
      some ((L.word w).getD (.operand (.field w)), (c :: s).dropWhile isWordChar)
    else if isSymbol c then
      (L.symbol ((c :: s).takeWhile isSymbol)).map fun t => (t, (c :: s).dropWhile isSymbol)
    else none

/-- The tokens of a text that has at most `n`. -/
def lexFrom : ℕ → PyStr → Option (List (Token F))
  | 0, s => if s.dropWhile isSpace = [] then some [] else none
  | n + 1, s =>
    if s.dropWhile isSpace = [] then some []
    else (first L (s.dropWhile isSpace)).bind fun (t, rest) => (lexFrom n rest).map (t :: ·)

/-- Reads a condition; the empty text is none. -/
def read (s : PyStr) : Option (Cond F) :=
  if s = [] then some .all else (lexFrom L s.length s).bind parse

/-! ## Writing -/

/-- `sep.join(parts)`. -/
def joinWith (sep : PyStr) : List PyStr → PyStr
  | [] => []
  | [s] => s
  | s :: parts => s ++ sep ++ joinWith sep parts

/-- A test of a field: the text of the value, and the value. -/
structure Clause (F : Type) where
  name : PyStr
  text : PyStr
  value : Operand F

/-- The text of a test. -/
def Clause.render (c : Clause F) : PyStr :=
  c.name ++ ch ' ' :: L.equals ++ ch ' ' :: c.text

/-- The text of a conjunction of tests. -/
def render (cs : List (Clause F)) : PyStr :=
  joinWith (ch ' ' :: L.conj ++ [ch ' ']) (cs.map (Clause.render L))

def Clause.test (c : Clause F) : Cond F := .test .eq (.field c.name) c.value

/-- The conjunction of conditions. -/
def conjoin : List (Cond F) → Cond F
  | [] => .all
  | e :: es => es.foldl .and e

/-- The conjunction of tests. -/
def conjunction (cs : List (Clause F)) : Cond F := conjoin (cs.map Clause.test)

/-- A name of a field. -/
def IsName (w : PyStr) : Prop :=
  (∃ c ∈ w.head?, isWordStart c = true) ∧ w.all isWordChar = true ∧ L.word w = none

/-- The end of the text or of one of its words. -/
def Ends (rest : PyStr) : Prop := rest = [] ∨ ∃ s, rest = ch ' ' :: s

/-- The text is read as the operand. -/
def Reads (text : PyStr) (a : Operand F) : Prop :=
  ∀ rest, Ends rest → first L (text ++ rest) = some (.operand a, rest)

/-- The text is read as another value or not at all. -/
def Misreads (text : PyStr) (a : Operand F) : Prop :=
  ∀ rest, Ends rest → ∀ t rest', first L (text ++ rest) = some (t, rest') →
    t.isLeaf = true ∧ t ≠ .operand a

/-! ## What the parser keeps -/

/-- The fields and values that a parser reads are those of the condition, in order. -/
def Sound (part : Reader F) : Prop :=
  ∀ ts e rest, part ts = some (e, rest) →
    ts.filter Token.isLeaf = e.leaves ++ rest.filter Token.isLeaf

theorem chain_sound {sep : Token F → Bool} {mk : Cond F → Cond F → Cond F} {part : Reader F}
    (hsep : ∀ t, sep t = true → t.isLeaf = false)
    (hmk : ∀ e e', (mk e e').leaves = e.leaves ++ e'.leaves) (hpart : Sound part) (n : ℕ)
    (e : Cond F) (ts : List (Token F)) {e' : Cond F} {rest : List (Token F)}
    (h : chain sep mk part n e ts = some (e', rest)) :
    e.leaves ++ ts.filter Token.isLeaf = e'.leaves ++ rest.filter Token.isLeaf := by
  induction n generalizing e ts with
  | zero =>
    cases h
    rfl
  | succ n ih =>
    cases ts with
    | nil =>
      cases h
      rfl
    | cons t ts =>
      rw [chain] at h
      split at h
      · rename_i hs
        obtain ⟨⟨e₁, rest₁⟩, h₁, h⟩ := Option.bind_eq_some_iff.1 h
        have hrest := ih (mk e e₁) rest₁ h
        rw [hmk] at hrest
        rw [List.filter_cons_of_neg (by simp [hsep t hs]), hpart ts e₁ rest₁ h₁,
          ← List.append_assoc, hrest]
      · cases h
        rfl

theorem andLevel_sound {part : Reader F} (hpart : Sound part) : Sound (andLevel part) := by
  intro ts e rest h
  obtain ⟨⟨e₁, rest₁⟩, h₁, h⟩ := Option.bind_eq_some_iff.1 h
  rw [hpart ts e₁ rest₁ h₁]
  apply chain_sound _ (fun _ _ => rfl) hpart _ _ _ h
  intro t ht
  cases t <;> first | rfl | cases ht

theorem orLevel_sound {part : Reader F} (hpart : Sound part) : Sound (orLevel part) := by
  intro ts e rest h
  obtain ⟨⟨e₁, rest₁⟩, h₁, h⟩ := Option.bind_eq_some_iff.1 h
  rw [andLevel_sound hpart ts e₁ rest₁ h₁]
  apply chain_sound _ (fun _ _ => rfl) (andLevel_sound hpart) _ _ _ h
  intro t ht
  cases t <;> first | rfl | cases ht

theorem factor_sound (n : ℕ) : Sound (F := F) (factor n) := by
  induction n with
  | zero => exact fun ts e rest h => nomatch h
  | succ n ih =>
    intro ts e rest h
    unfold factor at h
    split at h
    · rename_i m ts hm
      obtain rfl := Nat.succ.inj hm
      obtain ⟨⟨e₁, rest₁⟩, h₁, heq⟩ := Option.map_eq_some_iff.1 h
      cases heq
      exact ih ts e₁ rest h₁
    · rename_i m ts hm
      obtain rfl := Nat.succ.inj hm
      obtain ⟨⟨e₁, rest₁⟩, h₁, h⟩ := Option.bind_eq_some_iff.1 h
      split at h
      · rename_i e₂ rest₂ heq
        cases heq
        cases h
        have hin := orLevel_sound ih ts e _ h₁
        exact hin
      · cases h
    · cases h
      rfl
    · cases h

/-- The condition has the fields and values of the tokens, in order. -/
theorem leaves_of_parse {ts : List (Token F)} {e : Cond F} (h : parse ts = some e) :
    ts.filter Token.isLeaf = e.leaves := by
  unfold parse at h
  split at h
  · rename_i e' h'
    cases h
    simpa using orLevel_sound (factor_sound _) _ _ _ h'
  · cases h

/-! ## Conjunctions -/

/-- The tokens of a test. -/
def Clause.tokens (c : Clause F) : List (Token F) :=
  [.operand (.field c.name), .cmp .eq, .operand c.value]

/-- The tokens of a conjunction of tests. -/
def tokens : List (Clause F) → List (Token F)
  | [] => []
  | c :: cs => c.tokens ++ cs.flatMap fun c => .and :: c.tokens

theorem chain_tokens {n m : ℕ} (cs : List (Clause F)) (e : Cond F) (hn : cs.length ≤ n) :
    chain Token.isAnd .and (factor (m + 1)) n e (cs.flatMap fun c => .and :: c.tokens) =
      some ((cs.map Clause.test).foldl .and e, []) := by
  induction cs generalizing n e with
  | nil => cases n <;> rfl
  | cons c cs ih =>
    cases n with
    | zero => simp at hn
    | succ n => exact ih _ (Nat.le_of_succ_le_succ hn)

theorem parse_tokens {cs : List (Clause F)} (hcs : cs ≠ []) :
    parse (tokens cs) = some (conjunction cs) := by
  cases cs with
  | nil => exact absurd rfl hcs
  | cons c cs =>
    have hlen : cs.length ≤ (cs.flatMap fun c => Token.and :: c.tokens).length := by
      clear hcs
      induction cs with
      | nil => exact Nat.le_refl 0
      | cons c cs ih =>
        rw [List.flatMap_cons, List.length_append, List.length_cons, List.length_cons]
        omega
    have hand : andLevel (factor (tokens (c :: cs)).length) (tokens (c :: cs)) =
        some (conjunction (c :: cs), []) := chain_tokens cs c.test hlen
    unfold parse orLevel
    rw [hand]
    rfl

theorem leaves_conjunction (cs : List (Clause F)) : (conjunction cs).leaves =
    cs.flatMap fun c => [.operand (.field c.name), .operand c.value] := by
  cases cs with
  | nil => rfl
  | cons c cs =>
    have hfold : ∀ (cs : List (Clause F)) (e : Cond F),
        ((cs.map Clause.test).foldl .and e).leaves =
          e.leaves ++ cs.flatMap fun c => [.operand (.field c.name), .operand c.value] := by
      intro cs
      induction cs with
      | nil => exact fun e => (List.append_nil _).symm
      | cons c cs ih =>
        intro e
        rw [List.map_cons, List.foldl_cons, ih, List.flatMap_cons, ← List.append_assoc]
        rfl
    exact hfold cs c.test

/-! ## Tokens of a text -/

variable {L}

theorem takeWhile_append_ends {p : CodePoint → Bool} (hp : p (ch ' ') = false) {w rest : PyStr}
    (hw : w.all p = true) (hrest : Ends rest) :
    (w ++ rest).takeWhile p = w ∧ (w ++ rest).dropWhile p = rest := by
  have hall : ∀ c ∈ w, p c = true := List.all_eq_true.1 hw
  rw [List.takeWhile_append_of_pos hall, List.dropWhile_append_of_pos hall]
  rcases hrest with rfl | ⟨s, rfl⟩
  · exact ⟨List.append_nil w, rfl⟩
  · rw [List.takeWhile_cons_of_neg (by simp [hp]), List.dropWhile_cons_of_neg (by simp [hp])]
    exact ⟨List.append_nil w, rfl⟩

theorem isWordStart_iff {c : CodePoint} : isWordStart c = true ↔
    (65 ≤ c.val ∧ c.val ≤ 90) ∨ (97 ≤ c.val ∧ c.val ≤ 122) ∨ c.val = 95 := by
  simp only [isWordStart, Bool.or_eq_true, Bool.and_eq_true, decide_eq_true_eq, Fin.le_def,
    JsonText.eq_ch_iff, JsonText.ch_val, Char.reduceToNat, or_assoc]

theorem isSymbol_iff {c : CodePoint} : isSymbol c = true ↔
    c.val = 61 ∨ c.val = 60 ∨ c.val = 62 ∨ c.val = 33 ∨ c.val = 38 ∨ c.val = 124 := by
  simp only [isSymbol, decide_eq_true_eq]
  change c ∈ [ch '=', ch '<', ch '>', ch '!', ch '&', ch '|'] ↔ _
  simp only [List.mem_cons, List.not_mem_nil, or_false, JsonText.eq_ch_iff, Char.reduceToNat]

theorem quote_val (L : TextSyntax F) : L.quote.val = 34 ∨ L.quote.val = 39 := by
  have h := L.quote_mem
  simp only [List.mem_cons, List.not_mem_nil, or_false, JsonText.eq_ch_iff] at h
  exact h

theorem first_word {w rest : PyStr} (hstart : ∃ c ∈ w.head?, isWordStart c = true)
    (hw : w.all isWordChar = true) (hrest : Ends rest) :
    first L (w ++ rest) = some ((L.word w).getD (.operand (.field w)), rest) := by
  obtain ⟨htake, hdrop⟩ := takeWhile_append_ends (by decide) hw hrest
  obtain ⟨c, hmem, hc⟩ := hstart
  obtain ⟨v, rfl⟩ := List.head?_eq_some_iff.1 hmem
  have hval := isWordStart_iff.1 hc
  have hquote := quote_val L
  have hparen : c ≠ ch '(' ∧ c ≠ ch ')' := by
    simp only [ne_eq, JsonText.eq_ch_iff, Char.reduceToNat]
    omega
  rw [List.cons_append, first, if_neg (fun h => by rw [h] at hval; omega),
    if_neg hparen.1, if_neg hparen.2, if_neg ?_, if_pos hc]
  · rw [← List.cons_append, htake, hdrop]
  · simp only [Bool.or_eq_true, JsonText.isDigit_iff, decide_eq_true_eq, JsonText.eq_ch_iff,
      Char.reduceToNat]
    omega

theorem first_symbol {w rest : PyStr} {t : Token F} (hne : w ≠ []) (hw : w.all isSymbol = true)
    (ht : L.symbol w = some t) (hrest : Ends rest) : first L (w ++ rest) = some (t, rest) := by
  obtain ⟨htake, hdrop⟩ := takeWhile_append_ends (by decide) hw hrest
  obtain ⟨c, v, rfl⟩ := List.exists_cons_of_ne_nil hne
  have hc : isSymbol c = true := List.all_eq_true.1 hw c List.mem_cons_self
  have hval := isSymbol_iff.1 hc
  have hquote := quote_val L
  have hparen : c ≠ ch '(' ∧ c ≠ ch ')' := by
    simp only [ne_eq, JsonText.eq_ch_iff, Char.reduceToNat]
    omega
  rw [List.cons_append, first, if_neg (fun h => by rw [h] at hval; omega),
    if_neg hparen.1, if_neg hparen.2, if_neg ?_, if_neg ?_, if_pos hc]
  · rw [← List.cons_append, htake, hdrop, ht]
    rfl
  · rw [isWordStart_iff]
    omega
  · simp only [Bool.or_eq_true, JsonText.isDigit_iff, decide_eq_true_eq, JsonText.eq_ch_iff,
      Char.reduceToNat]
    omega

theorem first_number {w rest : PyStr} {a : Atom F}
    (hstart : ∃ c ∈ w.head?, isDigit c = true ∨ c = ch '-') (hw : w.all isNumberChar = true)
    (ha : readNumber L.floats w = some a) (hrest : Ends rest) :
    first L (w ++ rest) = some (.operand (.atom a), rest) := by
  obtain ⟨htake, hdrop⟩ := takeWhile_append_ends (by decide) hw hrest
  obtain ⟨c, hmem, hc⟩ := hstart
  obtain ⟨v, rfl⟩ := List.head?_eq_some_iff.1 hmem
  have hval : 48 ≤ c.val ∧ c.val ≤ 57 ∨ c.val = 45 := by
    rcases hc with hc | hc
    · exact .inl (JsonText.isDigit_iff.1 hc)
    · exact .inr (JsonText.eq_ch_iff.1 hc)
  have hquote := quote_val L
  have hparen : c ≠ ch '(' ∧ c ≠ ch ')' := by
    simp only [ne_eq, JsonText.eq_ch_iff, Char.reduceToNat]
    omega
  rw [List.cons_append, first, if_neg (fun h => by rw [h] at hval; omega),
    if_neg hparen.1, if_neg hparen.2, if_pos (by simpa using hc)]
  rw [← List.cons_append, htake, hdrop, ha]
  rfl

theorem first_quote (s : PyStr) : first L (L.quote :: s) =
    (L.literal s).map fun (t, rest) => (.operand (.str t), rest) := by
  rw [first, if_pos rfl]

/-! ## Reading a conjunction -/

theorem lexFrom_space (n : ℕ) (s : PyStr) : lexFrom L n (ch ' ' :: s) = lexFrom L n s := by
  have hdrop : (ch ' ' :: s).dropWhile isSpace = s.dropWhile isSpace :=
    List.dropWhile_cons_of_pos (by decide)
  cases n <;> rw [lexFrom, lexFrom, hdrop]

theorem lexFrom_zero {c : CodePoint} (hc : isSpace c = false) (s : PyStr) :
    lexFrom L 0 (c :: s) = none := by
  rw [lexFrom, List.dropWhile_cons_of_neg (by simp [hc]), if_neg (List.cons_ne_nil c s)]

theorem lexFrom_succ (n : ℕ) {c : CodePoint} (hc : isSpace c = false) (s : PyStr) :
    lexFrom L (n + 1) (c :: s) =
      (first L (c :: s)).bind fun (t, rest) => (lexFrom L n rest).map (t :: ·) := by
  rw [lexFrom, List.dropWhile_cons_of_neg (by simp [hc]), if_neg (List.cons_ne_nil c s)]

theorem lexFrom_nil (n : ℕ) : lexFrom L n [] = some [] := by
  cases n <;> rfl

/-- The text begins with no white space. -/
def Solid (s : PyStr) : Prop := ∃ c w, s = c :: w ∧ isSpace c = false

theorem solid_of_val {s : PyStr} {c : CodePoint} (hc : c ∈ s.head?)
    (hval : 33 ≤ c.val) : Solid s := by
  obtain ⟨w, rfl⟩ := List.head?_eq_some_iff.1 hc
  refine ⟨c, w, rfl, ?_⟩
  simp only [isSpace, Bool.or_eq_false_iff, decide_eq_false_iff_not, JsonText.eq_ch_iff,
    Char.reduceToNat]
  omega

theorem solid_word {w : PyStr} (h : ∃ c ∈ w.head?, isWordStart c = true) : Solid w := by
  obtain ⟨c, hc, hstart⟩ := h
  apply solid_of_val hc
  rw [isWordStart_iff] at hstart
  omega

theorem solid_symbol {w : PyStr} (hne : w ≠ []) (hw : w.all isSymbol = true) : Solid w := by
  obtain ⟨c, v, rfl⟩ := List.exists_cons_of_ne_nil hne
  have hval := isSymbol_iff.1 (List.all_eq_true.1 hw c List.mem_cons_self)
  apply solid_of_val (Option.mem_some_iff.2 rfl)
  omega

theorem Solid.append {w : PyStr} (h : Solid w) (rest : PyStr) : Solid (w ++ rest) := by
  obtain ⟨c, v, rfl, hc⟩ := h
  exact ⟨c, v ++ rest, rfl, hc⟩

/-- One token. -/
theorem lexFrom_token {s rest : PyStr} {t : Token F} (hs : Solid s)
    (hfirst : first L s = some (t, rest)) (n : ℕ) :
    lexFrom L (n + 1) s = (lexFrom L n rest).map (t :: ·) := by
  obtain ⟨c, v, rfl, hc⟩ := hs
  rw [lexFrom_succ n hc, hfirst]
  rfl

/-- The tokens before the value of a test. -/
theorem lexFrom_test {name : PyStr} (hname : IsName L name) (n : ℕ) (s : PyStr) :
    lexFrom L (n + 2) (name ++ ch ' ' :: L.equals ++ ch ' ' :: s) =
      (lexFrom L n s).map fun ts => .operand (.field name) :: .cmp .eq :: ts := by
  obtain ⟨hstart, hword, hfree⟩ := hname
  obtain ⟨hne, hall, heq⟩ := L.equals_symbol
  have hfield : first L (name ++ ch ' ' :: (L.equals ++ ch ' ' :: s)) =
      some (.operand (.field name), ch ' ' :: (L.equals ++ ch ' ' :: s)) := by
    rw [first_word hstart hword (.inr ⟨_, rfl⟩), hfree]
    rfl
  have hequals : first L (L.equals ++ ch ' ' :: s) = some (.cmp .eq, ch ' ' :: s) :=
    first_symbol hne hall heq (.inr ⟨_, rfl⟩)
  rw [List.append_assoc, List.cons_append, lexFrom_token ((solid_word hstart).append _) hfield,
    lexFrom_space, lexFrom_token ((solid_symbol hne hall).append _) hequals, lexFrom_space,
    Option.map_map]
  rfl

/-- The token between two tests. -/
theorem lexFrom_and (n : ℕ) (s : PyStr) :
    lexFrom L (n + 1) (ch ' ' :: L.conj ++ [ch ' '] ++ s) =
      (lexFrom L n s).map (.and :: ·) := by
  obtain ⟨hne, hall, hand⟩ := L.conj_word
  have hstart : ∃ c ∈ L.conj.head?, isWordStart c = true := by
    obtain ⟨c, w, hconj⟩ := List.exists_cons_of_ne_nil hne
    rw [hconj] at hall ⊢
    exact ⟨c, rfl, List.all_eq_true.1 hall c List.mem_cons_self⟩
  have hword : L.conj.all isWordChar = true := by
    rw [List.all_eq_true] at hall ⊢
    intro c hc
    rw [isWordChar, hall c hc]
    rfl
  have hfirst : first L (L.conj ++ ch ' ' :: s) = some (.and, ch ' ' :: s) := by
    rw [first_word hstart hword (.inr ⟨_, rfl⟩), hand]
    rfl
  rw [List.append_assoc, List.cons_append, lexFrom_space, List.singleton_append,
    lexFrom_token ((solid_word hstart).append _) hfirst, lexFrom_space]

/-- A token where the text of `n` tokens begins with one. -/
theorem exists_of_lexFrom {s : PyStr} (hs : Solid s) {n : ℕ} {ts : List (Token F)}
    (h : lexFrom L n s = some ts) : ∃ m t rest ts', n = m + 1 ∧ first L s = some (t, rest) ∧
      ts = t :: ts' ∧ lexFrom L m rest = some ts' := by
  obtain ⟨c, v, rfl, hc⟩ := hs
  cases n with
  | zero =>
    rw [lexFrom_zero hc] at h
    cases h
  | succ m =>
    rw [lexFrom_succ m hc] at h
    obtain ⟨⟨t, rest⟩, hfirst, h⟩ := Option.bind_eq_some_iff.1 h
    obtain ⟨ts', hts, rfl⟩ := Option.map_eq_some_iff.1 h
    exact ⟨m, t, rest, ts', rfl, hfirst, rfl, hts⟩

/-- What the text of a conjunction is after the value of its first test. -/
def renderTail (L : TextSyntax F) (cs : List (Clause F)) : PyStr :=
  if cs = [] then [] else ch ' ' :: L.conj ++ [ch ' '] ++ render L cs

theorem ends_renderTail (cs : List (Clause F)) : Ends (renderTail L cs) := by
  unfold renderTail
  split
  · exact .inl rfl
  · exact .inr ⟨_, rfl⟩

theorem render_cons (c : Clause F) (cs : List (Clause F)) : render L (c :: cs) =
    c.name ++ ch ' ' :: L.equals ++ ch ' ' :: (c.text ++ renderTail L cs) := by
  cases cs with
  | nil =>
    rw [renderTail, if_pos rfl, List.append_nil]
    rfl
  | cons d cs =>
    rw [renderTail, if_neg (List.cons_ne_nil d cs)]
    simp only [render, List.map_cons, joinWith, Clause.render, List.append_assoc, List.cons_append]

theorem exists_of_lexFrom_test {name s : PyStr} (hname : IsName L name) {n : ℕ}
    {ts : List (Token F)}
    (h : lexFrom L n (name ++ ch ' ' :: L.equals ++ ch ' ' :: s) = some ts) :
    ∃ m ts', ts = .operand (.field name) :: .cmp .eq :: ts' ∧ lexFrom L m s = some ts' := by
  have hsolid : Solid (name ++ ch ' ' :: L.equals ++ ch ' ' :: s) :=
    ((solid_word hname.1).append _).append _
  obtain ⟨m, t, rest, ts', rfl, hfirst, rfl, hts⟩ := exists_of_lexFrom hsolid h
  cases m with
  | zero =>
    have hfield : first L (name ++ ch ' ' :: (L.equals ++ ch ' ' :: s)) = _ :=
      first_word hname.1 hname.2.1 (.inr ⟨_, rfl⟩)
    rw [List.append_assoc, List.cons_append, hfield] at hfirst
    cases hfirst
    rw [lexFrom_space] at hts
    obtain ⟨hne, hall, -⟩ := L.equals_symbol
    obtain ⟨m, -, -, -, hm, -⟩ := exists_of_lexFrom ((solid_symbol hne hall).append _) hts
    cases hm
  | succ m =>
    rw [lexFrom_test hname] at h
    obtain ⟨ts'', hts'', hcons⟩ := Option.map_eq_some_iff.1 h
    exact ⟨m, ts'', hcons.symm, hts''⟩

theorem exists_of_lexFrom_and {s : PyStr} {n : ℕ} {ts : List (Token F)}
    (h : lexFrom L n (ch ' ' :: L.conj ++ [ch ' '] ++ s) = some ts) :
    ∃ m ts', ts = .and :: ts' ∧ lexFrom L m s = some ts' := by
  cases n with
  | zero =>
    obtain ⟨hne, hall, -⟩ := L.conj_word
    obtain ⟨c, w, hconj⟩ := List.exists_cons_of_ne_nil hne
    rw [hconj] at hall
    have hsolid : Solid (L.conj ++ ([ch ' '] ++ s)) := by
      rw [hconj]
      exact (solid_word ⟨c, rfl, List.all_eq_true.1 hall c List.mem_cons_self⟩).append _
    rw [List.append_assoc, List.cons_append, lexFrom_space] at h
    obtain ⟨m, -, -, -, hm, -⟩ := exists_of_lexFrom hsolid h
    cases hm
  | succ m =>
    rw [lexFrom_and] at h
    obtain ⟨ts', hts', hcons⟩ := Option.map_eq_some_iff.1 h
    exact ⟨m, ts', hcons.symm, hts'⟩

/-- A conjunction is lexed as its tokens where each value is read. -/
theorem lexFrom_render {cs : List (Clause F)} (hname : ∀ c ∈ cs, IsName L c.name)
    (hsolid : ∀ c ∈ cs, Solid c.text) (hreads : ∀ c ∈ cs, Reads L c.text c.value) {n : ℕ}
    (hn : 4 * cs.length ≤ n) : lexFrom L n (render L cs) = some (tokens cs) := by
  induction cs generalizing n with
  | nil => exact lexFrom_nil n
  | cons c cs ih =>
    obtain ⟨hcname, hname⟩ := List.forall_mem_cons.1 hname
    obtain ⟨hcsolid, hsolid⟩ := List.forall_mem_cons.1 hsolid
    obtain ⟨hcreads, hreads⟩ := List.forall_mem_cons.1 hreads
    rw [List.length_cons] at hn
    obtain ⟨m, rfl⟩ : ∃ m, n = m + 4 := ⟨n - 4, by omega⟩
    rw [render_cons, lexFrom_test hcname,
      lexFrom_token (hcsolid.append _) (hcreads _ (ends_renderTail cs))]
    cases cs with
    | nil =>
      rw [renderTail, if_pos rfl, lexFrom_nil]
      rfl
    | cons d cs =>
      rw [renderTail, if_neg (List.cons_ne_nil d cs), lexFrom_and,
        ih hname hsolid hreads (by omega)]
      rfl

/-- Where the tokens have the fields and values of the conjunction, each value is read. -/
theorem reads_of_lexFrom {cs : List (Clause F)} (hname : ∀ c ∈ cs, IsName L c.name)
    (hsolid : ∀ c ∈ cs, Solid c.text)
    (hvalue : ∀ c ∈ cs, Reads L c.text c.value ∨ Misreads L c.text c.value) {n : ℕ}
    {ts : List (Token F)} (h : lexFrom L n (render L cs) = some ts)
    (hleaves : ts.filter Token.isLeaf = (conjunction cs).leaves) :
    ∀ c ∈ cs, Reads L c.text c.value := by
  rw [leaves_conjunction] at hleaves
  induction cs generalizing n ts with
  | nil => exact fun _ h => nomatch h
  | cons c cs ih =>
    obtain ⟨hcname, hname⟩ := List.forall_mem_cons.1 hname
    obtain ⟨hcsolid, hsolid⟩ := List.forall_mem_cons.1 hsolid
    obtain ⟨hcvalue, hvalue⟩ := List.forall_mem_cons.1 hvalue
    rw [render_cons] at h
    obtain ⟨m, ts₁, rfl, h₁⟩ := exists_of_lexFrom_test hcname h
    obtain ⟨k, t, rest, ts₂, rfl, hfirst, rfl, h₂⟩ := exists_of_lexFrom (hcsolid.append _) h₁
    rcases hcvalue with hreads | hmisreads
    · rw [hreads _ (ends_renderTail cs)] at hfirst
      cases hfirst
      have hrest : ts₂.filter Token.isLeaf =
          cs.flatMap fun c => [.operand (.field c.name), .operand c.value] :=
        (List.cons.inj (List.cons.inj hleaves).2).2
      refine List.forall_mem_cons.2 ⟨hreads, ?_⟩
      cases cs with
      | nil => exact fun _ h => nomatch h
      | cons d cs =>
        rw [renderTail, if_neg (List.cons_ne_nil d cs)] at h₂
        obtain ⟨j, ts₃, rfl, h₃⟩ := exists_of_lexFrom_and h₂
        exact ih hname hsolid hvalue h₃ hrest
    · obtain ⟨hleaf, hne⟩ := hmisreads _ (ends_renderTail cs) t rest hfirst
      have hcons := (List.cons.inj hleaves).2
      rw [List.filter_cons_of_neg (by exact Bool.false_ne_true), List.filter_cons_of_pos hleaf]
        at hcons
      exact absurd (List.cons.inj hcons).1 hne

theorem length_render (cs : List (Clause F)) (hname : ∀ c ∈ cs, IsName L c.name)
    (hsolid : ∀ c ∈ cs, Solid c.text) : 4 * cs.length ≤ (render L cs).length := by
  induction cs with
  | nil => exact Nat.le_refl 0
  | cons c cs ih =>
    obtain ⟨hcname, hname⟩ := List.forall_mem_cons.1 hname
    obtain ⟨hcsolid, hsolid⟩ := List.forall_mem_cons.1 hsolid
    obtain ⟨d, w, hw, -⟩ := solid_word hcname.1
    obtain ⟨e, v, hv, -⟩ := hcsolid
    have htail : (render L cs).length ≤ (renderTail L cs).length := by
      unfold renderTail
      split
      · rename_i hnil
        rw [hnil]
        exact Nat.le_refl 0
      · rw [List.length_append]
        exact Nat.le_add_left _ _
    have hih := ih hname hsolid
    rw [render_cons, hw, hv]
    simp only [List.length_append, List.length_cons]
    omega

/-- **A conjunction of tests is read as that conjunction exactly if each value's text is read as the
value.** -/
theorem read_render_iff {cs : List (Clause F)} (hname : ∀ c ∈ cs, IsName L c.name)
    (hsolid : ∀ c ∈ cs, Solid c.text)
    (hvalue : ∀ c ∈ cs, Reads L c.text c.value ∨ Misreads L c.text c.value) :
    read L (render L cs) = some (conjunction cs) ↔ ∀ c ∈ cs, Reads L c.text c.value := by
  have hlen := length_render cs hname hsolid
  cases cs with
  | nil => exact iff_of_true rfl fun _ h => nomatch h
  | cons c cs =>
    have hne : render L (c :: cs) ≠ [] := by
      intro h
      rw [h] at hlen
      simp at hlen
    rw [read, if_neg hne]
    constructor
    · intro h
      obtain ⟨ts, hts, hparse⟩ := Option.bind_eq_some_iff.1 h
      exact reads_of_lexFrom hname hsolid hvalue hts (leaves_of_parse hparse)
    · intro hreads
      rw [lexFrom_render hname hsolid hreads hlen]
      exact parse_tokens (List.cons_ne_nil c cs)

end FilterText

end RagLeap
