import RagLeap.Foundations.FilterText
import RagLeap.Foundations.StringLiteral

/-!
# Metadata filters

The filter expressions of the Milvus, Upstash and LanceDB backends and the tag clause of the Redis
backend, with what each target reads in them: Milvus strings stand in double quotes and have escapes,
SQL strings in single quotes that are doubled inside, and the tags of Redis are words with escaped
punctuation. `filters_mean_equality_iff` says which values are read back as what they are.
-/

namespace RagLeap.Rag.Filters

open FilterText StringLiteral
open JsonText (Atom Flt Floats intText isDigit isNumberChar readNumber)

variable {F : Type}

/-- A text of the code. -/
def str (s : String) : PyStr := text s.toList

/-! ## Filters -/

/-- A value of a filter. -/
inductive Scalar (F : Type)
  | str (s : PyStr)
  | bool (b : Bool)
  | int (n : ℤ)
  | float (x : Flt F)

/-- `str(value)` of a float. -/
def floatStr (fl : Floats F) : Flt F → PyStr
  | .finite x => fl.repr x
  | .infinity false => str "inf"
  | .infinity true => str "-inf"
  | .nan => str "nan"

/-- `str(value)`. -/
def pyStr (fl : Floats F) : Scalar F → PyStr
  | .str s => s
  | .bool true => str "True"
  | .bool false => str "False"
  | .int n => intText n
  | .float x => floatStr fl x

/-- The value that a test compares with. -/
def Scalar.operand : Scalar F → Operand F
  | str s => .str s
  | bool b => .atom (.bool b)
  | int n => .atom (.int n)
  | float x => .atom (.float x)

/-- The value is no infinity and not NaN. -/
def Scalar.Finite : Scalar F → Prop
  | float x => ∃ y, x = .finite y
  | _ => True

def lower (w : PyStr) : PyStr :=
  w.map fun c => if ch 'A' ≤ c ∧ c ≤ ch 'Z' then point (c.val + 32) else c

def KEYWORDS : List PyStr := ["and", "or", "not", "true", "false"].map str

/-- What is taken from outside: Python's floats, the escapes of Milvus, and the words that a target
reserves beside the keywords. -/
structure Targets (F : Type) where
  floats : Floats F
  escapes : Escapes (ch '"')
  reserved : PyStr → Bool

variable (tg : Targets F)

/-- A plain field name. -/
def IsField (w : PyStr) : Prop :=
  (∃ c ∈ w.head?, isWordStart c = true) ∧ w.all isWordChar = true ∧ lower w ∉ KEYWORDS ∧
    tg.reserved w = false

/-- A `metadata_filter` whose keys are plain field names. -/
structure MetadataFilter where
  items : List (PyStr × Scalar F)
  distinct : (items.map Prod.fst).Nodup
  plain : ∀ e ∈ items, IsField tg e.1

/-- The conjunction of `key = value` tests for the items. -/
def equalities (items : List (PyStr × Scalar F)) : Cond F :=
  conjoin (items.map fun e => .test .eq (.field e.1) e.2.operand)

/-! ## The backends -/

namespace Milvus

variable (fl : Floats F)

def valueRepr (v : Scalar F) : PyStr :=
  match v with
  | .str s => ch '"' :: s ++ [ch '"']
  | v => pyStr fl v

/-- `_build_filter_expr`. -/
def buildFilterExpr (items : List (PyStr × Scalar F)) : PyStr :=
  if items = [] then []
  else joinWith (str " and ") (items.map fun (k, v) => k ++ str " == " ++ valueRepr fl v)

end Milvus

/-- A value in SQL: the common body of `_escape_filter_value` and `_quote_sql_literal`. -/
def sqlLiteral (fl : Floats F) (v : Scalar F) : PyStr :=
  match v with
  | .bool b => if b then str "true" else str "false"
  | .int n => pyStr fl (.int n)
  | .float x => pyStr fl (.float x)
  | .str s => ch '\'' :: double (ch '\'') s ++ [ch '\'']

/-- `" AND ".join(clauses)`. -/
def sqlClauses (fl : Floats F) (items : List (PyStr × Scalar F)) : PyStr :=
  joinWith (str " AND ") (items.map fun (k, v) => k ++ str " = " ++ sqlLiteral fl v)

/-- `UpstashBackend._build_filter`. -/
def Upstash.buildFilter (fl : Floats F) (items : List (PyStr × Scalar F)) : PyStr :=
  if items = [] then [] else sqlClauses fl items

/-- `LanceDBBackend._build_where`. -/
def LanceDB.buildWhere (fl : Floats F) (items : List (PyStr × Scalar F)) : Option PyStr :=
  if items = [] then none else some (sqlClauses fl items)

namespace Redis

/-- `_TAG_SPECIAL_CHARS`. -/
def TAG_SPECIAL_CHARS : PyStr := str ",.<>\x7b\x7d[]\"\\':;!@#$%^&*()-+=~| "

/-- `_escape_tag`. -/
def escapeTag (value : PyStr) : PyStr :=
  value.flatMap fun c => if c ∈ TAG_SPECIAL_CHARS then [ch '\\', c] else [c]

/-- The clause of a search for a `document_id`. -/
def tagClause (fl : Floats F) (documentId : Scalar F) : PyStr :=
  str "(@document_id:\x7b" ++ escapeTag (pyStr fl documentId) ++ str "\x7d)"

end Redis

/-! ## What the targets read -/

def wordIn (w : PyStr) (words : List String) : Bool := w ∈ words.map str

/-- The words of Milvus expressions. -/
def milvusWord (w : PyStr) : Option (Token F) :=
  if wordIn w ["and", "AND"] then some .and
  else if wordIn w ["or", "OR"] then some .or
  else if wordIn w ["not", "NOT"] then some .not
  else if wordIn w ["true", "True", "TRUE"] then some (.operand (.atom (.bool true)))
  else if wordIn w ["false", "False", "FALSE"] then some (.operand (.atom (.bool false)))
  else if tg.reserved w then some .reserved
  else none

def milvusSymbol (w : PyStr) : Option (Token F) :=
  [(str "==", .cmp .eq), (str "!=", .cmp .ne), (str "<", .cmp .lt), (str "<=", .cmp .le),
    (str ">", .cmp .gt), (str ">=", .cmp .ge), (str "&&", .and), (str "||", .or),
    (str "!", .not)].lookup w

/-- The words of SQL, in any case. -/
def sqlWord (w : PyStr) : Option (Token F) :=
  if wordIn (lower w) ["and"] then some .and
  else if wordIn (lower w) ["or"] then some .or
  else if wordIn (lower w) ["not"] then some .not
  else if wordIn (lower w) ["true"] then some (.operand (.atom (.bool true)))
  else if wordIn (lower w) ["false"] then some (.operand (.atom (.bool false)))
  else if tg.reserved w then some .reserved
  else none

def sqlSymbol (w : PyStr) : Option (Token F) :=
  [(str "=", .cmp .eq), (str "!=", .cmp .ne), (str "<>", .cmp .ne), (str "<", .cmp .lt),
    (str "<=", .cmp .le), (str ">", .cmp .gt), (str ">=", .cmp .ge)].lookup w

def Targets.milvus : TextSyntax F where
  floats := tg.floats
  quote := ch '"'
  literal s := quoted tg.escapes s.length s
  word := milvusWord tg
  symbol := milvusSymbol
  equals := str "=="
  conj := str "and"
  quote_mem := List.mem_cons_self
  equals_symbol := ⟨by decide, by decide, rfl⟩
  conj_word := ⟨by decide, by decide, rfl⟩

def Targets.sql : TextSyntax F where
  floats := tg.floats
  quote := ch '\''
  literal := doubled (ch '\'')
  word := sqlWord tg
  symbol := sqlSymbol
  equals := str "="
  conj := str "AND"
  quote_mem := List.mem_cons_of_mem _ List.mem_cons_self
  equals_symbol := ⟨by decide, by decide, rfl⟩
  conj_word := ⟨by decide, by decide, rfl⟩

/-- A search with no `where` has no condition. -/
def readWhere (L : TextSyntax F) : Option PyStr → Option (Cond F)
  | none => some .all
  | some s => read L s

/-- White space and control characters, which separate the words of a tag. -/
def separates (c : CodePoint) : Bool := c.val ≤ 0x20 || c.val = 0x7F

/-- ASCII punctuation but `_`, which has a meaning or is an error unless it is escaped. -/
def isPunct (c : CodePoint) : Bool :=
  (0x21 ≤ c.val && c.val ≤ 0x2F) || (0x3A ≤ c.val && c.val ≤ 0x40)
    || (0x5B ≤ c.val && c.val ≤ 0x60 && c.val ≠ 0x5F) || (0x7B ≤ c.val && c.val ≤ 0x7E)

/-- The words of a tag are joined by single spaces. -/
def addChar (tag : PyStr) (gap : Bool) (c : CodePoint) : PyStr :=
  tag ++ (if gap then [ch ' ', c] else [c])

/-- The tags up to the closing brace, and what follows it. -/
def readTags : PyStr → Bool → PyStr → Option (List PyStr × PyStr)
  | _, _, [] => none
  | tag, gap, c :: s =>
    if c = ch '\x7d' then if tag = [] then none else some ([tag], s)
    else if c = ch '|' then
      if tag = [] then none
      else (readTags [] false s).map fun (tags, rest) => (tag :: tags, rest)
    else if c = ch '\\' then
      match s with
      | [] => none
      | d :: s =>
        if separates d || isPunct d then readTags (addChar tag gap d) false s else none
    else if separates c then readTags tag (gap || tag ≠ []) s
    else if isPunct c then none
    else readTags (addChar tag gap c) false s

/-- The field of a clause of tags, and the tags of which it takes any. -/
def readTagClause (s : PyStr) : Option (PyStr × List PyStr) :=
  if (str "(@").isPrefixOf s then
    let name := (s.drop 2).takeWhile isWordChar
    let rest := (s.drop 2).dropWhile isWordChar
    if (str ":\x7b").isPrefixOf rest then
      match readTags [] false (rest.drop 2) with
      | some (tags, rest) => if rest = str ")" then some (name, tags) else none
      | none => none
    else none
  else none

/-! ## Values -/

section Values

variable {L : TextSyntax F}

theorem reads_number {w : PyStr} {a : Atom F} (hstart : ∃ c ∈ w.head?, isDigit c = true ∨ c = ch '-')
    (hw : w.all isNumberChar = true) (ha : readNumber L.floats w = some a) :
    Reads L w (.atom a) :=
  fun _ hrest => first_number hstart hw ha hrest

theorem head_intText (n : ℤ) : ∃ c ∈ (intText n).head?, isDigit c = true ∨ c = ch '-' := by
  unfold JsonText.intText
  split
  · exact ⟨ch '-', rfl, .inr rfl⟩
  · obtain ⟨c, w, h⟩ := List.exists_cons_of_ne_nil (JsonText.natText_ne_nil n.natAbs)
    have hdigit := JsonText.isDigit_natText n.natAbs c (h ▸ List.mem_cons_self)
    rw [h]
    exact ⟨c, rfl, .inl hdigit⟩

theorem head_repr (fl : Floats F) (x : F) :
    ∃ c ∈ (fl.repr x).head?, isDigit c = true ∨ c = ch '-' := by
  have hfloat := fl.isFloatText_repr x
  simp only [JsonText.isFloatText, Bool.and_eq_true] at hfloat
  have hne : JsonText.whole (fl.repr x) ≠ [] := by
    intro h
    have hwhole := hfloat.1.1
    rw [h] at hwhole
    exact absurd hwhole (by decide)
  cases hw : fl.repr x with
  | nil =>
    rw [hw] at hne
    exact absurd rfl hne
  | cons c w =>
    refine ⟨c, rfl, ?_⟩
    by_cases hc : c = ch '-'
    · exact .inr hc
    · left
      rw [hw, JsonText.whole, JsonText.unsigned, if_neg hc] at hne
      by_contra hdigit
      exact hne (List.takeWhile_cons_of_neg hdigit)

theorem reads_int (n : ℤ) : Reads L (intText n) (.atom (.int n)) :=
  reads_number (head_intText n) (List.all_eq_true.2 (JsonText.isNumberChar_intText n))
    (JsonText.readNumber_intText L.floats n)

theorem reads_repr (x : F) : Reads L (L.floats.repr x) (.atom (.float (.finite x))) :=
  reads_number (head_repr L.floats x) (L.floats.all_repr x)
    (JsonText.readNumber_repr L.floats x)

/-- A word that is no value. -/
theorem misreads_word {w : PyStr} (hstart : ∃ c ∈ w.head?, isWordStart c = true)
    (hw : w.all isWordChar = true) (hword : L.word w = none ∨ L.word w = some .reserved)
    {a : Atom F} : Misreads L w (.atom a) := by
  intro rest hrest t rest' h
  rw [first_word hstart hw hrest] at h
  rcases hword with hword | hword
  · rw [hword] at h
    cases h
    exact ⟨rfl, nofun⟩
  · rw [hword] at h
    cases h
    exact ⟨rfl, nofun⟩

theorem word_or_reserved (b : Bool) :
    (if b then some Token.reserved else none : Option (Token F)) = none ∨
      (if b then some Token.reserved else none : Option (Token F)) = some .reserved := by
  cases b
  · exact .inl rfl
  · exact .inr rfl

/-- A minus that no digit follows. -/
theorem misreads_minus {w : PyStr} {c : CodePoint} (hc : isNumberChar c = false) {a : Operand F} :
    Misreads L (ch '-' :: c :: w) a := by
  intro rest _ t rest' h
  have hquote : ch '-' ≠ L.quote := by
    intro h
    have hval := quote_val L
    rw [← h] at hval
    exact absurd hval (by decide)
  have htake : (ch '-' :: c :: (w ++ rest)).takeWhile isNumberChar = [ch '-'] := by
    rw [List.takeWhile_cons_of_pos (by decide), List.takeWhile_cons_of_neg (by simp [hc])]
  rw [List.cons_append, List.cons_append, first, if_neg hquote, if_neg (by decide),
    if_neg (by decide), if_pos (by decide), htake] at h
  cases h

end Values

theorem milvus_reads {v : Scalar F} (hfinite : v.Finite)
    (hplain : ∀ s, v = .str s → Plain (ch '"') s) :
    Reads tg.milvus (Milvus.valueRepr tg.floats v) v.operand := by
  cases v with
  | str s =>
    intro rest hrest
    change first tg.milvus (tg.milvus.quote :: (s ++ [ch '"']) ++ rest) = _
    rw [List.cons_append, first_quote, List.append_assoc]
    change (quoted tg.escapes _ (s ++ ch '"' :: rest)).map _ = _
    rw [quoted_of_plain (hplain s rfl) (by simp) rest]
    rfl
  | bool b =>
    intro rest hrest
    cases b with
    | true => exact first_word (w := str "True") ⟨_, rfl, by decide⟩ (by decide) hrest
    | false => exact first_word (w := str "False") ⟨_, rfl, by decide⟩ (by decide) hrest
  | int n => exact reads_int n
  | float x =>
    obtain ⟨y, rfl⟩ := hfinite
    exact reads_repr y

theorem milvus_misreads {v : Scalar F}
    (h : ¬ (v.Finite ∧ ∀ s, v = .str s → Plain (ch '"') s)) :
    Misreads tg.milvus (Milvus.valueRepr tg.floats v) v.operand := by
  cases v with
  | str s =>
    intro rest _ t rest' hfirst
    change first tg.milvus (tg.milvus.quote :: (s ++ [ch '"']) ++ rest) = _ at hfirst
    rw [List.cons_append, first_quote, List.append_assoc] at hfirst
    obtain ⟨⟨u, r⟩, hliteral, heq⟩ := Option.map_eq_some_iff.1 hfirst
    cases heq
    refine ⟨rfl, fun hu => h ⟨trivial, ?_⟩⟩
    cases hu
    intro s' hs'
    cases hs'
    exact (quoted_eq_iff (by decide) (by simp)).1 ⟨rest', hliteral⟩
  | bool b => exact absurd ⟨trivial, nofun⟩ h
  | int n => exact absurd ⟨trivial, nofun⟩ h
  | float x =>
    cases x with
    | finite y => exact absurd ⟨⟨y, rfl⟩, nofun⟩ h
    | infinity negative =>
      cases negative with
      | true => exact misreads_minus (by decide)
      | false =>
        exact misreads_word (w := str "inf") ⟨_, rfl, by decide⟩ (by decide)
          (word_or_reserved (tg.reserved (str "inf")))
    | nan =>
      exact misreads_word (w := str "nan") ⟨_, rfl, by decide⟩ (by decide)
        (word_or_reserved (tg.reserved (str "nan")))

theorem sql_reads {v : Scalar F} (hfinite : v.Finite) :
    Reads tg.sql (sqlLiteral tg.floats v) v.operand := by
  cases v with
  | str s =>
    intro rest hrest
    have hclose : rest.head? ≠ some (ch '\'') := by
      rcases hrest with rfl | ⟨s, rfl⟩
      · exact nofun
      · exact fun h => absurd (Option.some.inj h) (by decide)
    change first tg.sql (tg.sql.quote :: (double (ch '\'') s ++ [ch '\'']) ++ rest) = _
    rw [List.cons_append, first_quote, List.append_assoc]
    change (doubled (ch '\'') (double (ch '\'') s ++ ch '\'' :: rest)).map _ = _
    rw [doubled_double s hclose]
    rfl
  | bool b =>
    intro rest hrest
    cases b with
    | true => exact first_word (w := str "true") ⟨_, rfl, by decide⟩ (by decide) hrest
    | false => exact first_word (w := str "false") ⟨_, rfl, by decide⟩ (by decide) hrest
  | int n => exact reads_int n
  | float x =>
    obtain ⟨y, rfl⟩ := hfinite
    exact reads_repr y

theorem sql_misreads {v : Scalar F} (h : ¬ v.Finite) :
    Misreads tg.sql (sqlLiteral tg.floats v) v.operand := by
  cases v with
  | str s => exact absurd trivial h
  | bool b => exact absurd trivial h
  | int n => exact absurd trivial h
  | float x =>
    cases x with
    | finite y => exact absurd ⟨y, rfl⟩ h
    | infinity negative =>
      cases negative with
      | true => exact misreads_minus (by decide)
      | false =>
        exact misreads_word (w := str "inf") ⟨_, rfl, by decide⟩ (by decide)
          (word_or_reserved (tg.reserved (str "inf")))
    | nan =>
      exact misreads_word (w := str "nan") ⟨_, rfl, by decide⟩ (by decide)
        (word_or_reserved (tg.reserved (str "nan")))

/-! ## Expressions -/

/-- A filter's items with the texts of their values. -/
def clauses (valueText : Scalar F → PyStr) (items : List (PyStr × Scalar F)) : List (Clause F) :=
  items.map fun e => ⟨e.1, valueText e.2, e.2.operand⟩

theorem conjunction_clauses (valueText : Scalar F → PyStr) (items : List (PyStr × Scalar F)) :
    conjunction (clauses valueText items) = equalities items := by
  rw [conjunction, clauses, List.map_map]
  rfl

theorem milvus_render (fl : Floats F) (items : List (PyStr × Scalar F)) :
    Milvus.buildFilterExpr fl items = render tg.milvus (clauses (Milvus.valueRepr fl) items) := by
  unfold Milvus.buildFilterExpr
  split
  · rename_i hnil
    rw [hnil]
    rfl
  · rw [render, clauses, List.map_map]
    congr 1
    apply List.map_congr_left
    intro e _
    exact (List.append_assoc _ _ _).trans
      (List.append_assoc e.1 (ch ' ' :: str "==") (ch ' ' :: _)).symm

theorem sql_render (fl : Floats F) (items : List (PyStr × Scalar F)) :
    sqlClauses fl items = render tg.sql (clauses (sqlLiteral fl) items) := by
  rw [sqlClauses, render, clauses, List.map_map]
  congr 1
  apply List.map_congr_left
  intro e _
  exact (List.append_assoc _ _ _).trans
    (List.append_assoc e.1 (ch ' ' :: str "=") (ch ' ' :: _)).symm

variable {tg}

/-- A plain field name is no word of a target. -/
theorem isName_milvus {w : PyStr} (h : IsField tg w) : IsName tg.milvus w := by
  obtain ⟨hstart, hall, hkeyword, hreserved⟩ := h
  have hnot : ∀ words : List String, (∀ x ∈ words.map str, lower x ∈ KEYWORDS) →
      wordIn w words = false := by
    intro words hwords
    rw [wordIn, decide_eq_false_iff_not]
    exact fun hw => hkeyword (hwords w hw)
  refine ⟨hstart, hall, ?_⟩
  change milvusWord tg w = none
  rw [milvusWord, hnot _ (by decide), hnot _ (by decide), hnot _ (by decide), hnot _ (by decide),
    hnot _ (by decide), hreserved]
  rfl

theorem isName_sql {w : PyStr} (h : IsField tg w) : IsName tg.sql w := by
  obtain ⟨hstart, hall, hkeyword, hreserved⟩ := h
  have hnot : ∀ word : String, str word ∈ KEYWORDS → wordIn (lower w) [word] = false := by
    intro word hword
    rw [wordIn, decide_eq_false_iff_not]
    exact fun hw => hkeyword (List.mem_singleton.1 hw ▸ hword)
  refine ⟨hstart, hall, ?_⟩
  change sqlWord tg w = none
  rw [sqlWord, hnot _ (by decide), hnot _ (by decide), hnot _ (by decide), hnot _ (by decide),
    hnot _ (by decide), hreserved]
  rfl

theorem solid_pyStr {v : Scalar F} (hv : ∀ s, v ≠ .str s) (fl : Floats F) : Solid (pyStr fl v) := by
  have hnumber : ∀ w : PyStr, (∃ c ∈ w.head?, isDigit c = true ∨ c = ch '-') → Solid w := by
    rintro w ⟨c, hc, hval⟩
    apply solid_of_val hc
    rcases hval with hval | rfl
    · exact le_trans (by decide) (JsonText.isDigit_iff.1 hval).1
    · decide
  cases v with
  | str s => exact absurd rfl (hv s)
  | bool b => cases b <;> exact ⟨_, _, rfl, by decide⟩
  | int n => exact hnumber _ (head_intText n)
  | float x =>
    cases x with
    | finite y => exact hnumber _ (head_repr fl y)
    | infinity negative => cases negative <;> exact ⟨_, _, rfl, by decide⟩
    | nan => exact ⟨_, _, rfl, by decide⟩

theorem solid_valueRepr (fl : Floats F) (v : Scalar F) : Solid (Milvus.valueRepr fl v) := by
  cases v with
  | str s => exact ⟨ch '"', _, rfl, by decide⟩
  | bool b => exact solid_pyStr (v := .bool b) (fun _ h => nomatch h) fl
  | int n => exact solid_pyStr (v := .int n) (fun _ h => nomatch h) fl
  | float x => exact solid_pyStr (v := .float x) (fun _ h => nomatch h) fl

theorem solid_sqlLiteral (fl : Floats F) (v : Scalar F) : Solid (sqlLiteral fl v) := by
  cases v with
  | str s => exact ⟨ch '\'', _, rfl, by decide⟩
  | bool b => cases b <;> exact ⟨_, _, rfl, by decide⟩
  | int n => exact solid_pyStr (v := .int n) (fun _ h => nomatch h) fl
  | float x => exact solid_pyStr (v := .float x) (fun _ h => nomatch h) fl

/-- An expression is read as the filter exactly if every value is written so that it is read back. -/
theorem read_clauses_iff {L : TextSyntax F} {valueText : Scalar F → PyStr} {P : Scalar F → Prop}
    {items : List (PyStr × Scalar F)} (hname : ∀ e ∈ items, IsName L e.1)
    (hsolid : ∀ v, Solid (valueText v)) (hreads : ∀ v, P v → Reads L (valueText v) v.operand)
    (hmisreads : ∀ v, ¬ P v → Misreads L (valueText v) v.operand) :
    read L (render L (clauses valueText items)) = some (equalities items) ↔ ∀ e ∈ items, P e.2 := by
  have hexcl : ∀ v, Reads L (valueText v) v.operand ↔ P v := by
    refine fun v => ⟨fun h => ?_, hreads v⟩
    by_contra hP
    exact (hmisreads v hP [] (.inl rfl) _ _ (h [] (.inl rfl))).2 rfl
  rw [← conjunction_clauses valueText, read_render_iff]
  · simp only [clauses, List.forall_mem_map, hexcl]
  · simpa only [clauses, List.forall_mem_map] using hname
  · simpa only [clauses, List.forall_mem_map] using fun (e : PyStr × Scalar F) (_ : e ∈ items) => hsolid e.2
  · simp only [clauses, List.forall_mem_map]
    intro e _
    by_cases hP : P e.2
    · exact .inl (hreads e.2 hP)
    · exact .inr (hmisreads e.2 hP)

/-! ## The tag clause -/

/-- The character is no syntax of a tag, or is escaped. -/
def Escaped (c : CodePoint) : Prop :=
  separates c = true ∨ isPunct c = true → c ∈ Redis.TAG_SPECIAL_CHARS

theorem mem_special {c : CodePoint} (hc : c ∈ Redis.TAG_SPECIAL_CHARS) :
    (separates c || isPunct c) = true := by
  have hall : (Redis.TAG_SPECIAL_CHARS.all fun c => separates c || isPunct c) = true := by
    decide
  exact List.all_eq_true.1 hall c hc

theorem escapeTag_cons (c : CodePoint) (v : PyStr) : Redis.escapeTag (c :: v) =
    (if c ∈ Redis.TAG_SPECIAL_CHARS then [ch '\\', c] else [c]) ++ Redis.escapeTag v := rfl

/-- A character that `_escape_tag` leaves alone is no brace, bar or backslash. -/
theorem ne_of_not_mem {c : CodePoint} (hc : c ∉ Redis.TAG_SPECIAL_CHARS) :
    c ≠ ch '\x7d' ∧ c ≠ ch '|' ∧ c ≠ ch '\\' := by
  refine ⟨?_, ?_, ?_⟩
  all_goals
    rintro rfl
    exact hc (by decide)

theorem readTags_close (tag : PyStr) (gap : Bool) (s : PyStr) :
    readTags tag gap (ch '\x7d' :: s) = if tag = [] then none else some ([tag], s) := by
  rw [readTags.eq_def]
  exact if_pos rfl

/-- A character that is no brace, bar or backslash. -/
theorem readTags_char (tag : PyStr) (gap : Bool) {c : CodePoint}
    (hc : c ≠ ch '\x7d' ∧ c ≠ ch '|' ∧ c ≠ ch '\\') (s : PyStr) :
    readTags tag gap (c :: s) =
      if separates c then readTags tag (gap || tag ≠ []) s
      else if isPunct c then none
      else readTags (addChar tag gap c) false s := by
  rw [readTags.eq_def]
  exact (if_neg hc.1).trans ((if_neg hc.2.1).trans (if_neg hc.2.2))

theorem readTags_escaped (tag : PyStr) (gap : Bool) {c : CodePoint}
    (hc : c ∈ Redis.TAG_SPECIAL_CHARS) (s : PyStr) :
    readTags tag gap (ch '\\' :: c :: s) = readTags (addChar tag gap c) false s := by
  rw [readTags.eq_def]
  exact (if_neg (by decide)).trans ((if_neg (by decide)).trans ((if_pos rfl).trans
    (if_pos (mem_special hc))))

/-- A value whose syntax is escaped is read as one tag. -/
theorem readTags_escapeTag (tag : PyStr) {v rest : PyStr} (hv : ∀ c ∈ v, Escaped c) (hne : tag ++ v ≠ []) :
    readTags tag false (Redis.escapeTag v ++ ch '\x7d' :: rest) = some ([tag ++ v], rest) := by
  induction v generalizing tag with
  | nil =>
    rw [List.append_nil] at hne
    change readTags tag false (ch '\x7d' :: rest) = _
    rw [readTags_close, if_neg hne, List.append_nil]
  | cons c v ih =>
    obtain ⟨hc, hv⟩ := List.forall_mem_cons.1 hv
    have hstep : readTags (tag ++ [c]) false (Redis.escapeTag v ++ ch '\x7d' :: rest) =
        some ([tag ++ c :: v], rest) := by
      rw [ih (tag ++ [c]) hv (by simp), List.append_assoc]
      rfl
    rw [escapeTag_cons]
    by_cases hspecial : c ∈ Redis.TAG_SPECIAL_CHARS
    · rw [if_pos hspecial]
      exact (readTags_escaped tag false hspecial _).trans hstep
    · have hseparates : ¬ separates c = true := fun h => hspecial (hc (.inl h))
      have hpunct : ¬ isPunct c = true := fun h => hspecial (hc (.inr h))
      rw [if_neg hspecial, List.cons_append, List.nil_append, List.cons_append,
        readTags_char _ _ (ne_of_not_mem hspecial), if_neg hseparates, if_neg hpunct]
      exact hstep

/-- Every character of a tag that is read from an escaped value is escaped, or was there before. -/
theorem escaped_of_readTags {tag v rest rest' : PyStr} {gap : Bool} {tags : List PyStr}
    (h : readTags tag gap (Redis.escapeTag v ++ ch '\x7d' :: rest) = some (tags, rest')) :
    ∀ t ∈ tags, ∀ d ∈ t, d ∈ tag ∨ Escaped d := by
  induction v generalizing tag gap with
  | nil =>
    change readTags tag gap (ch '\x7d' :: rest) = _ at h
    rw [readTags_close] at h
    split at h
    · cases h
    · cases h
      intro t ht d hd
      rw [List.mem_singleton] at ht
      exact .inl (ht ▸ hd)
  | cons c v ih =>
    have hadd : ∀ {d}, Escaped c → d ∈ addChar tag gap c → d ∈ tag ∨ Escaped d := by
      intro d hc hd
      rcases List.mem_append.1 hd with hd | hd
      · exact .inl hd
      · right
        cases gap with
        | true =>
          rcases List.mem_cons.1 hd with rfl | hd
          · exact fun _ => by decide
          · exact List.mem_singleton.1 hd ▸ hc
        | false => exact List.mem_singleton.1 hd ▸ hc
    rw [escapeTag_cons] at h
    by_cases hspecial : c ∈ Redis.TAG_SPECIAL_CHARS
    · rw [if_pos hspecial] at h
      have h' := (readTags_escaped tag gap hspecial _).symm.trans h
      intro t ht d hd
      rcases ih h' t ht d hd with hd | hd
      · exact hadd (fun _ => hspecial) hd
      · exact .inr hd
    · rw [if_neg hspecial, List.cons_append, List.nil_append, List.cons_append,
        readTags_char _ _ (ne_of_not_mem hspecial)] at h
      split at h
      · exact ih h
      · rename_i hseparates
        split at h
        · cases h
        · rename_i hpunct
          intro t ht d hd
          rcases ih h t ht d hd with hd | hd
          · apply hadd _ hd
            rintro (hc | hc)
            · exact absurd hc hseparates
            · exact absurd hc hpunct
          · exact .inr hd

theorem readTagClause_eq (fl : Floats F) (v : Scalar F) : readTagClause (Redis.tagClause fl v) =
    match readTags [] false (Redis.escapeTag (pyStr fl v) ++ ch '\x7d' :: str ")") with
    | some (tags, rest) => if rest = str ")" then some (str "document_id", tags) else none
    | none => none := rfl

/-- The tag clause is read as the test of the value exactly if the value is not empty and what is
syntax in it is escaped. -/
theorem readTagClause_iff (fl : Floats F) (v : Scalar F) :
    readTagClause (Redis.tagClause fl v) = some (str "document_id", [pyStr fl v]) ↔
      pyStr fl v ≠ [] ∧ ∀ c ∈ pyStr fl v, Escaped c := by
  rw [readTagClause_eq]
  constructor
  · intro h
    split at h
    · rename_i tags rest hread
      split at h
      · obtain rfl : tags = [pyStr fl v] := congrArg Prod.snd (Option.some.inj h)
        refine ⟨fun hnil => ?_, fun c hc => ?_⟩
        · rw [hnil] at hread
          cases hread
        · rcases escaped_of_readTags hread _ (List.mem_singleton_self _) c hc with h | h
          · cases h
          · exact h
      · cases h
    · cases h
  · rintro ⟨hne, hall⟩
    rw [readTags_escapeTag [] hall (by simpa using hne)]
    exact if_pos rfl

/-! ## The law -/

/-- **Which values are read back.** A filter is read as the conjunction of its `key = value` tests by
Milvus exactly if no string has a quotation mark, a backslash or a line break and no number is
infinite or NaN, by Upstash and LanceDB exactly if no number is; and the Redis clause for a
`document_id` is read as the test of its text exactly if the text is not empty and every punctuation
mark and separator in it is escaped. -/
theorem filters_mean_equality_iff (tg : Targets F) (f : MetadataFilter tg) :
    (read tg.milvus (Milvus.buildFilterExpr tg.floats f.items) = some (equalities f.items) ↔
      ∀ e ∈ f.items, e.2.Finite ∧ ∀ s, e.2 = .str s → Plain (ch '"') s) ∧
    (read tg.sql (Upstash.buildFilter tg.floats f.items) = some (equalities f.items) ↔
      ∀ e ∈ f.items, e.2.Finite) ∧
    (readWhere tg.sql (LanceDB.buildWhere tg.floats f.items) = some (equalities f.items) ↔
      ∀ e ∈ f.items, e.2.Finite) ∧
    ∀ v, (str "document_id", v) ∈ f.items →
      (readTagClause (Redis.tagClause tg.floats v) =
          some (str "document_id", [pyStr tg.floats v]) ↔
        pyStr tg.floats v ≠ [] ∧ ∀ c ∈ pyStr tg.floats v, Escaped c) := by
  have hsql : read tg.sql (sqlClauses tg.floats f.items) = some (equalities f.items) ↔
      ∀ e ∈ f.items, e.2.Finite := by
    rw [sql_render]
    exact read_clauses_iff (fun e he => isName_sql (f.plain e he)) (solid_sqlLiteral tg.floats)
      (fun v => sql_reads tg) (fun v => sql_misreads tg)
  have hempty : f.items = [] → (some Cond.all = some (equalities f.items) ↔
      ∀ e ∈ f.items, e.2.Finite) := by
    intro hnil
    rw [hnil]
    exact iff_of_true rfl fun _ h => nomatch h
  refine ⟨?_, ?_, ?_, fun v _ => readTagClause_iff tg.floats v⟩
  · rw [milvus_render]
    exact read_clauses_iff (P := fun v => v.Finite ∧ ∀ s, v = .str s → Plain (ch '"') s)
      (fun e he => isName_milvus (f.plain e he)) (solid_valueRepr tg.floats)
      (fun v h => milvus_reads tg h.1 h.2) (fun v h => milvus_misreads tg h)
  · unfold Upstash.buildFilter
    split
    · rename_i hnil
      exact hempty hnil
    · exact hsql
  · unfold LanceDB.buildWhere
    split
    · rename_i hnil
      exact hempty hnil
    · exact hsql

/-! ## A wider condition -/

/-- The escapes of one letter. -/
def letterEscapes : Escapes (ch '"') where
  read
    | c :: s =>
      ([(ch '"', ch '"'), (ch '\\', ch '\\'), (ch 'n', ch '\n')].lookup c).map fun d => (d, s)
    | [] => none
  spec s d rest h := by
    cases s with
    | nil => cases h
    | cons c s =>
      obtain ⟨d', hd, heq⟩ := Option.map_eq_some_iff.1 h
      cases heq
      refine ⟨[c], List.cons_ne_nil c [], rfl, fun hmem => ?_⟩
      rw [List.mem_singleton] at hmem
      rw [← hmem] at hd ⊢
      exact ⟨rfl, (Option.some.inj hd).symm⟩

def plainTargets : Targets Empty where
  floats := JsonText.noFloats
  escapes := letterEscapes
  reserved := fun _ => false

/-- A value that closes its string and goes on with a condition of its own. -/
def widening : MetadataFilter plainTargets where
  items := [(str "tenant", .str (str "a\" or tenant != \""))]
  distinct := List.nodup_singleton _
  plain := by
    intro e he
    rw [List.mem_singleton.1 he]
    exact ⟨⟨_, rfl, by decide⟩, by decide, by decide, rfl⟩

/-- Milvus reads the value as a further condition, which other tenants meet. -/
theorem quoted_value_widens :
    read plainTargets.milvus (Milvus.buildFilterExpr plainTargets.floats widening.items) =
      some (.or (.test .eq (.field (str "tenant")) (.str (str "a")))
        (.test .ne (.field (str "tenant")) (.str []))) ∧
    read plainTargets.milvus (Milvus.buildFilterExpr plainTargets.floats widening.items) ≠
      some (equalities widening.items) := by
  have hread : read plainTargets.milvus
      (Milvus.buildFilterExpr plainTargets.floats widening.items) =
      some (.or (.test .eq (.field (str "tenant")) (.str (str "a")))
        (.test .ne (.field (str "tenant")) (.str []))) := by
    rfl
  refine ⟨hread, ?_⟩
  rw [hread]
  exact nofun

end RagLeap.Rag.Filters
