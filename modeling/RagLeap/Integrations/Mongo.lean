import RagLeap.Foundations.JsonSplice

/-!
# A user's identifier in a MongoDB query

`mongodb.py`: `fetch_data` puts a user's identifier into the filter of a query template by replacing
two placeholders in the filter's JSON text, which it reads again. It takes dollars and braces out of
the identifier, and neither quotes nor backslashes: the query keeps its shape where every character
of the identifier stands for itself in a string, and where a placeholder has to be replaced nowhere
else (`keepsShape_iff`).
-/

namespace RagLeap.Integrations.Mongo

open JsonText JsonText.Value

variable {F : Type} (fl : Floats F)

/-- What `client[database][collection].find(filter, projection)` is given. -/
structure Query (F : Type) where
  database : Value F
  collection : Value F
  filter : Value F
  projection : Value F

def userId : PyStr := text "\x7b\x7buser_id\x7d\x7d".toList

def userIdentifier : PyStr := text "\x7b\x7buser_identifier\x7d\x7d".toList

/-- The identifier without dollars and braces. -/
def safeIdentifier (identifier : PyStr) : PyStr :=
  substitute [ch '\x7d'] [] (substitute [ch '\x7b'] [] (substitute [ch '$'] [] identifier))

/-- A text with both placeholders replaced. -/
def replaced (safe s : PyStr) : PyStr :=
  substitute userIdentifier safe (substitute userId safe s)

/-- `query_config.get(key, default)` -/
def get (queryConfig : List (PyStr × Value F)) (key : String) (default : Value F) : Value F :=
  (queryConfig.lookup (text key.toList)).getD default

/-- The filter that is sent; none where `json.loads` raises. -/
def sentFilter (filterQuery : Value F) : Option PyStr → Option (Value F)
  | none | some [] => some filterQuery
  | some identifier => parse fl (replaced (safeIdentifier identifier) (dumps fl filterQuery))

/-- The query of `fetch_data(user_identifier)`; none where it raises before there is one. -/
def fetchData (queryTemplate : PyStr) (identifier : Option PyStr) : Option (Query F) :=
  match parse fl queryTemplate with
  | some (.obj queryConfig) =>
    (sentFilter fl (get queryConfig "filter" (.obj [])) identifier).map fun filter =>
      { database := get queryConfig "database" (.atom .null),
        collection := get queryConfig "collection" (.atom .null), filter,
        projection := get queryConfig "projection" (.atom .null) }
  | _ => none

/-- The query with the identifier in the strings of its filter. -/
def Query.withIdentifier (q : Query F) (safe : PyStr) : Query F :=
  { q with filter := q.filter.mapStrings (replaced safe) }

/-- A string holds a placeholder. -/
def Holds (s : PyStr) : Prop := userId <:+: s ∨ userIdentifier <:+: s

/-- The identifier can stand in the placeholders of the filter: no name holds one, and if a string
does, all characters of the identifier stand for themselves there. No surrogate pair is written as
two characters, also once a placeholder between them is gone. -/
structure Fits (filter : Value F) (safe : PyStr) : Prop where
  name : ∀ k, Leaf.name k ∈ parts filter → ¬ Holds k ∧ PyStr.Joined k
  raw : ∀ s, Leaf.str s ∈ parts filter → Holds s → ∀ c ∈ safe, isRaw c = true
  joined : ∀ s, Leaf.str s ∈ parts filter →
    PyStr.Joined (if safe = [] then replaced safe s else s)

/-! ## The placeholders -/

theorem placeholder_userId : Placeholder userId :=
  ⟨⟨text "user_id\x7d\x7d".toList, by decide⟩,
    List.all_eq_true.1 (by decide : userId.all isLiteral = true)⟩

theorem placeholder_userIdentifier : Placeholder userIdentifier :=
  ⟨⟨text "user_identifier\x7d\x7d".toList, by decide⟩,
    List.all_eq_true.1 (by decide : userIdentifier.all isLiteral = true)⟩

theorem not_mem_substitute_nil (c : CodePoint) (s : PyStr) : c ∉ substitute [c] [] s := by
  induction s with
  | nil => exact List.not_mem_nil
  | cons d s ih =>
    by_cases h : [c] <+: d :: s
    · obtain rfl : c = d := (List.cons_prefix_cons.1 h).1
      have hskip : substitute [c] [] ([c] ++ s) = [] ++ substitute [c] [] s :=
        substitute_append_self (List.cons_ne_nil _ _) s
      rw [List.singleton_append, List.nil_append] at hskip
      rw [hskip]
      exact ih
    · rw [substitute_cons_of_not h, List.mem_cons, not_or]
      refine ⟨fun hcd => h ?_, ih⟩
      rw [hcd]
      exact ⟨s, rfl⟩

theorem brace_not_mem_safeIdentifier (identifier : PyStr) :
    ch '\x7b' ∉ safeIdentifier identifier := by
  have hbrace := not_mem_substitute_nil (ch '\x7b') (substitute [ch '$'] [] identifier)
  have hcount : (safeIdentifier identifier).count (ch '\x7b') ≤ List.count (ch '\x7b') _ :=
    count_substitute_le (List.cons_ne_nil _ _) List.not_mem_nil
      (substitute [ch '\x7b'] [] (substitute [ch '$'] [] identifier))
  rw [List.count_eq_zero_of_not_mem hbrace, Nat.le_zero] at hcount
  exact List.count_eq_zero.1 hcount

/-! ## The strings -/

section Strings

variable {safe : PyStr}

/-- A string with the identifier in it, as pieces. -/
def marks (safe s : PyStr) : List Piece :=
  mark userIdentifier safe (mark userId safe (s.map .own))

theorem map_char_marks (s : PyStr) : (marks safe s).map Piece.char = replaced safe s := by
  rw [marks, map_char_mark placeholder_userIdentifier.ne_nil,
    map_char_mark placeholder_userId.ne_nil, map_char_own, replaced]

theorem marks_of_not {s : PyStr} (h : ¬ Holds s) : marks safe s = s.map .own := by
  obtain ⟨hid, hidentifier⟩ := not_or.1 h
  rw [marks, mark_eq_self (x := s.map .own), mark_eq_self]
  · rwa [map_char_own]
  · rwa [map_char_own]

theorem replaced_of_not {s : PyStr} (h : ¬ Holds s) : replaced safe s = s := by
  rw [← map_char_marks, marks_of_not h, map_char_own]

/-- All of the identifier is put in a string that holds a placeholder. -/
theorem put_mem_marks {s : PyStr} (h : Holds s) {c : CodePoint} (hc : c ∈ safe) :
    .put c ∈ marks safe s := by
  by_cases hidentifier : userIdentifier <:+: (mark userId safe (s.map .own)).map Piece.char
  · exact put_mem_mark placeholder_userIdentifier.ne_nil hidentifier hc
  · rw [marks, mark_eq_self hidentifier]
    by_cases hid : userId <:+: (s.map Piece.own).map Piece.char
    · exact put_mem_mark placeholder_userId.ne_nil hid hc
    · rw [mark_eq_self hid, map_char_own] at hidentifier
      rw [map_char_own] at hid
      exact absurd h (not_or.2 ⟨hid, hidentifier⟩)

/-- Nothing but the identifier is put anywhere. -/
theorem mem_of_put_mem_marks {s : PyStr} {c : CodePoint} (h : .put c ∈ marks safe s) :
    c ∈ safe := by
  have hown : Piece.put c ∉ s.map .own := fun hmem => by
    obtain ⟨d, -, hd⟩ := List.mem_map.1 hmem
    exact nomatch hd
  rcases mem_mark placeholder_userIdentifier.ne_nil h with h | ⟨d, hd, heq⟩
  · rcases mem_mark placeholder_userId.ne_nil h with h | ⟨d, hd, heq⟩
    · exact absurd h hown
    · obtain rfl := Piece.put.inj heq
      exact hd
  · obtain rfl := Piece.put.inj heq
    exact hd

theorem apart_marks_iff (s : PyStr) :
    Apart (marks safe s) ↔ PyStr.Joined (if safe = [] then replaced safe s else s) := by
  split_ifs with hsafe
  · -- no piece is put, so the pieces are the characters of the string that is left
    have hown : ∀ x : List Piece, (∀ c, .put c ∉ x) → x = (x.map Piece.char).map .own := by
      intro x hx
      rw [List.map_map]
      refine ((List.map_congr_left fun p hp => ?_).trans (List.map_id' x)).symm
      cases p with
      | own c => rfl
      | put c => exact absurd hp (hx c)
    have hput : ∀ c, .put c ∉ marks safe s := fun c hc => by
      have hmem := mem_of_put_mem_marks hc
      rw [hsafe] at hmem
      exact absurd hmem List.not_mem_nil
    rw [hown _ hput, map_char_marks, apart_own_iff]
  · rw [marks, apart_mark_iff placeholder_userIdentifier hsafe,
      apart_mark_iff placeholder_userId hsafe, apart_own_iff]

/-- A placeholder's braces are lost where it is replaced. -/
theorem count_replaced_lt (hsafe : ch '\x7b' ∉ safe) {s : PyStr} (h : Holds s) :
    (replaced safe s).count (ch '\x7b') < s.count (ch '\x7b') := by
  have hfirst := count_substitute_le placeholder_userId.ne_nil hsafe s
  by_cases hid : userId <:+: s
  · have hlt := count_substitute_lt (by decide) hsafe hid
    have hsecond := count_substitute_le placeholder_userIdentifier.ne_nil hsafe
      (substitute userId safe s)
    exact hsecond.trans_lt hlt
  · have hsame : substitute userId safe s = s := substitute_eq_self hid
    rw [replaced, hsame]
    exact count_substitute_lt (by decide) hsafe (h.resolve_left hid)

end Strings

/-! ## The filter -/

section Filter

variable {safe : PyStr} {t : Value F}

/-- The text with the identifier in it is that of the filter's strings with the identifier in
them. -/
theorem replaced_dumps (t : Value F) :
    replaced safe (dumps fl t) = spell fl (fun s => written (marks safe s)) t := by
  have hquote : (quote : PyStr → PyStr) = fun s => written (s.map .own) := funext quote_eq_written
  have hid := substitute_spell fl placeholder_userId safe (fun s => s.map .own) t []
  have hidentifier := substitute_spell fl placeholder_userIdentifier safe
    (fun s => mark userId safe (s.map .own)) t []
  rw [List.append_nil, substitute_nil, List.append_nil] at hid hidentifier
  rw [replaced, dumps_eq_spell, hquote, hid, hidentifier]
  rfl

/-- The characters that the identifier puts in the strings and names of the filter all stand for
themselves. -/
def Readable (t : Value F) (safe : PyStr) : Prop :=
  ∀ p ∈ parts t, ∀ s ∈ p.text?, ∀ c, .put c ∈ marks safe s → isRaw c = true

theorem parse_replaced (h : Readable t safe) : parse fl (replaced safe (dumps fl t)) =
    some (t.map (fun s => readPieces (marks safe s)) id).collapse := by
  rw [replaced_dumps]
  exact parse_spell fun p hp s hs => lexes_written (h p hp s hs)

/-- A name or a string that is read as `replaced` has it, or shorter, where its pieces are not
apart. -/
theorem length_readPieces_marks (safe s : PyStr) :
    (readPieces (marks safe s)).length ≤ (replaced safe s).length ∧
      ((readPieces (marks safe s)).length = (replaced safe s).length → Apart (marks safe s)) := by
  rw [← map_char_marks, List.length_map]
  exact length_readPieces _

theorem count_readPieces_marks (s : PyStr) : (readPieces (marks safe s)).count (ch '\x7b') =
    (replaced safe s).count (ch '\x7b') := by
  rw [count_readPieces, map_char_marks]

/-- The text bears less than the strings need if the identifier is put into one and is not raw
there. -/
theorem parse_replaced_ne (hname : ∀ k, Leaf.name k ∈ parts t → ¬ Holds k) {s : PyStr}
    (hs : Leaf.str s ∈ parts t) (hholds : Holds s) {c : CodePoint} (hc : c ∈ safe)
    (hraw : isRaw c = false) :
    parse fl (replaced safe (dumps fl t)) ≠ some (t.mapStrings (replaced safe)) := by
  intro hparse
  have hbad : c = ch '"' ∨ c = ch '\\' ∨ c.val < 32 := by
    simp only [isRaw, Bool.and_eq_false_iff, decide_eq_false_iff_not, not_not, not_le,
      or_assoc] at hraw
    exact hraw
  have hneed := total_need_le fl hparse
  have hwritten : ∀ x : List Piece, burden (written x) = burden (x.flatMap Piece.text) :=
    fun x => burden_around (by decide) (by decide) _
  have hle : ∀ p ∈ parts t, borne fl (fun s => written (marks safe s)) p ≤
      need fl (p.map (replaced safe)) := by
    intro p hp
    cases p with
    | atom a => exact le_rfl
    | name k =>
      rw [borne, hwritten, marks_of_not (hname k hp), List.flatMap_map]
      exact le_rfl
    | str s =>
      rw [borne, hwritten, Leaf.map, need, ← map_char_marks]
      exact burden_pieces_le _
  have hlt : borne fl (fun s => written (marks safe s)) (.str s) <
      need fl ((Leaf.str s : Leaf F).map (replaced safe)) := by
    rw [borne, hwritten, Leaf.map, need, ← map_char_marks]
    exact burden_pieces_lt (put_mem_marks hholds hc) hbad
  have htotal := total_lt hle hs hlt
  rw [replaced_dumps, burden_spell, total_mapStrings] at hneed
  omega

/-- If the filter is read with the identifier in its strings and nothing else changed, then no name
holds a placeholder. -/
theorem not_holds_of_parse (hsafe : ch '\x7b' ∉ safe) (hread : Readable t safe)
    (h : parse fl (replaced safe (dumps fl t)) = some (t.mapStrings (replaced safe)))
    {k : PyStr} (hk : Leaf.name k ∈ parts t) : ¬ Holds k := by
  intro hholds
  let braces : Leaf F → ℕ := fun p => (p.text?.getD []).count (ch '\x7b')
  have hle : ∀ p ∈ parts t, braces (p.mapText fun s => readPieces (marks safe s)) ≤
      braces (p.map (replaced safe)) := by
    intro p _
    cases p with
    | atom a => exact le_rfl
    | name k =>
      change (readPieces (marks safe k)).count _ ≤ k.count _
      rw [count_readPieces_marks]
      by_cases hk : Holds k
      · exact (count_replaced_lt hsafe hk).le
      · rw [replaced_of_not hk]
    | str s => exact (count_readPieces_marks s).le
  have hlt : braces ((Leaf.name k : Leaf F).mapText fun s => readPieces (marks safe s)) <
      braces ((Leaf.name k : Leaf F).map (replaced safe)) := by
    change (readPieces (marks safe k)).count _ < k.count _
    rw [count_readPieces_marks]
    exact count_replaced_lt hsafe hholds
  have htotal := total_lt hle hk hlt
  rw [parse_replaced fl hread, Option.some.injEq] at h
  have hcollapse := total_collapse_le (φ := braces) (t.map (fun s => readPieces (marks safe s)) id)
  rw [h, total_mapStrings, total_map] at hcollapse
  omega

/-- … and no two characters have become one. -/
theorem apart_of_parse (hread : Readable t safe)
    (hname : ∀ k, Leaf.name k ∈ parts t → ¬ Holds k)
    (h : parse fl (replaced safe (dumps fl t)) = some (t.mapStrings (replaced safe)))
    {p : Leaf F} (hp : p ∈ parts t) {s : PyStr} (hs : s ∈ p.text?) : Apart (marks safe s) := by
  let size : Leaf F → ℕ := fun p => (p.text?.getD []).length
  have hle : ∀ p ∈ parts t, size (p.mapText fun s => readPieces (marks safe s)) ≤
      size (p.map (replaced safe)) := by
    intro p hp
    cases p with
    | atom a => exact le_rfl
    | name k =>
      have hk := (length_readPieces_marks safe k).1
      rwa [replaced_of_not (hname k hp)] at hk
    | str s => exact (length_readPieces_marks safe s).1
  by_contra hapart
  have hlt : size (p.mapText fun s => readPieces (marks safe s)) <
      size (p.map (replaced safe)) := by
    have hne := mt (length_readPieces_marks safe s).2 hapart
    refine lt_of_le_of_ne (hle p hp) ?_
    cases p with
    | atom a => exact nomatch hs
    | name k =>
      obtain rfl := Option.some.inj hs
      rwa [replaced_of_not (hname k hp)] at hne
    | str s' =>
      obtain rfl := Option.some.inj hs
      exact hne
  have htotal := total_lt hle hp hlt
  rw [parse_replaced fl hread, Option.some.injEq] at h
  have hcollapse := total_collapse_le (φ := size) (t.map (fun s => readPieces (marks safe s)) id)
  rw [h, total_mapStrings, total_map] at hcollapse
  omega

theorem readable_of (hname : ∀ k, Leaf.name k ∈ parts t → ¬ Holds k)
    (hraw : ∀ s, Leaf.str s ∈ parts t → Holds s → ∀ c ∈ safe, isRaw c = true) :
    Readable t safe := by
  intro p hp s hs c hc
  have hholds : Holds s := by
    by_contra hnot
    rw [marks_of_not hnot] at hc
    obtain ⟨d, -, hd⟩ := List.mem_map.1 hc
    exact nomatch hd
  cases p with
  | atom a => exact nomatch hs
  | name k =>
    obtain rfl := Option.some.inj hs
    exact absurd hholds (hname k hp)
  | str s' =>
    obtain rfl := Option.some.inj hs
    exact hraw s' hp hholds c (mem_of_put_mem_marks hc)

/-- A filter that fits the identifier is read with the identifier in its strings. -/
theorem Fits.parse_eq (hdistinct : t.Distinct) (h : Fits t safe) :
    parse fl (replaced safe (dumps fl t)) = some (t.mapStrings (replaced safe)) := by
  have hread : Readable t safe := readable_of (fun k hk => (h.name k hk).1) h.raw
  have hmap : t.map (fun s => readPieces (marks safe s)) id = t.mapStrings (replaced safe) := by
    refine map_eq_mapStrings (fun k hk => ?_) fun s hs => ?_
    · obtain ⟨hnot, hjoined⟩ := h.name k hk
      rw [marks_of_not hnot, readPieces_eq ((apart_own_iff k).2 hjoined), map_char_own]
    · rw [readPieces_eq ((apart_marks_iff s).2 (h.joined s hs)), map_char_marks]
  rw [parse_replaced fl hread, hmap, collapse_eq_self (distinct_mapStrings hdistinct)]

/-- A filter that is read with the identifier in its strings fits the identifier, unless one of its
names holds a placeholder and the identifier is not raw. -/
theorem fits_of_parse_eq (hsafe : ch '\x7b' ∉ safe)
    (h : parse fl (replaced safe (dumps fl t)) = some (t.mapStrings (replaced safe))) :
    Fits t safe ∨
      (∃ k, Leaf.name k ∈ parts t ∧ Holds k) ∧ ∃ c ∈ safe, isRaw c = false := by
  have hfits (hname : ∀ k, Leaf.name k ∈ parts t → ¬ Holds k)
      (hraw : ∀ s, Leaf.str s ∈ parts t → Holds s → ∀ c ∈ safe, isRaw c = true) :
      Fits t safe := by
    have hapart : ∀ p ∈ parts t, ∀ s ∈ p.text?, Apart (marks safe s) := fun p hp s hs =>
      apart_of_parse fl (readable_of hname hraw) hname h hp hs
    refine ⟨fun k hk => ⟨hname k hk, ?_⟩, hraw, fun s hs => ?_⟩
    · have hk' := hapart _ hk k rfl
      rwa [marks_of_not (hname k hk), apart_own_iff] at hk'
    · exact (apart_marks_iff s).1 (hapart _ hs s rfl)
  by_cases hraw : ∃ c ∈ safe, isRaw c = false
  · obtain ⟨c, hc, hbad⟩ := hraw
    by_cases hname : ∃ k, Leaf.name k ∈ parts t ∧ Holds k
    · exact .inr ⟨hname, c, hc, hbad⟩
    · -- no string holds a placeholder: its text would not bear what it needs
      push Not at hname
      refine .inl (hfits hname fun s hs hholds => absurd h ?_)
      exact parse_replaced_ne fl hname hs hholds hc hbad
  · push Not at hraw
    have hall : ∀ c ∈ safe, isRaw c = true := fun c hc => Bool.not_eq_false _ ▸ hraw c hc
    have hread : Readable t safe := fun p _ s _ c hc => hall c (mem_of_put_mem_marks hc)
    exact .inl (hfits (fun k hk => not_holds_of_parse fl hsafe hread h hk) fun s _ _ => hall)

end Filter

/-! ## The query -/

theorem distinct_of_parse {s : PyStr} {t : Value F} (h : parse fl s = some t) : t.Distinct := by
  obtain ⟨t', -, rfl⟩ := Option.map_eq_some_iff.1 h
  exact distinct_collapse t'

theorem distinct_get {queryConfig : List (PyStr × Value F)} {key : String} {default : Value F}
    (h : (Value.obj queryConfig).Distinct) (hdefault : default.Distinct) :
    (get queryConfig key default).Distinct := by
  rw [get]
  cases hlookup : queryConfig.lookup (text key.toList) with
  | none => exact hdefault
  | some t =>
    obtain ⟨l, r, rfl, -⟩ := List.lookup_eq_some_iff.1 hlookup
    exact (all_obj.1 h).2.2 _ (List.mem_append_right l List.mem_cons_self)

/-- What is sent with an identifier, told from what is sent with none. -/
theorem fetchData_some {queryTemplate identifier : PyStr} {q : Query F}
    (h : fetchData fl queryTemplate none = some q) (hid : identifier ≠ []) :
    q.filter.Distinct ∧ fetchData fl queryTemplate (some identifier) =
      (parse fl (replaced (safeIdentifier identifier) (dumps fl q.filter))).map
        fun filter => { q with filter } := by
  unfold fetchData at h ⊢
  cases hparse : parse fl queryTemplate with
  | none => exact absurd h (by rw [hparse]; nofun)
  | some t =>
    rw [hparse] at h
    cases t with
    | obj queryConfig =>
      obtain rfl := Option.some.inj h
      obtain ⟨c, identifier, rfl⟩ := List.exists_cons_of_ne_nil hid
      have hempty : (Value.obj [] : Value F).Distinct := .obj .nil (fun _ _ => trivial) (by simp)
      exact ⟨distinct_get (distinct_of_parse fl hparse) hempty, rfl⟩
    | _ => exact nomatch h

/-- **A query keeps its shape** where its filter fits the identifier, and only there as long as no
name of the filter holds a placeholder or the identifier is raw. -/
theorem keepsShape_iff {queryTemplate identifier : PyStr} {q : Query F}
    (h : fetchData fl queryTemplate none = some q) (hid : identifier ≠ []) :
    (Fits q.filter (safeIdentifier identifier) →
      fetchData fl queryTemplate (some identifier) =
        some (q.withIdentifier (safeIdentifier identifier))) ∧
    (fetchData fl queryTemplate (some identifier) =
        some (q.withIdentifier (safeIdentifier identifier)) →
      Fits q.filter (safeIdentifier identifier) ∨
        (∃ k, Leaf.name k ∈ parts q.filter ∧ Holds k) ∧
          ∃ c ∈ safeIdentifier identifier, isRaw c = false) := by
  obtain ⟨hdistinct, hsent⟩ := fetchData_some fl h hid
  rw [hsent]
  constructor
  · intro hfits
    rw [hfits.parse_eq fl hdistinct]
    rfl
  · intro hkept
    obtain ⟨filter, hparse, hq⟩ := Option.map_eq_some_iff.1 hkept
    refine fits_of_parse_eq fl (brace_not_mem_safeIdentifier identifier) ?_
    rw [hparse]
    exact congrArg (fun q => some q.filter) hq

namespace Sample

def floats : Floats Empty := noFloats

/-- A template that looks a user up by name. -/
def queryTemplate : PyStr :=
  text "\x7b\"filter\": \x7b\"a\": \"\x7b\x7buser_id\x7d\x7d\"\x7d\x7d".toList

/-- The filter for users of the name. -/
def filter (name : PyStr) : Value Empty := .obj [(text "a".toList, .str name)]

/-- The query that looks for the name. -/
def query (name : PyStr) : Query Empty := ⟨.atom .null, .atom .null, filter name, .atom .null⟩

/-- A text that is printed from a value without surrogates is read as the value. -/
theorem parse_of_dumps {s : PyStr} {t : Value Empty} (hs : s = dumps floats t)
    (hjoin : t.join = t) (hdistinct : t.Distinct) : parse floats s = some t := by
  rw [hs, parse_dumps, Value.reread, hjoin, collapse_eq_self hdistinct]

theorem fetchData_none : fetchData floats queryTemplate none = some (query userId) := by
  have hparse : parse floats queryTemplate =
      some (.obj [(text "filter".toList, filter userId)]) := by
    refine parse_of_dumps (by decide) (by rfl) ?_
    simp [filter, all_obj, all_str]
  rw [fetchData, hparse]
  rfl

/-- An identifier of letters fits. -/
theorem name_put : fetchData floats queryTemplate (some (text "u".toList)) =
    some ((query userId).withIdentifier (safeIdentifier (text "u".toList))) := by
  refine (keepsShape_iff floats fetchData_none (List.cons_ne_nil _ _)).1 ⟨?_, ?_, ?_⟩
  · intro k hk
    obtain rfl : k = text "a".toList := by simpa [query, filter, parts, partsMembers] using hk
    exact ⟨by unfold Holds; decide, .singleton _⟩
  · intro s _ _ c hc
    obtain rfl := List.mem_singleton.1 hc
    decide
  · intro s hs
    obtain rfl : s = userId := by simpa [query, filter, parts, partsMembers] using hs
    unfold PyStr.Joined
    decide

/-- An identifier with quotes. -/
def identifier : PyStr := text "u\", \"b\": \"v".toList

/-- A quote in the identifier ends the string, and what follows is another name. -/
theorem name_added : fetchData floats queryTemplate none = some (query userId) ∧
    (fetchData floats queryTemplate (some identifier)).map Query.filter =
      some (.obj [(text "a".toList, .str (text "u".toList)),
        (text "b".toList, .str (text "v".toList))]) ∧
    fetchData floats queryTemplate (some identifier) ≠
      some ((query userId).withIdentifier (safeIdentifier identifier)) := by
  have hid : identifier ≠ [] := List.cons_ne_nil _ _
  have hsent : (fetchData floats queryTemplate (some identifier)).map Query.filter =
      some (.obj [(text "a".toList, .str (text "u".toList)),
        (text "b".toList, .str (text "v".toList))]) := by
    rw [(fetchData_some floats fetchData_none hid).2, Option.map_map]
    refine Option.map_id'.trans (parse_of_dumps (by decide) (by rfl) ?_)
    simp only [all_obj, all_str, List.map_cons, List.map_nil, List.forall_mem_cons, and_true,
      List.not_mem_nil, IsEmpty.forall_iff, implies_true]
    decide
  refine ⟨fetchData_none, hsent, fun h => ?_⟩
  rw [h] at hsent
  have hmembers := Value.obj.inj (Option.some.inj hsent)
  exact absurd (congrArg List.length hmembers) (by decide)

end Sample

end RagLeap.Integrations.Mongo
