import Mathlib
import RagLeap.Foundations.Json
import RagLeap.Foundations.Raising
import RagLeap.Security.Scope

/-!
# The memory store

`SQLiteStore` as operations on the table `memories`: every operation takes a scope, and the SQL
clause made from it (`scopeClause`) decides which rows a statement sees. A write runs in one
transaction with its audit record. The full-text index follows the table by triggers, so its
statistics are those of all rows.

`exec` carries out an operation, `execAll` a sequence of them.
-/

namespace RagLeap.Memory

open Security

/-! ## Rows -/

inductive Kind
  | episode
  | fact
  | summary
  deriving DecidableEq

/-- The trust labels, lowest first. -/
inductive Trust
  | untrusted
  | model
  | owner
  deriving DecidableEq

def Kind.ofStr (s : Str) : Option Kind :=
  if s = "episode".toList then some .episode
  else if s = "fact".toList then some .fact
  else if s = "summary".toList then some .summary
  else none

def Trust.ofStr (s : Str) : Option Trust :=
  if s = "untrusted".toList then some .untrusted
  else if s = "model".toList then some .model
  else if s = "owner".toList then some .owner
  else none

/-- `trust_rank`. -/
def Trust.rank : Trust → ℕ
  | untrusted => 0
  | model => 1
  | owner => 2

/-- A row of `memories`. Instants are microseconds; their ISO texts sort the same way. -/
structure Row where
  id : Str
  scope : Scope
  kind : Kind
  text : Str
  source : Str
  trust : Trust
  importance : ℚ
  createdAt : ℤ
  expiresAt : Option ℤ
  supersededBy : Option Str
  derivedFrom : List Str
  metadata : List (Str × Json)

/-- The row, linked to `newId` if it is the row `oldId`. -/
def redirect (newId oldId : Str) (r : Row) : Row :=
  if r.id = oldId then { r with supersededBy := some newId } else r

@[simp]
theorem redirect_id (newId oldId : Str) (r : Row) : (redirect newId oldId r).id = r.id := by
  unfold redirect
  split <;> rfl

@[simp]
theorem redirect_scope (newId oldId : Str) (r : Row) :
    (redirect newId oldId r).scope = r.scope := by
  unfold redirect
  split <;> rfl

theorem redirect_of_ne {newId oldId : Str} {r : Row} (h : r.id ≠ oldId) :
    redirect newId oldId r = r := if_neg h

/-- The table, in the order of `rowid`; ids are unique. -/
structure Memories where
  rows : List Row
  nodup : (rows.map Row.id).Nodup

namespace Memories

/-- A new store. -/
def empty : Memories := ⟨[], List.nodup_nil⟩

/-- `DELETE` of the rows that `p` selects. -/
def delete (m : Memories) (p : Row → Bool) : Memories :=
  ⟨m.rows.filter fun r => !p r, m.nodup.sublist (List.filter_sublist.map _)⟩

/-- `INSERT`, refused if the id is taken. -/
def insert (m : Memories) (row : Row) : Option Memories :=
  if h : row.id ∈ m.rows.map Row.id then none
  else some ⟨m.rows ++ [row], by
    rw [List.map_append, List.map_singleton, List.nodup_append]
    refine ⟨m.nodup, List.nodup_singleton _, ?_⟩
    rintro _ ha _ hb rfl
    exact h (List.mem_singleton.1 hb ▸ ha)⟩

/-- `UPDATE memories SET superseded_by = ? WHERE id = ?`. -/
def setSuperseded (m : Memories) (newId oldId : Str) : Memories :=
  ⟨m.rows.map (redirect newId oldId), by
    have hids : (m.rows.map (redirect newId oldId)).map Row.id = m.rows.map Row.id := by
      rw [List.map_map]
      exact List.map_congr_left fun r _ => redirect_id newId oldId r
    exact hids ▸ m.nodup⟩

end Memories

/-! ## The scope in SQL -/

/-- A column of the scope compared with a value. -/
inductive ScopeTest
  | tenant (value : Str)
  | part (f : Field) (value : Str)

/-- `_scope_clause`: the equalities joined by `AND`. -/
def scopeClause (scope : Scope) : List ScopeTest :=
  .tenant scope.tenant :: fields.filterMap fun f => (scope.part f).map (.part f)

/-- An equality on a row; a comparison with `NULL` is not true. -/
def ScopeTest.holds (row : Row) : ScopeTest → Bool
  | tenant v => row.scope.tenant = v
  | part f v => row.scope.part f = some v

/-- The clause on a row. -/
def selects (scope : Scope) (row : Row) : Bool := (scopeClause scope).all (·.holds row)

/-- The generated SQL is the rule of `Scope.covers`. -/
theorem selects_eq (scope : Scope) (row : Row) : selects scope row = scope.covers row.scope := by
  rw [Bool.eq_iff_iff, Scope.covers_iff, selects, scopeClause, List.all_cons, Bool.and_eq_true,
    List.all_eq_true]
  refine and_congr ?_ ⟨fun h f => ?_, fun h t ht => ?_⟩
  · simp [ScopeTest.holds, eq_comm]
  · cases hv : scope.part f with
    | none => exact .inl rfl
    | some v =>
      have := h (.part f v) (List.mem_filterMap.2 ⟨f, mem_fields f, by simp [hv]⟩)
      exact .inr (of_decide_eq_true this).symm
  · obtain ⟨f, -, hf⟩ := List.mem_filterMap.1 ht
    obtain ⟨v, hv, rfl⟩ := Option.map_eq_some_iff.1 hf
    rcases h f with hnone | heq
    · rw [hv] at hnone
      cases hnone
    · exact decide_eq_true (by rw [← heq, hv])

/-! ## Checking a new entry -/

inductive Error
  | invalid (message : String)
  | notFound
  | limit (what : String)
  | integrity
  | audit
  deriving DecidableEq

/-- The tokenizers, `json.dumps`, the logarithm in `bm25`, and the limits the store was opened
with. FTS5 takes `10⁻⁶` for the weight of a term that at least half of the rows contain. -/
structure Env where
  isWord : Char → Bool
  tokenize : Str → List Str
  dumps : List (Str × Json) → Str
  idf : ℕ → ℕ → ℚ
  idf_common : ∀ rows hits, rows ≤ 2 * hits → idf rows hits = 1 / 10 ^ 6
  maxTextBytes : ℕ
  maxResults : ℕ

/-- The arguments that describe a new entry. -/
structure NewEntry where
  text : Str
  kind : Str
  source : Str
  trust : Str
  importance : ℚ
  expiresAt : Option ℤ
  metadata : List (Str × Json)

/-- The fields of a new entry after the checks. -/
structure Checked where
  kind : Kind
  trust : Trust

/-- `SOURCE_RE.match`. -/
def isSource : Str → Bool
  | [] => false
  | c :: cs => c.isAlphanum && cs.length ≤ 127 && cs.all fun d => isPartChar d || d = '/'

/-- `ID_RE.match`. -/
def isId (s : Str) : Bool :=
  s.length = 32 && s.all fun c => ('0' ≤ c && c ≤ '9') || ('a' ≤ c && c ≤ 'f')

/-- The length of a text in UTF-8. -/
def utf8Length (s : Str) : ℕ := (s.map fun c => c.utf8Size).sum

mutual

/-- The number of values in a value, itself included. -/
def nodes : Json → ℕ
  | .arr items => 1 + nodesItems items
  | .obj members => 1 + nodesMembers members
  | _ => 1

def nodesItems : List Json → ℕ
  | [] => 0
  | v :: vs => nodes v + nodesItems vs

def nodesMembers : List (Str × Json) → ℕ
  | [] => 0
  | (_, v) :: vs => nodes v + nodesMembers vs

end

mutual

/-- How deep a value is nested. -/
def depth : Json → ℕ
  | .arr items => 1 + depthItems items
  | .obj members => 1 + depthMembers members
  | _ => 1

def depthItems : List Json → ℕ
  | [] => 0
  | v :: vs => max (depth v) (depthItems vs)

def depthMembers : List (Str × Json) → ℕ
  | [] => 0
  | (_, v) :: vs => max (depth v) (depthMembers vs)

end

/-- `_validate_new`. -/
def validateNew (env : Env) (new : NewEntry) : Except Error Checked :=
  match Kind.ofStr new.kind, Trust.ofStr new.trust with
  | none, _ => .error (.invalid "invalid kind")
  | _, none => .error (.invalid "invalid trust")
  | some kind, some trust =>
    if !isSource new.source then .error (.invalid "invalid source")
    else if ¬ (0 ≤ new.importance ∧ new.importance ≤ 1) then
      .error (.invalid "importance must be a number from 0 to 1")
    else if new.text.strip = [] then .error (.invalid "text must be a non-empty string")
    else if env.maxTextBytes < utf8Length new.text then .error (.limit "text")
    else if 8 < depth (.obj new.metadata) ∨ 1000 < nodes (.obj new.metadata) then
      .error (.limit "data")
    else if 4096 < utf8Length (env.dumps new.metadata) then .error (.limit "metadata")
    else .ok ⟨kind, trust⟩

/-! ## Operations -/

/-- What an operation meets outside: the clock, the new identifier, and whether the audit record
(if there is an audit log) is written. -/
structure World where
  now : ℤ
  uuid4 : Str
  audited : Bool

/-- The arguments of `search`. -/
structure Query where
  text : Str
  k : ℤ
  kinds : Option (List Str)
  minTrust : Str
  includeSuperseded : Bool
  includeExpired : Bool

/-- The arguments of `supersede`; what is not given is taken from the old entry. -/
structure Replacement where
  text : Str
  kind : Option Str
  source : Str
  trust : Str
  importance : Option ℚ
  expiresAt : Option ℤ
  metadata : List (Str × Json)

/-- A search result with its score. -/
structure SearchHit where
  entry : Row
  score : ℚ

/-- What an operation returns. -/
inductive Result
  | entry (row : Row)
  | number (n : ℕ)
  | hits (hits : List SearchHit)
  | entries (rows : List Row)

/-- The public operations. -/
inductive Op
  | add (scope : Scope) (new : NewEntry) (derivedFrom : List Str)
  | get (scope : Scope) (id : Str)
  | count (scope : Scope)
  | search (scope : Scope) (query : Query)
  | supersede (scope : Scope) (oldId : Str) (new : Replacement)
  | forget (scope : Scope) (ids : List Str)
  | exportEntries (scope : Scope)
  | erase (scope : Scope)
  | sweepExpired (scope : Scope)

/-- The scope an operation is given. -/
def Op.scope : Op → Scope
  | add s _ _ | get s _ | count s | search s _ | supersede s _ _ | forget s _
  | exportEntries s | erase s | sweepExpired s => s

/-- `_tx` around a body: an error of the body or of the audit record rolls the change back. -/
def transaction (w : World) (body : Memories → Except Error (Result × Memories)) (m : Memories) :
    Except Error Result × Memories :=
  match body m with
  | .error e => (.error e, m)
  | .ok (r, m') => if w.audited then (.ok r, m') else (.error .audit, m)

/-- `_visible`. -/
def visible (scope : Scope) (id : Str) (m : Memories) : Except Error Row :=
  match m.rows.find? fun r => r.id = id && selects scope r with
  | some row => .ok row
  | none => .error .notFound

/-- `_insert`. -/
def insertEntry (w : World) (scope : Scope) (new : NewEntry) (checked : Checked)
    (derivedFrom : List Str) (m : Memories) : Except Error (Row × Memories) :=
  let row : Row := {
    id := w.uuid4, scope, kind := checked.kind, text := new.text, source := new.source
    trust := checked.trust, importance := new.importance, createdAt := w.now
    expiresAt := new.expiresAt, supersededBy := none, derivedFrom, metadata := new.metadata }
  match m.insert row with
  | none => .error .integrity
  | some m' => .ok (row, m')

/-- The text of a kind. -/
def Kind.text : Kind → Str
  | episode => "episode".toList
  | fact => "fact".toList
  | summary => "summary".toList

/-- Every id is visible. -/
def allVisible (scope : Scope) (ids : List Str) (m : Memories) : Except Error Unit :=
  ids.forM fun id => (visible scope id m).map fun _ => ()

/-- `add`. -/
def add (env : Env) (w : World) (scope : Scope) (new : NewEntry) (derivedFrom : List Str)
    (m : Memories) : Except Error Result × Memories :=
  match validateNew env new with
  | .error e => (.error e, m)
  | .ok checked =>
    if 100 < derivedFrom.length ∨ ¬ derivedFrom.Nodup ∨ ¬ derivedFrom.all isId then
      (.error (.invalid "derived_from must be up to 100 distinct entry ids"), m)
    else
      transaction w (fun m => do
        allVisible scope derivedFrom m
        let (row, m') ← insertEntry w scope new checked derivedFrom m
        return (.entry row, m')) m

/-- `supersede`. -/
def supersede (env : Env) (w : World) (scope : Scope) (oldId : Str) (new : Replacement)
    (m : Memories) : Except Error Result × Memories :=
  transaction w (fun m => do
    let old ← visible scope oldId m
    if old.supersededBy ≠ none then .error (.invalid "entry is already superseded")
    else
      let entry : NewEntry := {
        text := new.text, kind := (new.kind.filter (· ≠ [])).getD old.kind.text, source := new.source
        trust := new.trust, importance := new.importance.getD old.importance
        expiresAt := new.expiresAt, metadata := new.metadata }
      let checked ← validateNew env entry
      let (row, m') ← insertEntry w old.scope entry checked [oldId] m
      return (.entry row, m'.setSuperseded row.id oldId)) m

/-- `DELETE` of the selected rows; the result counts them. -/
def deleteCounted (w : World) (p : Row → Bool) : Memories → Except Error Result × Memories :=
  transaction w fun m => .ok (.number (m.rows.countP p), m.delete p)

/-- `forget`. -/
def forget (w : World) (scope : Scope) (ids : List Str) (m : Memories) :
    Except Error Result × Memories :=
  if 1000 < ids.length ∨ ¬ ids.all isId then
    (.error (.invalid "ids must be up to 1000 entry ids"), m)
  else if ids = [] then (.ok (.number 0), m)
  else deleteCounted w (fun r => ids.contains r.id && selects scope r) m

/-- `erase`. -/
def erase (w : World) (scope : Scope) : Memories → Except Error Result × Memories :=
  deleteCounted w (selects scope)

/-- The row has expired. -/
def expired (now : ℤ) (row : Row) : Bool :=
  match row.expiresAt with
  | some t => t ≤ now
  | none => false

/-- `sweep_expired`. -/
def sweepExpired (w : World) (scope : Scope) : Memories → Except Error Result × Memories :=
  deleteCounted w fun r => selects scope r && expired w.now r

/-- The visible rows by the time of creation, then by id. -/
def exported (scope : Scope) (m : Memories) : List Row :=
  (m.rows.filter (selects scope)).mergeSort fun a b =>
    a.createdAt < b.createdAt || (a.createdAt = b.createdAt && decide (a.id ≤ b.id))

/-- `export`. -/
def exportEntries (w : World) (scope : Scope) : Memories → Except Error Result × Memories :=
  transaction w fun m => .ok (.entries (exported scope m), m)

/-! ## Search -/

/-- How often a phrase stands in a text. -/
def occurrences (phrase tokens : List Str) : ℕ :=
  if phrase = [] then 0
  else (List.range tokens.length).countP fun i => phrase.isPrefixOf (tokens.drop i)

/-- What the index knows about all rows together: their number, their length, and for each phrase
of a query the number of rows with it. -/
structure IndexStats where
  rows : ℕ
  tokens : ℕ
  hits : List ℕ
  deriving DecidableEq

/-- The statistics of the index, over all rows of the table. -/
def indexStats (env : Env) (phrases : List (List Str)) (m : Memories) : IndexStats where
  rows := m.rows.length
  tokens := (m.rows.map fun r => (env.tokenize r.text).length).sum
  hits := phrases.map fun p => m.rows.countP fun r => 0 < occurrences p (env.tokenize r.text)

/-- What one phrase adds to the weight of a text of `len` tokens in which it stands `f` times, with
`k₁ = 1.2` and `b = 0.75`. -/
def phraseWeight (env : Env) (stats : IndexStats) (hits f len : ℕ) : ℚ :=
  env.idf stats.rows hits * (f * (12 / 10 + 1)) /
    (f + 12 / 10 * (1 - 75 / 100 + 75 / 100 * len / (stats.tokens / stats.rows)))

/-- `bm25(memories_fts)` of a row; smaller is better. -/
def bm25 (env : Env) (stats : IndexStats) (phrases : List (List Str)) (text : Str) : ℚ :=
  -((phrases.zip stats.hits).map fun e => phraseWeight env stats e.2
      (occurrences e.1 (env.tokenize text)) (env.tokenize text).length).sum

/-- The phrases of the `MATCH` expression. -/
def phrases (env : Env) (text : Str) : List (List Str) :=
  (((text.splitOnP fun c => !env.isWord c).filter (· ≠ [])).take 32).map env.tokenize

/-- The rows the `WHERE` clause selects. -/
def candidates (env : Env) (w : World) (scope : Scope) (q : Query) (kinds : List Kind)
    (minTrust : Trust) (m : Memories) : List Row :=
  m.rows.filter fun r =>
    (phrases env q.text).any (fun p => 0 < occurrences p (env.tokenize r.text)) &&
      selects scope r && kinds.contains r.kind && minTrust.rank ≤ r.trust.rank &&
      (q.includeSuperseded || r.supersededBy = none) && (q.includeExpired || !expired w.now r)

/-- The rows in the order `score, created_at DESC`, cut off after `k`. -/
def ranked (k : ℕ) (score : Row → ℚ) (rows : List Row) : List SearchHit :=
  ((rows.mergeSort fun a b =>
    score a < score b || (score a = score b && decide (b.createdAt ≤ a.createdAt))).take k).map
      fun r => ⟨r, -score r⟩

/-- The kinds and the least trust of a query, and its limit, if they are valid. -/
def checkQuery (env : Env) (q : Query) : Except Error (List Kind × Trust × ℕ) :=
  if 1000 < utf8Length q.text then .error (.limit "query")
  else if q.k < 1 then .error (.invalid "k must be a positive int")
  else
    match Trust.ofStr q.minTrust with
    | none => .error (.invalid "invalid min_trust")
    | some minTrust =>
      match (q.kinds.getD (["episode", "fact", "summary"].map String.toList)).mapM Kind.ofStr with
      | none | some [] => .error (.invalid "invalid kinds")
      | some kinds => .ok (kinds, minTrust, min q.k.toNat env.maxResults)

/-- `search`. -/
def search (env : Env) (w : World) (scope : Scope) (q : Query) (m : Memories) :
    Except Error Result :=
  match checkQuery env q with
  | .error e => .error e
  | .ok (kinds, minTrust, k) =>
    let score r := bm25 env (indexStats env (phrases env q.text) m) (phrases env q.text) r.text
    .ok (.hits (ranked k score (candidates env w scope q kinds minTrust m)))

/-- One operation. -/
def exec (env : Env) (w : World) (op : Op) (m : Memories) : Except Error Result × Memories :=
  match op with
  | .add scope new derivedFrom => add env w scope new derivedFrom m
  | .get scope id => ((visible scope id m).map .entry, m)
  | .count scope => (.ok (.number (m.rows.countP (selects scope))), m)
  | .search scope q => (search env w scope q m, m)
  | .supersede scope oldId new => supersede env w scope oldId new m
  | .forget scope ids => forget w scope ids m
  | .exportEntries scope => exportEntries w scope m
  | .erase scope => erase w scope m
  | .sweepExpired scope => sweepExpired w scope m

/-- The store after a sequence of operations. -/
def execAll (env : Env) (m : Memories) (ops : List (World × Op)) : Memories :=
  ops.foldl (fun m (w, op) => (exec env w op m).2) m

/-! ### Sample arguments -/

/-- Words are separated by spaces, and every term is common. -/
def wordEnv : Env where
  isWord c := c ≠ ' '
  tokenize s := (s.splitOnP (· = ' ')).filter (· ≠ [])
  dumps _ := "{}".toList
  idf _ _ := 1 / 10 ^ 6
  idf_common _ _ _ := rfl
  maxTextBytes := 8192
  maxResults := 50

/-- A scope of the tenant `a`. -/
def tenantA : Scope := .ofTenant ['a'] rfl

/-- An id of 32 times the digit. -/
def idOf (c : Char) : Str := List.replicate 32 c

def fact (text : String) : NewEntry :=
  ⟨text.toList, "fact".toList, "api".toList, "owner".toList, 1, none, []⟩

def replacement (text : String) : Replacement :=
  ⟨text.toList, none, "api".toList, "owner".toList, none, none, []⟩

/-! ## What an operation does to the table -/

/-- The rows an operation deletes: those its `WHERE` clause selects, if its arguments are valid and
its audit record is written. -/
def Op.deletes (w : World) : Op → Row → Bool
  | .forget scope ids, r =>
    w.audited && ids.length ≤ 1000 && ids.all isId && (ids.contains r.id && selects scope r)
  | .erase scope, r => w.audited && selects scope r
  | .sweepExpired scope, r => w.audited && (selects scope r && expired w.now r)
  | _, _ => false

/-- The changes an operation under `scope` can make. -/
inductive Change (scope : Scope) (deletes : Row → Bool) (m : Memories) : Memories → Prop
  /-- It deletes rows; with nothing selected, it changes nothing. -/
  | deleted : Change scope deletes m (m.delete deletes)
  /-- A new entry of the scope is stored. -/
  | added {row : Row} {m' : Memories} (hscope : row.scope = scope)
      (hcurrent : row.supersededBy = none) (h : m.insert row = some m')
      (hkept : ∀ r, deletes r = false) : Change scope deletes m m'
  /-- A new entry replaces one the scope covers. -/
  | superseded {old row : Row} {m' : Memories} (hold : old ∈ m.rows)
      (hcovers : scope.covers old.scope) (hcurrent : old.supersededBy = none)
      (hscope : row.scope = old.scope) (hcurrent' : row.supersededBy = none)
      (h : m.insert row = some m') (hkept : ∀ r, deletes r = false) :
      Change scope deletes m (m'.setSuperseded row.id old.id)

namespace Memories

theorem ext {m m' : Memories} (h : m.rows = m'.rows) : m = m' := by
  cases m
  cases m'
  cases h
  rfl

theorem delete_eq_self {m : Memories} {p : Row → Bool} (h : ∀ r, p r = false) :
    m.delete p = m :=
  ext (List.filter_eq_self.2 fun r _ => by simp [h r])

theorem rows_insert {m m' : Memories} {row : Row} (h : m.insert row = some m') :
    row.id ∉ m.rows.map Row.id ∧ m'.rows = m.rows ++ [row] := by
  unfold insert at h
  split at h
  case isTrue => cases h
  case isFalse hfresh =>
    cases h
    exact ⟨hfresh, rfl⟩

theorem eq_of_id_eq {m : Memories} {r r' : Row} (hr : r ∈ m.rows) (hr' : r' ∈ m.rows)
    (h : r.id = r'.id) : r = r' :=
  List.inj_on_of_nodup_map m.nodup hr hr' h

end Memories

section

variable {env : Env} {w : World} {scope : Scope} {deletes : Row → Bool} {m : Memories}

theorem Change.same (h : ∀ r, deletes r = false) : Change scope deletes m m := by
  have hdeleted : Change scope deletes m (m.delete deletes) := .deleted
  rwa [Memories.delete_eq_self h] at hdeleted

/-- A transaction is rolled back, or its body went through. -/
theorem transaction_cases (body : Memories → Except Error (Result × Memories)) :
    (transaction w body m).2 = m ∨
      ∃ r m', body m = .ok (r, m') ∧ transaction w body m = (.ok r, m') := by
  unfold transaction
  cases h : body m with
  | error e => exact .inl rfl
  | ok res =>
    obtain ⟨r, m'⟩ := res
    cases hw : w.audited with
    | true => exact .inr ⟨r, m', rfl, rfl⟩
    | false => exact .inl rfl

theorem deleteCounted_snd (p : Row → Bool) :
    (deleteCounted w p m).2 = m.delete fun r => w.audited && p r := by
  unfold deleteCounted transaction
  cases hw : w.audited with
  | true => simp
  | false => simp [Memories.delete_eq_self]

theorem insertEntry_eq_ok {new : NewEntry} {checked : Checked} {derivedFrom : List Str} {row : Row}
    {m' : Memories} (h : insertEntry w scope new checked derivedFrom m = .ok (row, m')) :
    row.scope = scope ∧ row.supersededBy = none ∧ m.insert row = some m' := by
  unfold insertEntry at h
  dsimp only at h
  split at h
  · cases h
  · rename_i hins
    cases h
    exact ⟨rfl, rfl, hins⟩

theorem visible_eq_ok {id : Str} {row : Row} (h : visible scope id m = .ok row) :
    row ∈ m.rows ∧ row.id = id ∧ scope.covers row.scope = true := by
  unfold visible at h
  split at h
  case h_1 row' hfind =>
    cases h
    have hsel := List.find?_some hfind
    rw [Bool.and_eq_true, selects_eq] at hsel
    exact ⟨List.mem_of_find?_eq_some hfind, of_decide_eq_true hsel.1, hsel.2⟩
  case h_2 => cases h

theorem add_change (new : NewEntry) (derivedFrom : List Str) (h : ∀ r, deletes r = false) :
    Change scope deletes m (add env w scope new derivedFrom m).2 := by
  unfold add
  split
  · exact .same h
  · split
    · exact .same h
    · rcases transaction_cases _ with hsame | ⟨r, m', hbody, htx⟩
      · rw [hsame]
        exact .same h
      · rw [htx]
        obtain ⟨-, -, hbody⟩ := bind_eq_ok.1 hbody
        obtain ⟨⟨row, m₁⟩, hins, hret⟩ := bind_eq_ok.1 hbody
        cases hret
        obtain ⟨hscope, hcurrent, hins⟩ := insertEntry_eq_ok hins
        exact .added hscope hcurrent hins h

theorem supersede_change (oldId : Str) (new : Replacement) (h : ∀ r, deletes r = false) :
    Change scope deletes m (supersede env w scope oldId new m).2 := by
  unfold supersede
  rcases transaction_cases _ with hsame | ⟨r, m', hbody, htx⟩
  · rw [hsame]
    exact .same h
  · rw [htx]
    obtain ⟨old, hold, hbody⟩ := bind_eq_ok.1 hbody
    obtain ⟨hmem, rfl, hcovers⟩ := visible_eq_ok hold
    split at hbody
    · cases hbody
    · rename_i hcurrent
      obtain ⟨checked, -, hbody⟩ := bind_eq_ok.1 hbody
      obtain ⟨⟨row, m₁⟩, hins, hret⟩ := bind_eq_ok.1 hbody
      cases hret
      obtain ⟨hscope, hcurrent', hins⟩ := insertEntry_eq_ok hins
      exact .superseded hmem hcovers (not_not.1 hcurrent) hscope hcurrent' hins h

/-- Every operation makes one of the changes. -/
theorem exec_change (env : Env) (w : World) (op : Op) (m : Memories) :
    Change op.scope (op.deletes w) m (exec env w op m).2 := by
  cases op with
  | add scope new derivedFrom => exact add_change new derivedFrom fun _ => rfl
  | get scope id => exact .same fun _ => rfl
  | count scope => exact .same fun _ => rfl
  | search scope q => exact .same fun _ => rfl
  | supersede scope oldId new => exact supersede_change oldId new fun _ => rfl
  | forget scope ids =>
    unfold exec forget
    dsimp only
    split
    case isTrue hbad =>
      refine .same fun r => ?_
      rcases hbad with hlong | hid
      · simp [Op.deletes, Nat.not_le.2 hlong]
      · simp [Op.deletes, hid]
    case isFalse hgood =>
      split
      case isTrue hnil =>
        refine .same fun r => ?_
        subst hnil
        simp [Op.deletes]
      case isFalse =>
        rw [deleteCounted_snd]
        push Not at hgood
        have hdeletes : Op.deletes w (.forget scope ids) =
            fun r => w.audited && (ids.contains r.id && selects scope r) := by
          funext r
          simp [Op.deletes, hgood.1, hgood.2]
        rw [← hdeletes]
        exact .deleted
  | exportEntries scope =>
    unfold exec exportEntries
    dsimp only
    rcases transaction_cases _ with hsame | ⟨r, m', hbody, htx⟩
    · rw [hsame]
      exact .same fun _ => rfl
    · rw [htx]
      cases hbody
      exact .same fun _ => rfl
  | erase scope =>
    unfold exec erase
    rw [deleteCounted_snd]
    exact .deleted
  | sweepExpired scope =>
    unfold exec sweepExpired
    rw [deleteCounted_snd]
    exact .deleted

end

end RagLeap.Memory
