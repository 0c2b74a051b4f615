import Mathlib.Data.Char
import Mathlib.Data.List.Lex
import Mathlib.Data.List.Sort
import Mathlib.Data.PNat.Basic
import RagLeap.Foundations.Dict
import RagLeap.Foundations.Text

/-!
# What a document says

`extraction.py` and the extracting part of `_upsert_document_once` in ragleap-graph: the entities of
a chunk (by regular expressions or by a model), the relations a model finds between them, the counts
over all chunks, and the merging of near-duplicate names. What a model answers is given by the
functions of `Extractor`; `none` is a provider that fails, and then nothing is written.
-/

namespace RagLeap.Graph

/-! ## Names -/

/-- The character tables and `SequenceMatcher(None, a, b).ratio() >= threshold`. -/
structure GraphEnv where
  unicode : Unicode
  /-- `str.capitalize`. -/
  capitalize : Str → Str
  /-- `str.isupper`. -/
  isUpper : Str → Bool
  /-- `\w`. -/
  isWord : Char → Bool
  similar : Str → Str → Bool

/-- The tables on ASCII text, where only equal names are similar. -/
def GraphEnv.ascii : GraphEnv where
  unicode := .ascii
  capitalize
    | [] => []
    | c :: s => c.toUpper :: s.map Char.toLower
  isUpper s := s.any Char.isUpper && !s.any Char.isLower
  isWord c := c.isAlphanum || c == '_'
  similar a b := a == b

abbrev GraphEnv.lower (env : GraphEnv) (s : Str) : Str := env.unicode.lower s

/-- `re.sub(r"\s+", " ", s)`; the flag says that the character before is white space. -/
def collapse : Bool → Str → Str
  | _, [] => []
  | true, c :: s => if Str.isSpace c then collapse true s else c :: collapse false s
  | false, c :: s => if Str.isSpace c then ' ' :: collapse true s else c :: collapse false s

/-- The characters `_normalize_entity_name` strips. -/
def NAME_EDGE : Str := " \t\r\n.,;:!?()[]{}'\"".toList

/-- `s.strip(NAME_EDGE)`. -/
def stripName (s : Str) : Str :=
  ((s.dropWhile (· ∈ NAME_EDGE)).reverse.dropWhile (· ∈ NAME_EDGE)).reverse

/-- `_normalize_entity_name`; empty for a name that is not kept. -/
def normalizeEntityName (env : GraphEnv) (raw : Str) : Str :=
  let name := stripName (collapse false raw)
  if name.length < 3 then []
  else
    (if env.isUpper name then name
      else " ".toList.intercalate ((Str.words name).map env.capitalize)).take 120

/-- The entries whose keys are not among `seen` and did not occur before. -/
def distinctBy {α : Type} (key : α → Str) : List Str → List α → List α
  | _, [] => []
  | seen, a :: l =>
    if key a ∈ seen then distinctBy key seen l else a :: distinctBy key (key a :: seen) l

/-- `_normalize_entity_list`: the names to look for, in lower case. -/
def normalizeEntityList (env : GraphEnv) (names : List Str) : List Str :=
  distinctBy id [] (((names.map (normalizeEntityName env)).filter (· ≠ [])).map env.lower)

/-! ## Extraction by regular expressions -/

/-- `\b` between two characters. -/
def boundary (env : GraphEnv) (before after : Option Char) : Bool :=
  before.any env.isWord != after.any env.isWord

/-- `re.findall`, for a function that gives the length of the match at the head of a text after a
character; the number counts characters of a match still to be skipped. -/
def findAll (m : Option Char → Str → Option ℕ) : Option Char → ℕ → Str → List Str
  | _, _, [] => []
  | _, skip + 1, c :: s => findAll m (some c) skip s
  | before, 0, c :: s =>
    match m before (c :: s) with
    | some n => (c :: s).take n :: findAll m (some c) (n - 1) s
    | none => findAll m (some c) 0 s

/-- The text has a word boundary after `n` characters. -/
def endsAt (env : GraphEnv) (s : Str) (n : ℕ) : Bool :=
  boundary env (s.take n).getLast? (s.drop n).head?

/-- `\b[A-Z]{2,}(?:-[A-Z0-9]+)?\b`. A shorter run of capitals would not end at a boundary. -/
def acronymAt (env : GraphEnv) (before : Option Char) (s : Str) : Option ℕ :=
  let m := (s.takeWhile Char.isUpper).length
  let tail := (s.drop m).tail.takeWhile fun c => c.isUpper || c.isDigit
  if m < 2 ∨ boundary env before s.head? = false then none
  else if (s.drop m).head? = some '-' ∧ tail ≠ [] ∧ endsAt env s (m + 1 + tail.length) then
    some (m + 1 + tail.length)
  else if endsAt env s m then some m
  else none

/-- The length of `[A-Z][a-z]{2,}` at the head. -/
def capitalizedWord : Str → Option ℕ
  | [] => none
  | c :: s =>
    let n := (s.takeWhile Char.isLower).length
    if c.isUpper ∧ 2 ≤ n then some (n + 1) else none

/-- The ends of a phrase whose first word ends at `n`, with up to that many further words. -/
def wordEnds (s : Str) : ℕ → ℕ → List ℕ
  | 0, n => [n]
  | more + 1, n =>
    let gap := ((s.drop n).takeWhile Str.isSpace).length
    match capitalizedWord (s.drop (n + gap)) with
    | some w => if 0 < gap then n :: wordEnds s more (n + gap + w) else [n]
    | none => [n]

/-- `\b(?:[A-Z][a-z]{2,})(?:\s+[A-Z][a-z]{2,}){0,2}\b`. -/
def phraseAt (env : GraphEnv) (before : Option Char) (s : Str) : Option ℕ :=
  if boundary env before s.head? then
    (capitalizedWord s).bind fun w => (wordEnds s 2 w).reverse.find? (endsAt env s)
  else none

def SENTENCE_INITIAL_STOPWORDS : List Str :=
  ["What", "Who", "When", "Where", "Why", "How", "Which", "The", "This", "That", "These", "Those",
    "Is", "Are", "Was", "Were", "Do", "Does", "Did", "Can", "Could", "Would", "Should", "Will",
    "May", "Might"].map String.toList

/-- `_extract_entity_candidates_from_text`, for a positive `maxEntities`. -/
def extractEntityCandidates (env : GraphEnv) (domainTerms : List Str) (maxEntities : ℕ)
    (text : Str) : List Str :=
  let acronyms := findAll (acronymAt env) none 0 text
  let phrases := (findAll (phraseAt env) none 0 text).filter (· ∉ SENTENCE_INITIAL_STOPWORDS)
  let terms := domainTerms.filter fun term => decide (env.lower term <:+: env.lower text)
  let names := ((acronyms ++ phrases ++ terms).map (normalizeEntityName env)).filter (· ≠ [])
  (distinctBy env.lower [] names).take maxEntities

/-! ## Extraction by a model -/

def UNKNOWN : Str := "UNKNOWN".toList

/-- A relation: subject, type and object. -/
abbrev Relation : Type := Str × Str × Str

/-- `ExtractionConfig` with what the model answers: the names and types of the entities of a text,
and the relations in a text between known entities, with references resolved or not. -/
structure Extractor where
  llm : Bool
  dedupEnabled : Bool
  maxEntitiesPerChunk : ℕ
  extractRelations : Bool
  crossChunkRelations : Bool
  /-- Empty where not set. -/
  entityTypes : List Str
  relationOntology : List (Str × List Str × List Str)
  domainTerms : List Str
  entityReply : Str → Option (List (Str × Str))
  relationReply : Str → List Str → Bool → Option (List Relation)

/-- The default configuration. -/
def Extractor.regex : Extractor where
  llm := false
  dedupEnabled := false
  maxEntitiesPerChunk := 25
  extractRelations := false
  crossChunkRelations := false
  entityTypes := []
  relationOntology := []
  domainTerms := []
  entityReply _ := none
  relationReply _ _ _ := none

/-- `LLMEntityExtractor._parse_result`. -/
def parseEntities (env : GraphEnv) (x : Extractor) (items : List (Str × Str)) : List (Str × Str) :=
  let named := ((items.take x.maxEntitiesPerChunk).map fun e => (Str.strip e.1, e.2)).filter
    fun e => e.1 ≠ []
  (distinctBy (fun e => env.lower e.1) [] named).map fun e =>
    (e.1, if x.entityTypes ≠ [] ∧ e.2 ∉ x.entityTypes then UNKNOWN else e.2)

/-- `_collect_entities_for_chunk`: the names and their types. -/
def collectEntities (env : GraphEnv) (x : Extractor) (text : Str) : Option (List (Str × Str)) :=
  if x.llm then (x.entityReply text).map fun items => (parseEntities env x items).take 12
  else some ((extractEntityCandidates env x.domainTerms 12 text).map fun name => (name, UNKNOWN))

/-- `LLMRelationExtractor._parse_result`. -/
def parseRelations (env : GraphEnv) (known : List Str) (items : List Relation) : List Relation :=
  let knownLower := known.map env.lower
  (items.map fun r => (Str.strip r.1, env.unicode.upper (Str.strip r.2.1), Str.strip r.2.2)).filter
    fun r => r.1 ≠ [] ∧ r.2.1 ≠ [] ∧ r.2.2 ≠ [] ∧ env.lower r.1 ∈ knownLower ∧
      env.lower r.2.2 ∈ knownLower ∧ env.lower r.1 ≠ env.lower r.2.2

/-- `_filter_by_ontology`. -/
def filterByOntology (env : GraphEnv) (x : Extractor) (types : Dict Str Str)
    (relations : List Relation) : List Relation :=
  relations.filter fun r =>
    match x.relationOntology.lookup r.2.1 with
    | none => true
    | some (subjects, objects) =>
      (types.get? (env.lower r.1)).getD UNKNOWN ∈ subjects ∧
        (types.get? (env.lower r.2.2)).getD UNKNOWN ∈ objects

/-- `LLMRelationExtractor.extract`, on a text that is not blank. -/
def relationsIn (env : GraphEnv) (x : Extractor) (text : Str) (known : List Str)
    (resolve : Bool) (types : Dict Str Str) : Option (List Relation) :=
  if known.length < 2 then some []
  else
    (x.relationReply text known resolve).map fun items =>
      let relations := parseRelations env known items
      if x.relationOntology ≠ [] ∧ types.size ≠ 0 then filterByOntology env x types relations
      else relations

/-! ## Counting -/

/-- A `Counter` all of whose counts are positive. -/
abbrev Counter (κ : Type) : Type := Dict κ ℕ+

/-- `counter[k] += n`. -/
def Counter.add {κ : Type} [DecidableEq κ] (c : Counter κ) (k : κ) (n : ℕ+) : Counter κ :=
  c.set k (match c.get? k with
    | none => n
    | some m => m + n)

/-- `counter.most_common(n)`. -/
def Counter.mostCommon {κ : Type} (c : Counter κ) (n : ℕ) : List (κ × ℕ+) :=
  (c.items.insertionSort fun e e' => e'.2 ≤ e.2).take n

/-- Two names in the order of their lower-case forms, `tuple(sorted((a, b), key=str.lower))`. -/
structure NamePair (lower : Str → Str) where
  a : Str
  b : Str
  ordered : lower a ≤ lower b
  deriving DecidableEq

def NamePair.sorted (lower : Str → Str) (a b : Str) : NamePair lower :=
  if h : lower a ≤ lower b then ⟨a, b, h⟩ else ⟨b, a, (le_total _ _).resolve_left h⟩

/-- What the chunks of a document amount to: `entity_counter`, `entity_type_map` (by lower-case
name), `pair_counter` and `relation_counter`. -/
structure Counters (lower : Str → Str) where
  entities : Counter Str
  types : Dict Str Str
  pairs : Counter (NamePair lower)
  relations : Counter Relation

namespace Counters

variable {lower : Str → Str}

def empty : Counters lower := ⟨.empty, .empty, .empty, .empty⟩

/-- An entity of a chunk; the first type a name is given stays. -/
def addEntity (c : Counters lower) (e : Str × Str) : Counters lower :=
  { c with
    entities := c.entities.add e.1 1
    types := if (c.types.get? (lower e.1)).isSome then c.types else c.types.set (lower e.1) e.2 }

def addPair (c : Counters lower) (p : Str × Str) : Counters lower :=
  { c with pairs := c.pairs.add (.sorted lower p.1 p.2) 1 }

def addRelation (c : Counters lower) (r : Relation) : Counters lower :=
  { c with relations := c.relations.add r 1 }

end Counters

/-- The pairs of a list, each with its first entry first. -/
def pairsOf {α : Type} : List α → List (α × α)
  | [] => []
  | a :: l => l.map (fun b => (a, b)) ++ pairsOf l

/-- A chunk's part of the counts. -/
def countChunk (env : GraphEnv) (x : Extractor) (c : Counters env.lower) (chunk : Str) :
    Option (Counters env.lower) := do
  let text := Str.strip chunk
  if text = [] then some c
  else
    let found ← collectEntities env x text
    let unique := distinctBy (fun e => env.lower e.1) [] found
    let names := unique.map Prod.fst
    let c := (pairsOf names).foldl Counters.addPair (unique.foldl Counters.addEntity c)
    if x.extractRelations ∧ unique ≠ [] then
      let relations ← relationsIn env x text names false c.types
      some (relations.foldl Counters.addRelation c)
    else some c

/-- The pass over the whole document, for relations across chunks. -/
def countAcross (env : GraphEnv) (x : Extractor) (chunks : List Str) (c : Counters env.lower) :
    Option (Counters env.lower) := do
  let text := "\n\n".toList.intercalate ((chunks.map Str.strip).filter (· ≠ []))
  let names := c.entities.items.map Prod.fst
  if x.extractRelations ∧ x.crossChunkRelations ∧ text ≠ [] ∧ 2 ≤ names.length then
    let relations ← relationsIn env x text names true c.types
    some (relations.foldl Counters.addRelation c)
  else some c

/-! ## Near-duplicate names -/

/-- `EntityDeduplicator._normalize`. -/
def dedupKey (env : GraphEnv) (name : Str) : Str :=
  Str.strip (collapse false ((env.lower name).filter (· ∉ ".-_,".toList)))

/-- The clusters with a name added to the first whose head is similar. -/
def placeName (env : GraphEnv) (name : Str) : List (List Str) → List (List Str)
  | [] => [[name]]
  | cluster :: clusters =>
    if cluster.head?.any fun head => env.similar (dedupKey env name) (dedupKey env head) then
      (cluster ++ [name]) :: clusters
    else cluster :: placeName env name clusters

/-- `max(cluster, key=len)`: the first of the longest. -/
def longest (cluster : List Str) : Str :=
  cluster.foldl (fun best name => if best.length < name.length then name else best) []

/-- `EntityDeduplicator.resolve`; a name that was not given stands for itself. -/
def resolve (env : GraphEnv) (names : List Str) (name : Str) : Str :=
  match (names.foldl (fun clusters name => placeName env name clusters) []).find? (name ∈ ·) with
  | some cluster => longest cluster
  | none => name

/-- `_apply_entity_dedup`. -/
def applyEntityDedup (env : GraphEnv) (c : Counters env.lower) : Counters env.lower :=
  let canonical := resolve env (c.entities.items.map Prod.fst)
  { types := c.types
    entities := c.entities.items.foldl (fun m e => m.add (canonical e.1) e.2) .empty
    pairs := c.pairs.items.foldl (fun m e =>
      if canonical e.1.a = canonical e.1.b then m
      else m.add (.sorted env.lower (canonical e.1.a) (canonical e.1.b)) e.2) .empty
    relations := c.relations.items.foldl (fun m e =>
      if canonical e.1.1 = canonical e.1.2.2 then m
      else m.add (canonical e.1.1, e.1.2.1, canonical e.1.2.2) e.2) .empty }

/-- The counts of a document, before the caps. -/
def countDocument (env : GraphEnv) (x : Extractor) (chunks : List Str) :
    Option (Counters env.lower) := do
  let c ← chunks.foldlM (countChunk env x) .empty
  let c ← countAcross env x chunks c
  some (if x.dedupEnabled ∧ c.entities.size ≠ 0 then applyEntityDedup env c else c)

end RagLeap.Graph
