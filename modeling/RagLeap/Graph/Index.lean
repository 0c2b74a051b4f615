import Mathlib
import RagLeap.Foundations.Durable
import RagLeap.Graph.Extraction

/-!
# The graph index

`GraphIndex.upsert_document` and `find_documents_by_entities`. A `Collection` is the part of the
graph under one namespace and user: every composite key is made with both, and every `MATCH` filters
by both. A composite key stands for the fields it is made of.

An upsert writes a document, its entities and, for pairs and for relations alike, one record a key
(`PairWeight`, `RelationWeight`); the edge of a key (`CO_OCCURS_WITH`, `RELATES_AS`) has the sum of
the records of all documents.
-/

namespace RagLeap.Graph

/-! ## The graph -/

/-- Two entity names in order, as `sorted((a, b))` has them. -/
structure Pair where
  a : Str
  b : Str
  ordered : a ≤ b
  deriving DecidableEq

inductive Kind
  | pair | relation
  deriving DecidableEq

/-- What a record and its edge are about: entities in lower case. -/
inductive Key
  | pair (p : Pair)
  | relation (subject relationType object : Str)
  deriving DecidableEq

def Key.kind : Key → Kind
  | pair _ => .pair
  | relation .. => .relation

/-- The two entities an edge connects. -/
def Key.ends : Key → Str × Str
  | pair p => (p.a, p.b)
  | relation s _ o => (s, o)

def NamePair.key {lower : Str → Str} (p : NamePair lower) : Key :=
  .pair ⟨lower p.a, lower p.b, p.ordered⟩

def Relation.key (lower : Str → Str) (r : Relation) : Key := .relation (lower r.1) r.2.1 (lower r.2.2)

/-- An `Entity` node; its name in lower case is its key. -/
structure Entity where
  displayName : Str
  /-- `none` for a node from before types were stored. -/
  entityType : Option Str
  deriving DecidableEq

structure Collection where
  /-- Titles by id. -/
  documents : Dict Str Str
  entities : Dict Str Entity
  /-- The weights of the `CONTAINS` edges, by document and entity. -/
  contains : Dict (Str × Str) ℚ
  /-- The weights of the `PairWeight` and `RelationWeight` nodes, by document and key. -/
  records : Dict (Str × Key) ℚ
  /-- The weights of the `CO_OCCURS_WITH` and `RELATES_AS` edges. -/
  edges : Dict Key ℚ

namespace Collection

def empty : Collection := ⟨.empty, .empty, .empty, .empty, .empty⟩

/-- `sum(pw.weight)` over the records of a key. -/
def total (records : Dict (Str × Key) ℚ) (k : Key) : ℚ :=
  ((records.items.filter fun e => e.1.2 = k).map Prod.snd).sum

/-- The keys a document has records for. -/
def oldKeys (records : Dict (Str × Key) ℚ) (doc : Str) (kind : Kind) : List Key :=
  (records.items.filter fun e => e.1.1 = doc ∧ e.1.2.kind = kind).map fun e => e.1.2

/-- Both entities of a key are in the graph. -/
def present (entities : Dict Str Entity) (k : Key) : Bool :=
  (entities.get? k.ends.1).isSome && (entities.get? k.ends.2).isSome

end Collection

/-- `SET` of a merged entity: the display name of the first write stays, a known type replaces what
was there. -/
def Entity.merge (name entityType : Str) (e : Option Entity) : Entity where
  displayName := (e.map Entity.displayName).getD name
  entityType :=
    some (if entityType ≠ UNKNOWN then entityType else (e.bind Entity.entityType).getD UNKNOWN)

/-! ## Statements -/

/-- The statements of an upsert, each committed on its own. -/
inductive Stmt
  | mergeDocument (title : Str)
  | deleteContains
  | mergeEntity (nameLower name entityType : Str) (weight : ℚ)
  | oldKeys (kind : Kind)
  | deleteRecords (kind : Kind)
  | mergeRecord (k : Key) (weight : ℚ)
  | recompute (k : Key)

abbrev Stmt.Res : Stmt → Type
  | oldKeys _ => List Key
  | _ => Unit

abbrev Statements : Signature := ⟨Stmt, Stmt.Res⟩

/-- The edges after the weight of one was computed anew; between missing entities nothing happens,
and a negative sum meets neither case. -/
def settleEdges (edges : Dict Key ℚ) (k : Key) (present : Bool) (total : ℚ) : Dict Key ℚ :=
  if present then
    if 0 < total then edges.set k total
    else if total = 0 then edges.erase k
    else edges
  else edges

open Collection in
/-- What a statement for the document does. -/
def act (doc : Str) : (o : Stmt) → Collection → o.Res × Collection
  | .mergeDocument title, g => ((), { g with documents := g.documents.set doc title })
  | .deleteContains, g => ((), { g with contains := g.contains.filter fun e _ => e.1 ≠ doc })
  | .mergeEntity nameLower name entityType weight, g =>
    ((), if (g.documents.get? doc).isSome then
        { g with
          entities := g.entities.set nameLower
            (.merge name entityType (g.entities.get? nameLower))
          contains := g.contains.set (doc, nameLower) weight }
      else g)
  | .oldKeys kind, g => (Collection.oldKeys g.records doc kind, g)
  | .deleteRecords kind, g =>
    ((), { g with records := g.records.filter fun e _ => ¬ (e.1 = doc ∧ e.2.kind = kind) })
  | .mergeRecord k weight, g => ((), { g with records := g.records.set (doc, k) weight })
  | .recompute k, g =>
    ((), { g with edges := settleEdges g.edges k (present g.entities k) (total g.records k) })

/-! ## Upserts -/

/-- What an upsert writes. -/
structure Plan where
  document : Str
  title : Str
  /-- The names as they are spelled, with their weights. -/
  entities : List (Str × ℕ+)
  /-- Types by name in lower case. -/
  typeOf : Str → Str
  links : Kind → List (Key × ℕ+)
  kinds : ∀ kind, ∀ e ∈ links kind, e.1.kind = kind

/-- What is written for a document with these counts. -/
def Counters.plan {env : GraphEnv} (c : Counters env.lower) (document title : Str)
    (maxEntities maxPairs : ℕ) : Plan where
  document := document
  title := title
  entities := c.entities.mostCommon maxEntities
  typeOf k := (c.types.get? k).getD UNKNOWN
  links
    | .pair => (c.pairs.mostCommon maxPairs).map fun e => (e.1.key, e.2)
    | .relation => (c.relations.mostCommon maxPairs).map fun e => (e.1.key env.lower, e.2)
  kinds kind e he := by
    cases kind with
    | pair =>
      obtain ⟨e', -, rfl⟩ := List.mem_map.1 he
      rfl
    | relation =>
      obtain ⟨e', -, rfl⟩ := List.mem_map.1 he
      rfl

/-- The order in which Python goes through a set. -/
abbrev SetOrder : Type := { order : List Key → List Key // ∀ l, (order l).Perm l.dedup }

/-- Sets that keep the order in which their entries came in. -/
def SetOrder.insertion : SetOrder := ⟨List.dedup, fun _ => .refl _⟩

/-- A statement as a program. -/
abbrev exec (o : Stmt) : Prog Statements o.Res := .op o .ret

/-- The records of one kind are replaced and the edges they bear on computed anew. -/
def replace (order : SetOrder) (kind : Kind) (new : List (Key × ℕ+)) : Prog Statements Unit := do
  let old ← exec (.oldKeys kind)
  let _ ← exec (.deleteRecords kind)
  let _ ← Prog.forEach (fun e => exec (.mergeRecord e.1 (e.2 : ℕ))) new
  Prog.forEach (fun k => exec (.recompute k)) (order.1 (old ++ new.map Prod.fst))

/-- `_upsert_document_once`, once the document is read. -/
def upsertOnce (lower : Str → Str) (plan : Plan) (order : SetOrder) : Prog Statements Unit := do
  let _ ← exec (.mergeDocument plan.title)
  let _ ← exec .deleteContains
  let _ ← Prog.forEach (fun e => exec
    (.mergeEntity (lower e.1) e.1 (plan.typeOf (lower e.1)) (e.2 : ℕ))) plan.entities
  let _ ← replace order .pair (plan.links .pair)
  replace order .relation (plan.links .relation)

/-- The graph after an upsert that nothing interrupts. -/
def upserted (lower : Str → Str) (plan : Plan) (order : SetOrder) (g : Collection) : Collection :=
  ((upsertOnce lower plan order).final (act plan.document) g).2

/-- How an attempt goes: which statement raises, counted from zero, if one does, and whether the
error is transient. -/
structure Try where
  order : SetOrder
  fault : Option (ℕ × Bool)

/-- What `upsert_document` returns, with the graph its last attempt found and the graph it leaves. -/
structure Upsert where
  success : Bool
  found : Collection
  graph : Collection

/-- The attempts of `upsert_document`, with the number of those left. -/
def attempts (lower : Str → Str) (plan : Plan) (tries : ℕ → Try) : ℕ → Collection → Upsert
  | 0, g => ⟨false, g, g⟩
  | n + 1, g =>
    match (tries n).fault with
    | none => ⟨true, g, upserted lower plan (tries n).order g⟩
    | some (i, transient) =>
      let g' := (upsertOnce lower plan (tries n).order).cutAt (act plan.document) i g
      if transient = true ∧ n ≠ 0 then attempts lower plan tries n g' else ⟨false, g, g'⟩

def MAX_ATTEMPTS : ℕ := 3

/-- `upsert_document`. -/
def upsertDocument (lower : Str → Str) (plan : Plan) (tries : ℕ → Try) (g : Collection) : Upsert :=
  attempts lower plan tries MAX_ATTEMPTS g

/-! ## Lookup -/

/-- A document found by its entities. -/
structure Hit where
  document : Str
  title : Str
  matched : ℕ
  score : ℚ
  names : List Str

/-- The documents that contain an entity of these names. -/
def Collection.hits (g : Collection) (names : List Str) : List Hit :=
  let found := g.contains.items.filter fun e => e.1.2 ∈ names
  (found.map fun e => e.1.1).dedup.map fun doc =>
    let own := found.filter fun e => e.1.1 = doc
    { document := doc
      title := (g.documents.get? doc).getD []
      matched := own.length
      score := (own.map Prod.snd).sum
      names := ((own.filterMap fun e => (g.entities.get? e.1.2).map Entity.displayName).dedup).take
        10 }

/-- The order of `find_documents_by_entities`. -/
def Hit.before (h h' : Hit) : Prop :=
  h'.matched < h.matched ∨ h'.matched = h.matched ∧ h'.score ≤ h.score

/-- A way to sort; documents with equal scores come in any order. -/
abbrev Ranking : Type :=
  { rank : List Hit → List Hit // ∀ l, (rank l).Perm l ∧ (rank l).Pairwise Hit.before }

/-- `find_documents_by_entities`. -/
def findDocumentsByEntities (env : GraphEnv) (rank : Ranking) (g : Collection) (names : List Str)
    (limit : ℤ) : List Hit :=
  let normalized := normalizeEntityList env names
  if normalized = [] then [] else (rank.1 (g.hits normalized)).take (max 1 limit).toNat

end RagLeap.Graph
