import Mathlib.Data.Rat.Defs
import RagLeap.Rag.VectorBackend

/-!
# Deleting a document from a vector backend

Chroma, Milvus, Redis and Upstash delete the chunks of a document each in its own way: by a filter
on the metadata, by the keys in a sidecar, by one page of a search, by a prefix of the ids. The
services are taken to apply ids, filters, prefixes and page limits exactly; a search gives the
nearest entries.

`deleted_iff` says for each backend after which insertions `delete_document` takes away the chunks
of the document and no others.
-/

namespace RagLeap.Rag.Deletion

variable {V : Type}

/-! ## The interface -/

/-- A search result; a field is `none` where the metadata have none. -/
structure Hit where
  chunkId : Str
  text : Option Json
  documentId : Option Json
  documentName : Option Json
  chunkIndex : Option Json

/-- A query, with the test that its `metadata_filter` makes of the fields it can filter by. -/
structure Query (V : Type) where
  embedding : V
  topK : ℕ
  accepts : Metadata → Bool

/-- The calls that store something. -/
inductive Call (V : Type)
  | insertDocument (row : DocumentRow)
  | insertChunk (chunk : NewChunk V)

/-- A backend: its state, its operations, and the id under which it returns a chunk. -/
structure Backend (V : Type) where
  State : Type
  new : State
  insertDocument : DocumentRow → State → State
  insertChunk : NewChunk V → State → State
  deleteDocument : Str → State → State
  searchDense : Query V → State → List Hit
  chunkId : NewChunk V → Str

namespace Backend

variable (b : Backend V)

/-- The state after a call. -/
def exec (s : b.State) : Call V → b.State
  | .insertDocument row => b.insertDocument row s
  | .insertChunk chunk => b.insertChunk chunk s

/-- The state after a sequence of calls. -/
def run (calls : List (Call V)) : b.State := calls.foldl b.exec b.new

/-- The search can return the hit. -/
def Returns (s : b.State) (hit : Hit) : Prop := ∃ q, hit ∈ b.searchDense q s

end Backend

/-- The chunks that were inserted. -/
def chunksOf (calls : List (Call V)) : List (NewChunk V) :=
  calls.filterMap fun
    | .insertDocument _ => none
    | .insertChunk chunk => some chunk

/-- After the calls and `delete_document(d)`, no chunk of `d` can be returned, and every chunk of
another document can, as one of that document. -/
structure Deleted (b : Backend V) (calls : List (Call V)) (d : Str) : Prop where
  complete : ∀ hit, b.Returns (b.deleteDocument d (b.run calls)) hit →
    ∀ chunk ∈ chunksOf calls, chunk.documentId = d → hit.chunkId ≠ b.chunkId chunk
  kept : ∀ chunk ∈ chunksOf calls, chunk.documentId ≠ d →
    ∃ hit, b.Returns (b.deleteDocument d (b.run calls)) hit ∧ hit.chunkId = b.chunkId chunk ∧
      hit.documentId = some (.str chunk.documentId)

/-- `INSERT INTO documents`; a second row with an id is refused. -/
def register (row : DocumentRow) (documents : List DocumentRow) : List DocumentRow :=
  if row.id ∈ documents.map DocumentRow.id then documents else documents ++ [row]

/-- The `k` nearest entries. -/
def nearest {ε : Type} (distance : ε → ℚ) (k : ℕ) (entries : List ε) : List ε :=
  (entries.mergeSort fun a b => decide (distance a ≤ distance b)).take k

theorem mem_of_mem_nearest {ε : Type} {distance : ε → ℚ} {k : ℕ} {entries : List ε} {e : ε}
    (h : e ∈ nearest distance k entries) : e ∈ entries :=
  List.mem_mergeSort.1 (List.mem_of_mem_take h)

theorem mem_nearest {ε : Type} (distance : ε → ℚ) {entries : List ε} {e : ε} (h : e ∈ entries) :
    e ∈ nearest distance entries.length entries := by
  rw [nearest, List.take_of_length_le (List.length_mergeSort _).le]
  exact List.mem_mergeSort.2 h

/-! ## Chroma -/

namespace Chroma

/-- An entry of the collection. -/
structure Entity (V : Type) where
  id : Str
  embedding : V
  metadata : Metadata
  document : Str

/-- The registry and the collection. -/
structure State (V : Type) where
  documents : List DocumentRow
  collection : List (Entity V)

/-- What `insert_chunk` upserts. -/
def entity (chunk : NewChunk V) : Entity V where
  id := chunk.key
  embedding := chunk.embedding
  metadata := merge (chunk.fields ++ [("token_count".toList, .int chunk.tokenCount)])
    chunk.metadata
  document := chunk.text

/-- `insert_chunk`. -/
def insertChunk (chunk : NewChunk V) (s : State V) : State V :=
  { s with collection := s.collection.filter (·.id ≠ chunk.key) ++ [entity chunk] }

/-- The document an entry belongs to for a filter. -/
def Entity.documentId? (e : Entity V) : Option Str :=
  (e.metadata.lookup "document_id".toList).bind Json.asStr?

/-- `delete_document`: `delete(where={"document_id": document_id})`. -/
def deleteDocument (documentId : Str) (s : State V) : State V where
  documents := s.documents.filter (·.id ≠ documentId)
  collection := s.collection.filter (·.documentId? ≠ some documentId)

def hitOf (e : Entity V) : Hit where
  chunkId := e.id
  text := some (.str e.document)
  documentId := e.metadata.lookup "document_id".toList
  documentName := e.metadata.lookup "document_name".toList
  chunkIndex := e.metadata.lookup "chunk_index".toList

/-- `search_dense`. -/
def searchDense (distance : V → V → ℚ) (q : Query V) (s : State V) : List Hit :=
  (nearest (fun e => distance q.embedding e.embedding) q.topK
    (s.collection.filter fun e => q.accepts e.metadata)).map hitOf

def backend (distance : V → V → ℚ) : Backend V where
  State := State V
  new := ⟨[], []⟩
  insertDocument row s := { s with documents := register row s.documents }
  insertChunk := insertChunk
  deleteDocument := deleteDocument
  searchDense := searchDense distance
  chunkId := NewChunk.key

end Chroma

/-! ## Milvus -/

namespace Milvus

/-- A row of the sidecar. -/
structure ChunkRow where
  vectorKey : Str
  documentId : Str
  documentName : Str
  chunkIndex : ℤ
  text : Str
  tokenCount : ℤ
  metadata : Metadata

/-- An entry of the collection: its primary key, its vector and the fields of the inserted row. -/
structure Entity (V : Type) where
  id : Str
  vector : V
  row : Metadata

/-- The sidecar and the collection. -/
structure State (V : Type) where
  documents : List DocumentRow
  chunks : List ChunkRow
  collection : List (Entity V)

def chunkRow (chunk : NewChunk V) : ChunkRow :=
  ⟨chunk.key, chunk.documentId, chunk.documentName, chunk.chunkIndex, chunk.text,
    chunk.tokenCount, chunk.metadata⟩

/-- What the service makes of the row that `insert_chunk` sends, in which the caller's metadata
stand after the key and the vector; a row whose `id` is no text or whose `vector` is no vector is
refused. -/
def entity (vectorOf : Json → Option V) (chunk : NewChunk V) : Option (Entity V) := do
  let row := merge (("id".toList, .str chunk.key) :: chunk.fields) chunk.metadata
  let id ← (row.lookup "id".toList).bind Json.asStr?
  let vector ← (chunk.metadata.lookup "vector".toList).elim (some chunk.embedding) vectorOf
  some ⟨id, vector, row⟩

/-- `insert_chunk`: a key that is in the sidecar is refused there. -/
def insertChunk (vectorOf : Json → Option V) (chunk : NewChunk V) (s : State V) : State V :=
  if chunk.key ∈ s.chunks.map ChunkRow.vectorKey then s
  else
    { s with
      chunks := s.chunks ++ [chunkRow chunk]
      collection := s.collection ++ (entity vectorOf chunk).toList }

/-- `delete_document`: `delete(ids=...)` of the keys in the sidecar. -/
def deleteDocument (documentId : Str) (s : State V) : State V :=
  let keys := (s.chunks.filter (·.documentId = documentId)).map ChunkRow.vectorKey
  { documents := s.documents.filter (·.id ≠ documentId)
    chunks := s.chunks.filter (·.documentId ≠ documentId)
    collection := s.collection.filter (·.id ∉ keys) }

def hitOf (row : ChunkRow) : Hit where
  chunkId := row.vectorKey
  text := some (.str row.text)
  documentId := some (.str row.documentId)
  documentName := some (.str row.documentName)
  chunkIndex := some (.int row.chunkIndex)

/-- `search_dense`: an entry without a row of its key is skipped. -/
def searchDense (distance : V → V → ℚ) (q : Query V) (s : State V) : List Hit :=
  (nearest (fun e => distance q.embedding e.vector) q.topK
    (s.collection.filter fun e => q.accepts e.row)).filterMap fun e =>
      (s.chunks.find? (·.vectorKey = e.id)).map hitOf

def backend (vectorOf : Json → Option V) (distance : V → V → ℚ) : Backend V where
  State := State V
  new := ⟨[], [], []⟩
  insertDocument row s := { s with documents := register row s.documents }
  insertChunk := insertChunk vectorOf
  deleteDocument := deleteDocument
  searchDense := searchDense distance
  chunkId := NewChunk.key

end Milvus

/-! ## Redis -/

namespace Redis

/-- A hash of the index. -/
structure Hash (V : Type) where
  key : Str
  documentId : Str
  documentName : Str
  chunkIndex : ℤ
  tokenCount : ℤ
  text : Str
  vector : V
  metadata : Metadata

/-- The registry and the hashes, in the order in which a search without a score lists them. -/
structure State (V : Type) where
  documents : List DocumentRow
  hashes : List (Hash V)

/-- What `hset` writes. -/
def hash (keyPrefix : Str) (chunk : NewChunk V) : Hash V :=
  ⟨keyPrefix ++ chunk.key, chunk.documentId, chunk.documentName, chunk.chunkIndex,
    chunk.tokenCount, chunk.text, chunk.embedding, chunk.metadata⟩

/-- `insert_chunk`. -/
def insertChunk (keyPrefix : Str) (chunk : NewChunk V) (s : State V) : State V :=
  { s with hashes :=
      s.hashes.filter (·.key ≠ keyPrefix ++ chunk.key) ++ [hash keyPrefix chunk] }

/-- `delete_document`: the keys on the one page of the search for the document. -/
def deleteDocument (documentId : Str) (s : State V) : State V :=
  let keys := ((s.hashes.filter (·.documentId = documentId)).take 10000).map Hash.key
  { documents := s.documents.filter (·.id ≠ documentId)
    hashes := s.hashes.filter (·.key ∉ keys) }

def hitOf (h : Hash V) : Hit where
  chunkId := h.key
  text := some (.str h.text)
  documentId := some (.str h.documentId)
  documentName := some (.str h.documentName)
  chunkIndex := some (.int h.chunkIndex)

/-- `search_dense`, which can filter by the document only. -/
def searchDense (distance : V → V → ℚ) (q : Query V) (s : State V) : List Hit :=
  (nearest (fun h => distance q.embedding h.vector) q.topK
    (s.hashes.filter fun h => q.accepts [("document_id".toList, .str h.documentId)])).map hitOf

def backend (keyPrefix : Str) (distance : V → V → ℚ) : Backend V where
  State := State V
  new := ⟨[], []⟩
  insertDocument row s := { s with documents := register row s.documents }
  insertChunk := insertChunk keyPrefix
  deleteDocument := deleteDocument
  searchDense := searchDense distance
  chunkId chunk := keyPrefix ++ chunk.key

end Redis

/-! ## Upstash -/

namespace Upstash

/-- A vector of the namespace. -/
structure Entity (V : Type) where
  id : Str
  vector : V
  metadata : Metadata

/-- The registry and the vectors. -/
structure State (V : Type) where
  documents : List DocumentRow
  vectors : List (Entity V)

/-- What `insert_chunk` upserts: the caller's metadata never replace the stored fields. -/
def entity (chunk : NewChunk V) : Entity V where
  id := chunk.key
  vector := chunk.embedding
  metadata := setDefaults (chunk.fields ++ [("token_count".toList, .int chunk.tokenCount),
    ("text".toList, .str chunk.text)]) chunk.metadata

/-- `insert_chunk`. -/
def insertChunk (chunk : NewChunk V) (s : State V) : State V :=
  { s with vectors := s.vectors.filter (·.id ≠ chunk.key) ++ [entity chunk] }

/-- `delete_document`: `delete(prefix=f"{document_id}:")`. -/
def deleteDocument (documentId : Str) (s : State V) : State V where
  documents := s.documents.filter (·.id ≠ documentId)
  vectors := s.vectors.filter fun e => ¬ documentId ++ [':'] <+: e.id

def hitOf (e : Entity V) : Hit where
  chunkId := e.id
  text := e.metadata.lookup "text".toList
  documentId := e.metadata.lookup "document_id".toList
  documentName := e.metadata.lookup "document_name".toList
  chunkIndex := e.metadata.lookup "chunk_index".toList

/-- `search_dense`. -/
def searchDense (distance : V → V → ℚ) (q : Query V) (s : State V) : List Hit :=
  (nearest (fun e => distance q.embedding e.vector) q.topK
    (s.vectors.filter fun e => q.accepts e.metadata)).map hitOf

def backend (distance : V → V → ℚ) : Backend V where
  State := State V
  new := ⟨[], []⟩
  insertDocument row s := { s with documents := register row s.documents }
  insertChunk := insertChunk
  deleteDocument := deleteDocument
  searchDense := searchDense distance
  chunkId := NewChunk.key

end Upstash

/-! ## What is stored -/

/-- A chunk that replaces the one under its key. -/
def replace (l : List (NewChunk V)) (chunk : NewChunk V) : List (NewChunk V) :=
  l.filter (·.key ≠ chunk.key) ++ [chunk]

/-- A chunk that is refused if there is one under its key. -/
def keepFirst (l : List (NewChunk V)) (chunk : NewChunk V) : List (NewChunk V) :=
  if chunk.key ∈ l.map NewChunk.key then l else l ++ [chunk]

/-- The stored chunks when a later insertion under a key replaces the earlier one. -/
def stored (calls : List (Call V)) : List (NewChunk V) := (chunksOf calls).foldl replace []

/-- The stored chunks when a later insertion under a key is refused. -/
def accepted (calls : List (Call V)) : List (NewChunk V) := (chunksOf calls).foldl keepFirst []

/-- The backends. -/
inductive Kind
  | chroma
  | milvus
  | redis (keyPrefix : Str)
  | upstash

def Kind.backend (vectorOf : Json → Option V) (distance : V → V → ℚ) : Kind → Backend V
  | chroma => Chroma.backend distance
  | milvus => Milvus.backend vectorOf distance
  | redis keyPrefix => Redis.backend keyPrefix distance
  | upstash => Upstash.backend distance

/-- Chroma: no stored chunk's metadata give it another `document_id`. Milvus: every key of another
document is the `id` of a row that the service takes, as it is when the metadata give its chunk no
`id` and no `vector`. Redis: the document has at most 10000 chunks. Upstash: no other document's id
begins with `document_id:`. -/
def Kind.Meets (vectorOf : Json → Option V) (calls : List (Call V)) (d : Str) : Kind → Prop
  | chroma => ∀ chunk ∈ stored calls, chunk.metadata.lookup "document_id".toList = none ∨
      chunk.metadata.lookup "document_id".toList = some (.str chunk.documentId)
  | milvus => ∀ chunk ∈ accepted calls, chunk.documentId ≠ d →
      ∃ chunk' ∈ accepted calls, ∃ e, Milvus.entity vectorOf chunk' = some e ∧ e.id = chunk.key
  | redis _ => (stored calls).countP (·.documentId = d) ≤ 10000
  | upstash => ∀ chunk ∈ stored calls, chunk.documentId ≠ d →
      ¬ d ++ [':'] <+: chunk.documentId

theorem asStr?_eq_some_iff {v : Json} {s : Str} : v.asStr? = some s ↔ v = .str s := by
  cases v with
  | str t => simp [Json.asStr?]
  | _ => simp [Json.asStr?]

/-- A part of the state that insertions of documents leave alone follows the inserted chunks. -/
theorem foldl_chunksOf {σ τ : Type} (exec : σ → Call V → σ) (part : σ → τ)
    (put : τ → NewChunk V → τ) (hdocument : ∀ s row, part (exec s (.insertDocument row)) = part s)
    (hchunk : ∀ s chunk, part (exec s (.insertChunk chunk)) = put (part s) chunk)
    (calls : List (Call V)) (s : σ) :
    part (calls.foldl exec s) = (chunksOf calls).foldl put (part s) := by
  induction calls generalizing s with
  | nil => rfl
  | cons call calls ih =>
    rw [List.foldl_cons, ih]
    cases call with
    | insertDocument row =>
      rw [hdocument]
      rfl
    | insertChunk chunk =>
      rw [hchunk]
      rfl

/-- Entries made of chunks are replaced as the chunks are. -/
theorem foldl_upsert {ε : Type} (f : NewChunk V → ε) (id : ε → Str) (k : Str → Str)
    (hid : ∀ chunk, id (f chunk) = k chunk.key) (hk : Function.Injective k)
    (chunks l : List (NewChunk V)) :
    chunks.foldl (fun es chunk => es.filter (id · ≠ k chunk.key) ++ [f chunk]) (l.map f) =
      (chunks.foldl replace l).map f := by
  induction chunks generalizing l with
  | nil => rfl
  | cons chunk chunks ih =>
    rw [List.foldl_cons, List.foldl_cons, ← ih, replace, List.map_append, List.filter_map,
      List.map_singleton]
    congr 3
    apply List.filter_congr
    intro c _
    simp [hid, hk.eq_iff]

/-- Chunks are put one by one into a list that keeps one for each key. -/
structure Keyed (put : List (NewChunk V) → NewChunk V → List (NewChunk V)) : Prop where
  mem : ∀ {l chunk c}, c ∈ put l chunk → c ∈ l ∨ c = chunk
  key : ∀ {l chunk k}, k ∈ l.map NewChunk.key ∨ k = chunk.key → k ∈ (put l chunk).map NewChunk.key
  nodup : ∀ {l chunk}, (l.map NewChunk.key).Nodup → ((put l chunk).map NewChunk.key).Nodup

namespace Keyed

variable {put : List (NewChunk V) → NewChunk V → List (NewChunk V)}

theorem mem_foldl (h : Keyed put) {chunks l : List (NewChunk V)} {c : NewChunk V}
    (hc : c ∈ chunks.foldl put l) : c ∈ l ∨ c ∈ chunks := by
  induction chunks generalizing l with
  | nil => exact .inl hc
  | cons chunk chunks ih =>
    rcases ih hc with hl | hl
    · rcases h.mem hl with hl | rfl
      · exact .inl hl
      · exact .inr List.mem_cons_self
    · exact .inr (List.mem_cons_of_mem _ hl)

theorem key_foldl (h : Keyed put) {chunks l : List (NewChunk V)} {k : Str}
    (hk : k ∈ l.map NewChunk.key ∨ k ∈ chunks.map NewChunk.key) :
    k ∈ (chunks.foldl put l).map NewChunk.key := by
  induction chunks generalizing l with
  | nil => simpa using hk
  | cons chunk chunks ih =>
    apply ih
    rcases hk with hk | hk
    · exact .inl (h.key (.inl hk))
    · rcases List.mem_cons.1 hk with hk | hk
      · exact .inl (h.key (.inr hk))
      · exact .inr hk

theorem nodup_foldl (h : Keyed put) {chunks l : List (NewChunk V)}
    (hl : (l.map NewChunk.key).Nodup) : ((chunks.foldl put l).map NewChunk.key).Nodup := by
  induction chunks generalizing l with
  | nil => exact hl
  | cons chunk chunks ih => exact ih (h.nodup hl)

/-- Every chunk has one of its key in the list. -/
theorem exists_foldl (h : Keyed put) {chunks : List (NewChunk V)} {chunk : NewChunk V}
    (hchunk : chunk ∈ chunks) : ∃ c ∈ chunks.foldl put [], c.key = chunk.key :=
  List.mem_map.1 (h.key_foldl (.inr (List.mem_map_of_mem hchunk)))

end Keyed

theorem keyed_replace : Keyed (replace (V := V)) where
  mem h := by
    rcases List.mem_append.1 h with h | h
    · exact .inl (List.mem_filter.1 h).1
    · exact .inr (List.mem_singleton.1 h)
  key {l chunk k} h := by
    by_cases heq : k = chunk.key
    · simp [replace, heq]
    · obtain ⟨c, hc, rfl⟩ := List.mem_map.1 (h.resolve_right heq)
      exact List.mem_map_of_mem (List.mem_append_left _
        (List.mem_filter.2 ⟨hc, decide_eq_true heq⟩))
  nodup {l chunk} h := by
    rw [replace, List.map_append, List.nodup_append]
    refine ⟨h.sublist (List.filter_sublist.map _), List.nodup_singleton _, ?_⟩
    rintro k hk k' hk' rfl
    obtain ⟨c, hc, rfl⟩ := List.mem_map.1 hk
    rw [List.map_singleton, List.mem_singleton] at hk'
    exact of_decide_eq_true (List.mem_filter.1 hc).2 hk'

theorem keyed_keepFirst : Keyed (keepFirst (V := V)) where
  mem {l chunk c} h := by
    unfold keepFirst at h
    split at h
    · exact .inl h
    · simpa using h
  key {l chunk k} h := by
    unfold keepFirst
    split
    · rename_i hin
      rcases h with h | rfl
      · exact h
      · exact hin
    · simpa using h
  nodup {l chunk} h := by
    unfold keepFirst
    split
    · exact h
    · rename_i hnot
      rw [List.map_append, List.nodup_append]
      refine ⟨h, List.nodup_singleton _, ?_⟩
      rintro k hk k' hk' rfl
      rw [List.map_singleton, List.mem_singleton] at hk'
      exact hnot (hk' ▸ hk)

theorem mem_stored {calls : List (Call V)} {chunk : NewChunk V} (h : chunk ∈ stored calls) :
    chunk ∈ chunksOf calls :=
  (keyed_replace.mem_foldl h).resolve_left List.not_mem_nil

theorem exists_stored {calls : List (Call V)} {chunk : NewChunk V} (h : chunk ∈ chunksOf calls) :
    ∃ chunk' ∈ stored calls, chunk'.key = chunk.key :=
  keyed_replace.exists_foldl h

theorem nodup_stored (calls : List (Call V)) : ((stored calls).map NewChunk.key).Nodup :=
  keyed_replace.nodup_foldl List.nodup_nil

theorem nodup_accepted (calls : List (Call V)) : ((accepted calls).map NewChunk.key).Nodup :=
  keyed_keepFirst.nodup_foldl List.nodup_nil

theorem mem_accepted {calls : List (Call V)} {chunk : NewChunk V} (h : chunk ∈ accepted calls) :
    chunk ∈ chunksOf calls :=
  (keyed_keepFirst.mem_foldl h).resolve_left List.not_mem_nil

theorem exists_accepted {calls : List (Call V)} {chunk : NewChunk V}
    (h : chunk ∈ chunksOf calls) : ∃ chunk' ∈ accepted calls, chunk'.key = chunk.key :=
  keyed_keepFirst.exists_foldl h

theorem accepted_inj {calls : List (Call V)} {c c' : NewChunk V} (hc : c ∈ accepted calls)
    (hc' : c' ∈ accepted calls) (h : c.key = c'.key) : c = c' :=
  List.inj_on_of_nodup_map (nodup_accepted calls) hc hc' h

/-- The key tells which document a chunk is of. -/
theorem documentId_of_key {c c' : NewChunk V} (h : c.key = c'.key) :
    c.documentId = c'.documentId :=
  (vectorKey_inj.1 h).1

theorem stored_inj {calls : List (Call V)} {c c' : NewChunk V} (hc : c ∈ stored calls)
    (hc' : c' ∈ stored calls) (h : c.key = c'.key) : c = c' :=
  List.inj_on_of_nodup_map (nodup_stored calls) hc hc' h

variable {vectorOf : Json → Option V} {distance : V → V → ℚ} {calls : List (Call V)} {d : Str}

/-! ## The backends that replace a chunk -/

/-- What a backend returns that keeps an entry for each stored chunk: under its id, unless the
deletion takes it away. -/
structure Keeps (b : Backend V) (calls : List (Call V)) (d : Str) (gone : NewChunk V → Prop)
    (hitOf : NewChunk V → Hit) : Prop where
  returns_iff : ∀ hit, b.Returns (b.deleteDocument d (b.run calls)) hit ↔
    ∃ chunk ∈ stored calls, ¬ gone chunk ∧ hit = hitOf chunk
  chunkId : ∀ chunk, (hitOf chunk).chunkId = b.chunkId chunk
  chunkId_inj : ∀ chunk chunk', b.chunkId chunk = b.chunkId chunk' ↔ chunk.key = chunk'.key

/-- Such a backend deletes a document rightly if the deletion takes away the entries of its chunks
and no others, and the others are returned as what they are. -/
theorem Keeps.deleted_iff {b : Backend V} {gone : NewChunk V → Prop} {hitOf : NewChunk V → Hit}
    (h : Keeps b calls d gone hitOf) :
    Deleted b calls d ↔ ∀ chunk ∈ stored calls,
      (chunk.documentId = d → gone chunk) ∧ (chunk.documentId ≠ d → ¬ gone chunk ∧
        (hitOf chunk).documentId = some (.str chunk.documentId)) := by
  constructor
  · intro hdel chunk hchunk
    refine ⟨fun hd => ?_, fun hd => ?_⟩
    · by_contra hgone
      exact hdel.complete (hitOf chunk) ((h.returns_iff _).2 ⟨chunk, hchunk, hgone, rfl⟩) chunk
        (mem_stored hchunk) hd (h.chunkId chunk)
    · obtain ⟨hit, hreturns, hid, hdoc⟩ := hdel.kept chunk (mem_stored hchunk) hd
      obtain ⟨chunk', hchunk', hgone, rfl⟩ := (h.returns_iff _).1 hreturns
      rw [h.chunkId] at hid
      have heq := stored_inj hchunk' hchunk ((h.chunkId_inj _ _).1 hid)
      subst heq
      exact ⟨hgone, hdoc⟩
  · intro hall
    refine ⟨fun hit hreturns chunk hchunk hd hid => ?_, fun chunk hchunk hd => ?_⟩
    · obtain ⟨chunk', hchunk', hgone, rfl⟩ := (h.returns_iff _).1 hreturns
      rw [h.chunkId] at hid
      have hdoc := documentId_of_key ((h.chunkId_inj _ _).1 hid)
      exact hgone ((hall chunk' hchunk').1 (hdoc.trans hd))
    · obtain ⟨chunk', hchunk', hkey⟩ := exists_stored hchunk
      have hdoc := documentId_of_key hkey
      obtain ⟨hgone, hhit⟩ := (hall chunk' hchunk').2 (hdoc ▸ hd)
      refine ⟨hitOf chunk', (h.returns_iff _).2 ⟨chunk', hchunk', hgone, rfl⟩, ?_, hdoc ▸ hhit⟩
      rw [h.chunkId, h.chunkId_inj]
      exact hkey

namespace Chroma

theorem collection_run (distance : V → V → ℚ) (calls : List (Call V)) :
    State.collection ((backend distance).run calls) = (stored calls).map entity := by
  have hrun := foldl_chunksOf (backend distance).exec State.collection
    (fun es chunk => es.filter (·.id ≠ chunk.key) ++ [entity chunk]) (fun _ _ => rfl)
    (fun _ _ => rfl) calls (backend distance).new
  exact hrun.trans (foldl_upsert entity Entity.id (fun key => key) (fun _ => rfl)
    Function.injective_id (chunksOf calls) [])

theorem returns_iff {s : State V} {hit : Hit} :
    (backend distance).Returns s hit ↔ ∃ e ∈ s.collection, hit = hitOf e := by
  constructor
  · rintro ⟨q, hq⟩
    obtain ⟨e, he, rfl⟩ := List.mem_map.1 hq
    exact ⟨e, (List.mem_filter.1 (mem_of_mem_nearest he)).1, rfl⟩
  · rintro ⟨e, he, rfl⟩
    refine ⟨⟨e.embedding, (s.collection.filter fun _ => true).length, fun _ => true⟩, ?_⟩
    exact List.mem_map_of_mem (mem_nearest _ (List.mem_filter.2 ⟨he, rfl⟩))

theorem keeps (distance : V → V → ℚ) (calls : List (Call V)) (d : Str) :
    Keeps (backend distance) calls d (fun chunk => (entity chunk).documentId? = some d)
      (fun chunk => hitOf (entity chunk)) where
  returns_iff hit := by
    refine returns_iff.trans ?_
    change (∃ e ∈ (State.collection ((backend distance).run calls)).filter
      (·.documentId? ≠ some d), hit = hitOf e) ↔ _
    rw [collection_run]
    simp [List.mem_filter, and_assoc]
  chunkId _ := rfl
  chunkId_inj _ _ := Iff.rfl

/-- What the metadata say, and otherwise the chunk's own document. -/
theorem documentId_entity (chunk : NewChunk V) :
    (entity chunk).metadata.lookup "document_id".toList =
      (chunk.metadata.lookup "document_id".toList).or (some (.str chunk.documentId)) :=
  lookup_merge _ _ _

theorem deleted_iff : Deleted (backend distance) calls d ↔ Kind.chroma.Meets vectorOf calls d := by
  rw [(keeps distance calls d).deleted_iff]
  apply forall₂_congr
  intro chunk _
  have hgone : (entity chunk).documentId? = some d ↔
      (entity chunk).metadata.lookup "document_id".toList = some (.str d) := by
    rw [Entity.documentId?, Option.bind_eq_some_iff]
    simp [asStr?_eq_some_iff]
  have hown : (entity chunk).metadata.lookup "document_id".toList =
        some (.str chunk.documentId) ↔
      chunk.metadata.lookup "document_id".toList = none ∨
        chunk.metadata.lookup "document_id".toList = some (.str chunk.documentId) := by
    rw [documentId_entity]
    cases chunk.metadata.lookup "document_id".toList <;> simp
  rw [hgone, ← hown]
  change _ ∧ (_ → _ ∧ (entity chunk).metadata.lookup "document_id".toList = _) ↔ _
  constructor
  · rintro ⟨hd, hne⟩
    by_cases heq : chunk.documentId = d
    · rw [heq]
      exact hd heq
    · exact (hne heq).2
  · intro h
    rw [h]
    simp

end Chroma

namespace Upstash

theorem vectors_run (distance : V → V → ℚ) (calls : List (Call V)) :
    State.vectors ((backend distance).run calls) = (stored calls).map entity := by
  have hrun := foldl_chunksOf (backend distance).exec State.vectors
    (fun es chunk => es.filter (·.id ≠ chunk.key) ++ [entity chunk]) (fun _ _ => rfl)
    (fun _ _ => rfl) calls (backend distance).new
  exact hrun.trans (foldl_upsert entity Entity.id (fun key => key) (fun _ => rfl)
    Function.injective_id (chunksOf calls) [])

theorem returns_iff {s : State V} {hit : Hit} :
    (backend distance).Returns s hit ↔ ∃ e ∈ s.vectors, hit = hitOf e := by
  constructor
  · rintro ⟨q, hq⟩
    obtain ⟨e, he, rfl⟩ := List.mem_map.1 hq
    exact ⟨e, (List.mem_filter.1 (mem_of_mem_nearest he)).1, rfl⟩
  · rintro ⟨e, he, rfl⟩
    refine ⟨⟨e.vector, (s.vectors.filter fun _ => true).length, fun _ => true⟩, ?_⟩
    exact List.mem_map_of_mem (mem_nearest _ (List.mem_filter.2 ⟨he, rfl⟩))

theorem keeps (distance : V → V → ℚ) (calls : List (Call V)) (d : Str) :
    Keeps (backend distance) calls d (fun chunk => d ++ [':'] <+: chunk.key)
      (fun chunk => hitOf (entity chunk)) where
  returns_iff hit := by
    refine returns_iff.trans ?_
    change (∃ e ∈ (State.vectors ((backend distance).run calls)).filter
      (fun e => ¬ d ++ [':'] <+: e.id), hit = hitOf e) ↔ _
    rw [vectors_run]
    simp [List.mem_filter, and_assoc, entity]
  chunkId _ := rfl
  chunkId_inj _ _ := Iff.rfl

theorem deleted_iff : Deleted (backend distance) calls d ↔ Kind.upstash.Meets vectorOf calls d := by
  rw [(keeps distance calls d).deleted_iff]
  apply forall₂_congr
  intro chunk _
  have hgone : d ++ [':'] <+: chunk.key ↔ d = chunk.documentId ∨ d ++ [':'] <+: chunk.documentId :=
    prefix_vectorKey_iff
  rw [hgone]
  constructor
  · rintro ⟨-, h⟩ hne hprefix
    exact (h hne).1 (.inr hprefix)
  · intro h
    refine ⟨fun heq => .inl heq.symm, fun hne => ⟨?_, ?_⟩⟩
    · rintro (heq | hprefix)
      · exact hne heq.symm
      · exact h hne hprefix
    · exact lookup_setDefaults rfl

end Upstash

namespace Redis

theorem hashes_run (keyPrefix : Str) (distance : V → V → ℚ) (calls : List (Call V)) :
    State.hashes ((backend keyPrefix distance).run calls) =
      (stored calls).map (hash keyPrefix) := by
  have hrun := foldl_chunksOf (backend keyPrefix distance).exec State.hashes
    (fun es chunk => es.filter (·.key ≠ keyPrefix ++ chunk.key) ++ [hash keyPrefix chunk])
    (fun _ _ => rfl) (fun _ _ => rfl) calls (backend keyPrefix distance).new
  exact hrun.trans (foldl_upsert (hash keyPrefix) Hash.key (keyPrefix ++ ·) (fun _ => rfl)
    (List.append_right_injective keyPrefix) (chunksOf calls) [])

theorem returns_iff {keyPrefix : Str} {s : State V} {hit : Hit} :
    (backend keyPrefix distance).Returns s hit ↔ ∃ h ∈ s.hashes, hit = hitOf h := by
  constructor
  · rintro ⟨q, hq⟩
    obtain ⟨e, he, rfl⟩ := List.mem_map.1 hq
    exact ⟨e, (List.mem_filter.1 (mem_of_mem_nearest he)).1, rfl⟩
  · rintro ⟨e, he, rfl⟩
    refine ⟨⟨e.vector, (s.hashes.filter fun _ => true).length, fun _ => true⟩, ?_⟩
    exact List.mem_map_of_mem (mem_nearest _ (List.mem_filter.2 ⟨he, rfl⟩))

/-- The chunks on the page of the search for a document. -/
def page (calls : List (Call V)) (d : Str) : List (NewChunk V) :=
  ((stored calls).filter (·.documentId = d)).take 10000

theorem keeps (keyPrefix : Str) (distance : V → V → ℚ) (calls : List (Call V)) (d : Str) :
    Keeps (backend keyPrefix distance) calls d
      (fun chunk => chunk.key ∈ (page calls d).map NewChunk.key)
      (fun chunk => hitOf (hash keyPrefix chunk)) where
  returns_iff hit := by
    refine returns_iff.trans ?_
    change (∃ e ∈ (State.hashes ((backend keyPrefix distance).run calls)).filter
      (fun h => h.key ∉ (((State.hashes ((backend keyPrefix distance).run calls)).filter
        (·.documentId = d)).take 10000).map Hash.key), hit = hitOf e) ↔ _
    have hkeys : ((((stored calls).map (hash keyPrefix)).filter
        (·.documentId = d)).take 10000).map Hash.key =
          (page calls d).map fun chunk => keyPrefix ++ chunk.key := by
      rw [List.filter_map, ← List.map_take, List.map_map]
      rfl
    rw [hashes_run, hkeys]
    simp [List.mem_filter, and_assoc, hash]
  chunkId _ := rfl
  chunkId_inj _ _ := ⟨fun h => List.append_cancel_left h, fun h => congrArg (keyPrefix ++ ·) h⟩

theorem deleted_iff {keyPrefix : Str} :
    Deleted (backend keyPrefix distance) calls d ↔ (Kind.redis keyPrefix).Meets vectorOf calls d := by
  rw [(keeps keyPrefix distance calls d).deleted_iff]
  change _ ↔ (stored calls).countP (·.documentId = d) ≤ 10000
  rw [List.countP_eq_length_filter]
  constructor
  · intro h
    by_contra hmore
    -- the first chunk after the page
    have hlt : 10000 < ((stored calls).filter (·.documentId = d)).length := by omega
    have hmem : ((stored calls).filter (·.documentId = d))[10000] ∈
        (stored calls).filter (·.documentId = d) := List.getElem_mem hlt
    obtain ⟨hstored, hd⟩ := List.mem_filter.1 hmem
    obtain ⟨chunk, hchunk, hkey⟩ := List.mem_map.1 ((h _ hstored).1 (of_decide_eq_true hd))
    obtain ⟨i, hi, heq⟩ := List.mem_take_iff_getElem.1 hchunk
    have hnodup := (nodup_stored calls).sublist
      ((List.filter_sublist (p := fun c => decide (c.documentId = d))).map NewChunk.key)
    rw [List.nodup_iff_injective_getElem] at hnodup
    have hsame := @hnodup ⟨i, by rw [List.length_map]; omega⟩ ⟨10000, by rwa [List.length_map]⟩
      (by simp only [List.getElem_map]; rw [heq, hkey])
    rw [Fin.mk.injEq] at hsame
    omega
  · intro hle chunk hchunk
    have hpage : page calls d = (stored calls).filter (·.documentId = d) :=
      List.take_of_length_le hle
    rw [hpage]
    refine ⟨fun hd => ?_, fun hd => ⟨fun hgone => ?_, rfl⟩⟩
    · exact List.mem_map_of_mem (List.mem_filter.2 ⟨hchunk, decide_eq_true hd⟩)
    · obtain ⟨chunk', hchunk', hkey⟩ := List.mem_map.1 hgone
      obtain ⟨-, hd'⟩ := List.mem_filter.1 hchunk'
      exact hd ((documentId_of_key hkey).symm.trans (of_decide_eq_true hd'))

end Redis

/-! ## Milvus, which refuses a second chunk -/

namespace Milvus

theorem insertChunk_state (chunk : NewChunk V) (s : State V) :
    ((insertChunk vectorOf chunk s).chunks, (insertChunk vectorOf chunk s).collection) =
      if chunk.key ∈ s.chunks.map ChunkRow.vectorKey then (s.chunks, s.collection)
      else (s.chunks ++ [chunkRow chunk], s.collection ++ (entity vectorOf chunk).toList) := by
  unfold insertChunk
  split <;> rfl

/-- The sidecar and the collection hold the accepted chunks. -/
theorem state_run (vectorOf : Json → Option V) (distance : V → V → ℚ) (calls : List (Call V)) :
    State.chunks ((backend vectorOf distance).run calls) = (accepted calls).map chunkRow ∧
      State.collection ((backend vectorOf distance).run calls) =
        (accepted calls).filterMap (entity vectorOf) := by
  have hrun := foldl_chunksOf (backend vectorOf distance).exec
    (fun s => (State.chunks s, State.collection s))
    (fun p chunk => if chunk.key ∈ p.1.map ChunkRow.vectorKey then p
      else (p.1 ++ [chunkRow chunk], p.2 ++ (entity vectorOf chunk).toList))
    (fun _ _ => rfl) (fun s chunk => insertChunk_state chunk s) calls
    (backend vectorOf distance).new
  have hput : ∀ chunks l : List (NewChunk V),
      chunks.foldl (fun p chunk => if chunk.key ∈ p.1.map ChunkRow.vectorKey then p
        else (p.1 ++ [chunkRow chunk], p.2 ++ (entity vectorOf chunk).toList))
        (l.map chunkRow, l.filterMap (entity vectorOf)) =
      ((chunks.foldl keepFirst l).map chunkRow,
        (chunks.foldl keepFirst l).filterMap (entity vectorOf)) := by
    intro chunks
    induction chunks with
    | nil => exact fun _ => rfl
    | cons chunk chunks ih =>
      intro l
      rw [List.foldl_cons, List.foldl_cons, ← ih]
      congr 1
      have hkeys : (l.map chunkRow).map ChunkRow.vectorKey = l.map NewChunk.key := by
        rw [List.map_map]
        rfl
      have hlast : [chunk].filterMap (entity vectorOf) = (entity vectorOf chunk).toList := by
        cases h : entity vectorOf chunk with
        | none => simp [h]
        | some e => simp [h]
      rw [hkeys, keepFirst]
      split
      · rfl
      · rw [List.map_append, List.filterMap_append, hlast]
        rfl
  have hboth := hrun.trans (hput (chunksOf calls) [])
  exact Prod.mk.injEq _ _ _ _ ▸ hboth

theorem returns_iff {s : State V} {hit : Hit} :
    (backend vectorOf distance).Returns s hit ↔ ∃ e ∈ s.collection,
      ∃ row, s.chunks.find? (·.vectorKey = e.id) = some row ∧ hit = hitOf row := by
  constructor
  · rintro ⟨q, hq⟩
    obtain ⟨e, he, hhit⟩ := List.mem_filterMap.1 hq
    obtain ⟨row, hfind, rfl⟩ := Option.map_eq_some_iff.1 hhit
    exact ⟨e, (List.mem_filter.1 (mem_of_mem_nearest he)).1, row, hfind, rfl⟩
  · rintro ⟨e, he, row, hfind, rfl⟩
    refine ⟨⟨e.vector, (s.collection.filter fun _ => true).length, fun _ => true⟩, ?_⟩
    apply List.mem_filterMap.2
    refine ⟨e, mem_nearest _ (List.mem_filter.2 ⟨he, rfl⟩), ?_⟩
    rw [hfind]
    rfl

/-- The row found for a key after a deletion is one of another document. -/
theorem find_deleted {l : List (NewChunk V)} {key : Str} {row : ChunkRow}
    (h : ((l.map chunkRow).filter (·.documentId ≠ d)).find? (·.vectorKey = key) = some row) :
    ∃ chunk ∈ l, chunk.documentId ≠ d ∧ chunk.key = key ∧ row = chunkRow chunk := by
  obtain ⟨hmem, hne⟩ := List.mem_filter.1 (List.mem_of_find?_eq_some h)
  have hkey : row.vectorKey = key := of_decide_eq_true (List.find?_some h :)
  obtain ⟨chunk, hchunk, rfl⟩ := List.mem_map.1 hmem
  exact ⟨chunk, hchunk, of_decide_eq_true hne, hkey, rfl⟩

/-- The keys that a deletion sends. -/
theorem mem_keys_iff {l : List (NewChunk V)} {key : Str} :
    key ∈ ((l.map chunkRow).filter (·.documentId = d)).map ChunkRow.vectorKey ↔
      ∃ chunk ∈ l, chunk.documentId = d ∧ chunk.key = key := by
  constructor
  · intro h
    obtain ⟨row, hrow, rfl⟩ := List.mem_map.1 h
    obtain ⟨hmem, hd⟩ := List.mem_filter.1 hrow
    obtain ⟨chunk, hchunk, rfl⟩ := List.mem_map.1 hmem
    exact ⟨chunk, hchunk, of_decide_eq_true hd, rfl⟩
  · rintro ⟨chunk, hchunk, hd, rfl⟩
    have hrow : chunkRow chunk ∈ (l.map chunkRow).filter (·.documentId = d) :=
      List.mem_filter.2 ⟨List.mem_map_of_mem hchunk, decide_eq_true hd⟩
    exact List.mem_map_of_mem hrow

/-- After the calls and a deletion, an entry that was inserted leads to a row of another document
with the entry's key. -/
theorem returns_delete_iff {hit : Hit} :
    (backend vectorOf distance).Returns
        (deleteDocument d ((backend vectorOf distance).run calls)) hit ↔
      ∃ chunk' ∈ accepted calls, ∃ chunk ∈ accepted calls,
        (∃ e, entity vectorOf chunk' = some e ∧ e.id = chunk.key) ∧ chunk.documentId ≠ d ∧
          hit = hitOf (chunkRow chunk) := by
  obtain ⟨hchunks, hcollection⟩ := state_run vectorOf distance calls
  refine returns_iff.trans ?_
  change (∃ e ∈ (State.collection ((backend vectorOf distance).run calls)).filter
    (·.id ∉ ((State.chunks ((backend vectorOf distance).run calls)).filter
      (·.documentId = d)).map ChunkRow.vectorKey),
    ∃ row, ((State.chunks ((backend vectorOf distance).run calls)).filter
      (·.documentId ≠ d)).find? (·.vectorKey = e.id) = some row ∧ hit = hitOf row) ↔ _
  rw [hchunks, hcollection]
  constructor
  · rintro ⟨e, he, row, hfind, rfl⟩
    obtain ⟨chunk', hchunk', hentity⟩ := List.mem_filterMap.1 (List.mem_filter.1 he).1
    obtain ⟨chunk, hchunk, hne, hkey, rfl⟩ := find_deleted hfind
    exact ⟨chunk', hchunk', chunk, hchunk, ⟨e, hentity, hkey.symm⟩, hne, rfl⟩
  · rintro ⟨chunk', hchunk', chunk, hchunk, ⟨e, hentity, hkey⟩, hne, rfl⟩
    have hmem := List.mem_filterMap.2 ⟨chunk', hchunk', hentity⟩
    refine ⟨e, List.mem_filter.2 ⟨hmem, ?_⟩, chunkRow chunk, ?_, rfl⟩
    · apply decide_eq_true
      intro hin
      obtain ⟨c, -, hd, hc⟩ := mem_keys_iff.1 hin
      exact hne ((documentId_of_key (hc.trans hkey)).symm.trans hd)
    · rw [hkey]
      have hrow : chunkRow chunk ∈
          ((accepted calls).map chunkRow).filter (·.documentId ≠ d) :=
        List.mem_filter.2 ⟨List.mem_map_of_mem hchunk, decide_eq_true hne⟩
      have hsome : (((accepted calls).map chunkRow).filter (·.documentId ≠ d)).find?
          (·.vectorKey = chunk.key) ≠ none := by
        intro hnone
        exact List.find?_eq_none.1 hnone _ hrow (decide_eq_true rfl)
      obtain ⟨row, hfind⟩ := Option.ne_none_iff_exists'.1 hsome
      obtain ⟨c, hc, -, hck, rfl⟩ := find_deleted hfind
      rw [hfind, accepted_inj hc hchunk hck]

theorem deleted_iff :
    Deleted (backend vectorOf distance) calls d ↔ Kind.milvus.Meets vectorOf calls d := by
  constructor
  · intro h chunk hchunk hne
    obtain ⟨hit, hreturns, hid, -⟩ := h.kept chunk (mem_accepted hchunk) hne
    obtain ⟨chunk', hchunk', c, -, ⟨e, hentity, hkey⟩, -, rfl⟩ := returns_delete_iff.1 hreturns
    exact ⟨chunk', hchunk', e, hentity, hkey.trans hid⟩
  · intro h
    refine ⟨fun hit hreturns chunk _ hd hid => ?_, fun chunk hchunk hne => ?_⟩
    · obtain ⟨-, -, c, -, -, hne, rfl⟩ := returns_delete_iff.1 hreturns
      exact hne ((documentId_of_key hid).trans hd)
    · obtain ⟨c, hc, hkey⟩ := exists_accepted hchunk
      have hdoc := documentId_of_key hkey
      obtain ⟨chunk', hchunk', hentity⟩ := h c hc (hdoc ▸ hne)
      refine ⟨hitOf (chunkRow c), returns_delete_iff.2 ⟨chunk', hchunk', c, hc, hentity,
        hdoc ▸ hne, rfl⟩, hkey, ?_⟩
      rw [← hdoc]
      rfl

end Milvus

end RagLeap.Rag.Deletion
