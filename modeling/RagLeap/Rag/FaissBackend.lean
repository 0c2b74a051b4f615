import Mathlib
import RagLeap.Foundations.Steps
import RagLeap.Rag.VectorBackend

/-!
# The FAISS backend

`FAISSBackend` keeps the vectors in a FAISS index and everything else in SQLite; a chunk is written
to both, one after the other, under the row id of its chunk. Any step of an operation may raise
(`Point`), and what the steps before it did stays.

`ids_agree_iff` says in which runs the index has the ids of the table after every operation.
-/

namespace RagLeap.Rag.Faiss

open Steps

/-! ## The two stores -/

/-- A row of `chunks`. -/
structure ChunkRow where
  vid : ℕ
  documentId : Str
  documentName : Str
  chunkIndex : ℤ
  text : Str
  tokenCount : ℤ
  metadata : Metadata

/-- The database, as its connection sees it. `lastVid` is the counter of `AUTOINCREMENT`. -/
structure Database where
  documents : List DocumentRow
  chunks : List ChunkRow
  lastVid : ℕ
  nodup : (chunks.map ChunkRow.vid).Nodup
  vid_le : ∀ c ∈ chunks, c.vid ≤ lastVid

/-- An index of vectors of one dimension, with their ids. -/
structure Index (F : Type) where
  dimensions : ℕ
  vectors : List (ℕ × List F)
  nodup : (vectors.map Prod.fst).Nodup

/-- The backend; the index is there after `init_schema`. -/
structure State (F : Type) where
  database : Database
  index : Option (Index F)
  dimensions : Option ℕ

variable {F : Type}

/-- The ids of an index. -/
def Index.ids (index : Index F) : List ℕ := index.vectors.map Prod.fst

/-- `IndexIDMap(IndexFlatIP(dimensions))`. -/
def Index.new (dimensions : ℕ) : Index F := ⟨dimensions, [], List.nodup_nil⟩

/-- `add_with_ids` of one vector, which replaces one under the same id. -/
def Index.add (index : Index F) (vid : ℕ) (vector : List F) : Index F where
  dimensions := index.dimensions
  vectors := index.vectors.filter (·.1 ≠ vid) ++ [(vid, vector)]
  nodup := by
    rw [List.map_append, List.nodup_append]
    refine ⟨index.nodup.sublist (List.filter_sublist.map _), List.nodup_singleton _, ?_⟩
    rintro a ha b hb rfl
    obtain ⟨e, he, rfl⟩ := List.mem_map.1 ha
    have hne := (List.mem_filter.1 he).2
    rw [List.map_singleton, List.mem_singleton] at hb
    exact of_decide_eq_true hne hb

/-- `remove_ids`. -/
def Index.remove (index : Index F) (vids : List ℕ) : Index F where
  dimensions := index.dimensions
  vectors := index.vectors.filter (·.1 ∉ vids)
  nodup := index.nodup.sublist (List.filter_sublist.map _)

theorem Index.mem_ids_add {index : Index F} {vid id : ℕ} {vector : List F} :
    id ∈ (index.add vid vector).ids ↔ id ∈ index.ids ∨ id = vid := by
  by_cases h : id = vid
  · simp [Index.ids, Index.add, h]
  · simp [Index.ids, Index.add, h]

theorem Index.mem_ids_remove {index : Index F} {vids : List ℕ} {id : ℕ} :
    id ∈ (index.remove vids).ids ↔ id ∈ index.ids ∧ id ∉ vids := by
  simp only [Index.ids, Index.remove, List.mem_map, List.mem_filter, decide_eq_true_eq]
  constructor
  · rintro ⟨e, ⟨he, hne⟩, rfl⟩
    exact ⟨⟨e, he, rfl⟩, hne⟩
  · rintro ⟨⟨e, he, rfl⟩, hne⟩
    exact ⟨e, ⟨he, hne⟩, rfl⟩

namespace Database

/-- The tables of a new file. -/
def empty : Database := ⟨[], [], 0, List.nodup_nil, nofun⟩

/-- `INSERT INTO documents`; the id is the primary key. -/
def insertDocument (db : Database) (row : DocumentRow) : Option Database :=
  if row.id ∈ db.documents.map DocumentRow.id then none
  else some { db with documents := db.documents ++ [row] }

/-- `INSERT INTO chunks`, under the next id. -/
def insertChunk (db : Database) (documentId documentName : Str) (chunkIndex : ℤ) (text : Str)
    (tokenCount : ℤ) (metadata : Metadata) : Database where
  documents := db.documents
  chunks := db.chunks ++
    [⟨db.lastVid + 1, documentId, documentName, chunkIndex, text, tokenCount, metadata⟩]
  lastVid := db.lastVid + 1
  nodup := by
    rw [List.map_append, List.nodup_append]
    refine ⟨db.nodup, List.nodup_singleton _, ?_⟩
    intro a ha b hb hab
    obtain ⟨c, hc, rfl⟩ := List.mem_map.1 ha
    have hle := db.vid_le c hc
    rw [List.map_singleton, List.mem_singleton] at hb
    dsimp only at hb
    omega
  vid_le := by
    intro c hc
    rcases List.mem_append.1 hc with hc | hc
    · have hle := db.vid_le c hc
      omega
    · rw [List.mem_singleton.1 hc]

/-- `DELETE FROM documents WHERE id = ?`. -/
def deleteDocument (db : Database) (documentId : Str) : Database :=
  { db with documents := db.documents.filter (·.id ≠ documentId) }

/-- `DELETE FROM chunks WHERE document_id = ?`. -/
def deleteChunks (db : Database) (documentId : Str) : Database where
  documents := db.documents
  chunks := db.chunks.filter (·.documentId ≠ documentId)
  lastVid := db.lastVid
  nodup := db.nodup.sublist (List.filter_sublist.map _)
  vid_le c hc := db.vid_le c (List.mem_filter.1 hc).1

/-- `SELECT vid FROM chunks WHERE document_id = ?`. -/
def vidsOf (db : Database) (documentId : Str) : List ℕ :=
  (db.chunks.filter (·.documentId = documentId)).map ChunkRow.vid

end Database

/-! ## Operations -/

/-- The steps at which an operation may raise. -/
inductive Point
  | select
  | insertRow
  | commit
  | normalize
  | addWithIds
  | removeIds
  | deleteDocuments
  | deleteChunks
  | saveIndex
  | search
  deriving DecidableEq

/-- The operations. -/
inductive Op (F : Type)
  | insertDocument (row : DocumentRow)
  | insertChunk (chunk : NewChunk (List F))
  | deleteDocument (documentId : Str)
  | searchDense (embedding : List F) (topK : ℕ) (metadataFilter : Option (Metadata → Bool))

/-- What the vectors are compared with: `normalize_L2`, the inner product, `round(_, 4)`. -/
structure Metric (F : Type) where
  normalize : List F → List F
  inner : List F → List F → ℚ
  round4 : ℚ → ℚ

/-- A search result. -/
structure Hit where
  chunkId : ℕ
  text : Str
  similarityScore : ℚ
  documentId : Str
  documentName : Str
  chunkIndex : ℤ

variable (metric : Metric F)

/-- `insert_chunk`: whether it returns, and the state it leaves; `raises` is the step that raises,
if any. FAISS refuses a vector of another dimension. -/
def insertChunk (raises : Option Point) (chunk : NewChunk (List F)) (s : State F) : Bool × State F :=
  if raises = some .insertRow then (false, s)
  else
    let vid := s.database.lastVid + 1
    let database := s.database.insertChunk chunk.documentId chunk.documentName chunk.chunkIndex
      chunk.text chunk.tokenCount chunk.metadata
    let s := { s with database }
    if raises = some .commit ∨ raises = some .normalize then (false, s)
    else
      match s.index with
      | none => (false, s)
      | some index =>
        if raises = some .addWithIds ∨ chunk.embedding.length ≠ index.dimensions then (false, s)
        else
          (raises ≠ some .saveIndex,
            { s with index := some (index.add vid (metric.normalize chunk.embedding)) })

/-- `delete_document`. -/
def deleteDocument (raises : Option Point) (documentId : Str) (s : State F) : Bool × State F :=
  if raises = some .select then (false, s)
  else
    let vids := s.database.vidsOf documentId
    let removed : Option (Option (Index F)) :=
      if vids = [] then some s.index
      else
        match s.index with
        | none => none
        | some index => if raises = some .removeIds then none else some (some (index.remove vids))
    match removed with
    | none => (false, s)
    | some index =>
      let s := { s with index }
      if raises = some .deleteDocuments then (false, s)
      else
        let s := { s with database := s.database.deleteDocument documentId }
        if raises = some .deleteChunks then (false, s)
        else
          (raises ≠ some .commit ∧ raises ≠ some .saveIndex,
            { s with database := s.database.deleteChunks documentId })

/-- `insert_document`. -/
def insertDocument (raises : Option Point) (row : DocumentRow) (s : State F) : Bool × State F :=
  if raises = some .insertRow then (false, s)
  else
    match s.database.insertDocument row with
    | none => (false, s)
    | some database => (raises ≠ some .commit, { s with database })

/-- `index.search`: the `k` best vectors. -/
def Index.search (index : Index F) (query : List F) (k : ℕ) : List (ℚ × ℕ) :=
  ((index.vectors.map fun e => (metric.inner query e.2, e.1)).mergeSort
    fun a b => decide (b.1 ≤ a.1)).take k

/-- The hit of a row, if it passes the filter. -/
def hitOf (db : Database) (metadataFilter : Option (Metadata → Bool)) (e : ℚ × ℕ) : Option Hit :=
  match db.chunks.find? (·.vid = e.2) with
  | none => none
  | some row =>
    if (metadataFilter.all fun test => test row.metadata) = true then
      some ⟨row.vid, row.text, metric.round4 (max 0 (min 1 ((e.1 + 1) / 2))), row.documentId,
        row.documentName, row.chunkIndex⟩
    else none

/-- `search_dense`; `none` where it raises, as FAISS does for `k = 0`. -/
def searchDense (raises : Option Point) (embedding : List F) (topK : ℕ)
    (metadataFilter : Option (Metadata → Bool)) (s : State F) : Option (List Hit) :=
  match s.index with
  | none => some []
  | some index =>
    if embedding = [] ∨ index.vectors = [] then some []
    else if (s.dimensions.any fun d => d ≠ 0 && embedding.length ≠ d) = true then some []
    else
      let fetchK := min (if metadataFilter.isSome then topK * 5 else topK) index.vectors.length
      if fetchK = 0 ∨ raises = some .normalize ∨ raises = some .search ∨ raises = some .select then
        none
      else
        some (((index.search metric (metric.normalize embedding) fetchK).filterMap
          (hitOf metric s.database metadataFilter)).take topK)

/-- The state after an operation at which `raises`, if it is a step of it, raises. -/
def step (s : State F) (a : Op F × Option Point) : State F :=
  match a.1 with
  | .insertDocument row => (insertDocument a.2 row s).2
  | .insertChunk chunk => (insertChunk metric a.2 chunk s).2
  | .deleteDocument documentId => (deleteDocument a.2 documentId s).2
  | .searchDense .. => s

/-- A backend after `init_schema` on an empty database. -/
def State.opened (dimensions : ℕ) : State F where
  database := .empty
  index := some (.new dimensions)
  dimensions := some dimensions

/-! ## The ids of the two stores -/

/-- The ids in the index. -/
def State.ids (s : State F) : List ℕ :=
  match s.index with
  | none => []
  | some index => index.ids

/-- The index has the ids of the table. -/
def Represents (s : State F) : Prop := ∀ id, id ∈ s.ids ↔ id ∈ s.database.chunks.map ChunkRow.vid

/-- `insert_chunk` raises at its `INSERT`, or nothing after that raises before the vector is in,
for which it has the dimension of the index; `delete_document` does not raise at a `DELETE` when it
has taken vectors out. -/
def Meets (s : State F) (a : Op F × Option Point) : Prop :=
  match a.1 with
  | .insertChunk chunk =>
    a.2 = some .insertRow ∨
      (a.2 ≠ some .commit ∧ a.2 ≠ some .normalize ∧ a.2 ≠ some .addWithIds ∧
        s.index.map Index.dimensions = some chunk.embedding.length)
  | .deleteDocument documentId =>
    s.database.vidsOf documentId = [] ∨
      (a.2 ≠ some .deleteDocuments ∧ a.2 ≠ some .deleteChunks)
  | _ => True

variable {metric} {s : State F} {raises : Option Point}

theorem mem_vids_insertChunk {db : Database} {id : ℕ} {d name : Str} {i : ℤ} {text : Str}
    {n : ℤ} {metadata : Metadata} :
    id ∈ (db.insertChunk d name i text n metadata).chunks.map ChunkRow.vid ↔
      id ∈ db.chunks.map ChunkRow.vid ∨ id = db.lastVid + 1 := by
  simp only [Database.insertChunk, List.map_append, List.mem_append, List.map_singleton,
    List.mem_singleton]

theorem next_not_mem_vids (db : Database) : db.lastVid + 1 ∉ db.chunks.map ChunkRow.vid := by
  intro h
  obtain ⟨c, hc, heq⟩ := List.mem_map.1 h
  have hle := db.vid_le c hc
  omega

theorem mem_vids_deleteChunks {db : Database} {d : Str} {id : ℕ} :
    id ∈ (db.deleteChunks d).chunks.map ChunkRow.vid ↔
      id ∈ db.chunks.map ChunkRow.vid ∧ id ∉ db.vidsOf d := by
  simp only [Database.deleteChunks, Database.vidsOf, List.mem_map, List.mem_filter,
    decide_eq_true_eq]
  constructor
  · rintro ⟨c, ⟨hc, hd⟩, rfl⟩
    refine ⟨⟨c, hc, rfl⟩, ?_⟩
    rintro ⟨c', ⟨hc', hd'⟩, hvid⟩
    have hsame := List.inj_on_of_nodup_map db.nodup hc' hc hvid
    rw [hsame] at hd'
    exact hd hd'
  · rintro ⟨⟨c, hc, rfl⟩, hnot⟩
    exact ⟨c, ⟨hc, fun hd => hnot ⟨c, ⟨hc, hd⟩, rfl⟩⟩, rfl⟩

/-- A row without its vector. -/
theorem not_represents_of_row {d name : Str} {i : ℤ} {text : Str} {n : ℤ} {metadata : Metadata}
    (hs : Represents s) :
    ¬ Represents { s with database := s.database.insertChunk d name i text n metadata } := by
  intro h
  have hnew := (h (s.database.lastVid + 1)).2 (mem_vids_insertChunk.2 (.inr rfl))
  exact next_not_mem_vids s.database ((hs _).1 hnew)

theorem insertChunk_represents_iff (hs : Represents s) (chunk : NewChunk (List F)) :
    Represents (insertChunk metric raises chunk s).2 ↔ Meets s (.insertChunk chunk, raises) := by
  unfold insertChunk Meets
  dsimp only
  split
  case isTrue hrow => exact iff_of_true hs (.inl hrow)
  case isFalse hrow =>
    split
    case isTrue hor =>
      refine iff_of_false (not_represents_of_row hs) ?_
      rintro (h | ⟨hcommit, hnormalize, -⟩)
      · exact hrow h
      · rcases hor with h | h
        · exact hcommit h
        · exact hnormalize h
    case isFalse hor =>
      cases hindex : s.index with
      | none =>
        refine iff_of_false (fun h => ?_) ?_
        · dsimp only at h
          rw [← hindex] at h
          exact not_represents_of_row hs h
        rintro (h | ⟨-, -, -, h⟩)
        · exact hrow h
        · cases h
      | some index =>
        dsimp only
        split
        case isTrue hadd =>
          refine iff_of_false (fun h => ?_) ?_
          · dsimp only at h
            rw [← hindex] at h
            exact not_represents_of_row hs h
          rintro (h | ⟨-, -, hne, h⟩)
          · exact hrow h
          · rcases hadd with hadd | hadd
            · exact hne hadd
            · exact hadd (Option.some.inj h).symm
        case isFalse hadd =>
          rw [not_or, not_not] at hadd
          rw [not_or] at hor
          refine iff_of_true (fun id => ?_) (.inr ⟨hor.1, hor.2, hadd.1, by rw [hadd.2]; rfl⟩)
          have hold : id ∈ index.ids ↔ id ∈ s.database.chunks.map ChunkRow.vid := by
            rw [← hs id, State.ids, hindex]
          rw [mem_vids_insertChunk, ← hold]
          exact Index.mem_ids_add

/-- Vectors taken out, with their rows still there. -/
theorem not_represents_of_removed {s' : State F} {index : Index F} {documentId : Str}
    (hne : s.database.vidsOf documentId ≠ [])
    (hindex : s'.index = some (index.remove (s.database.vidsOf documentId)))
    (hchunks : s'.database.chunks = s.database.chunks) : ¬ Represents s' := by
  intro h
  obtain ⟨vid, hvid⟩ := List.exists_mem_of_ne_nil _ hne
  obtain ⟨c, hc, rfl⟩ := List.mem_map.1 hvid
  have hrow : c.vid ∈ s'.database.chunks.map ChunkRow.vid := by
    rw [hchunks]
    exact List.mem_map_of_mem (List.mem_filter.1 hc).1
  have hmem := (h c.vid).2 hrow
  rw [State.ids, hindex] at hmem
  exact (Index.mem_ids_remove.1 hmem).2 hvid

theorem deleteDocument_represents_iff (hs : Represents s) (documentId : Str) :
    Represents (deleteDocument raises documentId s).2 ↔
      Meets s (.deleteDocument documentId, raises) := by
  unfold deleteDocument Meets
  dsimp only
  by_cases hselect : raises = some .select
  · rw [if_pos hselect, hselect]
    exact iff_of_true hs (.inr ⟨nofun, nofun⟩)
  rw [if_neg hselect]
  by_cases hnone : s.database.vidsOf documentId = []
  · rw [if_pos hnone]
    refine iff_of_true ?_ (.inl hnone)
    dsimp only
    split
    · exact hs
    · split
      · exact hs
      · intro id
        rw [mem_vids_deleteChunks]
        change id ∈ s.ids ↔ id ∈ s.database.chunks.map ChunkRow.vid ∧
          id ∉ s.database.vidsOf documentId
        rw [hs id, hnone]
        simp
  rw [if_neg hnone]
  cases hindex : s.index with
  | none =>
    obtain ⟨vid, hvid⟩ := List.exists_mem_of_ne_nil _ hnone
    obtain ⟨c, hc, rfl⟩ := List.mem_map.1 hvid
    have hmem := (hs c.vid).2 (List.mem_map_of_mem (List.mem_filter.1 hc).1)
    rw [State.ids, hindex] at hmem
    cases hmem
  | some index =>
    by_cases hremove : raises = some .removeIds
    · simp only [if_pos hremove]
      rw [hremove]
      exact iff_of_true hs (.inr ⟨nofun, nofun⟩)
    simp only [if_neg hremove]
    by_cases hdocuments : raises = some .deleteDocuments
    · rw [if_pos hdocuments]
      refine iff_of_false (not_represents_of_removed hnone rfl rfl) ?_
      rintro (h | ⟨h, -⟩)
      · exact hnone h
      · exact h hdocuments
    rw [if_neg hdocuments]
    by_cases hchunks : raises = some .deleteChunks
    · rw [if_pos hchunks]
      refine iff_of_false (not_represents_of_removed hnone rfl rfl) ?_
      rintro (h | ⟨-, h⟩)
      · exact hnone h
      · exact h hchunks
    rw [if_neg hchunks]
    refine iff_of_true (fun id => ?_) (.inr ⟨hdocuments, hchunks⟩)
    have hold : id ∈ index.ids ↔ id ∈ s.database.chunks.map ChunkRow.vid := by
      rw [← hs id, State.ids, hindex]
    rw [mem_vids_deleteChunks]
    change _ ↔ id ∈ s.database.chunks.map ChunkRow.vid ∧ id ∉ s.database.vidsOf documentId
    rw [← hold]
    exact Index.mem_ids_remove

theorem step_represents_iff (a : Op F × Option Point) (hs : Represents s) :
    Represents (step metric s a) ↔ Meets s a := by
  obtain ⟨op, raises⟩ := a
  cases op with
  | insertDocument row =>
    refine iff_of_true ?_ trivial
    unfold step insertDocument
    dsimp only
    split
    · exact hs
    · split
      · exact hs
      · rename_i database hins
        unfold Database.insertDocument at hins
        split at hins
        · cases hins
        · cases hins
          exact hs
  | insertChunk chunk => exact insertChunk_represents_iff hs chunk
  | deleteDocument documentId => exact deleteDocument_represents_iff hs documentId
  | searchDense embedding topK metadataFilter => exact iff_of_true hs trivial

/-! ## Search -/

/-- The dimension of the index and the one the backend was opened with are the same. -/
def SameDimensions (dimensions : ℕ) (s : State F) : Prop :=
  s.dimensions = some dimensions ∧ s.index.map Index.dimensions = some dimensions

theorem hitOf_isSome {db : Database} {e : ℚ × ℕ} (h : e.2 ∈ db.chunks.map ChunkRow.vid) :
    (hitOf metric db none e).isSome := by
  unfold hitOf
  obtain ⟨c, hc, hvid⟩ := List.mem_map.1 h
  cases hfind : db.chunks.find? (·.vid = e.2) with
  | none =>
    have hnot := List.find?_eq_none.1 hfind c hc
    exact absurd (decide_eq_true hvid) hnot
  | some row => rfl

theorem length_filterMap_of_isSome {α β : Type} {f : α → Option β} {l : List α}
    (h : ∀ a ∈ l, (f a).isSome) : (l.filterMap f).length = l.length := by
  induction l with
  | nil => rfl
  | cons a l ih =>
    obtain ⟨b, hb⟩ := Option.isSome_iff_exists.1 (h a List.mem_cons_self)
    rw [List.filterMap_cons_some hb, List.length_cons, List.length_cons,
      ih fun a ha => h a (List.mem_cons_of_mem _ ha)]

theorem Index.mem_search {index : Index F} {query : List F} {k : ℕ} {e : ℚ × ℕ}
    (h : e ∈ index.search metric query k) : e.2 ∈ index.ids := by
  have hmem := List.mem_mergeSort.1 (List.mem_of_mem_take h)
  obtain ⟨v, hv, rfl⟩ := List.mem_map.1 hmem
  exact List.mem_map_of_mem hv

theorem Index.length_search (index : Index F) (query : List F) (k : ℕ) :
    (index.search metric query k).length = min k index.vectors.length := by
  rw [Index.search, List.length_take, List.length_mergeSort, List.length_map]

/-- With the ids in agreement, a search that raises nowhere gives all it can. -/
theorem length_searchDense {dimensions : ℕ} (hs : Represents s) (hdim : SameDimensions dimensions s)
    {embedding : List F} (hne : embedding ≠ []) (hlen : embedding.length = dimensions) {topK : ℕ}
    (hpos : 0 < topK) :
    ∃ hits, searchDense metric none embedding topK none s = some hits ∧
      hits.length = min topK s.database.chunks.length := by
  obtain ⟨index, hindex, -⟩ := Option.map_eq_some_iff.1 hdim.2
  have hids : ∀ id, id ∈ index.ids ↔ id ∈ s.database.chunks.map ChunkRow.vid := by
    intro id
    rw [← hs id, State.ids, hindex]
  have hcount : index.vectors.length = s.database.chunks.length := by
    have hperm := (List.perm_ext_iff_of_nodup index.nodup s.database.nodup).2 hids
    have hlength := hperm.length_eq
    rwa [List.length_map, List.length_map] at hlength
  unfold searchDense
  rw [hindex]
  dsimp only
  by_cases hempty : index.vectors = []
  · rw [if_pos (.inr hempty)]
    refine ⟨[], rfl, ?_⟩
    rw [← hcount, hempty]
    simp
  rw [if_neg (by simp [hne, hempty]), if_neg (by simp [hdim.1, hlen])]
  have hvectors : 0 < index.vectors.length := List.length_pos_of_ne_nil hempty
  have hfetch : min topK index.vectors.length ≠ 0 := by omega
  simp only [Option.isSome_none, Bool.false_eq_true, if_false]
  rw [if_neg (by simp [hfetch])]
  refine ⟨_, rfl, ?_⟩
  rw [List.length_take, length_filterMap_of_isSome, Index.length_search, hcount]
  · omega
  · intro e he
    exact hitOf_isSome ((hids e.2).1 (Index.mem_search he))

theorem index_deleteDocument (raises : Option Point) (documentId : Str) (s : State F) :
    (deleteDocument raises documentId s).2.dimensions = s.dimensions ∧
      ((deleteDocument raises documentId s).2.index = s.index ∨
        ∃ index, s.index = some index ∧ (deleteDocument raises documentId s).2.index =
          some (index.remove (s.database.vidsOf documentId))) := by
  unfold deleteDocument
  split
  · exact ⟨rfl, .inl rfl⟩
  · dsimp only
    by_cases hnone : s.database.vidsOf documentId = []
    · rw [if_pos hnone]
      dsimp only
      split
      · exact ⟨rfl, .inl rfl⟩
      · split
        · exact ⟨rfl, .inl rfl⟩
        · exact ⟨rfl, .inl rfl⟩
    · rw [if_neg hnone]
      cases hindex : s.index with
      | none => exact ⟨rfl, .inl hindex⟩
      | some index =>
        by_cases hremove : raises = some .removeIds
        · simp only [if_pos hremove]
          exact ⟨trivial, .inl hindex⟩
        · simp only [if_neg hremove]
          refine ⟨?_, .inr ⟨index, rfl, ?_⟩⟩
          all_goals
            split
            · rfl
            · split <;> rfl

theorem sameDimensions_step {dimensions : ℕ} (a : Op F × Option Point)
    (h : SameDimensions dimensions s) : SameDimensions dimensions (step metric s a) := by
  obtain ⟨op, raises⟩ := a
  obtain ⟨hd, hi⟩ := h
  cases op with
  | insertDocument row =>
    unfold step insertDocument
    dsimp only
    split
    · exact ⟨hd, hi⟩
    · split
      · exact ⟨hd, hi⟩
      · exact ⟨hd, hi⟩
  | insertChunk chunk =>
    unfold step insertChunk
    dsimp only
    split
    · exact ⟨hd, hi⟩
    · split
      · exact ⟨hd, hi⟩
      · cases hindex : s.index with
        | none =>
          rw [hindex] at hi
          cases hi
        | some index =>
          rw [hindex] at hi
          dsimp only
          split
          · exact ⟨hd, hi⟩
          · exact ⟨hd, hi⟩
  | deleteDocument documentId =>
    have hindex := index_deleteDocument raises documentId s
    refine ⟨hindex.1.trans hd, ?_⟩
    rcases hindex.2 with h | ⟨index, hold, hnew⟩
    · exact (congrArg _ h).trans hi
    · change (deleteDocument raises documentId s).2.index.map Index.dimensions = _
      rw [hnew, ← hi, hold]
      rfl
  | searchDense embedding topK metadataFilter => exact ⟨hd, hi⟩

/-- **The ids of the index and of the table.** In a run of operations, each of which may raise at
any of its steps, they agree after every operation exactly if each operation meets the condition;
and then a search gives `min top_k n` hits of `n` stored chunks. -/
theorem ids_agree_iff (metric : Metric F) (dimensions : ℕ) (run : List (Op F × Option Point)) :
    (Each (step metric) (fun s a => Represents (step metric s a)) (.opened dimensions) run ↔
      Each (step metric) Meets (.opened dimensions) run) ∧
    (Each (step metric) Meets (.opened dimensions) run →
      ∀ (embedding : List F) (topK : ℕ), embedding ≠ [] → embedding.length = dimensions →
        0 < topK → ∃ hits,
          searchDense metric none embedding topK none
            (run.foldl (step metric) (.opened dimensions)) = some hits ∧
          hits.length = min topK
            (run.foldl (step metric) (.opened dimensions)).database.chunks.length) := by
  have hopened : Represents (State.opened dimensions : State F) := fun id => by
    simp [State.opened, Database.empty, State.ids, Index.new, Index.ids]
  have hsame : SameDimensions dimensions (State.opened dimensions : State F) := ⟨rfl, rfl⟩
  refine ⟨?_, ?_⟩
  · exact each_iff (I := Represents) (fun _ a hs => step_represents_iff a hs)
      (fun _ _ _ h => h) hopened run
  · intro hrun embedding topK hne hlen hpos
    have hinv : ∀ s (a : Op F × Option Point), Represents s ∧ SameDimensions dimensions s →
        Meets s a → Represents (step metric s a) ∧ SameDimensions dimensions (step metric s a) := by
      rintro s a ⟨hs, hd⟩ ha
      exact ⟨(step_represents_iff a hs).2 ha, sameDimensions_step a hd⟩
    obtain ⟨hs, hd⟩ := inv_of_each (I := fun s => Represents s ∧ SameDimensions dimensions s) hinv
      ⟨hopened, hsame⟩ hrun
    exact length_searchDense hs hd hne hlen hpos

/-- A metric that tells nothing apart. -/
def Metric.flat : Metric ℕ := ⟨id, fun _ _ => 0, id⟩

/-- The agreement at work: one chunk is stored, and found. -/
theorem ids_agree_iff_chunk :
    ∃ hits, searchDense Metric.flat none [5] 3 none
        ([(Op.insertChunk ⟨['d'], ['n'], 0, ['t'], 1, [7], []⟩, none)].foldl (step .flat)
          (.opened 1)) = some hits ∧ hits.length = 1 :=
  (ids_agree_iff .flat 1 [(.insertChunk ⟨['d'], ['n'], 0, ['t'], 1, [7], []⟩, none)]).2
    ⟨.inr ⟨nofun, nofun, nofun, rfl⟩, trivial⟩ [5] 3 (by decide) rfl (by decide)

/-- A vector of the wrong dimension: its row is in the table when FAISS refuses it. -/
theorem refused_vector_leaves_row :
    ¬ ∀ (metric : Metric ℕ) (dimensions : ℕ) (run : List (Op ℕ × Option Point)),
      Each (step metric) (fun s a => Represents (step metric s a)) (.opened dimensions) run := by
  intro h
  have hagree := (h .flat 2 [(.insertChunk ⟨['d'], ['n'], 0, ['t'], 1, [1, 2, 3], []⟩, none)]).1 1
  exact absurd (hagree.2 (by decide)) (by decide)

end RagLeap.Rag.Faiss
