import RagLeap.Foundations.Steps
import RagLeap.Rag.VectorBackend

/-!
# The remote backends and their sidecar

Qdrant, Weaviate, Pinecone and Milvus keep the vectors remotely and the texts in a SQLite sidecar.
`insert_chunk` commits the row before it calls the service, `delete_document` calls the service
before it deletes the rows. A call of the service may raise, with a part of its work done.

`settled_iff` says in which histories, with every call repeated until the service answers, the
sidecar and the service end with the same ids.
-/

namespace RagLeap.Rag.Sidecar

open Steps

variable {V : Type}

/-- A row of the sidecar's `chunks`, with the id of its vector. -/
structure ChunkRow where
  vectorKey : Str
  remoteId : Str
  documentId : Str
  documentName : Str
  chunkIndex : ℤ
  text : Str
  tokenCount : ℤ
  metadata : Metadata

/-- A stored vector. -/
structure Point (V : Type) where
  id : Str
  vector : V
  payload : Metadata

/-- The sidecar and the remote collection. -/
structure State (V : Type) where
  documents : List DocumentRow
  chunks : List ChunkRow
  points : List (Point V)

/-- What the backends differ in: the id that the sidecar keeps for a key, the id that the point is
sent with (`none`: the service does not take it), and the call that stores it, `none` where the
service refuses it. -/
structure Service (V : Type) where
  remoteId : Str → Str
  pointId : Str → Metadata → Option Str
  store : Point V → List (Point V) → Option (List (Point V))

/-- Stores a point in the place of the one with its id. -/
def upsert (p : Point V) (points : List (Point V)) : List (Point V) :=
  points.filter (·.id ≠ p.id) ++ [p]

/-- `client.upsert` under `_deterministic_uuid`. -/
def qdrant (uuid5 : Str → Str) : Service V where
  remoteId := uuid5
  pointId key _ := some (uuid5 key)
  store p points := some (upsert p points)

/-- `data.insert` under `_deterministic_uuid`, which refuses an id in use. -/
def weaviate (uuid5 : Str → Str) : Service V where
  remoteId := uuid5
  pointId key _ := some (uuid5 key)
  store p points := if p.id ∈ points.map Point.id then none else some (points ++ [p])

/-- `index.upsert` under `_vector_id`. -/
def pinecone : Service V where
  remoteId key := key
  pointId key _ := some key
  store p points := some (upsert p points)

/-- `client.insert` of one row, in which the caller's metadata stand after the `id`; it does not
look for the id. -/
def milvus : Service V where
  remoteId key := key
  pointId key metadata :=
    match metadata.lookup "id".toList with
    | none => some key
    | some v => v.asStr?
  store p points := some (points ++ [p])

/-- The backends. -/
inductive Backend
  | qdrant
  | weaviate
  | pinecone
  | milvus
  deriving DecidableEq

def Backend.service (uuid5 : Str → Str) : Backend → Service V
  | .qdrant => Sidecar.qdrant uuid5
  | .weaviate => Sidecar.weaviate uuid5
  | .pinecone => Sidecar.pinecone
  | .milvus => Sidecar.milvus

/-- How a call of the service went. One that raises may have done a part of its work: of the ids it
was given, so many of them. -/
inductive Remote
  | answers
  | raises (applied : ℕ)
  deriving DecidableEq

/-- `insert_chunk`: whether it returns, and the state it leaves. -/
def insertChunk (service : Service V) (remote : Remote) (chunk : NewChunk V) (s : State V) :
    Bool × State V :=
  if chunk.key ∈ s.chunks.map ChunkRow.vectorKey then (false, s)
  else
    let chunks := s.chunks ++ [⟨chunk.key, service.remoteId chunk.key, chunk.documentId,
      chunk.documentName, chunk.chunkIndex, chunk.text, chunk.tokenCount, chunk.metadata⟩]
    let stored := (service.pointId chunk.key chunk.metadata).bind fun id =>
      service.store ⟨id, chunk.embedding, merge chunk.fields chunk.metadata⟩ s.points
    match stored, remote with
    | none, _ => (false, { s with chunks })
    | some points, .answers => (true, { s with chunks, points })
    | some points, .raises applied =>
      (false, { s with chunks, points := if 0 < applied then points else s.points })

/-- The ids of a document's vectors. -/
def remoteIds (s : State V) (documentId : Str) : List Str :=
  (s.chunks.filter (·.documentId = documentId)).map ChunkRow.remoteId

/-- `delete_document`. The result says whether there was such a document; `none`: it raises. -/
def deleteDocument (remote : Remote) (documentId : Str) (s : State V) : Option Bool × State V :=
  let ids := remoteIds s documentId
  let gone := match remote with
    | .answers => ids
    | .raises applied => ids.take applied
  let s := { s with points := s.points.filter (·.id ∉ gone) }
  if remote ≠ .answers ∧ ids ≠ [] then (none, s)
  else
    (some (documentId ∈ s.documents.map DocumentRow.id), { s with
      documents := s.documents.filter (·.id ≠ documentId)
      chunks := s.chunks.filter (·.documentId ≠ documentId) })

/-- The calls that change both stores. -/
inductive Call (V : Type)
  | insertChunk (chunk : NewChunk V)
  | deleteDocument (documentId : Str)

variable (service : Service V)

/-- The state after a call. -/
def exec (remote : Remote) (s : State V) : Call V → State V
  | .insertChunk chunk => (insertChunk service remote chunk s).2
  | .deleteDocument documentId => (deleteDocument remote documentId s).2

/-- A call is repeated until the service answers; `tries` lists the times it raised before. -/
def settle (s : State V) (a : Call V × List ℕ) : State V :=
  exec service .answers (a.2.foldl (fun s applied => exec service (.raises applied) s a.1) s) a.1

/-- The same ids in the sidecar and in the collection. -/
def Agree (s : State V) : Prop :=
  ∀ id, id ∈ s.chunks.map ChunkRow.remoteId ↔ id ∈ s.points.map Point.id

/-- A chunk with a new key is sent under the id the sidecar keeps, and storing it does not raise at
first with nothing done (unless its id is in use already); a deleted document shares no id with
another one. -/
def Meets (s : State V) (a : Call V × List ℕ) : Prop :=
  match a.1 with
  | .insertChunk chunk =>
    chunk.key ∈ s.chunks.map ChunkRow.vectorKey ∨
      (service.pointId chunk.key chunk.metadata = some (service.remoteId chunk.key) ∧
        (service.remoteId chunk.key ∈ s.points.map Point.id ∨ a.2.head? ≠ some 0))
  | .deleteDocument documentId =>
    ∀ row ∈ s.chunks, ∀ row' ∈ s.chunks, row.documentId = documentId →
      row'.documentId ≠ documentId → row.remoteId ≠ row'.remoteId

/-! ## Storing a chunk -/

/-- The ids of the collection after a call that stores, and where one is refused. -/
theorem store_spec (uuid5 : Str → Str) (b : Backend) (p : Point V) (points : List (Point V)) :
    match (b.service uuid5).store p points with
    | some points' => ∀ id, id ∈ points'.map Point.id ↔ id ∈ points.map Point.id ∨ id = p.id
    | none => p.id ∈ points.map Point.id := by
  have hupsert : ∀ id, id ∈ (upsert p points).map Point.id ↔
      id ∈ points.map Point.id ∨ id = p.id := by
    intro id
    simp only [upsert, List.map_append, List.mem_append, List.map_singleton, List.mem_singleton,
      List.mem_map, List.mem_filter, decide_eq_true_eq]
    constructor
    · rintro (⟨q, ⟨hq, -⟩, rfl⟩ | h)
      · exact .inl ⟨q, hq, rfl⟩
      · exact .inr h
    · intro h
      by_cases hid : id = p.id
      · exact .inr hid
      · obtain ⟨q, hq, rfl⟩ := h.resolve_right hid
        exact .inl ⟨q, ⟨hq, hid⟩, rfl⟩
  cases b with
  | qdrant => exact hupsert
  | pinecone => exact hupsert
  | milvus =>
    intro id
    simp
  | weaviate =>
    unfold Backend.service Sidecar.weaviate
    dsimp only
    by_cases h : p.id ∈ points.map Point.id
    · rw [if_pos h]
      exact h
    · rw [if_neg h]
      intro id
      simp

variable {service} {uuid5 : Str → Str} {b : Backend} {s : State V} {chunk : NewChunk V}
  {remote : Remote}

/-- A key that is in the sidecar is refused there. -/
theorem insertChunk_of_mem
    (h : chunk.key ∈ s.chunks.map ChunkRow.vectorKey) :
    insertChunk service remote chunk s = (false, s) := by
  unfold insertChunk
  exact if_pos h

/-- Whatever the service does, the row of a new chunk is in the sidecar. -/
theorem chunks_insertChunk
    (h : chunk.key ∉ s.chunks.map ChunkRow.vectorKey) :
    (insertChunk service remote chunk s).2.chunks = s.chunks ++
      [⟨chunk.key, service.remoteId chunk.key, chunk.documentId, chunk.documentName,
        chunk.chunkIndex, chunk.text, chunk.tokenCount, chunk.metadata⟩] := by
  unfold insertChunk
  dsimp only
  rw [if_neg h]
  split <;> rfl

theorem key_mem_insertChunk (service : Service V) (remote : Remote) (chunk : NewChunk V)
    (s : State V) : chunk.key ∈ (insertChunk service remote chunk s).2.chunks.map ChunkRow.vectorKey := by
  by_cases h : chunk.key ∈ s.chunks.map ChunkRow.vectorKey
  · rwa [insertChunk_of_mem h]
  · rw [chunks_insertChunk h]
    simp

/-- The first try decides: every later one is refused by the sidecar. -/
theorem settle_insertChunk (tries : List ℕ) :
    settle service s (.insertChunk chunk, tries) =
      (insertChunk service (tries.head?.elim .answers .raises) chunk s).2 := by
  have hrepeat : ∀ (tries : List ℕ) (s : State V),
      chunk.key ∈ s.chunks.map ChunkRow.vectorKey →
        settle service s (.insertChunk chunk, tries) = s := by
    intro tries
    induction tries with
    | nil =>
      intro s h
      exact congrArg Prod.snd (insertChunk_of_mem h)
    | cons applied tries ih =>
      intro s h
      change settle service (insertChunk service (.raises applied) chunk s).2
        (.insertChunk chunk, tries) = s
      rw [insertChunk_of_mem h]
      exact ih s h
  cases tries with
  | nil => rfl
  | cons applied tries => exact hrepeat tries _ (key_mem_insertChunk service _ chunk s)

theorem points_insertChunk_of_none (h : service.pointId chunk.key chunk.metadata = none) :
    (insertChunk service remote chunk s).2.points = s.points := by
  unfold insertChunk
  dsimp only
  rw [h]
  split <;> rfl

/-- The ids of the collection after a new chunk: the id it was sent under came in, unless the
service raised with nothing done. -/
theorem points_insertChunk (hnew : chunk.key ∉ s.chunks.map ChunkRow.vectorKey) {pid : Str}
    (hpid : (b.service (V := V) uuid5).pointId chunk.key chunk.metadata = some pid) (id : Str) :
    id ∈ (insertChunk (b.service uuid5) remote chunk s).2.points.map Point.id ↔
      id ∈ s.points.map Point.id ∨ (remote ≠ .raises 0 ∧ id = pid) := by
  unfold insertChunk
  dsimp only
  rw [if_neg hnew, hpid, Option.bind_some]
  have hstore := store_spec uuid5 b ⟨pid, chunk.embedding, merge chunk.fields chunk.metadata⟩ s.points
  split
  case h_1 hrefused =>
    rw [hrefused] at hstore
    dsimp only at hstore ⊢
    constructor
    · exact .inl
    · rintro (h | ⟨-, rfl⟩)
      · exact h
      · exact hstore
  case h_2 points hstored =>
    rw [hstored] at hstore
    dsimp only at hstore ⊢
    rw [hstore id]
    simp
  case h_3 points applied hstored =>
    rw [hstored] at hstore
    dsimp only at hstore ⊢
    by_cases h0 : 0 < applied
    · rw [if_pos h0, hstore id]
      have hne : Remote.raises applied ≠ .raises 0 := by
        rintro ⟨⟩
        omega
      simp [hne]
    · rw [if_neg h0]
      have heq : applied = 0 := by omega
      simp [heq]

/-- Only Milvus sends a point under another id than the sidecar's, and there that one is the key. -/
theorem remoteId_of_pointId_ne (key : Str) (metadata : Metadata)
    (h : (b.service (V := V) uuid5).pointId key metadata ≠
      some ((b.service (V := V) uuid5).remoteId key)) :
    ∀ key, (b.service (V := V) uuid5).remoteId key = key := by
  cases b with
  | qdrant => exact absurd rfl h
  | weaviate => exact absurd rfl h
  | pinecone => exact absurd rfl h
  | milvus => exact fun _ => rfl

/-- The sidecar keeps the id that belongs to the key. -/
def Keyed (service : Service V) (s : State V) : Prop :=
  ∀ row ∈ s.chunks, row.remoteId = service.remoteId row.vectorKey

theorem insertChunk_agree_iff (hs : Agree s) (hkeyed : Keyed (b.service uuid5) s)
    (tries : List ℕ) : Agree (settle (b.service uuid5) s (.insertChunk chunk, tries)) ↔
      Meets (b.service uuid5) s (.insertChunk chunk, tries) := by
  rw [settle_insertChunk]
  unfold Meets
  dsimp only
  by_cases hkey : chunk.key ∈ s.chunks.map ChunkRow.vectorKey
  · rw [insertChunk_of_mem hkey]
    exact iff_of_true hs (.inl hkey)
  have hfirst : (tries.head?.elim Remote.answers .raises) ≠ .raises 0 ↔ tries.head? ≠ some 0 := by
    cases tries.head? <;> simp
  by_cases hown : (b.service (V := V) uuid5).pointId chunk.key chunk.metadata =
      some ((b.service (V := V) uuid5).remoteId chunk.key)
  case neg =>
    have hrid := remoteId_of_pointId_ne _ _ hown
    refine iff_of_false (fun h => ?_) ?_
    · have hid := (h chunk.key).1 (by
        rw [chunks_insertChunk hkey]
        simp [hrid])
      have hold : chunk.key ∉ s.points.map Point.id := by
        rw [← hs]
        intro hmem
        obtain ⟨row, hrow, heq⟩ := List.mem_map.1 hmem
        rw [hkeyed row hrow, hrid] at heq
        exact hkey (List.mem_map.2 ⟨row, hrow, heq⟩)
      cases hpid : (b.service (V := V) uuid5).pointId chunk.key chunk.metadata with
      | none =>
        rw [points_insertChunk_of_none hpid] at hid
        exact hold hid
      | some pid =>
        rw [points_insertChunk hkey hpid] at hid
        rcases hid with hid | ⟨-, hid⟩
        · exact hold hid
        · exact hown (by rw [hrid, hpid, hid])
    · rintro (h | ⟨h, -⟩)
      · exact hkey h
      · exact hown h
  constructor
  · intro h
    refine .inr ⟨hown, ?_⟩
    have hid := (h ((b.service (V := V) uuid5).remoteId chunk.key)).1 (by
      rw [chunks_insertChunk hkey]
      simp)
    rw [points_insertChunk hkey hown, hfirst] at hid
    exact hid.imp_right And.left
  · intro h id
    have hfound := (h.resolve_left hkey).2
    rw [points_insertChunk hkey hown, hfirst, chunks_insertChunk hkey, List.map_append,
      List.mem_append, hs id, List.map_singleton, List.mem_singleton]
    constructor
    · rintro (h | rfl)
      · exact .inl h
      · rcases hfound with hin | hin
        · exact .inl hin
        · exact .inr ⟨hin, rfl⟩
    · rintro (h | ⟨-, h⟩)
      · exact .inl h
      · exact .inr h

/-! ## Deleting a document -/

theorem mem_points_filter {points : List (Point V)} {ids : List Str} {id : Str} :
    id ∈ (points.filter (·.id ∉ ids)).map Point.id ↔ id ∈ points.map Point.id ∧ id ∉ ids := by
  simp only [List.mem_map, List.mem_filter, decide_eq_true_eq]
  constructor
  · rintro ⟨p, ⟨hp, hnot⟩, rfl⟩
    exact ⟨⟨p, hp, rfl⟩, hnot⟩
  · rintro ⟨⟨p, hp, rfl⟩, hnot⟩
    exact ⟨p, ⟨hp, hnot⟩, rfl⟩

/-- A deletion that raises has taken away some of the document's points. -/
theorem deleteDocument_raises (documentId : Str) (applied : ℕ) (s : State V) :
    (deleteDocument (.raises applied) documentId s).2.chunks =
        (if remoteIds s documentId = [] then s.chunks.filter (·.documentId ≠ documentId)
          else s.chunks) ∧
      (deleteDocument (.raises applied) documentId s).2.points =
        s.points.filter (·.id ∉ (remoteIds s documentId).take applied) := by
  unfold deleteDocument
  dsimp only
  by_cases hnil : remoteIds s documentId = []
  · simp [hnil]
  · simp [hnil]

/-- Repeated, a deletion ends with the document's rows and points gone. -/
theorem settle_deleteDocument (service : Service V) (documentId : Str)
    (tries : List ℕ) (s : State V) :
    (settle service s (.deleteDocument documentId, tries)).chunks =
        s.chunks.filter (·.documentId ≠ documentId) ∧
      ∀ id, id ∈ (settle service s (.deleteDocument documentId, tries)).points.map Point.id ↔
        id ∈ s.points.map Point.id ∧ id ∉ remoteIds s documentId := by
  induction tries generalizing s with
  | nil =>
    change (deleteDocument .answers documentId s).2.chunks = _ ∧
      ∀ id, id ∈ (deleteDocument .answers documentId s).2.points.map Point.id ↔ _
    unfold deleteDocument
    dsimp only
    rw [if_neg fun h => h.1 rfl]
    refine ⟨rfl, fun id => mem_points_filter⟩
  | cons applied tries ih =>
    obtain ⟨hchunks, hpoints⟩ := deleteDocument_raises documentId applied s
    obtain ⟨hrest, hids⟩ := ih (deleteDocument (.raises applied) documentId s).2
    change (settle service (deleteDocument (.raises applied) documentId s).2
        (.deleteDocument documentId, tries)).chunks = _ ∧
      ∀ id, id ∈ (settle service (deleteDocument (.raises applied) documentId s).2
        (.deleteDocument documentId, tries)).points.map Point.id ↔ _
    have hsame : remoteIds (deleteDocument (.raises applied) documentId s).2 documentId =
        remoteIds s documentId := by
      rw [remoteIds, hchunks]
      split
      case isTrue hnil =>
        rw [hnil, List.filter_filter]
        simp
      case isFalse => rfl
    constructor
    · rw [hrest, hchunks]
      split
      · rw [List.filter_filter]
        simp
      · rfl
    · intro id
      rw [hids, hsame, hpoints, mem_points_filter, and_assoc]
      apply and_congr_right
      intro _
      constructor
      · exact fun h => h.2
      · exact fun h => ⟨fun htake => h (List.mem_of_mem_take htake), h⟩

theorem deleteDocument_agree_iff (hs : Agree s) (documentId : Str) (tries : List ℕ) :
    Agree (settle service s (.deleteDocument documentId, tries)) ↔
      Meets service s (.deleteDocument documentId, tries) := by
  obtain ⟨hchunks, hpoints⟩ := settle_deleteDocument service documentId tries s
  constructor
  · intro h row hrow row' hrow' hd hd' heq
    have hleft : row'.remoteId ∈
        (settle service s (.deleteDocument documentId, tries)).chunks.map ChunkRow.remoteId := by
      rw [hchunks]
      exact List.mem_map_of_mem (List.mem_filter.2 ⟨hrow', decide_eq_true hd'⟩)
    have hright := ((hpoints _).1 ((h _).1 hleft)).2
    rw [← heq] at hright
    exact hright (List.mem_map_of_mem (List.mem_filter.2 ⟨hrow, decide_eq_true hd⟩))
  · intro h id
    rw [hpoints, ← hs id, hchunks]
    simp only [remoteIds, List.mem_map, List.mem_filter, decide_eq_true_eq]
    constructor
    · rintro ⟨row', ⟨hrow', hd'⟩, rfl⟩
      refine ⟨⟨row', hrow', rfl⟩, ?_⟩
      rintro ⟨row, ⟨hrow, hd⟩, heq⟩
      exact h row hrow row' hrow' hd hd' heq
    · rintro ⟨⟨row, hrow, rfl⟩, hnot⟩
      exact ⟨row, ⟨hrow, fun hd => hnot ⟨row, ⟨hrow, hd⟩, rfl⟩⟩, rfl⟩

/-! ## Histories -/

/-- Nothing stored. -/
def State.empty : State V := ⟨[], [], []⟩

/-- An insertion leaves its key in the sidecar, and repeating it changes nothing. -/
theorem insertChunk_again (remote' : Remote) :
    insertChunk service remote' chunk (insertChunk service remote chunk s).2 =
      (false, (insertChunk service remote chunk s).2) :=
  insertChunk_of_mem (key_mem_insertChunk service remote chunk s)

theorem keyed_settle (a : Call V × List ℕ) (h : Keyed service s) :
    Keyed service (settle service s a) := by
  obtain ⟨call, tries⟩ := a
  cases call with
  | insertChunk chunk =>
    rw [settle_insertChunk]
    by_cases hkey : chunk.key ∈ s.chunks.map ChunkRow.vectorKey
    · rwa [insertChunk_of_mem hkey]
    · intro row hrow
      rw [chunks_insertChunk hkey] at hrow
      rcases List.mem_append.1 hrow with hrow | hrow
      · exact h row hrow
      · rw [List.mem_singleton.1 hrow]
  | deleteDocument documentId =>
    intro row hrow
    rw [(settle_deleteDocument service documentId tries s).1] at hrow
    exact h row (List.mem_filter.1 hrow).1

/-- **Sidecar and remote store.** In a history of calls, each repeated until the service answers,
the two stores have the same ids after every call exactly if each call meets the condition; and
repeating an insertion that returned changes nothing. -/
theorem settled_iff (uuid5 : Str → Str) (b : Backend) (history : List (Call V × List ℕ)) :
    (Each (settle (b.service uuid5)) (fun s a => Agree (settle (b.service uuid5) s a)) .empty
        history ↔
      Each (settle (b.service uuid5)) (Meets (b.service uuid5)) .empty history) ∧
    ∀ (s : State V) (chunk : NewChunk V) (remote remote' : Remote),
      (insertChunk (b.service uuid5) remote chunk s).1 = true →
        (insertChunk (b.service uuid5) remote' chunk
          (insertChunk (b.service uuid5) remote chunk s).2).2 =
        (insertChunk (b.service uuid5) remote chunk s).2 := by
  refine ⟨?_, fun s chunk remote remote' _ => by rw [insertChunk_again]⟩
  apply each_iff (I := fun s => Agree s ∧ Keyed (b.service uuid5) s)
  · rintro s ⟨call, tries⟩ ⟨hs, hkeyed⟩
    cases call with
    | insertChunk chunk => exact insertChunk_agree_iff hs hkeyed tries
    | deleteDocument documentId => exact deleteDocument_agree_iff hs documentId tries
  · rintro s a ⟨-, hkeyed⟩ h
    exact ⟨h, keyed_settle a hkeyed⟩
  · exact ⟨fun id => Iff.rfl, nofun⟩

/-- A Qdrant upsert raises once: the row is there, and every retry is refused by the sidecar. -/
theorem retry_is_refused :
    ¬ ∀ (uuid5 : Str → Str) (b : Backend) (history : List (Call ℕ × List ℕ)),
      Each (settle (b.service uuid5)) (fun s a => Agree (settle (b.service uuid5) s a)) .empty
        history := by
  intro h
  have hagree := (h id .qdrant
    [(.insertChunk ⟨['d'], ['n'], 0, ['t'], 1, 0, []⟩, [0])]).1 "d:0".toList
  exact absurd (hagree.1 (by decide)) (by decide)

end RagLeap.Rag.Sidecar
