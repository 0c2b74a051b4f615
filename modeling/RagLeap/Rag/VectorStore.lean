import RagLeap.Foundations.Json
import RagLeap.Foundations.Tables

/-!
# The tables of the default vector backend

A `VectorStore` is the pair of tables `documents` and `chunks` of `PgVectorBackend`, with the
constraints the schema declares. Each operation is one transaction.
-/

namespace RagLeap.Rag

/-- The members of a metadata object. -/
abbrev Metadata : Type := List (Str × Json)

/-- A row of `documents`. -/
structure DocumentRow where
  id : Str
  filename : Str
  metadata : Metadata

/-- A row of `chunks`; `V` is the type of embeddings. -/
structure ChunkRow (V : Type) where
  documentId : Str
  documentName : Str
  chunkIndex : ℕ
  text : Str
  tokenCount : ℕ
  embedding : V
  metadata : Metadata

/-- The documents and their chunks. -/
abbrev VectorStore (V : Type) : Type :=
  Tables DocumentRow.id (ChunkRow.documentId (V := V))

namespace VectorStore

variable {V : Type}

/-- `insert_document`. -/
abbrev insertDocument (row : DocumentRow) : VectorStore V → Option (Unit × VectorStore V) :=
  Tables.insertParent row

/-- `insert_chunk`. -/
abbrev insertChunk (row : ChunkRow V) : VectorStore V → Option (Unit × VectorStore V) :=
  Tables.insertChild row

/-- `delete_document`. -/
abbrev deleteDocument (documentId : Str) : VectorStore V → Option (Bool × VectorStore V) :=
  Tables.deleteParent documentId

/-- `get_document_filename`. -/
def getDocumentFilename (documentId : Str) (s : VectorStore V) : Option Str :=
  (s.parents.find? (·.id = documentId)).map DocumentRow.filename

theorem getDocumentFilename_eq_none_iff {s : VectorStore V} {d : Str} :
    getDocumentFilename d s = none ↔ d ∉ s.keys := by
  simp [getDocumentFilename, Tables.keys, List.find?_eq_none]

end VectorStore

end RagLeap.Rag
