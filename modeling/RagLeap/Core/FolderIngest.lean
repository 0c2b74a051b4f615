import RagLeap.Core.Chunker
import RagLeap.Core.FolderPlan
import RagLeap.Foundations.Attempt
import RagLeap.Foundations.Tables

/-!
# A cycle of folder ingestion

`runCycle` goes over the grants: it compares the manifest of each with the documents that came from
it, waits for the owner before the first one, deletes what is gone or outdated, and ingests new and
changed files within the budget of the cycle. What the outside answers in a cycle, and how each
statement on the database goes, is a `World`; `Deed` notes every change of the store with the store
before it. A `History` is any sequence of cycles, also ones in which the process is killed, and of
what the owner does in between.
-/

namespace RagLeap.FolderIngest

def MAX_MANIFEST_AGE : ℤ := 6 * 3600

def MAX_FAILURES : ℕ := 3

variable {V : Type}

/-! ## The store -/

/-- Where a document came from. -/
structure Source where
  grant : Str
  path : Str
  hash : Str
  deriving DecidableEq

/-- A row of `documents`. -/
structure DocumentRow where
  id : Str
  filename : Str
  source : Option Source

/-- A row of `chunks`. -/
structure ChunkRow (V : Type) where
  documentId : Str
  documentName : Str
  chunkIndex : ℕ
  text : Str
  tokenCount : ℕ
  embedding : V

abbrev Documents (V : Type) : Type := Tables DocumentRow.id (ChunkRow.documentId (V := V))

/-- The documents, and `folder_ingest_approvals`: the grants with the number of files approved. -/
structure Store (V : Type) where
  documents : Documents V
  approvals : Dict Str ℕ

/-- A change of the store, with the store before it. -/
inductive Deed (V : Type)
  | deleted (id : Str) (before : Store V)
  | ingested (source : Source) (before : Store V)
  | approved (grant : Str) (before : Store V)

/-- The store and what the process remembers: `_failures`, the budget that is left, and the changes
of the store in this cycle. -/
structure State (V : Type) where
  store : Store V
  failures : Dict (Str × Str × Str) ℕ
  left : ℕ
  deeds : List (Deed V)

/-- The state of a new installation. -/
def State.initial : State V := ⟨⟨Tables.empty, Dict.empty⟩, Dict.empty, 0, []⟩

/-- What a cycle meets: whether it is switched on, not busy and finds its schema; the settings; the
grants that have a manifest, their manifests, the staged files and the time; the embedding service,
which gives `None` where it fails; new identifiers; and how each statement goes. -/
structure World (V : Type) where
  ready : Bool
  maxFilesEnv : Option ℤ
  deleteRemoved : Str → Bool
  autoApprove : Str → Bool
  grants : List Str
  nodup : grants.Nodup
  manifestFile : Str → Option Json
  now : Str → ℤ
  staged : Str → Str → Option Bytes
  embedText : Str → Str → Chunk → Option V
  uuid4 : Str → Str → Str
  ingestedFate : Str → Fate
  approvedFate : Str → Fate
  approveFate : Str → Fate
  ingestFate : Str → Str → Fate
  deleteFate : Str → Fate

/-- `_int_env`; the setting is `none` where it is no integer. -/
def intEnv (setting : Option ℤ) (default lo hi : ℤ) : ℤ := max lo (min hi (setting.getD default))

/-- `max_files`. -/
def World.maxFiles (w : World V) : ℕ := (intEnv w.maxFilesEnv 50 1 500).toNat

/-! ## Statements -/

/-- The paths, ids and hashes of the documents of a grant. -/
def sourced (grant : Str) (rows : List DocumentRow) : List (Str × Str × Str) :=
  rows.filterMap fun row =>
    match row.source with
    | some source => if source.grant = grant then some (source.path, row.id, source.hash) else none
    | none => none

/-- `_ingested`. -/
def ingestedOf (store : Store V) (grant : Str) : Ingested :=
  (sourced grant store.documents.parents).foldl
    (fun out (path, d) => out.set path (out.docs path ++ [d])) Dict.empty

/-- One transaction that changes the store. -/
def change {α : Type} (fate : Fate) (deed : Store V → Deed V)
    (t : Store V → Option (α × Store V)) : Attempt (State V) α :=
  Attempt.commit fate fun s => (t s.store).map fun (a, store) =>
    (a, { s with store, deeds := s.deeds ++ [deed s.store] })

/-- `document_store.delete_document`. -/
def deleteDocument (w : World V) (id : Str) : Attempt (State V) Bool :=
  change (w.deleteFate id) (.deleted id) fun store =>
    (Tables.deleteParent id store.documents).map fun (b, documents) => (b, { store with documents })

/-- `_approve`. -/
def approve (w : World V) (grant : Str) (files : ℕ) : Attempt (State V) Unit :=
  change (w.approveFate grant) (.approved grant) fun store =>
    some ((), { store with approvals := store.approvals.set grant files })

/-- The rows of one document, if its id is new. -/
def insertRows (row : DocumentRow) (rows : List (ChunkRow V)) (t : Documents V) :
    Option (Documents V) :=
  (Tables.insertParent row t).bind fun (_, t) =>
    rows.foldlM (fun t row => (Tables.insertChild row t).map Prod.snd) t

/-- The chunks that are embedded, as they are stored. -/
def chunkRows (embedText : Chunk → Option V) (documentId filename : Str) (chunks : List Chunk) :
    List (ChunkRow V) :=
  chunks.filterMap fun chunk => (embedText chunk).map fun embedding =>
    ⟨documentId, filename, chunk.chunkIndex, chunk.text, chunk.tokenCount, embedding⟩

/-- The chunks of a text. -/
def chunksOf (text : Str) : List Chunk := TextChunker.default.chunkText List.length text

/-- `ingest_document`, in one transaction. -/
def ingestDocument (w : World V) (filename text : Str) (source : Source) :
    Attempt (State V) Unit :=
  let documentId := w.uuid4 source.grant source.path
  let rows := chunkRows (w.embedText source.grant source.path) documentId filename (chunksOf text)
  if rows = [] then Attempt.raise
  else
    change (w.ingestFate source.grant source.path) (.ingested source) fun store =>
      (insertRows ⟨documentId, filename, some source⟩ rows store.documents).map fun documents =>
        ((), { store with documents })

/-! ## One file -/

/-- `read_staged`, with what is found under the path. -/
def readStaged (env : Env) (content : Option Bytes) (entry : Entry) : Option Bytes :=
  (content.map (·.take (MAX_FILE_BYTES + 1))).filter fun data =>
    data.length = entry.size ∧ env.sha256 data = entry.sha256

/-- `_delete_docs`: an exception ends one deletion only. -/
def deleteDocs (w : World V) (ids : List Str) (s : State V) : State V :=
  ids.foldl (fun s id => (deleteDocument w id s).2) s

/-- `_ingest_file`. -/
def ingestFile (env : Env) (w : World V) (grant rel : Str) (entry : Entry) (oldIds : List Str) :
    Attempt (State V) Unit :=
  Attempt.ofOption (readStaged env (w.staged grant rel) entry) >>= fun raw =>
  Attempt.ofOption (env.extractText rel raw) >>= fun text =>
  ingestDocument w (grant ++ '/' :: rel) text ⟨grant, rel, entry.sha256⟩ >>= fun _ =>
  Attempt.total fun s => ((), deleteDocs w oldIds s)

/-! ## One grant -/

inductive Phase
  | ok
  | noManifest
  | staleManifest
  | waitingApproval
  | error

/-- The `st` of `_process_grant`. -/
structure GrantStatus where
  grant : Str
  state : Phase
  staged : ℕ
  ingested : ℕ
  new : ℕ
  changed : ℕ
  unsupported : ℕ
  bytesNew : ℕ
  doneNow : ℕ
  removedNow : ℕ
  failed : ℕ
  waiting : ℕ
  truncated : Bool

def GrantStatus.empty (grant : Str) (state : Phase) : GrantStatus :=
  ⟨grant, state, 0, 0, 0, 0, 0, 0, 0, 0, 0, 0, false⟩

/-- A file to ingest: its path and entry, and the ids it replaces. -/
structure Todo where
  rel : Str
  entry : Entry
  oldIds : List Str

/-- The local `todo` of `_process_grant`. -/
def todoOf (manifest : Manifest) (ingested : Ingested) (rels : List Str) : List Todo :=
  rels.filterMap fun rel => (manifest.files.get? rel).map fun entry =>
    ⟨rel, entry, (ingested.docs rel).map Prod.fst⟩

/-- Counts a failure; more than 5000 are forgotten first. -/
def countFailure (failures : Dict (Str × Str × Str) ℕ) (key : Str × Str × Str) :
    Dict (Str × Str × Str) ℕ :=
  let failures := if 5000 < failures.size then Dict.empty else failures
  failures.set key ((failures.get? key).getD 0 + 1)

/-- The file has failed too often. -/
def givenUp (failures : Dict (Str × Str × Str) ℕ) (key : Str × Str × Str) : Bool :=
  MAX_FAILURES ≤ (failures.get? key).getD 0

/-- The loop of `_process_grant` over the files to ingest. -/
def ingestTodo (env : Env) (w : World V) (grant : Str) :
    List Todo → GrantStatus → State V → GrantStatus × State V
  | [], st, s => (st, s)
  | t :: todo, st, s =>
    let key := (grant, t.rel, t.entry.sha256)
    if givenUp s.failures key then
      ingestTodo env w grant todo { st with failed := st.failed + 1 } s
    else if s.left = 0 then ({ st with waiting := todo.length + 1 }, s)
    else
      match ingestFile env w grant t.rel t.entry t.oldIds { s with left := s.left - 1 } with
      | (some _, s) =>
        ingestTodo env w grant todo { st with doneNow := st.doneNow + 1 }
          { s with failures := s.failures.erase key }
      | (none, s) =>
        ingestTodo env w grant todo { st with failed := st.failed + 1 }
          { s with failures := countFailure s.failures key }

/-- Whether the grant may be ingested: it was before, the owner approved it, or approval is
automatic. -/
def mayIngest (w : World V) (grant : Str) (manifest : Manifest) (ingested : Ingested) :
    Attempt (State V) Bool :=
  if ingested.items ≠ [] then pure true
  else
    Attempt.read (w.approvedFate grant) (fun s => (s.store.approvals.get? grant).isSome) >>=
      fun approved =>
    if approved then pure true
    else if !w.autoApprove grant then pure false
    else approve w grant manifest.files.size >>= fun _ => pure true

/-- The deletions and ingestions of a plan. -/
def carryOut (env : Env) (w : World V) (grant : Str) (manifest : Manifest) (ingested : Ingested)
    (plan : Plan) (st : GrantStatus) (s : State V) : GrantStatus × State V :=
  let removes := w.deleteRemoved grant
  let s := if removes then deleteDocs w (plan.removed.flatMap Prod.snd) s else s
  let st := { st with removedNow := if removes then plan.removed.length else 0 }
  ingestTodo env w grant (todoOf manifest ingested (plan.new ++ plan.changed)) st
    (deleteDocs w plan.stale s)

/-- What `_process_grant` does with a manifest that is fresh. -/
def processManifest (env : Env) (w : World V) (grant : Str) (manifest : Manifest) :
    Attempt (State V) GrantStatus :=
  Attempt.read (w.ingestedFate grant) (fun s => ingestedOf s.store grant) >>= fun ingested =>
  let plan := makePlan env manifest ingested
  let st := { GrantStatus.empty grant .ok with
    staged := manifest.files.size, ingested := ingested.size
    new := plan.new.length, changed := plan.changed.length
    unsupported := plan.unsupported, bytesNew := plan.bytesNew
    truncated := manifest.truncated || 0 < manifest.pending }
  mayIngest w grant manifest ingested >>= fun may =>
  if may then Attempt.total (carryOut env w grant manifest ingested plan st)
  else pure { st with state := .waitingApproval }

/-- `_process_grant`. -/
def processGrant (env : Env) (w : World V) (grant : Str) : Attempt (State V) GrantStatus :=
  match loadManifest grant (w.manifestFile grant) with
  | none => pure (.empty grant .noManifest)
  | some manifest =>
    if MAX_MANIFEST_AGE < w.now grant - manifest.generatedAt then
      pure (.empty grant .staleManifest)
    else processManifest env w grant manifest

/-! ## Cycles -/

/-- The grants of a cycle, one after another. -/
def processGrants (env : Env) (w : World V) :
    List Str → State V → List GrantStatus × State V
  | [], s => ([], s)
  | grant :: grants, s =>
    let (st, s) := processGrant env w grant s
    let (sts, s) := processGrants env w grants s
    (st.getD (.empty grant .error) :: sts, s)

/-- `run_cycle`. -/
def runCycle (env : Env) (w : World V) (s : State V) : List GrantStatus × State V :=
  let s := { s with deeds := [] }
  if w.ready then processGrants env w w.grants { s with left := w.maxFiles } else ([], s)

/-- The store before a deed. -/
def Deed.before : Deed V → Store V
  | deleted _ before | ingested _ before | approved _ before => before

/-- What happens to the store: a cycle, a cycle in which the process is killed before deed number
`n` (a new process remembers no failures), and what the owner does. -/
inductive Happening (V : Type)
  | cycle (w : World V)
  | killed (w : World V) (n : ℕ)
  | approve (grant : Str) (files : ℕ)
  | upload (id filename text : Str) (embedText : Chunk → Option V)
  | delete (id : Str)

/-- Deletes a document. -/
def Store.delete (store : Store V) (id : Str) : Store V :=
  match Tables.deleteParent id store.documents with
  | some (_, documents) => { store with documents }
  | none => store

/-- Stores a document that came from no folder, if a chunk of it is embedded. -/
def Store.upload (store : Store V) (id filename text : Str) (embedText : Chunk → Option V) :
    Store V :=
  let rows := chunkRows embedText id filename (chunksOf text)
  if rows = [] then store
  else
    match insertRows ⟨id, filename, none⟩ rows store.documents with
    | some documents => { store with documents }
    | none => store

def happen (env : Env) (s : State V) : Happening V → State V
  | .cycle w => (runCycle env w s).2
  | .killed w n =>
    let s' := (runCycle env w s).2
    { s' with
      store := ((s'.deeds.map Deed.before).getD n s'.store)
      failures := Dict.empty }
  | .approve grant files =>
    { s with store := { s.store with approvals := s.store.approvals.set grant files } }
  | .upload id filename text embedText =>
    { s with store := s.store.upload id filename text embedText }
  | .delete id => { s with store := s.store.delete id }

/-- The state after a history. -/
def after (env : Env) (s : State V) (history : List (Happening V)) : State V :=
  history.foldl (happen env) s

end RagLeap.FolderIngest
