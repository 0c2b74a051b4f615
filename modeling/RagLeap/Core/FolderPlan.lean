import Mathlib
import RagLeap.Foundations.Dict
import RagLeap.Foundations.Json
import RagLeap.Sandbox.Grants

/-!
# The manifest of a granted folder, and the plan made from it

`loadManifest` reads what the stager wrote about one grant; an entry that fails validation is
counted and dropped. `makePlan` compares the manifest with the documents that came from the grant:
files to ingest, documents to replace or drop because a newer version is stored, and documents
whose file is gone. Files are gone only for a manifest that is `Manifest.complete`.
-/

namespace RagLeap.FolderIngest

def MAX_REL_CHARS : ℕ := 300

def MAX_FILE_BYTES : ℕ := 25 * 1024 * 1024

/-- The bytes of a file. -/
abbrev Bytes : Type := List UInt8

/-- What the ingestion of folders takes from outside: the character tables, the extensions with a
parser, the hash, and the text of a file (`none` where its extraction raises). -/
structure Env where
  unicode : Unicode
  supportedExtensions : List Str
  sha256 : Bytes → Str
  extractText : Str → Bytes → Option Str

/-! ## The manifest -/

/-- A file of a manifest. -/
structure Entry where
  size : ℕ
  sha256 : Str
  deriving DecidableEq

structure Manifest where
  grant : Str
  generatedAt : ℕ
  files : Dict Str Entry
  invalid : ℕ
  truncated : Bool
  pending : ℕ
  unreadable : ℕ

/-- `_valid_rel`, on a string. -/
def validRel (rel : Str) : Bool :=
  rel ≠ [] && rel.length ≤ MAX_REL_CHARS && !rel.contains '\x00' && !rel.contains '\\' &&
    rel.head? ≠ some '/' &&
    (rel.splitOn '/').all fun p => p ≠ [] && p ≠ ['.'] && p ≠ ['.', '.']

/-- `SHA_RE.fullmatch`. -/
def isSha (s : Str) : Bool :=
  s.length = 64 && s.all fun c => ('0' ≤ c && c ≤ '9') || ('a' ≤ c && c ≤ 'f')

/-- The path and the entry of one item of `doc["files"]`, if it is valid. -/
def entryOf (e : Json) : Option (Str × Entry) :=
  match e.get? "path".toList, e.get? "size".toList, e.get? "sha256".toList with
  | some (.str path), some (.int size), some (.str sha) =>
    if validRel path && 0 ≤ size && size ≤ MAX_FILE_BYTES && isSha sha then
      some (path, ⟨size.toNat, sha⟩)
    else none
  | _, _, _ => none

/-- The local `num` of `load_manifest`. -/
def num : Option Json → ℕ
  | some (.int n) => n.toNat
  | _ => 0

/-- The files and the number of invalid entries, one item after another. -/
def readFiles (entries : List Json) : Dict Str Entry × ℕ :=
  entries.foldl (fun (files, invalid) e =>
    match entryOf e with
    | some (path, entry) => (files.set path entry, invalid)
    | none => (files, invalid + 1)) (Dict.empty, 0)

/-- `load_manifest`. The file is `none` if it is not there, too large or not JSON. -/
def loadManifest (grant : Str) (file : Option Json) : Option Manifest :=
  if !Sandbox.isGrantName grant then none
  else
    match file with
    | none => none
    | some doc =>
      match doc.get? "grant".toList, doc.get? "files".toList with
      | some (.str name), some (.arr entries) =>
        if name ≠ grant then none
        else
          let (files, invalid) := readFiles entries
          some {
            grant, files, invalid
            generatedAt := num (doc.get? "generated_at".toList)
            truncated := match doc.get? "truncated".toList with
              | some (.bool b) => b
              | _ => false
            pending := num (doc.get? "pending".toList)
            unreadable := num ((doc.get? "skipped".toList).bind (·.get? "unreadable".toList)) }
      | _, _ => none

/-- Nothing was left out of the manifest. -/
def Manifest.complete (manifest : Manifest) : Bool :=
  !(manifest.truncated || manifest.pending ≠ 0 || manifest.unreadable ≠ 0 || manifest.invalid ≠ 0)

/-! ## The plan -/

/-- `os.path.splitext(rel)[1]`. -/
def extension (rel : Str) : Str :=
  let base := (rel.reverse.takeWhile (· ≠ '/')).reverse
  let suffix := (base.reverse.takeWhile (· ≠ '.')).reverse
  let stem := base.take (base.length - suffix.length - 1)
  if base.contains '.' && stem.any (· ≠ '.') then '.' :: suffix else []

/-- `_supported`. -/
def Env.supported (env : Env) (rel : Str) : Bool :=
  env.supportedExtensions.contains (env.unicode.lower (extension rel))

/-- The documents of a grant: for each path, their ids and source hashes. -/
abbrev Ingested : Type := Dict Str (List (Str × Str))

/-- `ingested.get(rel, [])`. -/
def Ingested.docs (ingested : Ingested) (rel : Str) : List (Str × Str) :=
  (ingested.get? rel).getD []

structure Plan where
  new : List Str
  changed : List Str
  stale : List Str
  unsupported : ℕ
  removed : List (Str × List Str)
  bytesNew : ℕ

/-- `sorted`, on strings. -/
def sorted (l : List Str) : List Str := l.mergeSort fun a b => decide (a ≤ b)

/-- The documents of a path whose source hash is the one of the file. -/
def current (manifest : Manifest) (ingested : Ingested) (rel : Str) : List (Str × Str) :=
  (ingested.docs rel).filter fun d => some d.2 = (manifest.files.get? rel).map Entry.sha256

/-- `make_plan`. -/
def makePlan (env : Env) (manifest : Manifest) (ingested : Ingested) : Plan :=
  let rels := sorted (manifest.files.items.map Prod.fst)
  let supported := rels.filter env.supported
  let new := supported.filter fun rel => ingested.docs rel = []
  let changed := supported.filter fun rel =>
    ingested.docs rel ≠ [] ∧ current manifest ingested rel = []
  let upToDate := supported.filter fun rel =>
    ingested.docs rel ≠ [] ∧ current manifest ingested rel ≠ []
  let gone :=
    if manifest.complete && manifest.files.items ≠ [] then
      sorted ((ingested.items.map Prod.fst).filter fun rel => manifest.files.get? rel = none)
    else []
  { new, changed
    stale := upToDate.flatMap fun rel => ((ingested.docs rel).filter fun d =>
      some d.2 ≠ (manifest.files.get? rel).map Entry.sha256).map Prod.fst
    unsupported := (rels.filter fun rel => !env.supported rel).length
    removed := gone.map fun rel => (rel, (ingested.docs rel).map Prod.fst)
    bytesNew := ((new ++ changed).map fun rel =>
      ((manifest.files.get? rel).map Entry.size).getD 0).sum }

end RagLeap.FolderIngest
