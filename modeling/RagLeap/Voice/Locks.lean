import Mathlib
import RagLeap.Foundations.Text

/-!
# Model locks

`locks.py`: a lock names the files of a model with their sizes and SHA-256 digests. `validate_lock`
says what is wrong with a lock, `verify_dir` what is wrong with a directory that should hold its
files. A lock without problems names a file, so the directories it accepts are not empty
(`tree_ne_nil_of_verified`).
-/

namespace RagLeap.Voice

structure LockFile where
  path : Str
  size : ℤ
  sha256 : Str
  format : Option Str
  deriving DecidableEq

structure Lock where
  schema : ℤ
  model : Str
  revision : Str
  sourceUrl : Str
  files : List LockFile

/-- Functions of Python and of other modules that a pull uses. -/
structure PullEnv where
  sha256 : List UInt8 → Str
  repr : Str → Str
  checkLicence : Str → Bool
  repoIdFromUrl : Str → Option Str
  isCommit : Str → Bool
  lockDigest : Lock → Str

def SCHEMA : ℤ := 1
def MAX_FILES : ℕ := 5000
def MAX_FILE_BYTES : ℤ := 64 * 1024 ^ 3
def HEADER_BYTES : ℕ := 256

/-- `FORMAT_EXCEPTIONS`. -/
def FORMAT_EXCEPTIONS : List (Str × Str) := [("ctranslate2".toList, ".bin".toList)]

def UNSAFE_SUFFIXES : List Str :=
  [".pt", ".pth", ".bin", ".pkl", ".pickle", ".ckpt", ".joblib", ".dill"].map String.toList

/-- `str.lower` and `str.casefold` of ASCII text. -/
def lower (s : Str) : Str := s.map Char.toLower

def LockFile.segments (f : LockFile) : List Str := f.path.splitOn '/'

/-! ## Formats -/

def isAlnum (b : UInt8) : Bool := (48 ≤ b && b ≤ 57) || (65 ≤ b && b ≤ 90) || (97 ≤ b && b ≤ 122)

/-- `int.from_bytes(head, "little")`. -/
def little (head : List UInt8) : ℕ := head.foldr (fun b n => b.toNat + 256 * n) 0

/-- `check_ctranslate2_header`. -/
def checkCtranslate2Header (head : List UInt8) : Option Str :=
  if head.length < 6 then some "file too short for a CTranslate2 header".toList
  else
    let version := little (head.take 4)
    if ¬ (1 ≤ version ∧ version ≤ 32) then
      some ("unexpected CTranslate2 version field ".toList ++ Str.ofNat version)
    else
      let n := little ((head.drop 4).take 2)
      if ¬ (5 ≤ n ∧ n ≤ 64) ∨ head.length < 6 + n then some "unexpected model name length".toList
      else
        let name := (head.drop 6).take n
        if name.getLast? ≠ some 0 then some "model name is not NUL-terminated".toList
        else if ¬ [83, 112, 101, 99].isSuffixOf name.dropLast ∨ ¬ name.dropLast.all isAlnum then
          some "model name is not an alphanumeric name ending in Spec".toList
        else none

/-- `has_valid_format_tag`. -/
def hasValidFormatTag (f : LockFile) : Bool :=
  match f.format.bind fun tag => FORMAT_EXCEPTIONS.lookup tag with
  | none => false
  | some suffix => suffix.isSuffixOf (lower f.path)

/-- `_header_problem` of a file that can be read. -/
def headerProblem (bytes : List UInt8) (f : LockFile) : Option Str :=
  if hasValidFormatTag f then
    (checkCtranslate2Header (bytes.take HEADER_BYTES)).map
      (f.format.getD [] ++ " header check failed: ".toList ++ ·)
  else some "invalid format tag".toList

/-- `unsafe_format_files`, unsorted. -/
def unsafeFormatFiles (lock : Lock) : List Str :=
  (lock.files.filter fun f =>
    UNSAFE_SUFFIXES.any (·.isSuffixOf (lower f.path)) && !hasValidFormatTag f).map LockFile.path

/-! ## Checking a lock -/

def isSegmentChar (c : Char) : Bool := c.isAlphanum || c ∈ "._+=@,~-".toList

/-- The text without a line break at its end, which `$` does not look at. -/
def chop (s : Str) : Str := if s.getLast? = some '\n' then s.dropLast else s

/-- `_SEGMENT`. -/
def isSegment (s : Str) : Bool := chop s ≠ [] && (chop s).all isSegmentChar

/-- `_HEX64`. -/
def isHex64 (s : Str) : Bool :=
  (chop s).length = 64 && (chop s).all fun c => c.isDigit || ('a' ≤ c && c ≤ 'f')

/-- `safe_relpath`. -/
def safeRelpath (env : PullEnv) (path : Str) : Option Str :=
  if path = [] then some "empty or non-string path".toList
  else if 300 < path.length then some "path too long".toList
  else if '\\' ∈ path ∨ '\x00' ∈ path then some "backslash or NUL in path".toList
  else if path.head? = some '/' then some "absolute path".toList
  else (path.splitOn '/').findSome? fun seg =>
    if seg = [] ∨ seg = ['.'] ∨ seg = ['.', '.'] then
      some "empty, '.' or '..' segment".toList
    else if ¬ isSegment seg then
      some ("unsupported characters in segment ".toList ++ env.repr seg)
    else none

/-- The problems of one entry, with the paths that stand before it. -/
def fileProblems (env : PullEnv) (before : List Str) (i : ℕ) (f : LockFile) : List Str :=
  let why := safeRelpath env f.path
  let label := if why = none then f.path else "files[".toList ++ Str.ofNat i ++ "]".toList
  (match why with
    | some why => [label ++ ": ".toList ++ why]
    | none =>
      if lower f.path ∈ before then [label ++ ": duplicate path (case-insensitive)".toList] else [])
    ++ (if f.size < 0 ∨ MAX_FILE_BYTES < f.size then [label ++ ": invalid size".toList] else [])
    ++ (if isHex64 f.sha256 then []
      else [label ++ ": sha256 must be 64 lowercase hex characters".toList])
    ++ (if f.format ≠ none ∧ hasValidFormatTag f = false then
        [label ++ ": format tag must be one of ctranslate2 and match the file suffix".toList]
      else [])

/-- The safe paths, folded. -/
def safePaths (env : PullEnv) (files : List LockFile) : List Str :=
  (files.filter fun f => safeRelpath env f.path = none).map (lower ·.path)

/-- The directories that the paths lie in. -/
def directories (paths : List Str) : List (List Str) :=
  paths.flatMap fun path =>
    let parts := path.splitOn '/'
    (List.range parts.length).filterMap fun k => if 0 < k then some (parts.take k) else none

/-- `validate_lock`. -/
def validateLock (env : PullEnv) (lock : Lock) (name revision : Str) : List Str :=
  let header :=
    (if lock.schema ≠ SCHEMA then ["schema must be 1".toList] else [])
    ++ (if lock.model = [] then ["model missing or not a string".toList] else [])
    ++ (if lock.revision = [] then ["revision missing or not a string".toList] else [])
    ++ (if lock.sourceUrl = [] then ["source_url missing or not a string".toList] else [])
    ++ (if lock.model ≠ name then ["model ".toList ++ env.repr lock.model ++
        " does not match manifest entry ".toList ++ env.repr name] else [])
    ++ (if lock.revision ≠ revision then ["revision ".toList ++ env.repr lock.revision ++
        " does not match manifest revision ".toList ++ env.repr revision] else [])
  if lock.files = [] then header ++ ["files must be a non-empty list".toList]
  else if MAX_FILES < lock.files.length then header ++ ["too many files (limit 5000)".toList]
  else
    let paths := safePaths env lock.files
    header
      ++ lock.files.zipIdx.flatMap (fun (f, i) =>
          fileProblems env (safePaths env (lock.files.take i)) i f)
      ++ (paths.filter fun path => path.splitOn '/' ∈ directories paths).map
          (· ++ ": path conflict, listed both as a file and as a directory".toList)

theorem files_ne_nil_of_valid {env : PullEnv} {lock : Lock} {name revision : Str}
    (h : validateLock env lock name revision = []) : lock.files ≠ [] := by
  intro hnil
  unfold validateLock at h
  dsimp only at h
  rw [if_pos hnil] at h
  exact absurd (List.append_eq_nil_iff.1 h).2 (List.cons_ne_nil _ _)

/-! ## Checking a directory -/

/-- What stands at a path of a directory tree; `symlink` says whether it leads to a directory. -/
inductive Item
  | file (bytes : List UInt8)
  | dir
  | symlink (toDir : Bool)
  | special
  deriving DecidableEq

/-- A directory tree: what stands below it, by the names that lead there. -/
abbrev Tree : Type := List (List Str × Item)

/-- What stands under a name in the cache: a directory or anything else. -/
inductive Node
  | dir (tree : Tree)
  | other
  deriving DecidableEq

/-- The path with `/` between its names. -/
def rel (path : List Str) : Str := List.intercalate ['/'] path

def isSymlink : Option Item → Bool
  | some (.symlink _) => true
  | _ => false

/-- What `verify_dir` finds at a file of the lock. -/
def fileProblem (env : PullEnv) (tree : Tree) (f : LockFile) : Option Str :=
  let parts := f.segments
  if (List.range parts.length).any fun k => 0 < k && isSymlink (tree.lookup (parts.take k)) then
    some (f.path ++ ": parent directory is a symlink (not allowed)".toList)
  else
    match tree.lookup parts with
    | none => some (f.path ++ ": missing".toList)
    | some (.symlink _) => some (f.path ++ ": is a symlink (not allowed)".toList)
    | some .dir => some (f.path ++ ": not a regular file".toList)
    | some .special => some (f.path ++ ": not a regular file".toList)
    | some (.file bytes) =>
      if (bytes.length : ℤ) ≠ f.size then
        some (f.path ++ ": size ".toList ++ Str.ofNat bytes.length ++ ", expected ".toList ++
          (toString f.size).toList)
      else if env.sha256 bytes ≠ f.sha256 then some (f.path ++ ": sha256 mismatch".toList)
      else if f.format = none then none
      else (headerProblem bytes f).map (f.path ++ ": ".toList ++ ·)

/-- What the walk of `verify_dir` finds. -/
def walkProblems (lock : Lock) (tree : Tree) : List Str :=
  tree.filterMap fun (path, item) =>
    match item with
    | .dir => none
    | .symlink true => some (rel path ++ ": unexpected symlink".toList)
    | _ => if rel path ∈ lock.files.map LockFile.path then none
      else some (rel path ++ ": unexpected file".toList)

/-- `verify_dir`. -/
def verifyDir (env : PullEnv) (lock : Lock) : Node → List Str
  | .other => ["directory missing or not a plain directory".toList]
  | .dir tree => lock.files.filterMap (fileProblem env tree) ++ walkProblems lock tree

/-- The directory passes `verify_dir`. -/
def Verified (env : PullEnv) (lock : Lock) (node : Node) : Prop := verifyDir env lock node = []

instance (env : PullEnv) (lock : Lock) (node : Node) : Decidable (Verified env lock node) :=
  inferInstanceAs (Decidable (_ = _))

variable {env : PullEnv} {lock : Lock}

theorem verified_dir_iff {tree : Tree} :
    Verified env lock (.dir tree) ↔
      (∀ f ∈ lock.files, fileProblem env tree f = none) ∧ walkProblems lock tree = [] := by
  rw [Verified, verifyDir, List.append_eq_nil_iff, List.filterMap_eq_nil_iff]

/-- A directory that passes holds something if the lock names a file. -/
theorem tree_ne_nil_of_verified {tree : Tree} (hfiles : lock.files ≠ [])
    (h : Verified env lock (.dir tree)) : tree ≠ [] := by
  rintro rfl
  obtain ⟨f, hf⟩ := List.exists_mem_of_ne_nil _ hfiles
  have hnone := (verified_dir_iff.1 h).1 f hf
  have hsome : ∀ (b : Bool) (x y : Str), (if b then some x else some y) ≠ none := by
    intro b x y
    cases b <;> simp
  exact hsome _ _ _ hnone

end RagLeap.Voice
