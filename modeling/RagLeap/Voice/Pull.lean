import Mathlib
import RagLeap.Foundations.Pool
import RagLeap.Voice.Locks

/-!
# Pulling a model

`pull_model` downloads the files of a lock into a staging directory of its own, verifies the
directory and renames it to its place in the cache. A directory is verified file by file, and
removed entry by entry. `pullModel_follows`: a call changes only the staging directory it has drawn,
and renames it only after it has passed.
-/

namespace RagLeap.Voice

/-- An entry of the manifest. -/
structure Entry where
  name : Str
  codeLicense : Str
  weightsLicense : Str
  status : Str
  sourceUrl : Str
  revision : Str
  sha256 : Str

/-- The arguments of a call that differ from call to call. -/
structure PullOptions where
  offline : Bool
  allowUnverified : Bool

def SPACE_MARGIN : ℤ := 256 * 1024 ^ 2

/-- A directory a pull looks at: the model's place in the cache, or the staging directory of a drawn
name. -/
inductive Place
  | dest
  | staging (name : Str)
  deriving DecidableEq

/-! ## The statements -/

inductive Op
  | destExists
  | isDir (p : Place)
  | check (p : Place) (f : LockFile)
  | walk (p : Place)
  | say
  | prepare
  | draw
  | makeStaging (name : Str)
  | openUrl (path : Str)
  | makeParents (name : Str) (path : List Str)
  | create (name : Str) (path : List Str)
  | read
  | write (name : Str) (path : List Str) (bytes : List UInt8)
  | close
  | rename (name : Str)
  | list (name : Str)
  | unlink (name : Str) (path : List Str)
  | rmdir (name : Str)

/-- What a statement answers if it does not raise. -/
@[reducible] def Op.Ans : Op → Type
  | destExists => Bool
  | isDir _ => Bool
  | check .. => Option Str
  | walk _ => List Str
  | prepare => ℤ
  | draw => Str
  | openUrl _ => Option ℕ
  | read => List UInt8
  | list _ => List (List Str)
  | _ => Unit

/-- The statements of a pull; `none` is an exception. -/
abbrev Pulls : Signature where
  Op := Op
  Res o := Option o.Ans

/-- Issues a statement, and raises if it raises. -/
def ask (o : Op) : Proc Pulls o.Ans := OptionT.mk (.op o .ret)

variable (env : PullEnv) (lock : Lock) (entry : Entry)

/-! ## The program -/

/-- The files of the lock that `verify_dir` looks at one by one. -/
def checkFiles (p : Place) : List LockFile → List Str → Proc Pulls (List Str)
  | [], found => pure found
  | f :: files, found => do
    let problem ← ask (.check p f)
    checkFiles p files (found ++ problem.toList)

/-- `verify_dir`, statement by statement. -/
def verify (p : Place) : Proc Pulls (List Str) := do
  let plain ← ask (.isDir p)
  if plain then
    let found ← checkFiles p lock.files []
    let more ← ask (.walk p)
    pure (found ++ more)
  else pure ["directory missing or not a plain directory".toList]

/-- The reads and writes of `download_file`. Each chunk brings a byte, so `size + 1` reads come to
the end or over the limit. -/
def receive (name : Str) (f : LockFile) : ℕ → List UInt8 → Proc Pulls (List UInt8)
  | 0, _ => Proc.throw
  | reads + 1, got => do
    let chunk ← ask .read
    if chunk = [] then pure got
    else if f.size < (got ++ chunk).length then Proc.throw
    else do
      ask (.write name f.segments chunk)
      receive name f reads (got ++ chunk)

/-- `download_file` into the staging directory. -/
def downloadFile (name : Str) (f : LockFile) : Proc Pulls Unit := do
  let length ← ask (.openUrl f.path)
  if length.any fun n => (n : ℤ) ≠ f.size then Proc.throw
  else do
    ask (.makeParents name f.segments)
    ask (.create name f.segments)
    let got ← receive name f (f.size.toNat + 1) []
    ask .close
    if (got.length : ℤ) ≠ f.size ∨ env.sha256 got ≠ f.sha256 then Proc.throw else pure ()

def downloadAll (name : Str) : List LockFile → Proc Pulls Unit
  | [] => pure ()
  | f :: files => do
    ask .say
    downloadFile env name f
    downloadAll name files

/-- The body of the `try` of `pull_model`. -/
def install (name : Str) : Proc Pulls Unit := do
  ask (.makeStaging name)
  downloadAll env name lock.files
  let found ← verify lock (.staging name)
  if found = [] then ask (.rename name) else Proc.throw

def removeAll (name : Str) : List (List Str) → Proc Pulls Unit
  | [] => ask (.rmdir name)
  | path :: paths => do
    ask (.unlink name path)
    removeAll name paths

/-- `shutil.rmtree(staging, ignore_errors=True)`. -/
def rmtree (name : Str) : Proc Pulls Unit := do
  let paths ← ask (.list name)
  removeAll name paths

/-- `_SAFE`, and the length that `model_dir` allows. -/
def isSafeName (s : Str) : Bool :=
  s.length ≤ 128 && ((chop s).head?.any Char.isAlphanum &&
    (chop s).all fun c => c.isAlphanum || c ∈ "._-".toList)

/-- The entry and its lock pass the checks that come before the cache is looked at. -/
def admits (opts : PullOptions) : Bool :=
  env.checkLicence entry.codeLicense && env.checkLicence entry.weightsLicense
    && (entry.status = "verified".toList || opts.allowUnverified)
    && (env.repoIdFromUrl entry.sourceUrl).isSome && env.isCommit entry.revision
    && validateLock env lock entry.name entry.revision = []
    && (entry.sha256 = [] || env.lockDigest lock = entry.sha256)
    && (entry.status ≠ "verified".toList || entry.sha256 ≠ [])
    && (entry.status ≠ "verified".toList || unsafeFormatFiles lock = [])
    && isSafeName entry.name && isSafeName entry.revision

/-- The warnings that come before the cache is looked at. -/
def warn : Proc Pulls Unit := do
  (if entry.status ≠ "verified".toList then ask .say else pure ())
  (if unsafeFormatFiles lock ≠ [] then ask .say else pure ())

/-- `pull_model` from the look at the cache on; it returns the directory or raises. -/
def fetch (opts : PullOptions) : Proc Pulls Unit := do
  let present ← ask .destExists
  if present then do
    let found ← verify lock .dest
    if found = [] then ask .say else Proc.throw
  else if opts.offline then Proc.throw
  else do
    let free ← ask .prepare
    if free < (lock.files.map LockFile.size).sum + SPACE_MARGIN then Proc.throw
    else do
      let name ← ask .draw
      let done ← Proc.attempt (install env lock name)
      match done with
      | some () => ask .say
      | none => do
        rmtree name
        Proc.throw

/-- `pull_model`. -/
def pullModel (opts : PullOptions) : Proc Pulls Unit :=
  if admits env lock entry opts then do
    warn lock entry
    fetch env lock opts
  else Proc.throw

/-! ## The cache -/

/-- What stands in the cache at the model's place and under the staging names. `owners` are the names
drawn by calls that have neither installed their directory nor come to the end of its removal. -/
structure Cache where
  dest : Option Node
  staging : Str → Option Node
  owners : List Str

namespace Cache

def get (s : Cache) : Place → Option Node
  | .dest => s.dest
  | .staging name => s.staging name

def set (name : Str) (node : Option Node) (s : Cache) : Cache :=
  { s with staging := Function.update s.staging name node }

/-- Changes the tree under a staging name, if there is one. -/
def change (name : Str) (f : Tree → Tree) (s : Cache) : Cache :=
  match s.staging name with
  | some (.dir tree) => s.set name (some (.dir (f tree)))
  | _ => s

def release (name : Str) (s : Cache) : Cache := { s with owners := s.owners.filter (· ≠ name) }

/-- `staging.mkdir()`. -/
def makeStaging (name : Str) (s : Cache) : Option Cache :=
  if s.staging name = none then some (s.set name (some (.dir []))) else none

/-- Adds a directory, if there is none. -/
def mkdir (path : List Str) (tree : Tree) : Option Tree :=
  match tree.lookup path with
  | none => some (tree ++ [(path, .dir)])
  | some .dir => some tree
  | some (.symlink true) => some tree
  | some _ => none

/-- `dest.parent.mkdir(parents=True, exist_ok=True)` for a path below the staging directory. -/
def makeParents (name : Str) (path : List Str) (s : Cache) : Option Cache :=
  match (s.staging name).getD (.dir []) with
  | .other => none
  | .dir tree =>
    let parents := ((List.range path.length).filter (0 < ·)).map path.take
    (parents.foldlM (fun tree parent => mkdir parent tree) tree).map fun tree =>
      s.set name (some (.dir tree))

/-- `open(dest, "xb")`. -/
def create (name : Str) (path : List Str) (s : Cache) : Option Cache :=
  match s.staging name with
  | some (.dir tree) =>
    if tree.lookup path = none ∧ (path.length = 1 ∨ tree.lookup path.dropLast = some .dir) then
      some (s.set name (some (.dir (tree ++ [(path, .file [])]))))
    else none
  | _ => none

/-- Appends to a file. -/
def append (path : List Str) (bytes : List UInt8) (tree : Tree) : Tree :=
  tree.map fun (p, item) =>
    match item with
    | .file b => (p, .file (if p = path then b ++ bytes else b))
    | item => (p, item)

/-- Takes an entry out, a directory only if nothing is left below it. -/
def remove (path : List Str) (tree : Tree) : Tree :=
  if tree.any fun e => path.isPrefixOf e.1 && e.1 ≠ path then tree
  else tree.filter (·.1 ≠ path)

/-- `os.rename(staging, dest)`: it fails onto anything but an empty directory. -/
def rename (name : Str) (s : Cache) : Option Cache :=
  match s.staging name, s.dest with
  | some node, none => some { s.set name none with dest := some node }
  | some (.dir tree), some (.dir []) => some { s.set name none with dest := some (.dir tree) }
  | _, _ => none

/-- Removes the staging directory itself, if it is empty. -/
def rmdir (name : Str) (s : Cache) : Cache :=
  if s.staging name = some (.dir []) then s.set name none else s

/-- The paths below a staging directory, the last ones first. -/
def paths (name : Str) (s : Cache) : List (List Str) :=
  match s.staging name with
  | some (.dir tree) => (tree.map Prod.fst).reverse
  | _ => []

end Cache

/-- What settles the outcome of a statement: whether it goes through, and what comes from outside. An
exception may be raised without effect, after the effect or after a part of it. -/
inductive Choice
  | goes
  | raises
  | raisesAfter
  | part (k : ℕ)
  | drawn (name : Str)
  | free (bytes : ℤ)
  | length (n : Option ℕ)
  | chunk (bytes : List UInt8)

/-- What a statement does to the cache. -/
def act : (o : Op) → Choice → Cache → Option (Option o.Ans × Cache)
  | .destExists, .goes, s => some (some s.dest.isSome, s)
  | .isDir p, .goes, s =>
    some (some (match s.get p with | some (.dir _) => true | _ => false), s)
  | .check p f, .goes, s =>
    match s.get p with
    | some (.dir tree) => some (some (fileProblem env tree f), s)
    | _ => some (some (some (f.path ++ ": missing".toList)), s)
  | .walk p, .goes, s =>
    match s.get p with
    | some (.dir tree) => some (some (walkProblems lock tree), s)
    | _ => some (some [], s)
  | .say, .goes, s => some (some (), s)
  | .prepare, .free bytes, s => some (some bytes, s)
  | .draw, .drawn name, s => some (some name, { s with owners := name :: s.owners })
  | .makeStaging name, .goes, s => (s.makeStaging name).map fun s' => (some (), s')
  | .makeStaging name, .raisesAfter, s => (s.makeStaging name).map fun s' => (none, s')
  | .openUrl _, .length n, s => some (some n, s)
  | .makeParents name path, .goes, s => (s.makeParents name path).map fun s' => (some (), s')
  | .makeParents name path, .part k, s =>
    (s.makeParents name (path.take k)).map fun s' => (none, s')
  | .create name path, .goes, s => (s.create name path).map fun s' => (some (), s')
  | .create name path, .raisesAfter, s => (s.create name path).map fun s' => (none, s')
  | .read, .chunk bytes, s => some (some bytes, s)
  | .write name path bytes, .goes, s =>
    some (some (), s.change name (Cache.append path bytes))
  | .write name path bytes, .part k, s =>
    some (none, s.change name (Cache.append path (bytes.take k)))
  | .close, .goes, s => some (some (), s)
  | .rename name, .goes, s => (s.rename name).map fun s' => (some (), s'.release name)
  | .rename name, .raisesAfter, s => (s.rename name).map fun s' => (none, s')
  -- the statements of `rmtree`, whose errors are ignored
  | .list name, .goes, s => some (some (s.paths name), s)
  | .list _, .raises, s => some (some [], s)
  | .unlink name path, .goes, s => some (some (), s.change name (Cache.remove path))
  | .unlink _ _, .raises, s => some (some (), s)
  | .rmdir name, .goes, s => some (some (), (s.rmdir name).release name)
  | .rmdir name, .raises, s => some (some (), s.release name)
  | _, .raises, s => some (none, s)
  | _, _, _ => none

def machine : Machine Pulls Cache Choice := ⟨act env lock⟩

/-! ## The order of the statements -/

/-- Where a call stands: it has found no directory, it has a place to look at (its staging directory
once it has drawn a name), it is verifying the directory there, which has passed. -/
inductive Phase
  | absent
  | at (p : Place)
  | checking (p : Place) (done : List LockFile)
  | passed (p : Place)

/-- The staging directory a call has drawn, and the model's place before and after. -/
def Phase.place : Phase → Place
  | .absent => .dest
  | .at p => p
  | .checking p _ => p
  | .passed p => p

/-- Typestate of a call: it changes only the staging directory it has drawn, and renames it only after
it has passed. -/
abbrev pulling : Protocol Pulls where
  Phase := Phase
  permits
    | φ, .destExists => φ = .at .dest
    | φ, .isDir p => φ = .at p
    | φ, .check p _ => φ = .at p ∨ ∃ done, φ = .checking p done
    | φ, .walk p => φ = .at p ∨ φ = .checking p lock.files
    | φ, .prepare => φ = .absent
    | φ, .draw => φ = .absent ∧ lock.files ≠ []
    | φ, .makeStaging name => φ = .at (.staging name)
    | φ, .makeParents name _ => φ = .at (.staging name)
    | φ, .create name _ => φ = .at (.staging name)
    | φ, .write name .. => φ = .at (.staging name)
    | φ, .rename name => φ = .passed (.staging name)
    | φ, .list name => φ = .at (.staging name)
    | φ, .unlink name _ => φ = .at (.staging name)
    | φ, .rmdir name => φ = .at (.staging name)
    | _, _ => True
  next
    | φ, .destExists, r => some (if r = some false then .absent else φ)
    | φ, .isDir p, r => some (if r = some true then .checking p [] else φ)
    | .checking _ done, .check p f, r =>
      some (if r = some none then .checking p (done ++ [f]) else .at p)
    | .checking .., .walk p, r => some (if r = some [] then .passed p else .at p)
    | φ, .draw, r => some (match r with | some name => .at (.staging name) | none => φ)
    | _, .rename name, r =>
      some (match r with | some () => .passed .dest | none => .at (.staging name))
    | _, .rmdir _, _ => some (.at .dest)
    | φ, _, _ => some φ

variable {env lock entry}

theorem follows_ask {P : Protocol Pulls} {o : Op} {φ : P.Phase}
    {Q : P.Phase → Option o.Ans → Prop} (hpermits : P.permits φ o)
    (hnext : ∀ r φ', P.next φ o r = some φ' → Q φ' r) : (ask o).run.Follows P Q φ :=
  ⟨hpermits, hnext⟩

/-- The phase while the files are looked at: it is back where it was once something is found. -/
def checkPhase (p : Place) (done : List LockFile) (found : List Str) : Phase :=
  if found = [] then .checking p done else .at p

variable (lock) in
theorem checkFiles_follows (p : Place) (done files : List LockFile) (found : List Str) :
    (checkFiles p files found).run.Follows (pulling lock)
      (fun φ r => φ = match r with | none => .at p | some found => checkPhase p (done ++ files) found)
      (checkPhase p done found) := by
  induction files generalizing done found with
  | nil => simp [checkFiles]
  | cons f files ih =>
    unfold checkFiles
    refine Proc.follows_bind (follows_ask (Q := fun φ r => φ = match r with
      | none => Phase.at p
      | some problem => checkPhase p (done ++ [f]) (found ++ problem.toList)) ?_ ?_) ?_ ?_
    · unfold checkPhase
      split
      · exact .inr ⟨done, rfl⟩
      · exact .inl rfl
    · intro r φ' h
      unfold checkPhase at h
      split at h
      · cases h
        cases r with
        | none => rfl
        | some problem =>
          cases problem with
          | none => simp_all [checkPhase]
          | some text => simp_all [checkPhase]
      · cases h
        cases r with
        | none => rfl
        | some problem => simp_all [checkPhase]
    · rintro φ problem rfl
      have hfiles := ih (done ++ [f]) (found ++ problem.toList)
      rw [List.append_assoc, List.singleton_append] at hfiles
      exact hfiles
    · rintro φ rfl
      rfl

/-- `verify_dir` ends in a passed directory if it finds nothing, and where it started otherwise. -/
theorem verify_follows (p : Place) :
    (verify lock p).run.Follows (pulling lock)
      (fun φ r => φ = if r = some [] then .passed p else .at p) (.at p) := by
  unfold verify
  refine Proc.follows_bind (follows_ask (Q := fun φ r => φ = if r = some true then
    Phase.checking p [] else .at p) rfl ?_) ?_ ?_
  · intro r φ' h
    cases h
    rfl
  · rintro φ plain rfl
    cases plain with
    | false => simp
    | true =>
      rw [if_pos rfl, if_pos rfl]
      have hfiles := checkFiles_follows lock p [] lock.files []
      refine Proc.follows_bind hfiles ?_ ?_
      · rintro φ found rfl
        refine Proc.follows_bind (follows_ask (Q := fun φ r => φ = match r with
          | none => Phase.at p
          | some more => if found ++ more = [] then .passed p else .at p) ?_ ?_) ?_ ?_
        · by_cases hfound : found = []
          · exact .inr (if_pos hfound)
          · exact .inl (if_neg hfound)
        · intro r φ' h
          by_cases hfound : found = []
          · subst hfound
            cases h
            cases r with
            | none => rfl
            | some more => simp
          · have hphase : checkPhase p ([] ++ lock.files) found = .at p := if_neg hfound
            dsimp only at h
            rw [hphase] at h
            cases h
            cases r with
            | none => rfl
            | some more => simp [hfound]
        · rintro φ more rfl
          simp
        · rintro φ rfl
          simp
      · rintro φ rfl
        simp
  · rintro φ rfl
    simp

/-- The statements of a download into the staging directory of a name. -/
def Downloads (name : Str) : Op → Prop
  | .say => True
  | .openUrl _ => True
  | .makeParents name' _ => name' = name
  | .create name' _ => name' = name
  | .read => True
  | .write name' .. => name' = name
  | .close => True
  | _ => False

theorem only_ask {φ : Op → Prop} {o : Op} (h : φ o) : (ask o).run.Only φ :=
  (Prog.Only.op_iff _ _).2 ⟨h, fun _ => trivial⟩

theorem only_pure {α : Type} {φ : Op → Prop} {a : α} : (pure a : Proc Pulls α).run.Only φ := trivial

theorem only_throw {α : Type} {φ : Op → Prop} : (Proc.throw : Proc Pulls α).run.Only φ := trivial

theorem receive_only (name : Str) (f : LockFile) (reads : ℕ) (got : List UInt8) :
    (receive name f reads got).run.Only (Downloads name) := by
  induction reads generalizing got with
  | zero => trivial
  | succ reads ih =>
    unfold receive
    apply Proc.only_bind (only_ask trivial)
    intro chunk
    apply Proc.only_ite only_pure
    apply Proc.only_ite only_throw
    have hwrite : Downloads name (.write name f.segments chunk) := rfl
    apply Proc.only_bind (only_ask hwrite)
    exact fun _ => ih _

theorem downloadFile_only (name : Str) (f : LockFile) :
    (downloadFile env name f).run.Only (Downloads name) := by
  unfold downloadFile
  apply Proc.only_bind (only_ask trivial)
  intro length
  apply Proc.only_ite only_throw
  have hparents : Downloads name (.makeParents name f.segments) := rfl
  apply Proc.only_bind (only_ask hparents)
  intro _
  have hcreate : Downloads name (.create name f.segments) := rfl
  apply Proc.only_bind (only_ask hcreate)
  intro _
  apply Proc.only_bind (receive_only _ _ _ _)
  intro got
  apply Proc.only_bind (only_ask trivial)
  intro _
  exact Proc.only_ite only_throw only_pure

theorem downloadAll_only (name : Str) (files : List LockFile) :
    (downloadAll env name files).run.Only (Downloads name) := by
  induction files with
  | nil => trivial
  | cons f files ih =>
    unfold downloadAll
    apply Proc.only_bind (only_ask trivial)
    intro _
    apply Proc.only_bind (downloadFile_only _ _)
    exact fun _ => ih

/-- A download stays in the phase of its staging directory. -/
theorem permits_of_downloads {name : Str} {o : Op} (h : Downloads name o) :
    (pulling lock).permits (.at (.staging name)) o ∧
      ∀ r φ', (pulling lock).next (.at (.staging name)) o r = some φ' →
        φ' = Phase.at (.staging name) := by
  cases o with
  | say => exact ⟨trivial, fun r φ' h => (Option.some.inj h).symm⟩
  | openUrl path => exact ⟨trivial, fun r φ' h => (Option.some.inj h).symm⟩
  | makeParents name' path =>
    cases h
    exact ⟨rfl, fun r φ' h => (Option.some.inj h).symm⟩
  | create name' path =>
    cases h
    exact ⟨rfl, fun r φ' h => (Option.some.inj h).symm⟩
  | read => exact ⟨trivial, fun r φ' h => (Option.some.inj h).symm⟩
  | write name' path bytes =>
    cases h
    exact ⟨rfl, fun r φ' h => (Option.some.inj h).symm⟩
  | close => exact ⟨trivial, fun r φ' h => (Option.some.inj h).symm⟩
  | _ => exact h.elim

/-- The body of the `try` ends with the directory in its place, or raises in the phase of its staging
directory. -/
theorem install_follows (name : Str) :
    (install env lock name).run.Follows (pulling lock)
      (fun φ r => φ = match r with | some () => .passed .dest | none => .at (.staging name))
      (.at (.staging name)) := by
  unfold install
  refine Proc.follows_bind (follows_ask (Q := fun φ _ => φ = Phase.at (.staging name)) rfl ?_) ?_ ?_
  · exact fun r φ' h => (Option.some.inj h).symm
  · rintro φ - rfl
    refine Proc.follows_bind ((downloadAll_only name lock.files).follows
      fun o ho => permits_of_downloads ho) ?_ ?_
    · rintro φ - rfl
      refine Proc.follows_bind (verify_follows (.staging name)) ?_ ?_
      · rintro φ found rfl
        by_cases hfound : found = []
        · subst hfound
          rw [if_pos rfl, if_pos rfl]
          refine follows_ask rfl fun r φ' h => ?_
          cases h
          cases r <;> rfl
        · rw [if_neg hfound, if_neg fun h => hfound (Option.some.inj h)]
          rfl
      · rintro φ rfl
        rw [if_neg (by simp)]
    · rintro φ rfl
      rfl
  · rintro φ rfl
    rfl

theorem removeAll_follows (name : Str) (paths : List (List Str)) :
    (removeAll name paths).run.Follows (pulling lock) (fun _ _ => True) (.at (.staging name)) := by
  induction paths with
  | nil => exact follows_ask rfl fun _ _ _ => trivial
  | cons path paths ih =>
    unfold removeAll
    refine Proc.follows_bind (follows_ask (Q := fun φ _ => φ = Phase.at (.staging name)) rfl ?_) ?_ ?_
    · exact fun r φ' h => (Option.some.inj h).symm
    · rintro φ - rfl
      exact ih
    · exact fun _ _ => trivial

theorem rmtree_follows (name : Str) :
    (rmtree name).run.Follows (pulling lock) (fun _ _ => True) (.at (.staging name)) := by
  unfold rmtree
  refine Proc.follows_bind (follows_ask (Q := fun φ _ => φ = Phase.at (.staging name)) rfl ?_) ?_ ?_
  · exact fun r φ' h => (Option.some.inj h).symm
  · rintro φ paths rfl
    exact removeAll_follows name paths
  · exact fun _ _ => trivial

/-- A call returns only with the model in its place, verified. -/
def Returns (φ : Phase) (r : Option Unit) : Prop := r = some () → φ = .passed .dest

theorem say_follows {φ : Phase} (h : φ = .passed .dest) :
    (ask .say).run.Follows (pulling lock) Returns φ :=
  follows_ask trivial fun _ _ hφ' _ => (Option.some.inj hφ').symm.trans h

theorem fetch_follows (hfiles : lock.files ≠ []) (opts : PullOptions) :
    (fetch env lock opts).run.Follows (pulling lock) Returns (.at .dest) := by
  unfold fetch
  refine Proc.follows_bind (follows_ask (Q := fun φ r => φ = if r = some false then Phase.absent
    else .at .dest) rfl ?_) ?_ ?_
  · exact fun r φ' h => (Option.some.inj h).symm
  · rintro φ present rfl
    cases present with
    | true =>
      rw [if_pos rfl, if_neg (by simp)]
      refine Proc.follows_bind (verify_follows .dest) ?_ ?_
      · rintro φ found rfl
        by_cases hfound : found = []
        · subst hfound
          rw [if_pos rfl]
          exact say_follows rfl
        · rw [if_neg hfound]
          exact fun h => nomatch h
      · exact fun φ _ h => nomatch h
    | false =>
      rw [if_neg Bool.false_ne_true, if_pos rfl]
      split
      · exact fun h => nomatch h
      · refine Proc.follows_bind (follows_ask (Q := fun φ _ => φ = Phase.absent) rfl ?_) ?_ ?_
        · exact fun r φ' h => (Option.some.inj h).symm
        · rintro φ free rfl
          split
          · exact fun h => nomatch h
          · refine Proc.follows_bind (follows_ask (Q := fun φ r => ∀ name, r = some name →
              φ = Phase.at (.staging name)) ⟨rfl, hfiles⟩ ?_) ?_ ?_
            · rintro r φ' h name rfl
              exact (Option.some.inj h).symm
            · intro φ name h
              obtain rfl := h name rfl
              refine Proc.follows_bind (Q := fun φ r => ∀ done, r = some done → φ = match done with
                | some () => Phase.passed .dest
                | none => .at (.staging name)) ?_ ?_ ?_
              · rw [Proc.run_attempt]
                refine (install_follows name).bind fun φ done h => ?_
                intro done' hdone
                cases hdone
                exact h
              · rintro φ done h
                obtain rfl := h done rfl
                cases done with
                | some _ => exact say_follows rfl
                | none =>
                  refine Proc.follows_bind (rmtree_follows name) ?_ ?_
                  · exact fun _ _ _ h => nomatch h
                  · exact fun _ _ h => nomatch h
              · exact fun _ _ h => nomatch h
            · exact fun _ _ h => nomatch h
        · exact fun _ _ h => nomatch h
  · exact fun _ _ h => nomatch h

theorem pullModel_follows (opts : PullOptions) :
    (pullModel env lock entry opts).run.Follows (pulling lock) Returns (.at .dest) := by
  unfold pullModel
  split
  · rename_i hadmits
    have hfiles : lock.files ≠ [] := by
      unfold admits at hadmits
      simp only [Bool.and_eq_true, decide_eq_true_eq] at hadmits
      exact files_ne_nil_of_valid (by tauto)
    have hstay : ∀ c : Prop, [Decidable c] → (if c then ask .say else pure ()).run.Follows
        (pulling lock) (fun φ _ => φ = Phase.at .dest) (.at .dest) := by
      intro c _
      split
      · exact follows_ask trivial fun r φ' h => (Option.some.inj h).symm
      · rfl
    refine Proc.follows_bind (Q := fun φ _ => φ = Phase.at .dest) ?_ ?_ ?_
    · unfold warn
      refine Proc.follows_bind (hstay _) ?_ ?_
      · rintro φ - rfl
        exact hstay _
      · exact fun _ h => h
    · rintro φ - rfl
      exact fetch_follows hfiles opts
    · exact fun _ _ h => nomatch h
  · exact fun h => nomatch h

end RagLeap.Voice
