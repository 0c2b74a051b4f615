import RagLeap.Foundations.Dict
import RagLeap.Sandbox.Reader

/-!
# The stager in the sandbox

The stager script of `sandbox/runner.py` copies the allowed files of a granted folder into a
staging area and writes a manifest of what the area holds. A pass scans the folder (`scan`), goes
through the candidates in order (`stageOne`: a file is kept as it is staged, copied, or left for a
later pass), removes everything else from the area (`cleanUp`) and replaces the manifest (`pass`).

A relative path is the list of its names; `relText` is its text. The folder is a tree as the scan
sees it; what opening a file for the copy gives is a part of the pass of its own, so files may
change in between. A pass may also stop on the way, or fail to write the manifest. The directories
of the area are real ones, as the stager makes them; what they hold may be anything.
-/

namespace RagLeap.Staging

open PyStr JsonText Sandbox

/-! ## The granted folder -/

/-- What a directory holds under a name: `broken` is an entry that cannot be asked what it is. -/
inductive Item
  | symlink
  | dir (listable : Bool) (entries : List (PyStr × Item))
  | file (size : ℕ) (mtime : ℤ)
  | special
  | broken

/-- The name of an entry of a directory. -/
structure IsEntryName (n : PyStr) : Prop where
  ne_nil : n ≠ []
  slash_notMem : ch '/' ∉ n

/-- A directory lists every name once. -/
inductive Item.WellFormed : Item → Prop
  | symlink : WellFormed .symlink
  | dir {listable : Bool} {entries : List (PyStr × Item)} : (entries.map Prod.fst).Nodup →
      (∀ e ∈ entries, IsEntryName e.1) → (∀ e ∈ entries, WellFormed e.2) →
      WellFormed (.dir listable entries)
  | file {size : ℕ} {mtime : ℤ} : WellFormed (.file size mtime)
  | special : WellFormed .special
  | broken : WellFormed .broken

structure Folder where
  item : Item
  wellFormed : item.WellFormed

/-- The text of a relative path. -/
def relText (path : List PyStr) : PyStr := [ch '/'].intercalate path

/-- What the stager's interpreter and the content of files bring. -/
structure Env (C : Type) where
  lower : PyStr → PyStr
  lower_ascii : ∀ s : PyStr, (∀ c ∈ s, c.val < 0x80) →
    lower s = s.map fun c => if 65 ≤ c.val ∧ c.val ≤ 90 then point (c.val + 32) else c
  len : C → ℕ
  sha256 : C → Str

/-- `MAXF`, `MAXC`, `MAXN` and `MAXT`. -/
structure Limits where
  maxFile : ℕ
  maxCopies : ℕ
  maxFiles : ℕ
  maxBytes : ℕ

/-- The limits of `build_stage_spec`. -/
def stageLimits : Limits := ⟨25 * 1024 * 1024, 200, 5000, 500 * 1024 * 1024⟩

def scanMax : ℕ := 200000

def depthMax : ℕ := 20

def relMax : ℕ := 300

/-- `STAGE_EXTENSIONS`. -/
def stageExtensions : List PyStr :=
  [".csv", ".docx", ".eml", ".epub", ".htm", ".html", ".json", ".md", ".odp", ".ods", ".odt",
    ".parquet", ".pdf", ".pptx", ".rtf", ".sql", ".srt", ".tsv", ".txt", ".vtt", ".xls", ".xlsx",
    ".xml", ".xsl", ".xslt", ".yaml", ".yml", ".zip"].map lit

variable {C : Type} (env : Env C) (lim : Limits)

/-- `e.name.lower().endswith(EXTS)`. -/
def hasExtension (name : PyStr) : Bool := stageExtensions.any (·.isSuffixOf (env.lower name))

/-! ## The scan -/

/-- Why entries were left out. -/
structure Skipped where
  extension : ℕ
  tooLarge : ℕ
  denied : ℕ
  symlink : ℕ
  special : ℕ
  tooLong : ℕ
  unreadable : ℕ
  deriving DecidableEq

def Skipped.none : Skipped := ⟨0, 0, 0, 0, 0, 0, 0⟩

/-- A file to stage. -/
structure Cand where
  path : List PyStr
  size : ℕ
  mtime : ℤ
  deriving DecidableEq

def Cand.rel (c : Cand) : PyStr := relText c.path

structure Scan where
  seen : ℕ
  truncated : Bool
  skipped : Skipped
  cands : List Cand

/-- A regular file: too long a path, another extension, too large, or a candidate. -/
def scanFile (path : List PyStr) (name : PyStr) (size : ℕ) (mtime : ℤ) (s : Scan) : Scan :=
  if relMax < (relText path).length then
    { s with skipped := { s.skipped with tooLong := s.skipped.tooLong + 1 } }
  else if !hasExtension env name then
    { s with skipped := { s.skipped with extension := s.skipped.extension + 1 } }
  else if lim.maxFile < size then
    { s with skipped := { s.skipped with tooLarge := s.skipped.tooLarge + 1 } }
  else { s with cands := s.cands ++ [⟨path, size, mtime⟩] }

/-- The loop over the entries of the directory at `path`, with the directories put on the stack. -/
def scanEntries (path : List PyStr) :
    List (PyStr × Item) → Scan → List (List PyStr × Item) → Scan × List (List PyStr × Item)
  | [], s, dirs => (s, dirs)
  | (name, item) :: rest, s, dirs =>
    let s := { s with seen := s.seen + 1 }
    if scanMax < s.seen then ({ s with truncated := true }, dirs)
    else if denied env.lower name then
      scanEntries path rest { s with skipped := { s.skipped with denied := s.skipped.denied + 1 } }
        dirs
    else
      match item with
      | .symlink =>
        scanEntries path rest
          { s with skipped := { s.skipped with symlink := s.skipped.symlink + 1 } } dirs
      | .dir listable entries =>
        scanEntries path rest s (dirs ++ [(path ++ [name], .dir listable entries)])
      | .special =>
        scanEntries path rest
          { s with skipped := { s.skipped with special := s.skipped.special + 1 } } dirs
      | .broken =>
        scanEntries path rest
          { s with skipped := { s.skipped with unreadable := s.skipped.unreadable + 1 } } dirs
      | .file size mtime =>
        scanEntries path rest (scanFile env lim (path ++ [name]) name size mtime s) dirs

/-- `sorted(os.scandir(..), key=lambda x: x.name)`. -/
def sortItems (l : List (PyStr × Item)) : List (PyStr × Item) :=
  l.insertionSort fun a b => a.1 ≤ b.1

/-- The turn of a directory that comes off the stack, with everything it puts there itself. The
directories put there last come off first; `left` levels below it are entered. -/
def scanDir : ℕ → List PyStr × Item → Scan → Scan
  | left, (path, item), s =>
    if s.truncated then s
    else
      match item with
      | .dir true entries =>
        let r := scanEntries env lim path (sortItems entries) s []
        match left with
        | 0 => r.1
        | left + 1 => r.2.reverse.foldl (fun s d => scanDir left d s) r.1
      | _ => { s with skipped := { s.skipped with unreadable := s.skipped.unreadable + 1 } }

/-- The scan of the folder. -/
def scan (folder : Folder) : Scan :=
  scanDir env lim depthMax ([], folder.item) ⟨0, false, .none, []⟩

/-! ## Staging the candidates -/

/-- What stands in the staging area under a path. -/
inductive Staged (C : Type)
  | file (content : C)
  | link
  | special
  deriving DecidableEq

abbrev Area (C : Type) : Type := Dict PyStr (Staged C)

/-- `os.path.isfile(dest) and not os.path.islink(dest)`, with the content. -/
def stagedFile (area : Area C) (rel : PyStr) : Option C :=
  match area.get? rel with
  | some (.file content) => some content
  | _ => none

/-- An entry of the manifest. -/
structure Entry where
  path : PyStr
  size : ℕ
  mtime : ℤ
  sha256 : Str
  deriving DecidableEq

/-- The temporary file beside the copy after a copy that failed. -/
inductive Temporary (C : Type)
  | asBefore
  | gone
  | left (content : C)

/-- Reading the open file and writing the copy: the content read, or an error on the way. -/
inductive Transfer (C : Type)
  | read (content : C)
  | failed (temporary : Temporary C)

/-- What opening the file for the copy gives. -/
inductive Opened (C : Type)
  | refused
  | notRegular
  | regular (mtime : ℤ) (transfer : Transfer C)

/-- How a pass ends: with the manifest replaced, without (an error while it is written), stopped
after `done` candidates, in the copy of the next or with the files of `cleaned` removed, or before
the area was touched. -/
inductive Ending (C : Type)
  | finished
  | unwritten
  | stopped (done : ℕ) (temporary : Temporary C) (cleaned : PyStr → Bool)
  | refused

/-- What a pass meets: the folder as scanned and as opened, the process, the files of the area that
cannot be removed, the clock, and how it ends. -/
structure Input (C : Type) where
  folder : Folder
  opened : PyStr → Opened C
  pid : ℕ
  survives : PyStr → Bool
  now : ℕ
  ending : Ending C

/-- The pass between two candidates. -/
structure Run (C : Type) where
  keep : Dict PyStr Entry
  copies : ℕ
  total : ℕ
  pending : ℕ
  truncated : Bool
  skipped : Skipped
  area : Area C

/-- The temporary file of a copy. -/
def tmpPath (pid : ℕ) (path : List PyStr) : PyStr :=
  relText (path.dropLast ++ [lit ".stage-" ++ natText pid ++ lit ".tmp"])

/-- What stands at the temporary file's path after it was opened and written: a link that was there
is written through, and stays. -/
def written (area : Area C) (tmp : PyStr) (content : C) : Staged C :=
  match area.get? tmp with
  | some .link => .link
  | _ => .file content

/-- The area after a copy that failed. -/
def Temporary.apply (t : Temporary C) (tmp : PyStr) (area : Area C) : Area C :=
  match t with
  | asBefore => area
  | gone => area.erase tmp
  | left content => area.set tmp (written area tmp content)

/-- `skipped["unreadable"] += 1`. -/
def Run.unreadable (r : Run C) : Run C :=
  { r with skipped := { r.skipped with unreadable := r.skipped.unreadable + 1 } }

/-- `copy_one`. -/
def copyOne (input : Input C) (path : List PyStr) (r : Run C) : Run C × Option Entry :=
  match input.opened (relText path) with
  | .refused => (r.unreadable, none)
  | .notRegular =>
    ({ r with skipped := { r.skipped with special := r.skipped.special + 1 } }, none)
  | .regular mtime transfer =>
    let tmp := tmpPath input.pid path
    match transfer with
    | .failed t => ({ r.unreadable with area := t.apply tmp r.area }, none)
    | .read content =>
      if lim.maxFile < env.len content then
        ({ r.unreadable with area := r.area.erase tmp }, none)
      else
        ({ r with area := (r.area.erase tmp).set (relText path) (written r.area tmp content) },
          some ⟨relText path, env.len content, mtime, env.sha256 content⟩)

/-- The last branch of the loop: the candidate is copied, and kept if that went well. -/
def copyAndKeep (input : Input C) (r : Run C) (c : Cand) : Run C :=
  match copyOne env lim input c.path r with
  | (r, none) => r
  | (r, some e) =>
    { r with keep := r.keep.set c.rel e, total := r.total + e.size, copies := r.copies + 1 }

/-- The turn of a candidate. -/
def stageOne (prev : Dict PyStr Entry) (input : Input C) (r : Run C) (c : Cand) : Run C :=
  if lim.maxFiles ≤ r.keep.size ∨ lim.maxBytes < r.total + c.size then { r with truncated := true }
  else
    match prev.get? c.rel, stagedFile r.area c.rel with
    | some old, some content =>
      if old.size = c.size ∧ old.mtime = c.mtime ∧ env.len content = c.size then
        { r with keep := r.keep.set c.rel old, total := r.total + c.size }
      else if lim.maxCopies ≤ r.copies then
        { r with pending := r.pending + 1, keep := r.keep.set c.rel old
                 total := r.total + old.size }
      else copyAndKeep env lim input r c
    | _, _ =>
      if lim.maxCopies ≤ r.copies then { r with pending := r.pending + 1 }
      else copyAndKeep env lim input r c

/-- The order of `cands.sort()`. -/
def candLe (a b : Cand) : Prop :=
  a.rel < b.rel ∨ (a.rel = b.rel ∧ (a.size < b.size ∨ (a.size = b.size ∧ a.mtime ≤ b.mtime)))

instance : DecidableRel candLe := fun _ _ => inferInstanceAs (Decidable (_ ∨ _))

/-- The candidates in the order of their turns. -/
def candidates (folder : Folder) : List Cand := (scan env lim folder).cands.insertionSort candLe

/-! ## A pass -/

/-- The manifest. -/
structure Doc where
  generatedAt : ℕ
  files : List Entry
  skipped : Skipped
  pending : ℕ
  truncated : Bool
  deriving DecidableEq

/-- The staging area of a grant, and the manifest the last pass that finished wrote. -/
structure State (C : Type) where
  area : Area C
  manifest : Option Doc

def State.empty : State C := ⟨Dict.empty, none⟩

/-- `prev`, from the entries of the manifest. -/
def prevOf (manifest : Option Doc) : Dict PyStr Entry :=
  ((manifest.map Doc.files).getD []).foldl (fun d e => d.set e.path e) Dict.empty

/-- The run over some candidates. -/
def runOver (input : Input C) (s : State C) (cands : List Cand) : Run C :=
  let sc := scan env lim input.folder
  cands.foldl (stageOne env lim (prevOf s.manifest) input)
    ⟨Dict.empty, 0, 0, 0, sc.truncated, sc.skipped, s.area⟩

/-- The files that stay: those to keep, and those that cannot be removed. -/
def cleanUp (r : Run C) (stays : PyStr → Bool) : Area C :=
  r.area.filter fun p _ => (r.keep.get? p).isSome || stays p

/-- `[keep[k] for k in sorted(keep)]`. -/
def sortedFiles (keep : Dict PyStr Entry) : List Entry :=
  (keep.items.insertionSort fun a b => a.1 ≤ b.1).map Prod.snd

def docOf (input : Input C) (r : Run C) : Doc where
  generatedAt := input.now
  files := sortedFiles r.keep
  skipped := r.skipped
  pending := r.pending
  truncated := r.truncated

/-- The manifest can be encoded: no path has a surrogate. -/
def Doc.encodable (doc : Doc) : Bool := doc.files.all fun e => e.path.all fun c => !isSurrogate c

/-- The run over all the candidates. -/
def fullRun (input : Input C) (s : State C) : Run C :=
  runOver env lim input s (candidates env lim input.folder)

/-- A pass of the stager. -/
def pass (s : State C) (input : Input C) : State C :=
  match input.ending with
  | .refused => s
  | .stopped done temporary cleaned =>
    let cands := candidates env lim input.folder
    let r := runOver env lim input s (cands.take done)
    let area := match cands[done]? with
      | some c => temporary.apply (tmpPath input.pid c.path) r.area
      | none => r.area
    { s with area := cleanUp { r with area } (!cleaned ·) }
  | .unwritten => { s with area := cleanUp (fullRun env lim input s) input.survives }
  | .finished =>
    let r := fullRun env lim input s
    if (docOf input r).encodable then ⟨cleanUp r input.survives, some (docOf input r)⟩
    else { s with area := cleanUp r input.survives }

/-- The pass runs to its end and replaces the manifest. -/
def Writes (s : State C) (input : Input C) : Prop :=
  input.ending = .finished ∧ (docOf input (fullRun env lim input s)).encodable = true

end RagLeap.Staging
