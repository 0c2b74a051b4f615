import RagLeap.Foundations.JsonRaw
import RagLeap.Foundations.LinkTree
import RagLeap.Sandbox.Grants

/-!
# The reader in the sandbox

A request to list or read a path in a granted folder passes three checks: `clean_rel` of the app
(`core/file_access.py`), `rel_problem` of the runner, and the fixed reader script that runs in the
container, with the folder mounted at `/data` (`sandbox/runner.py`). The reader resolves the path
with `os.path.realpath` and refuses what lies outside the folder or under a protected name.

Strings are those of the interpreter, so names of any bytes are covered. What the directories of
the container show and what a lookup in them finds are separate parts of a tree: permissions can
hide either. `opened` is the path the kernel resolves when the reader opens what it resolved.

Where the resolution meets no loop of symbolic links, the two agree and the reader stays inside
(`reader_confined`). On a loop, `os.path.realpath` gives up half way and drops the rest of `..`
from the text, and what the reader checks is not what it opens (`loop_escapes`).
-/

namespace RagLeap.Sandbox

open PyStr LinkTree JsonText

variable {F : Type}

/-! ## Names and relative paths -/

/-- A string written in the source. -/
def lit (s : String) : PyStr := text s.toList

/-- The lists of protected names, as the strings of the interpreter. -/
def denied (lower : PyStr → PyStr) (name : PyStr) : Bool :=
  let n := lower name
  decide (n ∈ denyNames.map text) || (denyPrefixes.map text).any (·.isPrefixOf n) ||
    (denySuffixes.map text).any (·.isSuffixOf n)

def dot : PyStr := [ch '.']

def dotDot : PyStr := [ch '.', ch '.']

/-- `rel.split("/")` without empty components and `.`. -/
def parts (rel : PyStr) : List PyStr := (rel.splitOn (ch '/')).filter fun p => p ≠ [] ∧ p ≠ dot

/-- A component as path resolution takes it. -/
def comp (c : PyStr) : Comp PyStr :=
  if c = [] then .empty else if c = dot then .dot else if c = dotDot then .up else .name c

/-- White space, as `str.isspace` has it. -/
def isWhite (c : CodePoint) : Bool :=
  let n := c.val
  (9 ≤ n && n ≤ 13) || (28 ≤ n && n ≤ 32) || n == 0x85 || n == 0xa0 || n == 0x1680 ||
    (0x2000 ≤ n && n ≤ 0x200a) || n == 0x2028 || n == 0x2029 || n == 0x202f || n == 0x205f ||
    n == 0x3000

/-- `s.strip()`. -/
def strip (s : PyStr) : PyStr := ((s.dropWhile isWhite).reverse.dropWhile isWhite).reverse

inductive FileOp
  | list
  | read
  deriving DecidableEq

/-- `MAX_REL_CHARS`, of the app and of the runner. -/
def maxRelChars : ℕ := 300

/-- `clean_rel`; the empty text where no path was given. -/
def cleanRel (op : FileOp) (rel : PyStr) : Option PyStr :=
  let rel := strip rel
  if op = .list ∧ (rel = [] ∨ rel = dot) then some []
  else if rel = [] ∨ maxRelChars < rel.length ∨ point 0 ∈ rel ∨ ch '\n' ∈ rel ∨ ch '\r' ∈ rel ∨
      ch '\\' ∈ rel then none
  else if rel.head? = some (ch '/') ∨ dotDot ∈ rel.splitOn (ch '/') then none
  else some rel

inductive RelProblem
  | noPath
  | notAllowed
  deriving DecidableEq

def RelProblem.text : RelProblem → String
  | noPath => "give a file path"
  | notAllowed => "that path is not allowed"

/-- A component that leads up, or is protected. -/
def badPart (lower : PyStr → PyStr) (p : PyStr) : Bool := p = dotDot || denied lower p

/-- `rel_problem`; the test that the path is text is made where it is read. -/
def relProblem (lower : PyStr → PyStr) (rel : PyStr) (allowEmpty : Bool) : Option RelProblem :=
  if strip rel = [] then if allowEmpty then none else some .noPath
  else if maxRelChars < rel.length ∨ point 0 ∈ rel ∨ ch '\\' ∈ rel ∨
      rel.head? = some (ch '/') then some .notAllowed
  else if (parts rel).any (badPart lower) then some .notAllowed
  else none

/-! ## What the reader finds -/

/-- What `os.scandir` says of an entry; the size where it can be asked for. -/
inductive EntryKind
  | symlink
  | dir
  | file (size : Option ℕ)
  | special
  deriving DecidableEq

structure DirEntry where
  name : PyStr
  kind : EntryKind
  deriving DecidableEq

/-- What is neither a directory nor a link. A file has the size `os.stat` gives and, where it may
be opened, its content. -/
inductive Leaf
  | file (size : ℕ) (data : Option (List UInt8))
  | special

/-- A tree of the container; a directory carries what `os.scandir` shows where it may be read. -/
abbrev Tree : Type := Node PyStr (Option (List DirEntry)) Leaf

/-- The names of `/data`. -/
def base : List PyStr := [lit "data"]

/-- The tree of a container with a folder mounted at `/data`. -/
structure Container where
  root : Tree
  data_dir : ∃ listing entries, lookup root base = some (.dir listing entries)

/-- What the reader's interpreter brings: lower case, `sha256().hexdigest()`, how deep calls may be
nested, and the floats. -/
structure Interp (F : Type) where
  lower : PyStr → PyStr
  sha256 : List UInt8 → PyStr
  depth : ℕ
  floats : Floats F
  depth_pos : 0 < depth

/-- An entry of a listing; a file has its size. -/
structure Entry where
  name : PyStr
  size : Option ℕ
  deriving DecidableEq

structure Content where
  size : ℕ
  bytesRead : ℕ
  truncated : Bool
  sha256 : PyStr
  text : PyStr
  deriving DecidableEq

/-- What the reader answers, with the path the kernel opened for it. -/
inductive Reply
  | error (message : String)
  | crash
  | listing (dir : List PyStr) (entries : List Entry) (truncated : Bool)
  | binary (file : List PyStr) (size : ℕ)
  | content (file : List PyStr) (content : Content)
  deriving DecidableEq

/-- The path the reader opened. -/
def Reply.opened : Reply → Option (List PyStr)
  | listing dir _ _ => some dir
  | binary file _ => some file
  | content file _ => some file
  | _ => none

/-- `MAXN`. -/
def fileListMax : ℕ := 100

/-- `MAXB`. -/
def fileReadBytes : ℕ := 12000

/-- The loop over the sorted entries. -/
def listEntries (lower : PyStr → PyStr) : List DirEntry → List Entry → List Entry × Bool
  | [], entries => (entries, false)
  | e :: rest, entries =>
    if denied lower e.name ∨ e.kind = .symlink then listEntries lower rest entries
    else if fileListMax ≤ entries.length then (entries, true)
    else
      match e.kind with
      | .dir => listEntries lower rest (entries ++ [⟨e.name.take 200, none⟩])
      | .file (some size) => listEntries lower rest (entries ++ [⟨e.name.take 200, some size⟩])
      -- neither a folder nor a regular file, or its size cannot be read
      | _ => listEntries lower rest entries

/-- `sorted(os.scandir(target), key=lambda x: x.name)`. -/
def sortEntries (l : List DirEntry) : List DirEntry := l.insertionSort fun a b => a.name ≤ b.name

def str (s : String) : Value F := .str (lit s)

def member (k : String) (t : Value F) : PyStr × Value F := (lit k, t)

/-- The document of an entry. -/
def Entry.doc (e : Entry) : Value F :=
  match e.size with
  | none => .obj [member "name" (.str e.name), member "type" (str "dir")]
  | some size => .obj [member "name" (.str e.name), member "type" (str "file"),
      member "size" (.atom (.int size))]

def Content.doc (c : Content) : Value F :=
  .obj [member "op" (str "read"), member "size" (.atom (.int c.size)),
    member "bytes_read" (.atom (.int c.bytesRead)), member "truncated" (.atom (.bool c.truncated)),
    member "sha256" (.str c.sha256), member "text" (.str c.text)]

def listingDoc (entries : List Entry) (truncated : Bool) : Value F :=
  .obj [member "op" (str "list"), member "entries" (.arr (entries.map Entry.doc)),
    member "truncated" (.atom (.bool truncated))]

/-- The document the reader prints, with its exit code. -/
def Reply.doc : Reply → Option (Value F × ℕ)
  | error message => some (.obj [member "error" (str message)], 3)
  | crash => none
  | listing _ entries truncated => some (listingDoc entries truncated, 0)
  | binary _ size => some (.obj [member "op" (str "read"), member "binary" (.atom (.bool true)),
      member "size" (.atom (.int size))], 0)
  | content _ c => some (c.doc, 0)

variable (env : Interp F)

/-- The loop that halves the text until the document is small enough. -/
def shrink : ℕ → Content → Content
  | 0, c => c
  | n + 1, c =>
    if 15000 < (encodeUtf8 (printRaw env.floats (c.doc : Value F))).length ∧ c.text ≠ [] then
      shrink n { c with text := c.text.take (c.text.length / 2), truncated := true }
    else c

/-- The answer for a file that could be opened. -/
def readFile (file : List PyStr) (size : ℕ) (all : List UInt8) : Reply :=
  let data := all.take fileReadBytes
  if 0 ∈ data.take 2048 then .binary file size
  else
    let text := decodeReplace data
    .content file (shrink env text.length
      ⟨size, data.length, data.length < size, env.sha256 data, text⟩)

/-- The text starts with `BASE + os.sep`; `BASE` is not the root. -/
def isBelow (base target : AbsPath PyStr) : Bool :=
  target.double == base.double && base.names.isPrefixOf target.names && target ≠ base

/-- The node at the target, with the path the kernel opens for it. -/
def statTarget (c : Container) (target : AbsPath PyStr) : Option (List PyStr × Tree) :=
  (openPath c.root target.names).bind fun p => (lookup c.root p).map (p, ·)

/-- The operation on a target that passed the checks. -/
def perform (c : Container) (op : FileOp) (target : AbsPath PyStr) : Reply :=
  match op with
  | .list =>
    match statTarget c target with
    | some (p, .dir (some entries) _) =>
      let r := listEntries env.lower (sortEntries entries) []
      .listing p r.1 r.2
    | some (_, .dir none _) => .error "could not read: PermissionError"
    | _ => .error "not a folder"
  | .read =>
    match statTarget c target with
    | some (p, .leaf (.file size (some data))) => readFile env p size data
    | some (_, .leaf (.file _ none)) => .error "could not read: PermissionError"
    | _ => .error "not a file"

/-- `os.path.realpath(os.path.join(BASE, *parts)) if parts else BASE`. -/
def resolveTarget (c : Container) (base : AbsPath PyStr) (ps : List PyStr) :
    Option (AbsPath PyStr) :=
  if ps = [] then some base else realpath c.root env.depth (textOf base.names ++ ps.map comp)

/-- The reader script. -/
def reader (c : Container) (op : FileOp) (rel : PyStr) : Reply :=
  match realpath c.root env.depth [.empty, .name (lit "data")] with
  | none => .crash
  | some base =>
    if (parts rel).any (badPart env.lower) then .error "that path is not allowed"
    else
      match resolveTarget env c base (parts rel) with
      | none => .crash
      | some target =>
        if target ≠ base ∧ ¬ isBelow base target then
          .error "that path is outside the granted folder"
        else if (target.names.drop base.names.length).any (denied env.lower) then
          .error "that path is not allowed"
        else perform env c op target

/-- The path the request names is resolved without meeting a loop of links. -/
def ResolvesFully (c : Container) (rel : PyStr) : Prop :=
  meetsLoop c.root env.depth (textOf base ++ (parts rel).map comp) = false

instance (c : Container) (rel : PyStr) : Decidable (ResolvesFully env c rel) :=
  inferInstanceAs (Decidable (_ = _))

/-! ## Confinement -/

/-- The operation works on the node: directories are listed, regular files read. -/
def FileOp.WorksOn : FileOp → Option Tree → Prop
  | .list, t => ∃ listing entries, t = some (.dir listing entries)
  | .read, t => ∃ size data, t = some (.leaf (.file size data))

/-- The reader may open the path: it lies in the folder, under no protected name, and is what the
operation works on. -/
structure Confined (lower : PyStr → PyStr) (c : Container) (op : FileOp) (p : List PyStr) :
    Prop where
  inside : base <+: p
  unprotected : ∀ n ∈ p.drop base.length, denied lower n = false
  kind : op.WorksOn (lookup c.root p)

theorem Container.plain_root (c : Container) : Plain c.root [] := by
  obtain ⟨listing, entries, h⟩ := c.data_dir
  obtain ⟨d, es, hroot⟩ := isDir_of_lookup_append (p := []) h
  intro q hq target heq
  rw [List.prefix_nil.1 hq, hroot] at heq
  exact nomatch heq

theorem Container.plain_base (c : Container) : Plain c.root base := by
  obtain ⟨listing, entries, h⟩ := c.data_dir
  apply c.plain_root.concat (p := [])
  intro target heq
  rw [List.nil_append] at heq
  rw [base, heq] at h
  exact nomatch h

/-- `BASE` is `/data`. -/
theorem realpath_base {c : Container} {depth : ℕ} {r : AbsPath PyStr}
    (h : realpath c.root depth [.empty, .name (lit "data")] = some r) :
    r = ⟨false, base⟩ := by
  cases depth with
  | zero => exact nomatch h
  | succ depth =>
    obtain ⟨listing, entries, hdata⟩ := c.data_dir
    have hlstat : lstat c.root [] (lit "data") = some (.dir listing entries) := hdata
    have hjoin : joinReal c.root (depth + 1) (fun _ => none) []
        [.empty, .name (lit "data")] = some (.path base, fun _ => none) := by
      rw [joinReal, if_pos (by rfl), List.tail_cons, joinWith, hlstat]
      rfl
    rw [realpath, hjoin] at h
    exact (Option.some.inj h).symm

theorem statTarget_eq_some {c : Container} {target : AbsPath PyStr} {p : List PyStr} {t : Tree}
    (h : statTarget c target = some (p, t)) :
    openPath c.root target.names = some p ∧ lookup c.root p = some t := by
  obtain ⟨q, hq, hnode⟩ := Option.bind_eq_some_iff.1 h
  obtain ⟨u, hu, heq⟩ := Option.map_eq_some_iff.1 hnode
  obtain ⟨rfl, rfl⟩ := Prod.mk.inj heq
  exact ⟨hq, hu⟩

/-- What an operation opens: what the kernel finds at the target, of the right kind. -/
theorem opened_perform {c : Container} {op : FileOp} {target : AbsPath PyStr} {p : List PyStr}
    (h : (perform env c op target).opened = some p) :
    openPath c.root target.names = some p ∧ op.WorksOn (lookup c.root p) := by
  cases op with
  | list =>
    simp only [perform] at h
    split at h
    case h_1 q listing entries hstat =>
      obtain rfl := Option.some.inj h
      obtain ⟨hopen, hnode⟩ := statTarget_eq_some hstat
      exact ⟨hopen, _, _, hnode⟩
    case h_2 => exact nomatch h
    case h_3 => exact nomatch h
  | read =>
    simp only [perform] at h
    split at h
    case h_1 q size data hstat =>
      have hq : q = p := by
        simp only [readFile] at h
        split_ifs at h
        · exact Option.some.inj h
        · exact Option.some.inj h
      obtain ⟨hopen, hnode⟩ := statTarget_eq_some hstat
      rw [hq] at hopen hnode
      exact ⟨hopen, _, _, hnode⟩
    case h_2 => exact nomatch h
    case h_3 => exact nomatch h

/-- What the checks of the reader leave: a resolved target in the folder, without a protected name
below it. -/
theorem opened_reader {c : Container} {op : FileOp} {rel : PyStr} {p : List PyStr}
    (h : (reader env c op rel).opened = some p) :
    ∃ target, resolveTarget env c ⟨false, base⟩ (parts rel) = some target ∧
      (target = ⟨false, base⟩ ∨ isBelow ⟨false, base⟩ target = true) ∧
        (∀ n ∈ target.names.drop base.length, denied env.lower n = false) ∧
          (perform env c op target).opened = some p := by
  unfold reader at h
  split at h
  case h_1 => exact nomatch h
  case h_2 b hbase =>
    obtain rfl := realpath_base hbase
    split_ifs at h
    · exact nomatch h
    · split at h
      case h_1 => exact nomatch h
      case h_2 target htarget =>
        split_ifs at h with houtside hdenied
        · exact nomatch h
        · exact nomatch h
        · refine ⟨target, htarget, ?_, ?_, h⟩
          · by_contra hne
            rw [not_or] at hne
            exact houtside hne
          · simpa using hdenied

/-- A target that was resolved without meeting a loop is opened as it stands. -/
theorem plain_resolveTarget {c : Container} {rel : PyStr} {target : AbsPath PyStr}
    (hloop : ResolvesFully env c rel)
    (h : resolveTarget env c ⟨false, base⟩ (parts rel) = some target) :
    Plain c.root target.names := by
  unfold resolveTarget at h
  split_ifs at h with hparts
  · obtain rfl := Option.some.inj h
    exact c.plain_base
  · exact (plain_of_realpath c.plain_root h hloop).2

/-- Without a loop of links, the reader opens what it checked. -/
theorem confined_of_opened {c : Container} {op : FileOp} {rel : PyStr}
    (hloop : ResolvesFully env c rel) {p : List PyStr}
    (h : (reader env c op rel).opened = some p) : Confined env.lower c op p := by
  obtain ⟨target, htarget, hinside, hdenied, hperform⟩ := opened_reader env h
  obtain ⟨hopen, hkind⟩ := opened_perform env hperform
  have hplain := plain_resolveTarget env hloop htarget
  obtain rfl := openPath_plain hplain hopen
  refine ⟨?_, hdenied, hkind⟩
  rcases hinside with rfl | hbelow
  · exact List.prefix_refl _
  · simp only [isBelow, Bool.and_eq_true, List.isPrefixOf_iff_prefix] at hbelow
    exact hbelow.1.2

/-! ## The checks of the app and of the runner -/

theorem strip_eq_nil_iff {s : PyStr} : strip s = [] ↔ ∀ c ∈ s, isWhite c = true := by
  rw [strip, List.reverse_eq_nil_iff, List.dropWhile_eq_nil_iff]
  constructor
  · intro h c hc
    by_contra hwhite
    have hne : s.dropWhile isWhite ≠ [] := by
      rw [Ne, List.dropWhile_eq_nil_iff]
      exact fun hall => hwhite (hall c hc)
    have hhead := List.head_dropWhile_not isWhite hne
    have := h _ (List.mem_reverse.2 (List.head_mem hne))
    rw [hhead] at this
    exact nomatch this
  · intro h c hc
    exact h c (List.dropWhile_subset _ (List.mem_reverse.1 hc))

theorem strip_strip_ne_nil {s : PyStr} (h : strip s ≠ []) : strip (strip s) ≠ [] := by
  have hne : (s.dropWhile isWhite).reverse.dropWhile isWhite ≠ [] := by
    rwa [strip, Ne, List.reverse_eq_nil_iff] at h
  rw [Ne, strip_eq_nil_iff]
  intro hall
  have hhead := List.head_dropWhile_not isWhite hne
  have := hall _ (List.mem_reverse.2 (List.head_mem hne))
  rw [hhead] at this
  exact nomatch this

/-- The sandbox side refuses exactly the protected names among the paths the app sends: the runner
and the reader make the same choice. -/
theorem relProblem_of_cleanRel (lower : PyStr → PyStr) {op : FileOp} {rel r : PyStr}
    (h : cleanRel op rel = some r) :
    (relProblem lower r (op = .list) = none ↔ ∀ p ∈ parts r, denied lower p = false) ∧
      (relProblem lower r (op = .list) = none ↔ (parts r).any (badPart lower) = false) := by
  unfold cleanRel at h
  dsimp only at h
  split_ifs at h with hempty hbad hup
  · obtain rfl := Option.some.inj h
    have hparts : parts [] = [] := by decide
    simp [relProblem, strip, hempty.1, hparts]
  · obtain rfl := Option.some.inj h
    simp only [not_or] at hbad hup
    obtain ⟨hne, hlen, hnul, -, -, hback⟩ := hbad
    have hbadPart : ∀ p ∈ parts (strip rel), badPart lower p = denied lower p := by
      intro p hp
      have hp' := (List.mem_filter.1 hp).1
      have hdots : p ≠ dotDot := fun he => hup.2 (he ▸ hp')
      simp [badPart, hdots]
    have hany : (parts (strip rel)).any (badPart lower) = false ↔
        ∀ p ∈ parts (strip rel), denied lower p = false := by
      rw [List.any_eq_false]
      apply forall₂_congr
      intro p hp
      rw [hbadPart p hp, Bool.not_eq_true]
    have hproblem : relProblem lower (strip rel) (op = .list) = none ↔
        (parts (strip rel)).any (badPart lower) = false := by
      rw [relProblem, if_neg (strip_strip_ne_nil hne),
        if_neg (by simp [hlen, hnul, hback, hup.1])]
      split_ifs with hany
      · simp [hany]
      · simpa using hany
    exact ⟨hproblem.trans hany, hproblem⟩

/-- **Reader confinement.** Where the resolution of the path meets no loop of links, the reader
opens only a regular file, or lists only a directory, in the granted folder and under no protected
name; and of the paths the app sends, the runner and the reader's own check refuse exactly those
with a protected name. -/
theorem reader_confined :
    (∀ (c : Container) (op : FileOp) (rel : PyStr), ResolvesFully env c rel →
      ∀ p, (reader env c op rel).opened = some p → Confined env.lower c op p) ∧
    ∀ (op : FileOp) (rel r : PyStr), cleanRel op rel = some r →
      (relProblem env.lower r (op = .list) = none ↔ ∀ p ∈ parts r, denied env.lower p = false) ∧
        (relProblem env.lower r (op = .list) = none ↔
          (parts r).any (badPart env.lower) = false) :=
  ⟨fun _ _ _ hloop _ h => confined_of_opened env hloop h,
    fun _ _ _ h => relProblem_of_cleanRel env.lower h⟩

/-- An interpreter without floats, whose lower case is that of ASCII. -/
def plainInterp : Interp Empty where
  lower s := s.map fun c => if 65 ≤ c.val ∧ c.val ≤ 90 then point (c.val + 32) else c
  sha256 _ := []
  depth := 1000
  floats := noFloats
  depth_pos := by omega

/-- A name in a tree. -/
def entry (name : String) (t : Tree) : PyStr × Tree := (lit name, t)

/-- A container with a folder at `/data` and a file outside of it. -/
def mounted (entries : List (PyStr × Tree)) : Container where
  root := .dir none [entry "data" (.dir none entries),
    entry "etc" (.dir none [entry "shadow" (.leaf (.file 4 (some [0x72, 0x6F, 0x6F, 0x74])))])]
  data_dir := ⟨none, entries, rfl⟩

theorem reader_confined_notes :
    Confined plainInterp.lower
        (mounted [entry "notes" (.leaf (.file 2 (some [0x68, 0x69])))]) .read
        [lit "data", lit "notes"] ∧
      relProblem plainInterp.lower (lit "notes") false = none :=
  ⟨(reader_confined plainInterp).1 _ .read (lit "notes") (by decide) _
      (by decide),
    (((reader_confined plainInterp).2 .read (lit "notes") (lit "notes")
      (by decide)).1).2 (by decide)⟩

/-- A link `l` to `loop/../x` beside a loop and a link to a file outside: the reader resolves `l`
to `x`, in the folder, and opens the file outside. And the app sends `.env`, which the runner
refuses. -/
theorem loop_escapes :
    ¬ (∀ (c : Container) (op : FileOp) (rel : PyStr) (p : List PyStr),
        (reader plainInterp c op rel).opened = some p → Confined plainInterp.lower c op p) ∧
      ¬ ∀ (op : FileOp) (rel r : PyStr), cleanRel op rel = some r →
        relProblem plainInterp.lower r (op = .list) = none := by
  constructor
  · intro h
    have hopened : (reader plainInterp
        (mounted [entry "l" (.link [.name (lit "loop"), .up, .name (lit "x")]),
          entry "loop" (.link [.name (lit "loop")]),
          entry "x" (.link [.empty, .name (lit "etc"), .name (lit "shadow")])])
        .read (lit "l")).opened = some [lit "etc", lit "shadow"] := by
      decide
    have hinside := (h _ _ _ _ hopened).inside
    exact absurd hinside (by decide)
  · intro h
    have hsent : cleanRel .read (lit ".env") = some (lit ".env") := by
      decide
    exact absurd (h _ _ _ hsent) (by decide)

end RagLeap.Sandbox
