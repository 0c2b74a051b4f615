import Mathlib.Data.List.Nodup
import RagLeap.Foundations.Dict
import RagLeap.Voice.Locks

/-!
# What a verified directory holds

`verify_dir` of `locks.py` looks at each file of a lock in turn, at the directories above it first,
and then walks over the whole directory for whatever else stands there. The walk does not follow
links and reports a link to a directory itself, while any other link is reported where it stands:
at a file of the lock by the first pass, elsewhere by the walk. Together the directory passes just
where it holds the files of the lock and nothing else (`verifyFolder_eq_nil_iff`).
-/

namespace RagLeap.Voice

namespace VerifyDir

/-! ## Directories -/

/-- What stands under a name, with the contents of a directory; `symlink` says whether the link
leads to a directory. -/
inductive Entry
  | file (bytes : List UInt8)
  | dir (entries : List (Str × Entry))
  | symlink (toDir : Bool)
  | special

namespace Entry

/-- Induction over the contents. -/
theorem ind {P : Entry → Prop} (file : ∀ bytes, P (.file bytes))
    (dir : ∀ entries, (∀ e ∈ entries, P e.2) → P (.dir entries))
    (symlink : ∀ toDir, P (.symlink toDir)) (special : P .special) (t : Entry) : P t :=
  t.rec (motive_2 := fun entries => ∀ e ∈ entries, P e.2) (motive_3 := fun e => P e.2)
    file dir symlink special (fun _ h => nomatch h)
    (fun _ _ hhead htail _ h => by
      rcases List.mem_cons.1 h with rfl | h
      · exact hhead
      · exact htail _ h)
    fun _ _ h => h

def item : Entry → Item
  | .file bytes => .file bytes
  | .dir _ => .dir
  | .symlink toDir => .symlink toDir
  | .special => .special

end Entry

/-- Names of a directory: each once, and no empty one or one with a slash, down to the leaves. -/
inductive Proper : Entry → Prop
  | file (bytes : List UInt8) : Proper (.file bytes)
  | dir {entries : List (Str × Entry)} : (entries.map Prod.fst).Nodup →
      (∀ e ∈ entries, e.1 ≠ [] ∧ '/' ∉ e.1) → (∀ e ∈ entries, Proper e.2) → Proper (.dir entries)
  | symlink (toDir : Bool) : Proper (.symlink toDir)
  | special : Proper .special

/-- A directory. -/
structure Folder where
  entries : List (Str × Entry)
  proper : Proper (.dir entries)

mutual

/-- What stands below an entry, by the names that lead there. -/
def below (path : List Str) : Entry → Tree
  | .dir entries => listing path entries
  | .file _ => []
  | .symlink _ => []
  | .special => []

def listing (path : List Str) : List (Str × Entry) → Tree
  | [] => []
  | (name, e) :: entries =>
    (path ++ [name], e.item) :: below (path ++ [name]) e ++ listing path entries

end

/-- The whole directory. -/
def Folder.tree (folder : Folder) : Tree := listing [] folder.entries

/-! ## The walk -/

/-- What the loop over one directory's `dirnames` and `filenames` reports. -/
def namesProblems (lock : Lock) (path : List Str) (entries : List (Str × Entry)) : List Str :=
  (entries.filterMap fun (name, e) =>
    match e with
    | .symlink true => some (rel (path ++ [name]) ++ ": unexpected symlink".toList)
    | _ => none)
  ++ entries.filterMap fun (name, e) =>
    match e with
    | .dir _ => none
    | .symlink true => none
    | _ => if rel (path ++ [name]) ∈ lock.files.map LockFile.path then none
      else some (rel (path ++ [name]) ++ ": unexpected file".toList)

mutual

/-- The loop over `os.walk`, from an entry on. -/
def osWalk (lock : Lock) (path : List Str) : Entry → List Str
  | .dir entries => namesProblems lock path entries ++ osWalkBelow lock path entries
  | .file _ => []
  | .symlink _ => []
  | .special => []

/-- The directories of a directory in turn. -/
def osWalkBelow (lock : Lock) (path : List Str) : List (Str × Entry) → List Str
  | [] => []
  | (name, e) :: entries => osWalk lock (path ++ [name]) e ++ osWalkBelow lock path entries

end

/-- `verify_dir`, of a directory or of anything else. -/
def verifyFolder (env : PullEnv) (lock : Lock) : Option Folder → List Str
  | none => ["directory missing or not a plain directory".toList]
  | some folder =>
    lock.files.filterMap (fileProblem env folder.tree) ++ osWalk lock [] (.dir folder.entries)

/-! ## The tree of a directory -/

section Tree

variable {path p : List Str} {item : Item} {entries : List (Str × Entry)} {e : Entry}

theorem mem_listing : (p, item) ∈ listing path entries ↔
    ∃ m ∈ entries, p = path ++ [m.1] ∧ item = m.2.item ∨ (p, item) ∈ below (path ++ [m.1]) m.2 := by
  induction entries with
  | nil => simp [listing]
  | cons m entries ih =>
    obtain ⟨name, e⟩ := m
    rw [listing, List.cons_append, List.mem_cons, List.mem_append, ih, List.exists_mem_cons_iff,
      Prod.mk.injEq, or_assoc]

/-- Everything below a path has a longer path, whose further names are proper. -/
theorem exists_names_of_mem_below (hp : Proper e) :
    ∀ {path}, (p, item) ∈ below path e →
      ∃ names, names ≠ [] ∧ p = path ++ names ∧ ∀ n ∈ names, n ≠ [] ∧ '/' ∉ n := by
  induction e using Entry.ind with
  | file bytes => exact fun h => by simp [below] at h
  | symlink toDir => exact fun h => by simp [below] at h
  | special => exact fun h => by simp [below] at h
  | dir entries ih =>
    intro path h
    cases hp with
    | dir _ hnames hparts =>
      rw [below] at h
      obtain ⟨m, hm, ⟨rfl, -⟩ | hbelow⟩ := mem_listing.1 h
      · exact ⟨[m.1], List.cons_ne_nil _ _, rfl, fun n hn => List.mem_singleton.1 hn ▸ hnames m hm⟩
      · obtain ⟨names, -, rfl, hall⟩ := ih m hm (hparts m hm) hbelow
        refine ⟨m.1 :: names, List.cons_ne_nil _ _, by simp, ?_⟩
        exact List.forall_mem_cons.2 ⟨hnames m hm, hall⟩

/-- Each path stands for one thing. -/
theorem nodup_below (hp : Proper e) : ∀ path, ((below path e).map Prod.fst).Nodup := by
  induction e using Entry.ind with
  | file bytes => exact fun path => by simp [below]
  | symlink toDir => exact fun path => by simp [below]
  | special => exact fun path => by simp [below]
  | dir entries ih =>
    intro path
    cases hp with
    | dir hnd hnames hparts =>
      rw [below]
      induction entries with
      | nil => exact List.nodup_nil
      | cons m entries ihl =>
        obtain ⟨name, e⟩ := m
        rw [List.map_cons, List.nodup_cons] at hnd
        rw [List.forall_mem_cons] at hnames hparts ih
        have hrest := ihl ih.2 hnd.2 hnames.2 hparts.2
        have hbelow : ∀ q ∈ (below (path ++ [name]) e).map Prod.fst,
            ∃ names, names ≠ [] ∧ q = path ++ name :: names := by
          intro q hq
          obtain ⟨x, hx, rfl⟩ := List.mem_map.1 hq
          obtain ⟨names, hne, heq, -⟩ := exists_names_of_mem_below hparts.1 hx
          exact ⟨names, hne, by rw [heq, List.append_assoc, List.singleton_append]⟩
        have hothers : ∀ q ∈ (listing path entries).map Prod.fst,
            ∃ name' names, name' ≠ name ∧ q = path ++ name' :: names := by
          intro q hq
          obtain ⟨x, hx, rfl⟩ := List.mem_map.1 hq
          obtain ⟨m, hm, hm'⟩ := mem_listing.1 hx
          have hname : m.1 ≠ name := fun heq => hnd.1 (List.mem_map.2 ⟨m, hm, heq⟩)
          rcases hm' with ⟨heq, -⟩ | hx'
          · exact ⟨m.1, [], hname, heq⟩
          · obtain ⟨names, -, heq, -⟩ := exists_names_of_mem_below (hparts.2 m hm) hx'
            exact ⟨m.1, names, hname, by rw [heq, List.append_assoc, List.singleton_append]⟩
        rw [listing, List.cons_append, List.map_cons, List.map_append, List.nodup_cons]
        refine ⟨fun hmem => ?_, (ih.1 hparts.1 _).append hrest fun q hq hq' => ?_⟩
        · rcases List.mem_append.1 hmem with hq | hq
          · obtain ⟨names, hne, heq⟩ := hbelow _ hq
            rw [List.append_cancel_left_eq] at heq
            exact hne (List.cons_eq_cons.1 heq).2.symm
          · obtain ⟨name', names, hname, heq⟩ := hothers _ hq
            rw [List.append_cancel_left_eq] at heq
            exact hname (List.cons_eq_cons.1 heq).1.symm
        · obtain ⟨names, -, heq⟩ := hbelow q hq
          obtain ⟨name', names', hname, heq'⟩ := hothers q hq'
          rw [heq, List.append_cancel_left_eq] at heq'
          exact hname (List.cons_eq_cons.1 heq').1.symm

end Tree

/-! ## What the walk reports -/

/-- The walk has nothing to report about what stands at a path. -/
def Expected (lock : Lock) (p : List Str) (item : Item) : Prop :=
  item = .dir ∨ item ≠ .symlink true ∧ rel p ∈ lock.files.map LockFile.path

/-- A thing that is no directory and no link to one is expected where the lock has a file. -/
theorem wanted_iff_expected {lock : Lock} {p : List Str} {item : Item} {x : Str}
    (hdir : item ≠ .dir) (hlink : item ≠ .symlink true) :
    (if rel p ∈ lock.files.map LockFile.path then none else some x) = none ↔
      Expected lock p item := by
  rw [Expected, or_iff_right hdir, and_iff_right hlink]
  by_cases hmem : rel p ∈ lock.files.map LockFile.path
  · exact iff_of_true (if_pos hmem) hmem
  · rw [if_neg hmem]
    exact iff_of_false (Option.some_ne_none x) hmem

theorem not_expected_link {lock : Lock} {p : List Str} : ¬ Expected lock p (.symlink true) := by
  rintro (h | h)
  · exact nomatch h
  · exact h.1 rfl

theorem namesProblems_eq_nil {lock : Lock} {path : List Str} {entries : List (Str × Entry)} :
    namesProblems lock path entries = [] ↔
      ∀ m ∈ entries, Expected lock (path ++ [m.1]) m.2.item := by
  rw [namesProblems, List.append_eq_nil_iff, List.filterMap_eq_nil_iff, List.filterMap_eq_nil_iff,
    ← forall_and]
  refine forall_congr' fun m => ?_
  rw [← imp_and]
  refine imp_congr_right fun _ => ?_
  obtain ⟨name, e⟩ := m
  cases e with
  | file bytes => exact (and_iff_right rfl).trans (wanted_iff_expected nofun nofun)
  | dir entries => exact iff_of_true ⟨rfl, rfl⟩ (.inl rfl)
  | symlink toDir =>
    cases toDir with
    | false => exact (and_iff_right rfl).trans (wanted_iff_expected nofun (by simp [Entry.item]))
    | true => exact iff_of_false (fun h => Option.some_ne_none _ h.1) not_expected_link
  | special => exact (and_iff_right rfl).trans (wanted_iff_expected nofun nofun)

/-- The walk reports nothing just where everything below is expected. -/
theorem osWalk_eq_nil {lock : Lock} {e : Entry} : ∀ {path : List Str}, osWalk lock path e = [] ↔
    ∀ p item, (p, item) ∈ below path e → Expected lock p item := by
  induction e using Entry.ind with
  | file bytes => simp [osWalk, below]
  | symlink toDir => simp [osWalk, below]
  | special => simp [osWalk, below]
  | dir entries ih =>
    intro path
    have hbelow : osWalkBelow lock path entries = [] ↔
        ∀ m ∈ entries, osWalk lock (path ++ [m.1]) m.2 = [] := by
      clear ih
      induction entries with
      | nil => simp [osWalkBelow]
      | cons m entries ihl => rw [osWalkBelow, List.append_eq_nil_iff, ihl, List.forall_mem_cons]
    rw [osWalk, List.append_eq_nil_iff, namesProblems_eq_nil, hbelow, below]
    constructor
    · rintro ⟨hnames, hdirs⟩ p item hmem
      obtain ⟨m, hm, ⟨rfl, rfl⟩ | hmem⟩ := mem_listing.1 hmem
      · exact hnames m hm
      · exact (ih m hm).1 (hdirs m hm) p item hmem
    · intro hall
      refine ⟨fun m hm => hall _ _ (mem_listing.2 ⟨m, hm, .inl ⟨rfl, rfl⟩⟩), fun m hm => ?_⟩
      exact (ih m hm).2 fun p item hmem => hall p item (mem_listing.2 ⟨m, hm, .inr hmem⟩)

/-! ## Files of the lock -/

/-- The bytes are those of a file of a lock: the size, the digest, the header of a tagged one. -/
structure Recorded (env : PullEnv) (f : LockFile) (bytes : List UInt8) : Prop where
  size : (bytes.length : ℤ) = f.size
  digest : env.sha256 bytes = f.sha256
  header : f.format ≠ none → checkCtranslate2Header (bytes.take HEADER_BYTES) = none

section Files

variable {env : PullEnv} {lock : Lock} {tree : Tree} {f : LockFile}

theorem headerProblem_eq_none {bytes : List UInt8} (htag : hasValidFormatTag f = true) :
    headerProblem bytes f = none ↔ checkCtranslate2Header (bytes.take HEADER_BYTES) = none := by
  rw [headerProblem, if_pos htag, Option.map_eq_none_iff]

/-- The first pass has nothing to report about a file whose parents are no links and that stands in
the tree as recorded. -/
theorem fileProblem_eq_none (htag : f.format ≠ none → hasValidFormatTag f = true) :
    fileProblem env tree f = none ↔
      (∀ k < f.segments.length, 0 < k → isSymlink (tree.lookup (f.segments.take k)) = false) ∧
      ∃ bytes, tree.lookup f.segments = some (.file bytes) ∧ Recorded env f bytes := by
  have hparents : ((List.range f.segments.length).any fun k =>
      decide (0 < k) && isSymlink (tree.lookup (f.segments.take k))) = false ↔
      ∀ k < f.segments.length, 0 < k → isSymlink (tree.lookup (f.segments.take k)) = false := by
    simp only [List.any_eq_false, List.mem_range, Bool.and_eq_true, decide_eq_true_eq, not_and,
      Bool.not_eq_true]
  unfold fileProblem
  dsimp only
  split
  · rename_i hany
    refine iff_of_false (Option.some_ne_none _) fun h => ?_
    rw [hparents.2 h.1] at hany
    exact Bool.false_ne_true hany
  · rename_i hany
    rw [and_iff_right (hparents.1 (Bool.eq_false_iff.2 hany))]
    have hother : ∀ {x : Str}, (∀ bytes, tree.lookup f.segments ≠ some (.file bytes)) →
        (some x = none ↔ ∃ bytes, tree.lookup f.segments = some (.file bytes) ∧
          Recorded env f bytes) := fun h =>
      iff_of_false (Option.some_ne_none _) fun ⟨bytes, hbytes, _⟩ => h bytes hbytes
    split
    · rename_i heq
      exact hother fun bytes hbytes => by rw [heq] at hbytes; exact nomatch hbytes
    · rename_i heq
      exact hother fun bytes hbytes => by rw [heq] at hbytes; exact nomatch hbytes
    · rename_i heq
      exact hother fun bytes hbytes => by rw [heq] at hbytes; exact nomatch hbytes
    · rename_i heq
      exact hother fun bytes hbytes => by rw [heq] at hbytes; exact nomatch hbytes
    · rename_i bytes heq
      have hone : (∃ bytes', tree.lookup f.segments = some (.file bytes') ∧ Recorded env f bytes') ↔
          Recorded env f bytes := by
        constructor
        · rintro ⟨bytes', hbytes, h⟩
          rw [heq] at hbytes
          cases hbytes
          exact h
        · exact fun h => ⟨bytes, heq, h⟩
      rw [hone]
      split
      · rename_i hsize
        exact iff_of_false (Option.some_ne_none _) fun h => hsize h.size
      split
      · rename_i hdigest
        exact iff_of_false (Option.some_ne_none _) fun h => hdigest h.digest
      rename_i hsize hdigest
      split
      · rename_i hformat
        exact iff_of_true rfl ⟨not_not.1 hsize, not_not.1 hdigest, fun h => absurd hformat h⟩
      · rename_i hformat
        rw [Option.map_eq_none_iff, headerProblem_eq_none (htag hformat)]
        exact ⟨fun h => ⟨not_not.1 hsize, not_not.1 hdigest, fun _ => h⟩, fun h => h.header hformat⟩

theorem fileProblems_of_valid {name revision : Str}
    (h : validateLock env lock name revision = []) (hf : f ∈ lock.files) :
    ∃ before i, fileProblems env before i f = [] := by
  unfold validateLock at h
  dsimp only at h
  split at h
  · exact absurd (List.append_eq_nil_iff.1 h).2 (List.cons_ne_nil _ _)
  split at h
  · exact absurd (List.append_eq_nil_iff.1 h).2 (List.cons_ne_nil _ _)
  obtain ⟨i, hi⟩ := List.mem_iff_getElem?.1 hf
  have hall := (List.append_eq_nil_iff.1 (List.append_eq_nil_iff.1 h).1).2
  exact ⟨_, i, List.flatMap_eq_nil_iff.1 hall (f, i) (List.mem_zipIdx_iff_getElem?.2 hi)⟩

/-- The files of a valid lock have valid tags. -/
theorem hasValidFormatTag_of_valid {name revision : Str}
    (h : validateLock env lock name revision = []) (hf : f ∈ lock.files)
    (hformat : f.format ≠ none) : hasValidFormatTag f = true := by
  obtain ⟨before, i, hnil⟩ := fileProblems_of_valid h hf
  unfold fileProblems at hnil
  dsimp only at hnil
  have hlast := (List.append_eq_nil_iff.1 hnil).2
  by_contra htag
  rw [if_pos ⟨hformat, Bool.eq_false_iff.2 htag⟩] at hlast
  exact List.cons_ne_nil _ _ hlast

end Files

/-! ## The directory holds the files of the lock -/

/-- The directory holds the files of the lock, as recorded, besides directories nothing else, and no
links. -/
structure Exact (env : PullEnv) (lock : Lock) (tree : Tree) : Prop where
  paths : ∀ s, (∃ p item, (p, item) ∈ tree ∧ item ≠ .dir ∧ rel p = s) ↔
    s ∈ lock.files.map LockFile.path
  files : ∀ f ∈ lock.files, ∃ p bytes, (p, .file bytes) ∈ tree ∧ rel p = f.path ∧
    Recorded env f bytes
  noLinks : ∀ p toDir, (p, .symlink toDir) ∉ tree

namespace Folder

variable (folder : Folder) {p : List Str} {item : Item}

theorem tree_eq_below : folder.tree = below [] (.dir folder.entries) := by
  rw [Folder.tree, below]

/-- What stands at a path of the directory is what is looked up there. -/
theorem lookup_tree : folder.tree.lookup p = some item ↔ (p, item) ∈ folder.tree := by
  have hnd : (folder.tree.map Prod.fst).Nodup := by
    rw [tree_eq_below]
    exact nodup_below folder.proper []
  exact lookup_eq_some_iff_mem hnd

/-- `verify_dir` over the tree as a list of paths (`verifyDir`) passes what it passes over the
directory. -/
theorem verified_tree_iff (env : PullEnv) (lock : Lock) :
    Verified env lock (.dir folder.tree) ↔ verifyFolder env lock (some folder) = [] := by
  have hwalk : walkProblems lock folder.tree = [] ↔
      ∀ p item, (p, item) ∈ folder.tree → Expected lock p item := by
    rw [walkProblems, List.filterMap_eq_nil_iff, Prod.forall]
    refine forall_congr' fun p => forall_congr' fun item => imp_congr_right fun _ => ?_
    cases item with
    | file bytes => exact wanted_iff_expected nofun nofun
    | dir => exact iff_of_true rfl (.inl rfl)
    | symlink toDir =>
      cases toDir with
      | false => exact wanted_iff_expected nofun (by simp)
      | true => exact iff_of_false (Option.some_ne_none _) not_expected_link
    | special => exact wanted_iff_expected nofun nofun
  rw [verified_dir_iff, verifyFolder, List.append_eq_nil_iff, List.filterMap_eq_nil_iff, hwalk,
    osWalk_eq_nil, ← folder.tree_eq_below]

/-- The names that lead to something are what its path is split into. -/
theorem splitOn_rel (h : (p, item) ∈ folder.tree) : (rel p).splitOn '/' = p := by
  rw [tree_eq_below] at h
  obtain ⟨names, hne, rfl, hall⟩ := exists_names_of_mem_below folder.proper h
  exact List.splitOn_intercalate '/' (fun n hn => (hall n hn).2) hne

end Folder

/-- **A directory is verified** just if it holds the files of the lock and nothing else. -/
theorem verifyFolder_eq_nil_iff (env : PullEnv) (lock : Lock) (name revision : Str)
    (hvalid : validateLock env lock name revision = []) (folder : Folder) :
    verifyFolder env lock (some folder) = [] ↔ Exact env lock folder.tree := by
  have hwalk : osWalk lock [] (.dir folder.entries) = [] ↔
      ∀ p item, (p, item) ∈ folder.tree → Expected lock p item := by
    rw [osWalk_eq_nil, folder.tree_eq_below]
  have hfile : ∀ f ∈ lock.files, (fileProblem env folder.tree f = none ↔ _) := fun f hf =>
    fileProblem_eq_none fun hformat => hasValidFormatTag_of_valid hvalid hf hformat
  have hrel : ∀ f : LockFile, rel f.segments = f.path := fun _ => List.intercalate_splitOn '/'
  rw [verifyFolder, List.append_eq_nil_iff, List.filterMap_eq_nil_iff, hwalk]
  constructor
  · rintro ⟨hfiles, hexpected⟩
    have hrecorded : ∀ f ∈ lock.files, ∃ bytes, (f.segments, .file bytes) ∈ folder.tree ∧
        Recorded env f bytes := by
      intro f hf
      obtain ⟨-, bytes, hlookup, hrec⟩ := (hfile f hf).1 (hfiles f hf)
      exact ⟨bytes, folder.lookup_tree.1 hlookup, hrec⟩
    -- At a path of the lock stands a file, and a link to a directory is not expected anywhere.
    have hlinks : ∀ p toDir, (p, .symlink toDir) ∉ folder.tree := by
      intro p toDir hmem
      rcases hexpected p _ hmem with hdir | ⟨-, hwanted⟩
      · exact nomatch hdir
      · obtain ⟨f, hf, hpath⟩ := List.mem_map.1 hwanted
        obtain ⟨bytes, hbytes, -⟩ := hrecorded f hf
        have hp : f.segments = p := by
          rw [LockFile.segments, hpath, folder.splitOn_rel hmem]
        rw [hp] at hbytes
        have hsame := (folder.lookup_tree.2 hbytes).symm.trans (folder.lookup_tree.2 hmem)
        exact nomatch Option.some.inj hsame
    refine ⟨fun s => ⟨?_, fun hs => ?_⟩, fun f hf => ?_, hlinks⟩
    · rintro ⟨p, item, hmem, hdir, rfl⟩
      exact ((hexpected p item hmem).resolve_left hdir).2
    · obtain ⟨f, hf, rfl⟩ := List.mem_map.1 hs
      obtain ⟨bytes, hbytes, -⟩ := hrecorded f hf
      exact ⟨f.segments, _, hbytes, nofun, hrel f⟩
    · obtain ⟨bytes, hbytes, hrec⟩ := hrecorded f hf
      exact ⟨f.segments, bytes, hbytes, hrel f, hrec⟩
  · rintro ⟨hpaths, hfiles, hlinks⟩
    refine ⟨fun f hf => (hfile f hf).2 ⟨fun k _ _ => ?_, ?_⟩, fun p item hmem => ?_⟩
    · cases hlookup : folder.tree.lookup (f.segments.take k) with
      | none => rfl
      | some item =>
        cases item with
        | symlink toDir => exact absurd (folder.lookup_tree.1 hlookup) (hlinks _ _)
        | file bytes => rfl
        | dir => rfl
        | special => rfl
    · obtain ⟨p, bytes, hmem, hpath, hrec⟩ := hfiles f hf
      refine ⟨bytes, ?_, hrec⟩
      rw [LockFile.segments, ← hpath, folder.splitOn_rel hmem]
      exact folder.lookup_tree.2 hmem
    · by_cases hdir : item = .dir
      · exact .inl hdir
      · refine .inr ⟨?_, (hpaths _).1 ⟨p, item, hmem, hdir, rfl⟩⟩
        rintro rfl
        exact hlinks p true hmem

/-! ### A file in a directory, beside an empty one -/

namespace Sample

/-- The digest of the byte 1. -/
def digest : Str := "4bf5122f344554c53bde2ebb8cd2b7e3d1600ad631c385a5d7cce23c7785459a".toList

def env : PullEnv where
  sha256 _ := digest
  repr s := s
  checkLicence _ := true
  repoIdFromUrl _ := none
  isCommit _ := true
  lockDigest _ := []

def lock : Lock := ⟨1, "m".toList, "r".toList, "u".toList, [⟨"a/f".toList, 1, digest, none⟩]⟩

def folder : Folder where
  entries := [("a".toList, .dir [("f".toList, .file [1])]), ("b".toList, .dir [])]
  proper := by
    refine .dir (by decide) (by decide) ?_
    rintro e he
    rcases List.mem_pair.1 he with rfl | rfl
    · refine .dir (by decide) (by decide) fun e he => ?_
      rw [List.mem_singleton.1 he]
      exact .file [1]
    · exact .dir (by decide) (by decide) (List.forall_mem_nil _)

theorem verifyFolder_eq_nil_iff_folder : Exact env lock folder.tree :=
  (verifyFolder_eq_nil_iff env lock "m".toList "r".toList (by decide) folder).1
    (by decide)

end Sample

end VerifyDir

end RagLeap.Voice
