import RagLeap.Foundations.Json
import RagLeap.Foundations.PosixPath

/-!
# Folder grants of the sandbox runner

The owner grants folders in a file on the host (`sandbox/runner.py`). The runner accepts a grant
only when `grant_path_problem` finds nothing wrong with its path, and mounts the path of an
accepted grant read-only into the reader and the stager.

`grantPathProblem` works on the text of the path. What the check is for is stated on the
directory the path denotes (`SoundFolder`): not the root, not a broad folder or a bare home
directory, not in a system folder, and without a protected name on the way. The two agree on
every accepted path that starts with one slash; a path that starts with two is normal for
`posixpath.normpath` and passes the textual tests of a different folder
(`soundFolder_iff_of_accepted`).
-/

namespace RagLeap.Sandbox

open PosixPath

variable (U : Unicode)

/-! ## The rules -/

def denyNames : List Str :=
  [".env", ".netrc", ".pgpass", ".git-credentials", ".htpasswd", "credentials",
    "credentials.json", ".ssh", ".gnupg", ".aws", ".kube", ".docker", ".git"].map String.toList

def denyPrefixes : List Str :=
  [".env", "id_rsa", "id_dsa", "id_ecdsa", "id_ed25519"].map String.toList

def denySuffixes : List Str := [".pem", ".key", ".p12", ".pfx", ".kdbx"].map String.toList

def systemPaths : List Str :=
  ["/etc", "/proc", "/sys", "/dev", "/boot", "/run", "/var/run", "/var/lib/docker", "/usr",
    "/bin", "/sbin", "/lib", "/lib64"].map String.toList

def broadPaths : List Str :=
  ["/", "/root", "/home", "/Users", "/var", "/tmp", "/opt", "/mnt", "/srv",
    "/media"].map String.toList

/-- The folders whose direct children are home directories. -/
def homeRoots : List Str := ["/home/".toList, "/Users/".toList]

/-- `name_denied`. -/
def nameDenied (name : Str) : Bool :=
  let n := U.lower name
  decide (n ∈ denyNames) || denyPrefixes.any (·.isPrefixOf n) || denySuffixes.any (·.isSuffixOf n)

/-- `re.fullmatch(r"/(home|Users)/[^/]+", path)`. -/
def matchesHome (path : Str) : Bool :=
  homeRoots.any fun root =>
    root.isPrefixOf path && path.drop root.length ≠ [] && !(path.drop root.length).contains '/'

/-- The test for folders that are too broad. -/
def tooBroad (path : Str) : Bool := decide (path ∈ broadPaths) || matchesHome path

/-- The test for system folders. -/
def isSystemFolder (path : Str) : Bool :=
  systemPaths.any fun s => path == s || (s ++ ['/']).isPrefixOf path

/-- Why a folder may not be granted. -/
inductive PathProblem
  | notAbsolute
  | notNormal
  | broad
  | system
  | protectedName
  deriving DecidableEq

/-- The message for a problem. -/
def PathProblem.text : PathProblem → String
  | notAbsolute => "the folder must be an absolute path"
  | notNormal => "write the path without .., . or a trailing slash"
  | broad => "that folder is too broad"
  | system => "that is a system folder"
  | protectedName => "the path contains a protected name"

/-- `grant_path_problem`; the test that the path is a string is made where it is read. -/
def grantPathProblem (path : Str) : Option PathProblem :=
  if ! (['/'].isPrefixOf path) || path.contains '\x00' || path.contains '\\' ||
      decide (500 < path.length) then some .notAbsolute
  else if normpath path ≠ path then some .notNormal
  else if tooBroad path then some .broad
  else if isSystemFolder path then some .system
  else if ((path.splitOn '/').filter (· ≠ [])).any (nameDenied U) then some .protectedName
  else none

/-! ## Grants -/

/-- A grant the runner uses; its path passed the check. -/
structure Grant where
  name : Str
  path : Str
  mode : Str
  purpose : Str
  expires : Option ℤ
  accepted : grantPathProblem U path = none

/-- `GRANT_NAME_RE.fullmatch`. -/
def isGrantName (name : Str) : Bool :=
  let plain (c : Char) : Bool := ('a' ≤ c && c ≤ 'z') || ('0' ≤ c && c ≤ '9')
  match name with
  | [] => false
  | c :: cs => plain c && cs.length ≤ 31 && cs.all fun d => plain d || d == '_' || d == '-'

/-- The reasons `parse_grant` gives. -/
inductive GrantProblem
  | notObject
  | badName
  | badMode
  | path (p : PathProblem)
  | badPurpose
  | badExpiry
  deriving DecidableEq

def GrantProblem.text : GrantProblem → String
  | notObject => "not an object"
  | badName => "bad name"
  | badMode => "mode must be read or write"
  | path p => p.text
  | badPurpose => "bad purpose"
  | badExpiry => "bad expiry"

/-- `parse_grant`. `instant` reads an expiry (`datetime.fromisoformat`, in UTC when it names no
zone). -/
def parseGrant (instant : Json → Option ℤ) (g : Json) : Except GrantProblem (Grant U) :=
  match g with
  | .obj _ =>
    match (g.get? "name".toList).bind Json.asStr?, (g.get? "mode".toList).bind Json.asStr? with
    | some name, mode =>
      if !isGrantName name then .error .badName
      else
        match mode with
        | none => .error .badMode
        | some mode =>
          if mode ≠ "read".toList ∧ mode ≠ "write".toList then .error .badMode
          else
            match (g.get? "path".toList).bind Json.asStr? with
            | none => .error (.path .notAbsolute)
            | some path =>
              match hp : grantPathProblem U path with
              | some p => .error (.path p)
              | none =>
                match (g.get? "purpose".toList).getD (.str "use".toList) with
                | .str purpose =>
                  if purpose ≠ "use".toList ∧ purpose ≠ "knowledge".toList then
                    .error .badPurpose
                  else
                    match g.get? "expires".toList with
                    | none | some .null => .ok ⟨name, path, mode, purpose, none, hp⟩
                    | some e =>
                      match instant e with
                      | none => .error .badExpiry
                      | some t => .ok ⟨name, path, mode, purpose, some t, hp⟩
                | _ => .error .badPurpose
    | none, _ => .error .badName
  | _ => .error .notObject

/-- The loop of `load_grants`: an unusable entry or a name seen before is skipped. -/
def loadGrants (instant : Json → Option ℤ) : List Json → List Str → List (Grant U)
  | [], _ => []
  | raw :: rest, seen =>
    match parseGrant U instant raw with
    | .error _ => loadGrants instant rest seen
    | .ok g =>
      if g.name ∈ seen then loadGrants instant rest seen
      else g :: loadGrants instant rest (g.name :: seen)

/-- `active_grants`. -/
def activeGrants (instant : Json → Option ℤ) (items : List Json) (now : ℤ) : List (Grant U) :=
  (loadGrants U instant items []).filter fun g => g.expires.all (now < ·)

/-- The host folder `file_op` mounts for a request that names a grant. -/
def fileOpMount (instant : Json → Option ℤ) (items : List Json) (now : ℤ) (name : Str) :
    Option Str :=
  ((activeGrants U instant items now).find? (·.name = name)).map (·.path)

/-- The host folders `stage_op` mounts, one container after the other: those of every active
knowledge grant, or of the one named. -/
def stageOpMounts (instant : Json → Option ℤ) (items : List Json) (now : ℤ)
    (name : Option Str) : List Str :=
  ((activeGrants U instant items now).filter fun g =>
    g.purpose = "knowledge".toList && name.all (g.name = ·)).map (·.path)

/-- Every folder the runner mounts for a grant has passed `grant_path_problem`. -/
theorem accepted_of_mounted {instant : Json → Option ℤ} {items : List Json} {now : ℤ}
    {path : Str}
    (h : (∃ name, fileOpMount U instant items now name = some path) ∨
      ∃ name, path ∈ stageOpMounts U instant items now name) :
    grantPathProblem U path = none := by
  rcases h with ⟨name, h⟩ | ⟨name, h⟩
  · obtain ⟨g, -, rfl⟩ := Option.map_eq_some_iff.1 h
    exact g.accepted
  · obtain ⟨g, -, rfl⟩ := List.mem_map.1 h
    exact g.accepted

/-! ## The folders a path may denote -/

/-- The directory of a path may be shown to the reader. -/
structure SoundFolder (dir : List Str) : Prop where
  not_broad : ∀ b ∈ broadPaths, dir ≠ resolve b
  not_home : ∀ root ∈ homeRoots, ∀ user, dir ≠ resolve root ++ [user]
  not_system : ∀ s ∈ systemPaths, ¬ resolve s <+: dir
  not_protected : ∀ c ∈ dir, nameDenied U c = false

/-- The code's tests for broad and system folders pass. -/
def PassesFolderTests (path : Str) : Prop := tooBroad path = false ∧ isSystemFolder path = false

instance (path : Str) : Decidable (PassesFolderTests path) := inferInstanceAs (Decidable (_ ∧ _))

/-- The rules' own paths are texts of directories. -/
theorem ofDir_resolve_broadPaths : ∀ b ∈ broadPaths, ofDir (resolve b) = b := by decide

theorem ofDir_resolve_systemPaths : ∀ s ∈ systemPaths, ofDir (resolve s) = s := by decide

theorem resolve_systemPaths_ne_nil : ∀ s ∈ systemPaths, resolve s ≠ [] := by decide

theorem ofDir_resolve_homeRoots : ∀ r ∈ homeRoots, ofDir (resolve r) ++ ['/'] = r := by
  decide

theorem resolve_homeRoots_ne_nil : ∀ r ∈ homeRoots, resolve r ≠ [] := by decide

theorem mem_broadPaths_iff {dir : List Str} (h : ∀ c ∈ dir, IsName c) :
    ofDir dir ∈ broadPaths ↔ ∃ b ∈ broadPaths, dir = resolve b := by
  constructor
  · intro hb
    refine ⟨_, hb, ofDir_inj h (fun c hc => isName_of_mem_resolve hc) ?_⟩
    exact (ofDir_resolve_broadPaths _ hb).symm
  · rintro ⟨b, hb, rfl⟩
    rwa [ofDir_resolve_broadPaths b hb]

theorem ofDir_append_singleton {dir : List Str} (hne : dir ≠ []) (c : Str) :
    ofDir (dir ++ [c]) = ofDir dir ++ '/' :: c := by
  rw [ofDir, ofDir, List.cons_append]
  congr 1
  induction dir with
  | nil => exact absurd rfl hne
  | cons d dir ih =>
    rcases eq_or_ne dir [] with rfl | hd
    · simp
    · rw [List.cons_append, List.intercalate_cons_of_ne_nil (by simp), ih hd,
        List.intercalate_cons_of_ne_nil hd]
      simp

theorem matchesHome_ofDir_iff {dir : List Str} (h : ∀ c ∈ dir, IsName c) :
    matchesHome (ofDir dir) = true ↔ ∃ root ∈ homeRoots, ∃ user, dir = resolve root ++ [user] := by
  simp only [matchesHome, List.any_eq_true, Bool.and_eq_true, List.isPrefixOf_iff_prefix,
    decide_eq_true_eq, Bool.not_eq_true', List.contains_eq_mem, decide_eq_false_iff_not]
  refine exists_congr fun root => and_congr_right fun hroot => ?_
  have hr : ∀ c ∈ resolve root, IsName c := fun c hc => isName_of_mem_resolve hc
  have hne := resolve_homeRoots_ne_nil root hroot
  have htext := ofDir_resolve_homeRoots root hroot
  constructor
  · rintro ⟨⟨⟨x, hx⟩, hx₁⟩, hx₂⟩
    rw [← hx, List.drop_left] at hx₁ hx₂
    refine ⟨x, ?_⟩
    -- compare the components of both texts
    have hdir : dir ≠ [] := by
      rintro rfl
      have := congrArg List.length hx
      rw [← htext] at this
      simp [ofDir] at this
    have hs := congrArg (List.splitOn '/') hx
    rw [splitOn_ofDir h hdir, ← htext, List.append_assoc, List.singleton_append,
      List.splitOn_append_cons_self, splitOn_ofDir hr hne, List.splitOn_eq_singleton hx₂] at hs
    simpa using (List.cons.inj hs).2.symm
  · rintro ⟨user, rfl⟩
    have hu := h user (by simp)
    have : ofDir (resolve root ++ [user]) = root ++ user := by
      rw [ofDir_append_singleton hne]
      conv_rhs => rw [← htext]
      simp
    rw [this, List.drop_left]
    exact ⟨⟨⟨user, rfl⟩, hu.ne_nil⟩, hu.slash_notMem⟩

theorem isSystemFolder_ofDir_iff {dir : List Str} (h : ∀ c ∈ dir, IsName c) :
    isSystemFolder (ofDir dir) = true ↔ ∃ s ∈ systemPaths, resolve s <+: dir := by
  simp only [isSystemFolder, List.any_eq_true, Bool.or_eq_true, beq_iff_eq,
    List.isPrefixOf_iff_prefix]
  refine exists_congr fun s => and_congr_right fun hs => ?_
  have hr : ∀ c ∈ resolve s, IsName c := fun c hc => isName_of_mem_resolve hc
  have hpre := ofDir_isPrefix hr h (resolve_systemPaths_ne_nil s hs)
  rw [ofDir_resolve_systemPaths s hs] at hpre
  rw [hpre]
  constructor
  · rintro (he | he)
    · rw [← ofDir_resolve_systemPaths s hs] at he
      exact (ofDir_inj h hr he).symm ▸ List.prefix_refl _
    · exact he.1
  · intro hp
    by_cases he : resolve s = dir
    · exact .inl (by rw [← he, ofDir_resolve_systemPaths s hs])
    · exact .inr ⟨hp, he⟩

/-- The textual tests, made on the text of a directory, are the tests of the directory. -/
theorem passesFolderTests_ofDir_iff {dir : List Str} (h : ∀ c ∈ dir, IsName c) :
    PassesFolderTests (ofDir dir) ↔
      (∀ b ∈ broadPaths, dir ≠ resolve b) ∧
      (∀ root ∈ homeRoots, ∀ user, dir ≠ resolve root ++ [user]) ∧
        ∀ s ∈ systemPaths, ¬ resolve s <+: dir := by
  rw [PassesFolderTests, tooBroad, Bool.or_eq_false_iff, decide_eq_false_iff_not,
    mem_broadPaths_iff h, ← Bool.not_eq_true (matchesHome _), matchesHome_ofDir_iff h,
    ← Bool.not_eq_true (isSystemFolder _), isSystemFolder_ofDir_iff h]
  simp only [not_exists, not_and, and_assoc, ne_eq]

/-- The components `grant_path_problem` looks at are the names of the directory. -/
theorem filter_splitOn_ofDir {dir : List Str} (h : ∀ c ∈ dir, IsName c) :
    ((ofDir dir).splitOn '/').filter (· ≠ []) = dir := by
  rcases eq_or_ne dir [] with rfl | hne
  · decide
  · rw [splitOn_ofDir h hne, List.filter_cons_of_neg (by simp),
      List.filter_eq_self.2 fun c hc => by simpa using (h c hc).ne_nil]

/-! ## Accepted paths -/

/-- What acceptance says, check by check. -/
theorem accepted_iff {path : Str} : grantPathProblem U path = none ↔
    (['/'] <+: path ∧ '\x00' ∉ path ∧ '\\' ∉ path ∧ path.length ≤ 500) ∧
      normpath path = path ∧ PassesFolderTests path ∧
        ∀ c ∈ (path.splitOn '/').filter (· ≠ []), nameDenied U c = false := by
  unfold grantPathProblem PassesFolderTests
  split_ifs with h₁ h₂ h₃ h₄ h₅
  · simp only [Bool.or_eq_true, Bool.not_eq_true', List.contains_eq_mem, decide_eq_true_eq,
      ← Bool.not_eq_true, List.isPrefixOf_iff_prefix] at h₁
    simp only [false_iff]
    rintro ⟨⟨ha, hb, hc, hd⟩, -⟩
    simp [ha, hb, hc, not_lt.2 hd] at h₁
  all_goals
    simp only [Bool.or_eq_true, Bool.not_eq_true', List.contains_eq_mem, decide_eq_true_eq,
      ← Bool.not_eq_true, List.isPrefixOf_iff_prefix, not_or, not_not, not_lt] at h₁
    simp_all

/-- **Folder-grant soundness.** An accepted path denotes a folder that may be shown exactly when
it starts with a single slash, or passes the code's own broad and system folder tests once one
of its two leading slashes is dropped. -/
theorem soundFolder_iff_of_accepted {path : Str} (h : grantPathProblem U path = none) :
    SoundFolder U (resolve path) ↔ (['/', '/'] <+: path → PassesFolderTests path.tail) := by
  obtain ⟨⟨habs, -⟩, hnorm, htests, hnames⟩ := (accepted_iff U).1 h
  have hdir : ∀ c ∈ resolve path, IsName c := fun c hc => isName_of_mem_resolve hc
  have hpath := eq_ofDir_of_normpath_eq hnorm habs
  have hiff := passesFolderTests_ofDir_iff hdir
  -- the components checked are the directory's names, behind one slash or two
  have hprot : ∀ c ∈ resolve path, nameDenied U c = false := by
    intro c hc
    apply hnames
    split at hpath
    · rw [hpath, List.splitOn_cons_eq_if_modifyHead, if_pos (by simp),
        List.filter_cons_of_neg (by simp), filter_splitOn_ofDir hdir]
      exact hc
    · rw [hpath, filter_splitOn_ofDir hdir]
      exact hc
  have hsound : SoundFolder U (resolve path) ↔ PassesFolderTests (ofDir (resolve path)) := by
    rw [hiff]
    exact ⟨fun hs => ⟨hs.1, hs.2, hs.3⟩, fun ⟨h₁, h₂, h₃⟩ => ⟨h₁, h₂, h₃, hprot⟩⟩
  rw [hsound]
  split at hpath
  · rename_i h2
    have htail : path.tail = ofDir (resolve path) := by
      conv_lhs => rw [hpath]
      rfl
    simp [h2, htail]
  · rename_i h2
    rw [← hpath]
    simp [h2, htests]

theorem soundFolder_iff_of_accepted_data_reports :
    grantPathProblem Unicode.ascii "/data/reports".toList = none ∧
      (SoundFolder Unicode.ascii (resolve "/data/reports".toList) ↔
        (['/', '/'] <+: "/data/reports".toList →
          PassesFolderTests "/data/reports".toList.tail)) :=
  have h : grantPathProblem Unicode.ascii "/data/reports".toList = none := by decide
  ⟨h, soundFolder_iff_of_accepted Unicode.ascii h⟩

/-- A grants file with the path `//etc`: the path is accepted and staged, and denotes `/etc`. -/
theorem double_slash_etc_staged :
    grantPathProblem Unicode.ascii "//etc".toList = none ∧
      stageOpMounts Unicode.ascii (fun _ => none)
        [.obj [("name".toList, .str "conf".toList), ("path".toList, .str "//etc".toList),
          ("mode".toList, .str "read".toList), ("purpose".toList, .str "knowledge".toList)]] 0
        none = ["//etc".toList] ∧
      ¬ SoundFolder Unicode.ascii (resolve "//etc".toList) := by
  refine ⟨by decide, by decide, fun h => ?_⟩
  exact h.not_system "/etc".toList (by decide) (by decide)

end RagLeap.Sandbox
