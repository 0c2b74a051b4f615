import RagLeap.Foundations.Text

/-!
# POSIX paths, by their text and by the directory they denote

`resolve p` is the directory an absolute path denotes when no component is a symbolic link: the
names left after dropping empty components and `.`, and letting `..` remove the name before it
(at the root it removes nothing). `normpath` is the textual normalisation of the standard
library, which keeps exactly two leading slashes as they are.

The two meet in `eq_of_normpath_eq`: a path that is its own normal form is one or two slashes and
the names it denotes, joined by slashes. `ofDir_inj` and `ofDir_isPrefix` compare such texts
through the directories.
-/

namespace RagLeap

namespace PosixPath

/-- A name that can stand in a resolved path. -/
structure IsName (c : Str) : Prop where
  ne_nil : c ≠ []
  ne_dot : c ≠ ['.']
  ne_dotdot : c ≠ ['.', '.']
  slash_notMem : '/' ∉ c

/-- One component of a walk from the root. -/
def walk (dir : List Str) (c : Str) : List Str :=
  if c = [] ∨ c = ['.'] then dir else if c = ['.', '.'] then dir.dropLast else dir ++ [c]

/-- The directory an absolute path denotes, without symbolic links. -/
def resolve (p : Str) : List Str := (p.splitOn '/').foldl walk []

/-- The normalised text of a directory. -/
def ofDir (dir : List Str) : Str := '/' :: ['/'].intercalate dir

/-- One component of `posixpath.normpath`; `rooted` when the path starts with a slash. -/
def normStep (rooted : Bool) (comps : List Str) (c : Str) : List Str :=
  if c = [] ∨ c = ['.'] then comps
  else if c ≠ ['.', '.'] ∨ (!rooted ∧ comps = []) ∨ comps.getLast? = some ['.', '.'] then
    comps ++ [c]
  else comps.dropLast

/-- The leading slashes `posixpath.normpath` keeps. -/
def initialSlashes (p : Str) : ℕ :=
  if ['/'] <+: p then (if ['/', '/'] <+: p ∧ ¬ ['/', '/', '/'] <+: p then 2 else 1) else 0

/-- `posixpath.normpath`. -/
def normpath (p : Str) : Str :=
  if p = [] then ['.']
  else
    let n := initialSlashes p
    let path := List.replicate n '/' ++
      ['/'].intercalate ((p.splitOn '/').foldl (normStep (n ≠ 0)) [])
    if path = [] then ['.'] else path

/-! ## Resolved directories -/

theorem walk_isName {dir : List Str} {c : Str} (h : ∀ d ∈ dir, IsName d) (hc : '/' ∉ c) :
    ∀ d ∈ walk dir c, IsName d := by
  unfold walk
  split_ifs with h₁ h₂
  · exact h
  · exact fun d hd => h d (List.mem_of_mem_dropLast hd)
  · push Not at h₁
    intro d hd
    rcases List.mem_append.1 hd with hd | hd
    · exact h d hd
    · obtain rfl := List.mem_singleton.1 hd
      exact ⟨h₁.1, h₁.2, h₂, hc⟩

theorem foldl_walk_isName {cs : List Str} (hcs : ∀ c ∈ cs, '/' ∉ c) {dir : List Str}
    (h : ∀ d ∈ dir, IsName d) : ∀ d ∈ cs.foldl walk dir, IsName d := by
  induction cs generalizing dir with
  | nil => exact h
  | cons c cs ih =>
    exact ih (fun c' hc' => hcs c' (by simp [hc'])) (walk_isName h (hcs c (by simp)))

theorem slash_notMem_of_mem_splitOn {p c : Str} (h : c ∈ p.splitOn '/') : '/' ∉ c := by
  induction p generalizing c with
  | nil => simp_all
  | cons x p ih =>
    rw [List.splitOn_cons_eq_if_modifyHead] at h
    split at h
    · rcases List.mem_cons.1 h with rfl | h
      · simp
      · exact ih h
    · rename_i hx
      obtain ⟨d, ds, hd⟩ := List.exists_cons_of_ne_nil (List.splitOn_ne_nil '/' p)
      rw [hd] at h ih
      rcases List.mem_cons.1 h with rfl | h
      · have hd' := ih (c := d) (by simp)
        simp only [beq_iff_eq] at hx
        rw [List.mem_cons, not_or]
        exact ⟨Ne.symm hx, hd'⟩
      · exact ih (by simp [h])

/-- A resolved directory consists of names. -/
theorem isName_of_mem_resolve {p c : Str} (h : c ∈ resolve p) : IsName c :=
  foldl_walk_isName (fun _ => slash_notMem_of_mem_splitOn) (by simp) c h

/-! ## Texts of directories -/

theorem splitOn_ofDir {dir : List Str} (h : ∀ c ∈ dir, IsName c) (hne : dir ≠ []) :
    (ofDir dir).splitOn '/' = [] :: dir := by
  rw [ofDir, List.splitOn_cons_eq_if_modifyHead, if_pos (by simp),
    List.splitOn_intercalate '/' (fun c hc => (h c hc).slash_notMem) hne]

theorem ofDir_inj {dir dir' : List Str} (h : ∀ c ∈ dir, IsName c) (h' : ∀ c ∈ dir', IsName c)
    (he : ofDir dir = ofDir dir') : dir = dir' := by
  have aux : ∀ {d d' : List Str}, (∀ c ∈ d, IsName c) → (∀ c ∈ d', IsName c) →
      ofDir d = ofDir d' → d = [] → d' = [] := fun {d d'} hd hd' he hnil => by
    subst hnil
    by_contra hne
    have := congrArg (List.splitOn '/') he
    rw [splitOn_ofDir hd' hne] at this
    obtain ⟨c, cs, rfl⟩ := List.exists_cons_of_ne_nil hne
    have hc := (hd' c (by simp)).ne_nil
    simp_all [ofDir, List.splitOn_cons_eq_if_modifyHead, List.intercalate]
  by_cases hd : dir = []
  · rw [hd, aux h h' he hd]
  · have hd' : dir' ≠ [] := fun hn => hd (aux h' h he.symm hn)
    have := congrArg (List.splitOn '/') he
    rw [splitOn_ofDir h hd, splitOn_ofDir h' hd'] at this
    exact (List.cons.inj this).2

/-- The text of a directory starts with one slash only. -/
theorem not_isPrefix_ofDir {dir : List Str} (h : ∀ c ∈ dir, IsName c) :
    ¬ ['/', '/'] <+: ofDir dir := by
  rcases dir with _ | ⟨c, cs⟩
  · simp [ofDir]
  · obtain ⟨x, c', rfl⟩ := List.exists_cons_of_ne_nil (h c (by simp)).ne_nil
    have hx := (h (x :: c') (by simp)).slash_notMem
    intro hp
    have hx' : '/' = x := by
      rcases eq_or_ne cs [] with rfl | hcs
      · simpa [ofDir, List.cons_prefix_cons] using hp
      · simpa [ofDir, List.intercalate_cons_of_ne_nil hcs, List.cons_prefix_cons] using hp
    exact hx (List.mem_cons.2 (.inl hx'))

/-- The text of a directory, with a slash after it, starts the text of exactly the directories
strictly below it. -/
theorem ofDir_isPrefix {dir dir' : List Str} (h : ∀ c ∈ dir, IsName c)
    (h' : ∀ c ∈ dir', IsName c) (hne : dir ≠ []) :
    ofDir dir ++ ['/'] <+: ofDir dir' ↔ dir <+: dir' ∧ dir ≠ dir' := by
  constructor
  · rintro ⟨t, ht⟩
    have hne' : dir' ≠ [] := by
      rintro rfl
      have := congrArg List.length ht
      simp [ofDir] at this
    have := congrArg (List.splitOn '/') ht
    rw [splitOn_ofDir h' hne', List.append_assoc, List.singleton_append,
      List.splitOn_append_cons_self, splitOn_ofDir h hne, List.cons_append] at this
    obtain ⟨c, cs, hc⟩ := List.exists_cons_of_ne_nil (List.splitOn_ne_nil '/' t)
    have hdir : dir' = dir ++ c :: cs := by rw [← (List.cons.inj this).2, hc]
    exact ⟨⟨_, hdir.symm⟩, fun he => by simp [hdir] at he⟩
  · rintro ⟨⟨e, rfl⟩, hne'⟩
    have he : e ≠ [] := by rintro rfl; simp at hne'
    refine ⟨['/'].intercalate e, ?_⟩
    clear hne' h h'
    rw [ofDir, ofDir, List.cons_append, List.cons_append]
    congr 1
    induction dir with
    | nil => exact absurd rfl hne
    | cons c dir ih =>
      rcases eq_or_ne dir [] with rfl | hd
      · rw [List.intercalate_singleton, List.cons_append, List.nil_append,
          List.intercalate_cons_of_ne_nil he, List.append_assoc]
      · rw [List.intercalate_cons_of_ne_nil hd, List.cons_append,
          List.intercalate_cons_of_ne_nil (by simp [hd]), ← ih hd]
        simp

/-! ## Normal forms -/

/-- On a path that starts with a slash, `normpath` walks the components. -/
theorem foldl_normStep {cs : List Str} {dir : List Str} (h : ['.', '.'] ∉ dir) :
    cs.foldl (normStep true) dir = cs.foldl walk dir := by
  induction cs generalizing dir with
  | nil => rfl
  | cons c cs ih =>
    have hlast : dir.getLast? ≠ some ['.', '.'] := fun hl => h (List.mem_of_getLast? hl)
    have hstep : normStep true dir c = walk dir c := by
      by_cases hc : c = ['.', '.'] <;> simp [normStep, walk, hc, hlast]
    have hmem : ['.', '.'] ∉ walk dir c := by
      unfold walk
      split_ifs with h₁ h₂
      · exact h
      · exact fun hm => h (List.mem_of_mem_dropLast hm)
      · simp [h, Ne.symm h₂]
    rw [List.foldl_cons, List.foldl_cons, hstep, ih hmem]

/-- **A normal form is slashes and the names it denotes.** -/
theorem eq_of_normpath_eq {p : Str} (h : normpath p = p) (habs : ['/'] <+: p) :
    p = List.replicate (initialSlashes p) '/' ++ ['/'].intercalate (resolve p) := by
  have hp : p ≠ [] := by rintro rfl; simp at habs
  have hn : initialSlashes p ≠ 0 := by
    unfold initialSlashes
    rw [if_pos habs]
    split_ifs <;> decide
  have key : (p.splitOn '/').foldl (normStep (initialSlashes p ≠ 0)) [] = resolve p := by
    rw [show (decide (initialSlashes p ≠ 0)) = true by simpa using hn]
    exact foldl_normStep (by simp)
  unfold normpath at h
  rw [if_neg hp] at h
  simp only [key] at h
  obtain ⟨m, hm⟩ := Nat.exists_eq_succ_of_ne_zero hn
  rw [if_neg (by rw [hm]; simp [List.replicate_succ])] at h
  exact h.symm

/-- A normal form with one leading slash is the text of its directory; one with two is that text
after another slash. -/
theorem eq_ofDir_of_normpath_eq {p : Str} (h : normpath p = p) (habs : ['/'] <+: p) :
    if ['/', '/'] <+: p then p = '/' :: ofDir (resolve p) else p = ofDir (resolve p) := by
  have hp := eq_of_normpath_eq h habs
  rcases hn : initialSlashes p with _ | _ | _ | n
  · exact absurd hn (by unfold initialSlashes; rw [if_pos habs]; split_ifs <;> decide)
  · rw [hn] at hp
    have hp' : p = ofDir (resolve p) := by simpa [ofDir] using hp
    have h2 : ¬ ['/', '/'] <+: p := by
      rw [hp']
      exact not_isPrefix_ofDir fun c hc => isName_of_mem_resolve hc
    rwa [if_neg h2]
  · rw [hn] at hp
    have h2 : ['/', '/'] <+: p := ⟨_, by rw [hp.trans (by rfl)]; rfl⟩
    rw [if_pos h2]
    exact hp
  · exact absurd hn (by unfold initialSlashes; rw [if_pos habs]; split_ifs <;> omega)

end PosixPath

end RagLeap
