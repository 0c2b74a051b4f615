import RagLeap.Core.FolderSafety
import RagLeap.Sandbox.StagerArea

/-!
# Staging and planning together

The stager's manifest is read by `load_manifest`, and `make_plan` lists for removal the documents
whose path it does not name. `removed_not_live`: over every history of passes, no path on that list
has a live file in the folder, as the pass that wrote the manifest found it, if no file that was
staged before had grown beyond the limit there. A file beyond the limit is left out of the manifest
without a mark that it is incomplete, so its documents are removed (`live_file_removed`).
-/

namespace RagLeap.Staging

open PyStr JsonText Sandbox

open FolderIngest (Ingested Manifest makePlan loadManifest readFiles entryOf)

variable {C : Type} {env : Env C} {lim : Limits}

/-! ## The manifest as it is read -/

/-- A text without surrogates, as it is read from the manifest. -/
def toStr (s : PyStr) : Str := s.map fun c => Char.ofNat c.val

theorem toStr_text (s : Str) : toStr (text s) = s := by
  rw [toStr, text, List.map_map]
  conv_rhs => rw [← List.map_id s]
  apply List.map_congr_left
  intro c _
  exact Char.ofNat_toNat c

theorem text_toStr {s : PyStr} (h : ∀ c ∈ s, isSurrogate c = false) : text (toStr s) = s := by
  rw [toStr, text, List.map_map]
  conv_rhs => rw [← List.map_id s]
  apply List.map_congr_left
  intro c hc
  have hc := h c hc
  rw [← Bool.not_eq_true, isSurrogate_iff] at hc
  have hvalid : c.val.isValidChar := by
    have := c.isLt
    unfold Nat.isValidChar
    omega
  apply Fin.ext
  change (Char.ofNat c.val).toNat = c.val
  rw [Char.ofNat, dif_pos hvalid]
  rfl

def Entry.json (e : Entry) : Json :=
  .obj [("path".toList, .str (toStr e.path)), ("size".toList, .int e.size),
    ("mtime".toList, .int e.mtime), ("sha256".toList, .str e.sha256)]

def Skipped.json (s : Skipped) : Json :=
  .obj [("extension".toList, .int s.extension), ("too_large".toList, .int s.tooLarge),
    ("denied".toList, .int s.denied), ("symlink".toList, .int s.symlink),
    ("special".toList, .int s.special), ("too_long".toList, .int s.tooLong),
    ("unreadable".toList, .int s.unreadable)]

/-- The manifest of a grant, as it is read back. -/
def Doc.json (grant : Str) (doc : Doc) : Json :=
  .obj [("grant".toList, .str grant), ("generated_at".toList, .int doc.generatedAt),
    ("files".toList, .arr (doc.files.map Entry.json)), ("skipped".toList, doc.skipped.json),
    ("pending".toList, .int doc.pending), ("truncated".toList, .bool doc.truncated)]

theorem entryOf_json {e : Entry} {x : Str × FolderIngest.Entry} (h : entryOf e.json = some x) :
    x.1 = toStr e.path := by
  have hpath : e.json.get? "path".toList = some (.str (toStr e.path)) := rfl
  have hsize : e.json.get? "size".toList = some (.int e.size) := rfl
  have hsha : e.json.get? "sha256".toList = some (.str e.sha256) := rfl
  rw [entryOf, hpath, hsize, hsha] at h
  dsimp only at h
  split_ifs at h
  cases h
  rfl

theorem loadManifest_json {grant : Str} {doc : Doc} {manifest : Manifest}
    (h : loadManifest grant (some (doc.json grant)) = some manifest) :
    manifest.files = (readFiles (doc.files.map Entry.json)).1 ∧
      manifest.invalid = (readFiles (doc.files.map Entry.json)).2 ∧
      manifest.truncated = doc.truncated ∧ manifest.pending = doc.pending ∧
      manifest.unreadable = doc.skipped.unreadable := by
  have hgrant : (doc.json grant).get? "grant".toList = some (.str grant) := rfl
  have hfiles : (doc.json grant).get? "files".toList =
      some (.arr (doc.files.map Entry.json)) := rfl
  unfold loadManifest at h
  split_ifs at h with hname
  dsimp only at h
  rw [hgrant, hfiles] at h
  dsimp only at h
  rw [if_neg (not_not_intro rfl)] at h
  cases h
  exact ⟨rfl, rfl, rfl, rfl, rfl⟩

/-- What reading the entries makes of them. -/
theorem readFiles_spec (entries : List Json) :
    (∀ path entry, (readFiles entries).1.get? path = some entry →
      ∃ e ∈ entries, ∃ x, entryOf e = some x ∧ x.1 = path) ∧
    ((readFiles entries).2 = 0 → ∀ e ∈ entries, ∃ x, entryOf e = some x ∧
      ∃ entry, (readFiles entries).1.get? x.1 = some entry) := by
  induction entries using List.reverseRecOn with
  | nil =>
    constructor
    · intro path entry h
      cases h
    · intro _ e he
      cases he
  | append_singleton entries e ih =>
    obtain ⟨ihget, ihmem⟩ := ih
    cases hentry : entryOf e with
    | none =>
      have hstep : readFiles (entries ++ [e]) =
          ((readFiles entries).1, (readFiles entries).2 + 1) := by
        rw [readFiles, List.foldl_append, List.foldl_cons, hentry]
        rfl
      rw [hstep]
      constructor
      · intro path entry h
        obtain ⟨e', he', hx⟩ := ihget path entry h
        exact ⟨e', List.mem_append_left _ he', hx⟩
      · intro h
        cases h
    | some x =>
      obtain ⟨path', entry'⟩ := x
      have hstep : readFiles (entries ++ [e]) =
          ((readFiles entries).1.set path' entry', (readFiles entries).2) := by
        rw [readFiles, List.foldl_append, List.foldl_cons, hentry]
        rfl
      rw [hstep]
      constructor
      · intro path entry h
        rw [Dict.get?_set] at h
        split_ifs at h with hp
        · exact ⟨e, by simp, _, hentry, hp.symm⟩
        · obtain ⟨e', he', hx⟩ := ihget path entry h
          exact ⟨e', List.mem_append_left _ he', hx⟩
      · intro hzero e' he'
        rcases List.mem_append.1 he' with he' | he'
        · obtain ⟨x, hx, entry, hget⟩ := ihmem hzero e' he'
          refine ⟨x, hx, ?_⟩
          rw [Dict.get?_set]
          split_ifs
          · exact ⟨_, rfl⟩
          · exact ⟨entry, hget⟩
        · rw [List.mem_singleton.1 he']
          exact ⟨_, hentry, entry', by rw [Dict.get?_set, if_pos rfl]⟩

/-- The paths on the removal list. -/
theorem mem_removed {fenv : FolderIngest.Env} {manifest : Manifest} {ingested : Ingested}
    {rel : Str} :
    rel ∈ (makePlan fenv manifest ingested).removed.map Prod.fst ↔
      manifest.complete = true ∧ manifest.files.items ≠ [] ∧
        rel ∈ ingested.items.map Prod.fst ∧ manifest.files.get? rel = none := by
  rw [makePlan, List.map_map]
  split
  · rename_i h
    rw [Bool.and_eq_true, decide_eq_true_eq] at h
    simp [FolderIngest.sorted, h.1, h.2]
  · rename_i h
    rw [Bool.and_eq_true, decide_eq_true_eq] at h
    constructor
    · intro hmem
      cases hmem
    · exact fun hmem => absurd ⟨hmem.1, hmem.2.1⟩ h

/-! ## A run that left nothing out -/

/-- Nothing was cut off, put off, or could not be read. -/
structure Run.Complete (r : Run C) : Prop where
  not_truncated : r.truncated = false
  pending_eq : r.pending = 0
  unreadable_eq : r.skipped.unreadable = 0

section Turn

variable {prev : Dict PyStr Entry} {input : Input C} {r r' : Run C} {c : Cand}

/-- A turn in a complete run kept its candidate, or found that it was no file any more. -/
theorem Turn.complete (h : Turn env lim prev input r c r') (hc : r'.Complete) :
    r.Complete ∧ ((r'.keep.get? c.rel).isSome = true ∨ input.opened c.rel = .notRegular) := by
  obtain ⟨ht, hp, hu⟩ := hc
  cases h with
  | full => cases ht
  | waits => cases hp
  | vanished hopened => exact ⟨⟨ht, hp, hu⟩, .inr hopened⟩
  | failed t => cases hu
  | keeps old content pending _ _ _ _ hle =>
    refine ⟨⟨ht, Nat.le_zero.1 (hp ▸ hle), hu⟩, .inl ?_⟩
    rw [Dict.get?_set, if_pos rfl, Option.isSome_some]
  | copied content mtime =>
    refine ⟨⟨ht, hp, hu⟩, .inl ?_⟩
    rw [Dict.get?_set, if_pos rfl, Option.isSome_some]

theorem Turn.keep_mono (h : Turn env lim prev input r c r') {k : PyStr}
    (hk : (r.keep.get? k).isSome = true) : (r'.keep.get? k).isSome = true := by
  have hset : ∀ e, ((r.keep.set c.rel e).get? k).isSome = true := by
    intro e
    rw [Dict.get?_set]
    split_ifs
    · rfl
    · exact hk
  cases h with
  | keeps => exact hset _
  | copied => exact hset _
  | full => exact hk
  | waits => exact hk
  | vanished => exact hk
  | failed => exact hk

/-- In a complete run, every candidate was kept or was no file any more when it was opened. -/
theorem complete_foldl {l : List Cand} (hc : (l.foldl (stageOne env lim prev input) r).Complete) :
    r.Complete ∧ ∀ c ∈ l,
      ((l.foldl (stageOne env lim prev input) r).keep.get? c.rel).isSome = true ∨
        input.opened c.rel = .notRegular := by
  induction l using List.reverseRecOn with
  | nil => exact ⟨hc, by simp⟩
  | append_singleton l c ih =>
    rw [List.foldl_append] at hc ⊢
    have hturn := turn_stageOne env lim prev input (l.foldl (stageOne env lim prev input) r) c
    obtain ⟨hbefore, hlast⟩ := hturn.complete hc
    obtain ⟨hstart, hall⟩ := ih hbefore
    refine ⟨hstart, ?_⟩
    intro c' hc'
    rcases List.mem_append.1 hc' with hc' | hc'
    · exact (hall c' hc').imp_left hturn.keep_mono
    · rw [List.mem_singleton.1 hc']
      exact hlast

end Turn

/-! ## Histories of passes -/

theorem names_of_fileAt {path : List PyStr} {item : Item} (hw : item.WellFormed) {x : ℕ × ℤ}
    (h : fileAt path item = some x) : ∀ n ∈ path, IsEntryName n := by
  induction path generalizing item with
  | nil => simp
  | cons name path ih =>
    obtain ⟨listable, entries, sub, rfl, hsub, hbelow⟩ := fileAt_cons h
    cases hw with
    | dir hn hl hw =>
      rw [lookup_eq_some_iff_mem hn] at hsub
      rw [List.forall_mem_cons]
      exact ⟨hl _ hsub, ih (hw _ hsub) hbelow⟩

variable (env lim) in
/-- The staging area after a history of passes. -/
def after (inputs : List (Input C)) : State C := inputs.foldl (pass env lim) State.empty

theorem after_concat (inputs : List (Input C)) (input : Input C) :
    after env lim (inputs ++ [input]) = pass env lim (after env lim inputs) input := by
  rw [after, List.foldl_append]
  rfl

theorem after_no_links (inputs : List (Input C)) :
    ∀ p, IsTemporary p → (after env lim inputs).area.get? p ≠ some .link := by
  induction inputs using List.reverseRecOn with
  | nil =>
    intro p _ h
    cases h
  | append_singleton inputs input ih =>
    rw [after_concat]
    exact pass_no_links ih input

variable (env lim) in
theorem pass_manifest (s : State C) (input : Input C) :
    (Writes env lim s input ∧
      (pass env lim s input).manifest = some (docOf input (fullRun env lim input s))) ∨
    (¬ Writes env lim s input ∧ (pass env lim s input).manifest = s.manifest) := by
  unfold pass Writes
  split
  · rename_i hending
    exact .inr ⟨by simp [hending], rfl⟩
  · rename_i hending
    exact .inr ⟨by simp [hending], rfl⟩
  · rename_i hending
    exact .inr ⟨by simp [hending], rfl⟩
  · rename_i hending
    dsimp only
    split_ifs with h
    · exact .inl ⟨⟨hending, h⟩, rfl⟩
    · exact .inr ⟨fun hw => h hw.2, rfl⟩

variable (env lim) in
/-- `input` is the pass of a history that wrote the manifest it ends with. -/
inductive Wrote : List (Input C) → Input C → Prop
  | last {inputs : List (Input C)} {input : Input C} :
      Writes env lim (after env lim inputs) input → Wrote (inputs ++ [input]) input
  | before {inputs : List (Input C)} {input input' : Input C} : Wrote inputs input →
      ¬ Writes env lim (after env lim inputs) input' → Wrote (inputs ++ [input']) input

/-- A manifest was written by some pass. -/
theorem exists_wrote {inputs : List (Input C)} {doc : Doc}
    (h : (after env lim inputs).manifest = some doc) : ∃ input, Wrote env lim inputs input := by
  induction inputs using List.reverseRecOn with
  | nil => cases h
  | append_singleton inputs input ih =>
    rcases pass_manifest env lim (after env lim inputs) input with hw | hw
    · exact ⟨input, .last hw.1⟩
    · rw [after_concat, hw.2] at h
      obtain ⟨input', h'⟩ := ih h
      exact ⟨input', .before h' hw.1⟩

/-- The manifest is the one the pass wrote. -/
theorem Wrote.manifest {inputs : List (Input C)} {input : Input C}
    (h : Wrote env lim inputs input) :
    ∃ before, Writes env lim (after env lim before) input ∧ (after env lim inputs).manifest =
      some (docOf input (fullRun env lim input (after env lim before))) := by
  induction h with
  | @last inputs input hw =>
    refine ⟨inputs, hw, ?_⟩
    rw [after_concat]
    rcases pass_manifest env lim (after env lim inputs) input with h | h
    · exact h.2
    · exact absurd hw h.1
  | @before inputs input input' _ hw ih =>
    obtain ⟨before, hwrites, hdoc⟩ := ih
    refine ⟨before, hwrites, ?_⟩
    rw [after_concat, ← hdoc]
    rcases pass_manifest env lim (after env lim inputs) input' with h | h
    · exact absurd h.1 hw
    · exact h.2

/-- An entry the manifest of a pass has comes from a candidate. -/
theorem exists_candidate {before : List (Input C)} {input : Input C} {e : Entry}
    (he : e ∈ (docOf input (fullRun env lim input (after env lim before))).files) :
    ∃ c ∈ candidates env lim input.folder, c.rel = e.path := by
  have h : Keeps env lim (after env lim before) _ (fullRun env lim input (after env lim before)) :=
    keeps_runOver env lim input (after_no_links before) (List.prefix_refl _)
  obtain ⟨k, hk⟩ := mem_sortedFiles.1 he
  obtain ⟨c, hc, hrel⟩ := List.mem_map.1 (h.key_mem k e hk)
  exact ⟨c, hc, hrel.trans (h.path_eq k e hk).symm⟩

/-- After a complete run the manifest has every file that may be staged and could be opened. -/
theorem mem_docOf {before : List (Input C)} {input : Input C}
    (hc : (fullRun env lim input (after env lim before)).Complete) {path : List PyStr} {size : ℕ}
    {mtime : ℤ} (hfile : fileAt path input.folder.item = some (size, mtime))
    (hdepth : path.length ≤ depthMax + 1) (ha : Allowed env path) (hsize : size ≤ lim.maxFile)
    (hopened : input.opened (relText path) ≠ .notRegular) :
    ∃ e ∈ (docOf input (fullRun env lim input (after env lim before))).files,
      e.path = relText path := by
  have h : Keeps env lim (after env lim before) _ (fullRun env lim input (after env lim before)) :=
    keeps_runOver env lim input (after_no_links before) (List.prefix_refl _)
  obtain ⟨hstart, hall⟩ := complete_foldl hc
  have hmem := mem_scan_of_complete hstart.not_truncated hstart.unreadable_eq hfile hdepth ha hsize
  rcases hall _ hmem with hkept | hgone
  · obtain ⟨e, he⟩ := Option.isSome_iff_exists.1 hkept
    exact ⟨e, mem_sortedFiles.2 ⟨_, he⟩, h.path_eq _ e he⟩
  · exact absurd hgone hopened

/-! ## What the plan removes -/

/-- Some manifest of a history names the path. -/
def Listed (env : Env C) (lim : Limits) (inputs : List (Input C)) (rel : Str) : Prop :=
  ∃ before doc, before <+: inputs ∧ (after env lim before).manifest = some doc ∧
    ∃ e ∈ doc.files, toStr e.path = rel

/-- A pass finds a regular file of a supported kind at a path, and could open it. -/
def Live (env : Env C) (input : Input C) (rel : Str) (size : ℕ) : Prop :=
  ∃ path mtime, path ≠ [] ∧ relText path = text rel ∧
    fileAt path input.folder.item = some (size, mtime) ∧
    (∀ n ∈ path.getLast?, hasExtension env n = true) ∧
    ∃ mtime' transfer, input.opened (text rel) = .regular mtime' transfer

/-- What the path of an entry of a written manifest says of the candidate. -/
theorem exists_listed {before : List (Input C)} {input : Input C}
    (hw : Writes env lim (after env lim before) input) {e : Entry}
    (he : e ∈ (docOf input (fullRun env lim input (after env lim before))).files) :
    ∃ c ∈ candidates env lim input.folder, relText c.path = text (toStr e.path) := by
  obtain ⟨c, hc, hrel⟩ := exists_candidate he
  have hplain := List.all_eq_true.1 (List.all_eq_true.1 hw.2 e he)
  refine ⟨c, hc, ?_⟩
  rw [text_toStr fun x hx => by simpa using hplain x hx]
  exact hrel

/-- A path that was staged is one the scan goes to. -/
theorem Listed.allowed {inputs : List (Input C)} {rel : Str} (h : Listed env lim inputs rel) :
    ∃ path, Allowed env path ∧ path.length ≤ depthMax + 1 ∧ relText path = text rel := by
  obtain ⟨listed, doc, -, hdoc, e, he, rfl⟩ := h
  obtain ⟨input, hwrote⟩ := exists_wrote hdoc
  obtain ⟨before, hwrites, hmanifest⟩ := hwrote.manifest
  cases hdoc.symm.trans hmanifest
  obtain ⟨c, hc, hpath⟩ := exists_listed hwrites he
  obtain ⟨ha, -, hdepth, -⟩ := of_mem_candidates hc
  exact ⟨c.path, ha, hdepth, hpath⟩

/-- **What staging and planning remove together.** Over every history of passes and for documents
whose paths were staged at some time, no path on the removal list had a live file when the manifest
was written, exactly if the manifest is incomplete or empty or no document's path had a live file
beyond the limit there. -/
theorem removed_not_live_iff (env : Env C) (lim : Limits) (fenv : FolderIngest.Env) (grant : Str)
    {inputs : List (Input C)} {input : Input C} {doc : Doc} {manifest : Manifest}
    {ingested : Ingested} (hwrote : Wrote env lim inputs input)
    (hdoc : (after env lim inputs).manifest = some doc)
    (hload : loadManifest grant (some (doc.json grant)) = some manifest)
    (hlisted : ∀ rel ∈ ingested.items.map Prod.fst, Listed env lim inputs rel) :
    (∀ rel ∈ (makePlan fenv manifest ingested).removed.map Prod.fst,
      ∀ size, ¬ Live env input rel size) ↔
    (manifest.complete = true → manifest.files.items ≠ [] →
      ∀ rel ∈ ingested.items.map Prod.fst, ∀ size, Live env input rel size →
        size ≤ lim.maxFile) := by
  obtain ⟨before, hwrites, hmanifest⟩ := hwrote.manifest
  cases hdoc.symm.trans hmanifest
  obtain ⟨hfiles, hinvalid, htruncated, hpending, hunreadable⟩ := loadManifest_json hload
  obtain ⟨hread, hreadAll⟩ := readFiles_spec
    ((docOf input (fullRun env lim input (after env lim before))).files.map Entry.json)
  rw [← hfiles] at hread hreadAll
  rw [← hinvalid] at hreadAll
  constructor
  · intro hsafe hcomplete hne rel hrel size hlive
    -- a file beyond the limit is no candidate, so the manifest does not name its path
    by_contra hsize
    refine hsafe rel (mem_removed.2 ⟨hcomplete, hne, hrel, ?_⟩) size hlive
    obtain ⟨path, mtime, hnil, htext, hfile, -⟩ := hlive
    rw [Option.eq_none_iff_forall_ne_some]
    intro entry hget
    obtain ⟨e', he', x, hx, hpath⟩ := hread rel entry hget
    obtain ⟨e, he, rfl⟩ := List.mem_map.1 he'
    obtain ⟨c, hc, hc'⟩ := exists_listed hwrites he
    rw [← entryOf_json hx, hpath, ← htext] at hc'
    obtain ⟨ha, hle, -, hfile'⟩ := of_mem_candidates hc
    have heq : c.path = path := relText_injective ha.ne_nil hnil
      (fun n hn => (ha.names n hn).entry) (names_of_fileAt input.folder.wellFormed hfile) hc'
    rw [heq, hfile] at hfile'
    cases hfile'
    exact hsize hle
  · intro hsmall rel hrel size hlive
    obtain ⟨hcomplete, hne, hkey, hnone⟩ := mem_removed.1 hrel
    have hsize := hsmall hcomplete hne rel hkey size hlive
    obtain ⟨path, mtime, hnil, htext, hfile, -, mtime', transfer, hopened⟩ := hlive
    obtain ⟨path', ha, hdepth, htext'⟩ := (hlisted rel hkey).allowed
    obtain rfl : path' = path := relText_injective ha.ne_nil hnil
      (fun n hn => (ha.names n hn).entry) (names_of_fileAt input.folder.wellFormed hfile)
      (htext'.trans htext.symm)
    simp only [Manifest.complete, Bool.not_eq_true', Bool.or_eq_false_iff, decide_eq_false_iff_not,
      not_not] at hcomplete
    obtain ⟨⟨⟨ht, hp⟩, hu⟩, hi⟩ := hcomplete
    have hrun : (fullRun env lim input (after env lim before)).Complete :=
      ⟨htruncated.symm.trans ht, hpending.symm.trans hp, hunreadable.symm.trans hu⟩
    -- nothing was left out of the run, so the manifest has the file
    obtain ⟨e, he, hpath⟩ := mem_docOf hrun hfile hdepth ha hsize (by rw [htext, hopened]; simp)
    obtain ⟨x, hx, entry, hget⟩ := hreadAll hi e.json (List.mem_map_of_mem he)
    rw [entryOf_json hx, hpath, htext, toStr_text, hnone] at hget
    cases hget

/-! ## Examples -/

namespace Sample

/-- `a.txt` and `aa.txt` are there, one byte each. -/
def firstPass : Input (ℕ × ℕ) := input [1, 1] (1, 0) .finished fun _ => false

/-- The size of `a.txt` is another one. -/
def secondPass (size : ℕ) : Input (ℕ × ℕ) := input [size, 1] (1, 0) .finished fun _ => false

def secondDoc (size : ℕ) : Doc :=
  docOf (secondPass size)
    (fullRun stager stageLimits (secondPass size) (after stager stageLimits [firstPass]))

def secondRead (size : ℕ) : Option Manifest :=
  loadManifest "docs".toList (some ((secondDoc size).json "docs".toList))

/-- The documents of the two files. -/
def stored : Ingested :=
  (Dict.empty.set "a.txt".toList [("1".toList, [])]).set "aa.txt".toList [("2".toList, [])]

def reader : FolderIngest.Env := ⟨.ascii, [], fun _ => [], fun _ _ => none⟩

theorem wrote_second {size : ℕ} (h : (secondDoc size).encodable = true) :
    Wrote stager stageLimits ([firstPass] ++ [secondPass size]) (secondPass size) :=
  .last ⟨rfl, h⟩

theorem second_manifest {size : ℕ} (h : (secondDoc size).encodable = true) :
    (after stager stageLimits ([firstPass] ++ [secondPass size])).manifest =
      some (secondDoc size) := by
  rw [after_concat]
  unfold pass
  exact congrArg State.manifest (if_pos h)

theorem stored_listed (size : ℕ) : ∀ rel ∈ stored.items.map Prod.fst,
    Listed stager stageLimits ([firstPass] ++ [secondPass size]) rel := by
  have hfirst : ∃ doc, (after stager stageLimits [firstPass]).manifest = some doc ∧
      ∀ rel ∈ stored.items.map Prod.fst, ∃ e ∈ doc.files, toStr e.path = rel :=
    ⟨_, Option.some_get (by decide : Option.isSome _ = true) |>.symm, by decide⟩
  obtain ⟨doc, hdoc, hrel⟩ := hfirst
  exact fun rel hmem => ⟨_, doc, List.prefix_append _ _, hdoc, hrel rel hmem⟩

/-- Nothing of two files that stay is removed. -/
theorem removed_not_live_iff_second :
    (∀ rel ∈ (makePlan reader ((secondRead 1).get (by decide)) stored).removed.map
        Prod.fst, ∀ size, ¬ Live stager (secondPass 1) rel size) ↔
    (((secondRead 1).get (by decide)).complete = true →
      ((secondRead 1).get (by decide)).files.items ≠ [] →
      ∀ rel ∈ stored.items.map Prod.fst, ∀ size, Live stager (secondPass 1) rel size →
        size ≤ stageLimits.maxFile) :=
  removed_not_live_iff stager stageLimits reader "docs".toList
    (wrote_second (by decide)) (second_manifest (by decide))
    (Option.some_get _).symm (stored_listed 1)

/-- `a.txt` has grown beyond the limit: it is there, and its document is removed. -/
theorem live_file_removed :
    Wrote stager stageLimits ([firstPass] ++ [secondPass 26214401]) (secondPass 26214401) ∧
    (after stager stageLimits ([firstPass] ++ [secondPass 26214401])).manifest =
      some (secondDoc 26214401) ∧
    (∀ rel ∈ stored.items.map Prod.fst,
      Listed stager stageLimits ([firstPass] ++ [secondPass 26214401]) rel) ∧
    "a.txt".toList ∈ (makePlan reader ((secondRead 26214401).get (by decide))
      stored).removed.map Prod.fst ∧
    Live stager (secondPass 26214401) "a.txt".toList 26214401 := by
  refine ⟨wrote_second (by decide), second_manifest (by decide),
    stored_listed _, mem_removed.2 ⟨?_, ?_, ?_, ?_⟩, [fileName 0], 0, List.cons_ne_nil _ _, ?_, rfl,
    ?_, 0, _, rfl⟩
  · decide
  · decide
  · decide
  · decide
  · decide
  · decide

end Sample

end RagLeap.Staging
