import Mathlib
import RagLeap.Core.FolderSafety

/-!
# Cycles without failures

`cycles_converge`: where nothing fails and the files that are listed stay the same, the files
without a current document become fewer by the budget in each cycle, and the cycle after the last of
them has been ingested leaves an empty plan. The number of files that are `missing` is the measure;
a cycle never loses a listed file, because what it deletes is not current.
-/

namespace RagLeap.FolderIngest

variable {V : Type}

/-! ## Calm cycles -/

/-- The files to be stored: those of the grants that have a parser. -/
def targets (env : Env) (files : Str → Dict Str Entry) (grants : List Str) : List Source :=
  grants.flatMap fun g =>
    ((files g).items.filter fun e => env.supported e.1).map fun e => ⟨g, e.1, e.2.sha256⟩

/-- The files without a current document. -/
def missing (env : Env) (files : Str → Dict Str Entry) (grants : List Str) (store : Store V) :
    List Source :=
  (targets env files grants).filter fun source => ¬ Stored source store

/-- The documents from a source. -/
def copies (source : Source) (store : Store V) : ℕ :=
  store.documents.parents.countP fun row => row.source = some source

/-- The staged copy of the file can be read, has a text, and one of its chunks is embedded. -/
def Ingestible (env : Env) (w : World V) (grant rel : Str) (entry : Entry) : Prop :=
  ∃ raw text, readStaged env (w.staged grant rel) entry = some raw ∧
    env.extractText rel raw = some text ∧
    ∃ chunk ∈ chunksOf text, (w.embedText grant rel chunk).isSome = true

/-- The identifier drawn for a file. -/
def World.newId (w : World V) (source : Source) : Str := w.uuid4 source.grant source.path

/-- Nothing fails in a cycle: the manifests are fresh and list the files, every statement goes
through, every file can be ingested, and the identifiers drawn are new. -/
structure Calm (env : Env) (files : Str → Dict Str Entry) (grants : List Str) (w : World V)
    (store : Store V) : Prop where
  ready : w.ready = true
  grants_eq : w.grants = grants
  manifest : ∀ g ∈ grants, ∃ m, loadManifest g (w.manifestFile g) = some m ∧ m.files = files g ∧
    w.now g - m.generatedAt ≤ MAX_MANIFEST_AGE
  reads : ∀ g ∈ grants, w.ingestedFate g = .passes ∧ w.approvedFate g = .passes ∧
    w.approveFate g = .passes
  ingests : ∀ g ∈ grants, ∀ rel, w.ingestFate g rel = .passes
  deletes : ∀ id, w.deleteFate id = .passes
  ingestible : ∀ g ∈ grants, ∀ rel entry, (files g).get? rel = some entry →
    env.supported rel = true → Ingestible env w g rel entry
  distinct : ∀ a ∈ targets env files grants, ∀ b ∈ targets env files grants,
    w.newId a = w.newId b → a = b
  fresh : ∀ a ∈ targets env files grants, w.newId a ∉ store.documents.keys

/-- Nothing fails in any of the cycles. -/
def CalmRun (env : Env) (files : Str → Dict Str Entry) (grants : List Str) :
    List (World V) → State V → Prop
  | [], _ => True
  | w :: ws, s => Calm env files grants w s.store ∧
      CalmRun env files grants ws (runCycle env w s).2

section

variable {env : Env} {files : Str → Dict Str Entry} {grants : List Str} {w : World V}
  {grant : Str}

theorem mem_targets {source : Source} : source ∈ targets env files grants ↔
    source.grant ∈ grants ∧ env.supported source.path = true ∧
      ∃ entry, (files source.grant).get? source.path = some entry ∧
        entry.sha256 = source.hash := by
  obtain ⟨g, path, hash⟩ := source
  unfold targets
  rw [List.mem_flatMap]
  constructor
  · rintro ⟨g', hg, hmem⟩
    obtain ⟨e, he, heq⟩ := List.mem_map.1 hmem
    obtain ⟨he, hsupported⟩ := List.mem_filter.1 he
    cases heq
    exact ⟨hg, hsupported, e.2, Dict.get?_eq_some_iff.2 he, rfl⟩
  · rintro ⟨hg, hsupported, entry, hentry, rfl⟩
    refine ⟨g, hg, List.mem_map.2 ⟨(path, entry), List.mem_filter.2 ⟨?_, hsupported⟩, rfl⟩⟩
    exact Dict.get?_eq_some_iff.1 hentry

theorem Calm.listed_iff {store : Store V} (h : Calm env files grants w store) {source : Source} :
    Listed env w source ↔ source ∈ targets env files grants := by
  rw [mem_targets, Listed, h.grants_eq]
  apply and_congr_right
  intro hg
  apply and_congr_right
  intro _
  obtain ⟨m, hm, hfiles, -⟩ := h.manifest _ hg
  constructor
  · rintro ⟨manifest, entry, hmanifest, hentry⟩
    rw [hm] at hmanifest
    cases hmanifest
    exact ⟨entry, hfiles ▸ hentry⟩
  · rintro ⟨entry, hentry⟩
    exact ⟨m, entry, hm, hfiles ▸ hentry⟩

/-! ## What lawful changes keep -/

section Lawful

variable {A : Str → Prop} {d : Deed V} {store : Store V}

/-- The current document of a listed file is not deleted. -/
theorem not_justified {manifest : Manifest} {source : Source} {row : DocumentRow} {g : Str}
    (hlisted : Listed env w source) (hsource : row.source = some source)
    (hmanifest : loadManifest g (w.manifestFile g) = some manifest) :
    ¬ Justified manifest g store row := by
  rintro ⟨path, hash, hsource', hwhy⟩
  rw [hsource] at hsource'
  cases hsource'
  obtain ⟨-, -, m, entry, hm, hentry, hhash⟩ := hlisted
  rw [hmanifest] at hm
  cases hm
  rcases hwhy with ⟨entry', hentry', hne, -⟩ | ⟨-, -, hgone⟩
  · rw [hentry] at hentry'
    cases hentry'
    exact hne hhash.symm
  · rw [hentry] at hgone
    cases hgone

/-- Deletions of a cycle leave the rows of a listed file. -/
theorem filter_delete {source : Source} {before : Store V} {id : Str}
    (hlisted : Listed env w source) (h : Lawful A env w (.deleted id before) store) :
    store.documents.parents.filter (fun row => row.source = some source) =
      before.documents.parents.filter fun row => row.source = some source := by
  obtain ⟨rfl, hjust⟩ := h
  have hparents : (before.delete id).documents.parents =
      before.documents.parents.filter (·.id ≠ id) := rfl
  rw [hparents, List.filter_filter]
  apply List.filter_congr
  intro row hrow
  by_cases hsource : row.source = some source
  · have hne : row.id ≠ id := by
      intro hid
      obtain ⟨g, manifest, hmanifest, hj⟩ := hjust row hrow hid
      exact not_justified hlisted hsource hmanifest hj
    simp [hsource, hne]
  · simp [hsource]

theorem copies_eq (source : Source) (store : Store V) : copies source store =
    (store.documents.parents.filter fun row => row.source = some source).length :=
  List.countP_eq_length_filter

theorem copies_insert {row : DocumentRow} {rows : List (ChunkRow V)} {before : Store V}
    {source source' : Source} (hsource : row.source = some source')
    (hinsert : insertRows row rows before.documents = some store.documents) :
    copies source store = copies source before + if source' = source then 1 else 0 := by
  unfold copies
  rw [(insertRows_eq hinsert).2.1, List.countP_append]
  congr 1
  simp [List.countP_cons, hsource]

theorem stored_iff_copies {source : Source} : Stored source store ↔ 0 < copies source store := by
  unfold copies Stored
  rw [List.countP_pos_iff]
  simp

/-- The documents of a listed file: the first is ingested, and none is lost. -/
theorem copies_lawful {source : Source} (hlisted : Listed env w source)
    (h : Lawful A env w d store) : copies source store = copies source d.before ∨
      (copies source d.before = 0 ∧ copies source store = 1) := by
  cases d with
  | deleted id before =>
    left
    rw [copies_eq, copies_eq]
    exact congrArg List.length (filter_delete hlisted h)
  | ingested source' before =>
    obtain ⟨⟨raw, text, -, -, row, rows, -, hsource, -, -, hinsert, -⟩, -, hnew, -⟩ := h
    rw [copies_insert hsource hinsert]
    split
    · rename_i heq
      right
      have hnone : copies source before = 0 := by
        have hnot := hnew
        rw [heq, stored_iff_copies] at hnot
        omega
      exact ⟨hnone, by rw [hnone]⟩
    · exact .inl rfl
  | approved g before =>
    left
    unfold copies
    rw [h.1]
    rfl

theorem stored_lawful {source : Source} (hlisted : Listed env w source)
    (h : Lawful A env w d store) (hstored : Stored source d.before) : Stored source store := by
  rw [stored_iff_copies] at hstored ⊢
  rcases copies_lawful hlisted h with heq | ⟨-, heq⟩
  · omega
  · omega

/-- Lawful changes never withdraw an approval. -/
theorem approvals_lawful (h : Lawful A env w d store)
    (happroved : (d.before.approvals.get? grant).isSome = true) :
    (store.approvals.get? grant).isSome = true := by
  cases d with
  | deleted id before =>
    obtain ⟨rfl, -⟩ := h
    exact happroved
  | ingested source before =>
    obtain ⟨⟨raw, text, -, -, row, rows, -, -, -, -, -, happrovals⟩, -⟩ := h
    rw [happrovals]
    exact happroved
  | approved g before =>
    obtain ⟨-, n, happrovals⟩ := h
    rw [happrovals, Dict.get?_set]
    split
    · rfl
    · exact happroved

/-- A listed file that is stored stays stored. -/
theorem Path.stored {a b : Store V} {ds : List (Deed V)} {source : Source}
    (h : Path (Lawful A env w) a ds b) (hlisted : Listed env w source)
    (hstored : Stored source a) : Stored source b :=
  (h.keeps (fun _ _ hok => stored_lawful hlisted hok) hstored).2

theorem Path.copies {a b : Store V} {ds : List (Deed V)} {source : Source}
    (h : Path (Lawful A env w) a ds b) (hlisted : Listed env w source) :
    copies source b = copies source a ∨ (copies source a = 0 ∧ copies source b = 1) := by
  refine (h.keeps (I := fun store => FolderIngest.copies source store =
    FolderIngest.copies source a ∨ (FolderIngest.copies source a = 0 ∧
      FolderIngest.copies source store = 1)) (fun d store hok hd => ?_) (.inl rfl)).2
  rcases copies_lawful hlisted hok with heq | ⟨hzero, hone⟩
  · rwa [heq]
  · rcases hd with hd | ⟨-, hd⟩
    · exact .inr ⟨hd ▸ hzero, hone⟩
    · omega

end Lawful

/-- Each ingestion is of a file that was missing. -/
theorem Path.missing_add_ingests {A : Str → Prop} {a b : Store V} {ds : List (Deed V)}
    (hlisted : ∀ source, Listed env w source ↔ source ∈ targets env files grants)
    (h : Path (Lawful A env w) a ds b) :
    (missing env files grants b).length + FolderIngest.ingests ds ≤
      (missing env files grants a).length := by
  induction h with
  | nil _ => exact le_refl _
  | @cons d ds store store' hok _ ih =>
    -- What is missing after the change was missing before.
    have hfilter : missing env files grants store =
        (missing env files grants d.before).filter fun source => ¬ Stored source store := by
      unfold missing
      rw [List.filter_filter]
      apply List.filter_congr
      intro source hsource
      by_cases hstored : Stored source d.before
      · have hafter := stored_lawful ((hlisted source).2 hsource) hok hstored
        simp [hstored, hafter]
      · simp [hstored]
    cases d with
    | ingested source before =>
      have hless : (missing env files grants store).length <
          (missing env files grants before).length := by
        rw [hfilter]
        apply List.length_filter_lt_length_iff_exists.2
        obtain ⟨⟨raw, text, -, -, row, rows, -, hsource, -, -, hinsert, -⟩, hlist, hnew, -⟩ := hok
        have hmissing : source ∈ missing env files grants before :=
          List.mem_filter.2 ⟨(hlisted source).1 hlist, by simpa using hnew⟩
        refine ⟨source, hmissing, ?_⟩
        have hstored : Stored source store := by
          refine ⟨row, ?_, hsource⟩
          rw [(insertRows_eq hinsert).2.1]
          exact List.mem_append_right _ List.mem_cons_self
        simpa using hstored
      have hone : FolderIngest.ingests (.ingested source before :: ds) =
          1 + FolderIngest.ingests ds := ingests_append [.ingested source before] ds
      change (missing env files grants store').length + _ ≤ (missing env files grants before).length
      omega
    | deleted id before =>
      have hle : (missing env files grants store).length ≤
          (missing env files grants before).length := by
        rw [hfilter]
        exact List.length_filter_le _ _
      have hzero : FolderIngest.ingests (.deleted id before :: ds) =
          0 + FolderIngest.ingests ds := ingests_append [.deleted id before] ds
      change (missing env files grants store').length + _ ≤ (missing env files grants before).length
      omega
    | approved g before =>
      have hle : (missing env files grants store).length ≤
          (missing env files grants before).length := by
        rw [hfilter]
        exact List.length_filter_le _ _
      have hzero : FolderIngest.ingests (.approved g before :: ds) =
          0 + FolderIngest.ingests ds := ingests_append [.approved g before] ds
      change (missing env files grants store').length + _ ≤ (missing env files grants before).length
      omega

/-! ## One file without a failure -/

theorem Shrinks.mono {ids ids' : List Str} {a b : Store V} (h : Shrinks ids a b)
    (hsub : ∀ k ∈ ids, k ∈ ids') : Shrinks ids' a b :=
  ⟨fun k => (h.1 k).imp_right fun ⟨hk, heq⟩ => ⟨hsub k hk, heq⟩, h.2⟩

theorem deleteDocs_keeps (w : World V) (ids : List Str) (s : State V) :
    (deleteDocs w ids s).failures = s.failures ∧
      Shrinks ids s.store (deleteDocs w ids s).store := by
  induction ids generalizing s with
  | nil => exact ⟨rfl, .refl _ _⟩
  | cons id ids ih =>
    obtain ⟨hfailures, hshrinks⟩ := ih (deleteDocument w id s).2
    have hrest : Shrinks (id :: ids) (deleteDocument w id s).2.store
        (deleteDocs w ids (deleteDocument w id s).2).store :=
      hshrinks.mono fun _ h => List.mem_cons_of_mem _ h
    have hcons : deleteDocs w (id :: ids) s = deleteDocs w ids (deleteDocument w id s).2 := rfl
    rw [hcons]
    rcases deleteDocument_cases w id s with h | h
    · rw [h] at hfailures hrest
      rw [h]
      exact ⟨hfailures, hrest⟩
    · rw [h] at hfailures hrest
      rw [h]
      exact ⟨hfailures, (shrinks_delete s.store List.mem_cons_self).trans hrest⟩

theorem Shrinks.keys {ids : List Str} {a b : Store V} (h : Shrinks ids a b) {id : Str}
    (hid : id ∈ b.documents.keys) : id ∈ a.documents.keys := by
  obtain ⟨row, hrow, rfl⟩ := List.mem_map.1 hid
  exact List.mem_map_of_mem (h.subset hrow)

/-- The rows of a new document go in. -/
theorem exists_insertRows (row : DocumentRow) {rows : List (ChunkRow V)} {t : Documents V}
    (hid : row.id ∉ t.keys) (hrows : ∀ r ∈ rows, r.documentId = row.id) :
    ∃ t', insertRows row rows t = some t' := by
  obtain ⟨⟨u, t₁⟩, h₁⟩ := Option.isSome_iff_exists.1 (Tables.isSome_insertParent row hid)
  have hfold : ∀ (rows : List (ChunkRow V)) (t : Documents V), row.id ∈ t.keys →
      (∀ r ∈ rows, r.documentId = row.id) →
      ∃ t', rows.foldlM (fun t row => (Tables.insertChild row t).map Prod.snd) t = some t' := by
    intro rows
    induction rows with
    | nil => exact fun t _ _ => ⟨t, rfl⟩
    | cons r rows ih =>
      intro t hkey hall
      obtain ⟨hr, hall⟩ := List.forall_mem_cons.1 hall
      obtain ⟨⟨u, t₂⟩, h₂⟩ := Option.isSome_iff_exists.1
        (Tables.isSome_insertChild (t := t) r (hr ▸ hkey))
      have hkey₂ : row.id ∈ t₂.keys := by rwa [Tables.keys_insertChild h₂]
      obtain ⟨t', h'⟩ := ih t₂ hkey₂ hall
      refine ⟨t', ?_⟩
      rw [List.foldlM_cons, h₂]
      exact h'
  obtain ⟨t', h'⟩ := hfold rows t₁ (Tables.mem_keys_insertParent h₁) hrows
  refine ⟨t', ?_⟩
  unfold insertRows
  rw [h₁]
  exact h'

theorem documentId_chunkRows {embedText : Chunk → Option V} {id filename : Str}
    {chunks : List Chunk} : ∀ r ∈ chunkRows embedText id filename chunks, r.documentId = id := by
  intro r hr
  obtain ⟨chunk, -, hchunk⟩ := List.mem_filterMap.1 hr
  obtain ⟨v, -, rfl⟩ := Option.map_eq_some_iff.1 hchunk
  rfl

theorem ingestFile_calm {rel : Str} {entry : Entry} (oldIds : List Str) {s : State V}
    (hfile : Ingestible env w grant rel entry) (hfate : w.ingestFate grant rel = .passes)
    (hfresh : w.uuid4 grant rel ∉ s.store.documents.keys) :
    ∃ s', ingestFile env w grant rel entry oldIds s = (some (), s') ∧
      s'.failures = s.failures ∧ s'.left = s.left ∧ ingests s'.deeds = ingests s.deeds + 1 ∧
      (∀ id ∈ s'.store.documents.keys, id ∈ s.store.documents.keys ∨ id = w.uuid4 grant rel) ∧
      (∀ row ∈ s.store.documents.parents, row.id ∉ oldIds →
        row ∈ s'.store.documents.parents) ∧
      (w.uuid4 grant rel ∉ oldIds → ∃ row ∈ s'.store.documents.parents,
        row.id = w.uuid4 grant rel ∧ row.source = some ⟨grant, rel, entry.sha256⟩) := by
  obtain ⟨raw, text, hraw, htext, chunk, hchunk, hembed⟩ := hfile
  generalize hrows : chunkRows (w.embedText grant rel) (w.uuid4 grant rel) (grant ++ '/' :: rel)
    (chunksOf text) = rows
  have hne : rows ≠ [] := by
    obtain ⟨v, hv⟩ := Option.isSome_iff_exists.1 hembed
    intro hnil
    rw [hnil] at hrows
    have hnone := List.filterMap_eq_nil_iff.1 hrows chunk hchunk
    rw [hv] at hnone
    cases hnone
  have hids : ∀ r ∈ rows, r.documentId = w.uuid4 grant rel := hrows ▸ documentId_chunkRows
  obtain ⟨documents, hinsert⟩ := exists_insertRows
    ⟨w.uuid4 grant rel, grant ++ '/' :: rel, some ⟨grant, rel, entry.sha256⟩⟩ hfresh hids
  have hrun : ingestDocument w (grant ++ '/' :: rel) text ⟨grant, rel, entry.sha256⟩ s =
      (some (), { s with
        store := { s.store with documents }
        deeds := s.deeds ++ [.ingested ⟨grant, rel, entry.sha256⟩ s.store] }) := by
    unfold ingestDocument change
    dsimp only
    rw [hrows, if_neg hne, hfate]
    apply Attempt.commit_passes
    rw [hinsert]
    rfl
  generalize hs₁ : ({ s with
    store := { s.store with documents }
    deeds := s.deeds ++ [.ingested ⟨grant, rel, entry.sha256⟩ s.store] } : State V) = s₁ at hrun
  have hparents : s₁.store.documents.parents = s.store.documents.parents ++
      [⟨w.uuid4 grant rel, grant ++ '/' :: rel, some ⟨grant, rel, entry.sha256⟩⟩] := by
    rw [← hs₁]
    exact (insertRows_eq hinsert).2.1
  obtain ⟨hfailures, hshrinks⟩ := deleteDocs_keeps w oldIds s₁
  obtain ⟨hcount, hleft⟩ := ingests_deleteDocs w oldIds s₁
  refine ⟨deleteDocs w oldIds s₁, ?_, ?_, ?_, ?_, fun id hid => ?_, fun row hrow hid => ?_,
    fun hnew => ?_⟩
  · unfold ingestFile
    rw [hraw, Attempt.ofOption_some, Attempt.pure_bind, htext, Attempt.ofOption_some,
      Attempt.pure_bind, Attempt.bind_apply_of_some hrun, Attempt.total_apply]
  · rw [hfailures, ← hs₁]
  · rw [hleft, ← hs₁]
  · rw [hcount, ← hs₁]
    exact ingests_append s.deeds [.ingested _ s.store]
  · have hid₁ := hshrinks.keys hid
    rw [Tables.keys, hparents, List.map_append, List.mem_append] at hid₁
    exact hid₁.imp_right List.mem_singleton.1
  · apply hshrinks.kept _ hid
    rw [hparents]
    exact List.mem_append_left _ hrow
  · have hrow : (⟨w.uuid4 grant rel, grant ++ '/' :: rel,
        some ⟨grant, rel, entry.sha256⟩⟩ : DocumentRow) ∈ s₁.store.documents.parents := by
      rw [hparents]
      exact List.mem_append_right _ List.mem_cons_self
    exact ⟨_, hshrinks.kept hrow hnew, rfl, rfl⟩

/-! ## A cycle without a failure -/

/-- Between two states every file taken from the budget was ingested, the new documents have ids
`isNew`, and no file was given up. -/
structure Proceeds (isNew : Str → Prop) (s s' : State V) : Prop where
  count : FolderIngest.ingests s'.deeds + s'.left = FolderIngest.ingests s.deeds + s.left
  keys : ∀ id ∈ s'.store.documents.keys, id ∈ s.store.documents.keys ∨ isNew id
  failures : ∀ key, givenUp s.failures key = false → givenUp s'.failures key = false

theorem Proceeds.refl (isNew : Str → Prop) (s : State V) : Proceeds isNew s s :=
  ⟨rfl, fun _ h => .inl h, fun _ h => h⟩

theorem Proceeds.trans {isNew : Str → Prop} {a b c : State V} (h : Proceeds isNew a b)
    (h' : Proceeds isNew b c) : Proceeds isNew a c where
  count := h'.count.trans h.count
  keys := fun id hid => (h'.keys id hid).elim (h.keys id) .inr
  failures := fun key hkey => h'.failures key (h.failures key hkey)

theorem Proceeds.mono {isNew isNew' : Str → Prop} (hle : ∀ id, isNew id → isNew' id)
    {a b : State V} (h : Proceeds isNew a b) : Proceeds isNew' a b :=
  ⟨h.count, fun id hid => (h.keys id hid).imp_right (hle id), h.failures⟩

theorem proceeds_deleteDocs (isNew : Str → Prop) (w : World V) (ids : List Str) (s : State V) :
    Proceeds isNew s (deleteDocs w ids s) := by
  obtain ⟨hfailures, hshrinks⟩ := deleteDocs_keeps w ids s
  obtain ⟨hcount, hleft⟩ := ingests_deleteDocs w ids s
  refine ⟨by rw [hcount, hleft], fun id hid => .inl (hshrinks.keys hid), fun key hkey => ?_⟩
  rwa [hfailures]

theorem givenUp_erase {failures : Dict (Str × Str × Str) ℕ} {key key' : Str × Str × Str}
    (h : givenUp failures key' = false) : givenUp (failures.erase key) key' = false := by
  unfold givenUp at h ⊢
  rw [Dict.get?_erase]
  split
  · rfl
  · exact h

variable (env) in
theorem ingestTodo_calm (todo : List Todo) (st : GrantStatus) {s : State V}
    (hfile : ∀ t ∈ todo, Ingestible env w grant t.rel t.entry)
    (hfate : ∀ rel, w.ingestFate grant rel = .passes)
    (hfresh : ∀ t ∈ todo, w.uuid4 grant t.rel ∉ s.store.documents.keys)
    (hold : ∀ t ∈ todo, ∀ t' ∈ todo, w.uuid4 grant t.rel ∉ t'.oldIds)
    (hdistinct : todo.Pairwise fun t t' => w.uuid4 grant t.rel ≠ w.uuid4 grant t'.rel)
    (hfailures : ∀ t ∈ todo, givenUp s.failures (grant, t.rel, t.entry.sha256) = false) :
    let s' := (ingestTodo env w grant todo st s).2
    Proceeds (fun id => ∃ t ∈ todo, id = w.uuid4 grant t.rel) s s' ∧
      (∀ row ∈ s.store.documents.parents, (∀ t ∈ todo, row.id ∉ t.oldIds) →
        row ∈ s'.store.documents.parents) ∧
      (0 < s'.left → ∀ t ∈ todo, Stored ⟨grant, t.rel, t.entry.sha256⟩ s'.store) := by
  induction todo generalizing st s with
  | nil => exact ⟨.refl _ s, fun _ h _ => h, fun _ _ h => absurd h List.not_mem_nil⟩
  | cons t todo ih =>
    obtain ⟨htfile, hfile⟩ := List.forall_mem_cons.1 hfile
    obtain ⟨htfresh, hfresh⟩ := List.forall_mem_cons.1 hfresh
    obtain ⟨htfailures, hfailures⟩ := List.forall_mem_cons.1 hfailures
    obtain ⟨htdistinct, hdistinct⟩ := List.pairwise_cons.1 hdistinct
    have hmem : ∀ t' ∈ todo, t' ∈ t :: todo := fun _ h => List.mem_cons_of_mem _ h
    unfold ingestTodo
    dsimp only
    rw [if_neg (by rw [htfailures]; decide)]
    split
    · rename_i hleft
      exact ⟨.refl _ s, fun _ h _ => h, fun h => absurd hleft h.ne'⟩
    · rename_i hleft
      obtain ⟨s₁, hrun, hfail₁, hleft₁, hcount₁, hkeys₁, hkept₁, hstored₁⟩ :=
        ingestFile_calm t.oldIds (s := { s with left := s.left - 1 }) htfile (hfate t.rel)
          htfresh
      rw [hrun]
      dsimp only at hfail₁ hleft₁ hcount₁ hkeys₁ hkept₁ ⊢
      obtain ⟨row, hrow, hid, hsource⟩ := hstored₁ (hold t List.mem_cons_self t List.mem_cons_self)
      have hfresh₁ : ∀ t' ∈ todo, w.uuid4 grant t'.rel ∉ s₁.store.documents.keys := by
        intro t' ht' hin
        rcases hkeys₁ _ hin with hin | heq
        · exact hfresh t' ht' hin
        · exact htdistinct t' ht' heq.symm
      obtain ⟨hproceeds, hkept, hall⟩ := ih { st with doneNow := st.doneNow + 1 }
        (s := { s₁ with failures := s₁.failures.erase (grant, t.rel, t.entry.sha256) }) hfile
        hfresh₁ (fun a ha b hb => hold a (hmem a ha) b (hmem b hb)) hdistinct
        fun t' ht' => givenUp_erase (hfail₁ ▸ hfailures t' ht')
      have hone : Proceeds (fun id => ∃ t' ∈ t :: todo, id = w.uuid4 grant t'.rel) s
          { s₁ with failures := s₁.failures.erase (grant, t.rel, t.entry.sha256) } := by
        refine ⟨?_, fun id hid => ?_, fun key hkey => givenUp_erase (hfail₁ ▸ hkey)⟩
        · dsimp only
          omega
        · exact (hkeys₁ id hid).imp_right fun heq => ⟨t, List.mem_cons_self, heq⟩
      refine ⟨hone.trans (hproceeds.mono ?_), fun r hr hnot => ?_, fun hpos => ?_⟩
      · rintro id ⟨t', ht', heq⟩
        exact ⟨t', hmem t' ht', heq⟩
      · obtain ⟨hnott, hnot⟩ := List.forall_mem_cons.1 hnot
        exact hkept r (hkept₁ r hr hnott) hnot
      · refine List.forall_mem_cons.2 ⟨⟨row, hkept row hrow fun t' ht' => ?_, hsource⟩, hall hpos⟩
        rw [hid]
        exact hold t List.mem_cons_self t' (hmem t' ht')

/-- A file without a current document is one of those to ingest. -/
theorem mem_todo {manifest : Manifest} {ingested : Ingested} {rel : Str} {entry : Entry}
    (hentry : manifest.files.get? rel = some entry) (hsupported : env.supported rel = true)
    (hnone : ∀ d ∈ ingested.docs rel, d.2 ≠ entry.sha256) :
    ⟨rel, entry, (ingested.docs rel).map Prod.fst⟩ ∈ todoOf manifest ingested
      ((makePlan env manifest ingested).new ++ (makePlan env manifest ingested).changed) := by
  have hrel : rel ∈ (sorted (manifest.files.items.map Prod.fst)).filter env.supported := by
    refine List.mem_filter.2 ⟨mem_sorted.2 ?_, hsupported⟩
    exact List.mem_map.2 ⟨_, Dict.get?_eq_some_iff.1 hentry, rfl⟩
  refine List.mem_filterMap.2 ⟨rel, ?_, by rw [hentry]; rfl⟩
  by_cases hdocs : ingested.docs rel = []
  · exact List.mem_append_left _ (List.mem_filter.2 ⟨hrel, decide_eq_true hdocs⟩)
  · refine List.mem_append_right _ (List.mem_filter.2 ⟨hrel, decide_eq_true ⟨hdocs, ?_⟩⟩)
    apply List.eq_nil_iff_forall_not_mem.2
    intro d hd
    rw [mem_current, hentry] at hd
    exact hnone d hd.1 (Option.some.inj hd.2)

/-- A document of a path that `_ingested` returns is stored. -/
theorem mem_keys_of_docs {store : Store V} {rel : Str} {d : Str × Str}
    (h : d ∈ (ingestedOf store grant).docs rel) : d.1 ∈ store.documents.keys := by
  obtain ⟨id, hash⟩ := d
  rw [docs_ingestedOf] at h
  obtain ⟨row, hrow, rfl, -⟩ := mem_rowsOf.1 h
  exact List.mem_map_of_mem hrow

/-- The deletions of a plan, before its files are ingested. -/
def cleared (w : World V) (grant : Str) (plan : Plan) (s : State V) : State V :=
  deleteDocs w plan.stale
    (if w.deleteRemoved grant then deleteDocs w (plan.removed.flatMap Prod.snd) s else s)

theorem cleared_keeps (w : World V) (grant : Str) (plan : Plan) (s : State V) :
    (cleared w grant plan s).failures = s.failures ∧
      Shrinks (plan.removed.flatMap Prod.snd ++ plan.stale) s.store
        (cleared w grant plan s).store ∧
      ∀ isNew, Proceeds isNew s (cleared w grant plan s) := by
  unfold cleared
  split
  · obtain ⟨hfailures, hshrinks⟩ := deleteDocs_keeps w (plan.removed.flatMap Prod.snd) s
    obtain ⟨hfailures', hshrinks'⟩ := deleteDocs_keeps w plan.stale
      (deleteDocs w (plan.removed.flatMap Prod.snd) s)
    refine ⟨hfailures'.trans hfailures, ?_, fun isNew =>
      (proceeds_deleteDocs isNew w _ s).trans (proceeds_deleteDocs isNew w _ _)⟩
    exact (hshrinks.mono fun _ h => List.mem_append_left _ h).trans
      (hshrinks'.mono fun _ h => List.mem_append_right _ h)
  · obtain ⟨hfailures, hshrinks⟩ := deleteDocs_keeps w plan.stale s
    exact ⟨hfailures, hshrinks.mono fun _ h => List.mem_append_right _ h,
      fun isNew => proceeds_deleteDocs isNew w _ s⟩

section Cycle

variable {store₀ : Store V}

/-- A grant that is approved, or approved automatically, is carried out. -/
theorem processGrant_calm_eq (hcalm : Calm env files grants w store₀) (hg : grant ∈ grants)
    {s : State V} (hadmitted : (s.store.approvals.get? grant).isSome = true ∨
      w.autoApprove grant = true) :
    ∃ m st s₁, loadManifest grant (w.manifestFile grant) = some m ∧ m.files = files grant ∧
      (∃ approvals deeds, s₁ = { s with store := { s.store with approvals }, deeds } ∧
        ingests deeds = ingests s.deeds) ∧
      (processGrant env w grant s).2 = (carryOut env w grant m (ingestedOf s₁.store grant)
        (makePlan env m (ingestedOf s₁.store grant)) st s₁).2 := by
  obtain ⟨m, hm, hfiles, hage⟩ := hcalm.manifest grant hg
  obtain ⟨hingested, happroved, happrove⟩ := hcalm.reads grant hg
  have hmay : ∃ s₁ : State V, mayIngest w grant m (ingestedOf s.store grant) s = (some true, s₁) ∧
      ∃ approvals deeds, s₁ = { s with store := { s.store with approvals }, deeds } ∧
        ingests deeds = ingests s.deeds := by
    have hstay : ∃ approvals deeds, s = { s with store := { s.store with approvals }, deeds } ∧
        ingests deeds = ingests s.deeds := ⟨_, _, rfl, rfl⟩
    unfold mayIngest
    split
    · exact ⟨s, rfl, hstay⟩
    · rw [happroved, Attempt.bind_apply_of_some (Attempt.read_passes _ s)]
      split
      · exact ⟨s, rfl, hstay⟩
      · rename_i hnot
        rw [hadmitted.resolve_left hnot]
        unfold approve change
        rw [happrove]
        refine ⟨_, rfl, _, _, rfl, ?_⟩
        exact ingests_append s.deeds [.approved grant s.store]
  obtain ⟨s₁, hrun, approvals, deeds, hs₁, hcount⟩ := hmay
  have hsame : ingestedOf s.store grant = ingestedOf s₁.store grant := by
    rw [hs₁]
    rfl
  have hst : ∃ st, (processGrant env w grant s).2 = (carryOut env w grant m
      (ingestedOf s₁.store grant) (makePlan env m (ingestedOf s₁.store grant)) st s₁).2 := by
    unfold processGrant
    rw [hm]
    dsimp only
    rw [if_neg (by omega)]
    unfold processManifest
    rw [hingested, Attempt.bind_apply_of_some (Attempt.read_passes _ s)]
    dsimp only
    rw [Attempt.bind_apply_of_some hrun, hsame]
    exact ⟨_, rfl⟩
  obtain ⟨st, hst⟩ := hst
  exact ⟨m, st, s₁, hm, hfiles, ⟨approvals, deeds, hs₁, hcount⟩, hst⟩

/-- One grant of a cycle without a failure. -/
theorem processGrant_calm (hcalm : Calm env files grants w store₀) (hg : grant ∈ grants)
    {s : State V} (hadmitted : (s.store.approvals.get? grant).isSome = true ∨
      w.autoApprove grant = true)
    (hfresh : ∀ a ∈ targets env files grants, a.grant = grant →
      w.newId a ∉ s.store.documents.keys)
    (hfailures : ∀ a ∈ targets env files grants, a.grant = grant →
      givenUp s.failures (a.grant, a.path, a.hash) = false) :
    let s' := (processGrant env w grant s).2
    Proceeds (fun id => ∃ a ∈ targets env files grants, a.grant = grant ∧ id = w.newId a) s s' ∧
      (0 < s'.left → ∀ a ∈ targets env files grants, a.grant = grant → Stored a s'.store) := by
  obtain ⟨m, st, s₁, hm, hfiles, ⟨approvals, deeds, hs₁, hcount⟩, hrun⟩ :=
    processGrant_calm_eq hcalm hg hadmitted
  obtain ⟨new, hpath⟩ := exists_path_processGrant env s (hcalm.grants_eq ▸ hg)
  dsimp only
  rw [hrun] at hpath ⊢
  generalize hingested : ingestedOf s₁.store grant = ingested at hpath ⊢
  generalize hplan : makePlan env m ingested = plan at hpath ⊢
  have hdocs : ∀ {rel : Str} {d : Str × Str}, d ∈ ingested.docs rel →
      d.1 ∈ s.store.documents.keys := by
    intro rel d hd
    rw [← hingested] at hd
    have hkey := mem_keys_of_docs hd
    rw [hs₁] at hkey
    exact hkey
  have hstart : ∀ isNew, Proceeds isNew s s₁ := by
    intro isNew
    rw [hs₁]
    exact ⟨congrArg (· + s.left) hcount, fun _ h => .inl h, fun _ h => h⟩
  obtain ⟨hfail, hshrinks, hclear⟩ := cleared_keeps w grant plan s₁
  have htarget : ∀ t ∈ todoOf m ingested (plan.new ++ plan.changed),
      (⟨grant, t.rel, t.entry.sha256⟩ : Source) ∈ targets env files grants ∧
        (files grant).get? t.rel = some t.entry ∧ env.supported t.rel = true ∧
        ∀ id ∈ t.oldIds, id ∈ s.store.documents.keys := by
    intro t ht
    obtain ⟨hentry, hold, -⟩ := of_mem_todo env (hplan ▸ ht)
    have hsupported := supported_of_mem_todo (hplan ▸ ht)
    refine ⟨mem_targets.2 ⟨hg, hsupported, t.entry, hfiles ▸ hentry, rfl⟩, hfiles ▸ hentry,
      hsupported, fun id hid => ?_⟩
    rw [hold] at hid
    obtain ⟨d, hd, rfl⟩ := List.mem_map.1 hid
    exact hdocs hd
  have hcarry : (carryOut env w grant m ingested plan st s₁).2 = (ingestTodo env w grant
      (todoOf m ingested (plan.new ++ plan.changed))
      { st with removedNow := if w.deleteRemoved grant then plan.removed.length else 0 }
      (cleared w grant plan s₁)).2 := rfl
  rw [hcarry] at hpath ⊢
  have hkeys : ∀ id ∈ (cleared w grant plan s₁).store.documents.keys,
      id ∈ s.store.documents.keys := by
    intro id hid
    have hid₁ := hshrinks.keys hid
    rw [hs₁] at hid₁
    exact hid₁
  have hdistinct : (todoOf m ingested (plan.new ++ plan.changed)).Pairwise fun t t' =>
      w.uuid4 grant t.rel ≠ w.uuid4 grant t'.rel := by
    have hnodup := List.pairwise_map.1 (hplan ▸ nodup_todo env m ingested)
    refine List.Pairwise.imp_of_mem (fun {t t'} ht ht' hne heq => hne ?_) hnodup
    exact congrArg Source.path (hcalm.distinct _ (htarget t ht).1 _ (htarget t' ht').1 heq)
  obtain ⟨hproceeds, -, hall⟩ := ingestTodo_calm env (s := cleared w grant plan s₁)
    (todoOf m ingested (plan.new ++ plan.changed))
    { st with removedNow := if w.deleteRemoved grant then plan.removed.length else 0 }
    (fun t ht => hcalm.ingestible grant hg t.rel t.entry (htarget t ht).2.1 (htarget t ht).2.2.1)
    (hcalm.ingests grant hg) (fun t ht hin => hfresh _ (htarget t ht).1 rfl (hkeys _ hin))
    (fun t ht t' ht' hin => hfresh _ (htarget t ht).1 rfl ((htarget t' ht').2.2.2 _ hin))
    hdistinct (fun t ht => by rw [hfail, hs₁]; exact hfailures _ (htarget t ht).1 rfl)
  refine ⟨((hstart _).trans (hclear _)).trans (hproceeds.mono ?_), fun hpos a ha hgrant => ?_⟩
  · rintro id ⟨t, ht, rfl⟩
    exact ⟨_, (htarget t ht).1, rfl, rfl⟩
  · obtain ⟨g, path, hash⟩ := a
    obtain rfl : grant = g := hgrant.symm
    by_cases hstored : Stored ⟨grant, path, hash⟩ s.store
    · exact hpath.stored (hcalm.listed_iff.2 ha) hstored
    · obtain ⟨-, hsupported, entry, hentry, rfl⟩ := mem_targets.1 ha
      apply hall hpos ⟨path, entry, (ingested.docs path).map Prod.fst⟩
      rw [← hplan]
      apply mem_todo (hfiles.symm ▸ hentry) hsupported
      rintro ⟨id, hash⟩ hd rfl
      rw [← hingested, docs_ingestedOf, hs₁] at hd
      obtain ⟨row, hrow, -, hsource⟩ := mem_rowsOf.1 hd
      exact hstored ⟨row, hrow, hsource⟩

theorem processGrant_approvals {s : State V} (hg : grant ∈ w.grants) {g : Str}
    (happroved : (s.store.approvals.get? g).isSome = true) :
    ((processGrant env w grant s).2.store.approvals.get? g).isSome = true := by
  obtain ⟨new, hpath⟩ := exists_path_processGrant env s hg
  exact (hpath.keeps (I := fun store => (store.approvals.get? g).isSome = true)
    (fun _ _ h => approvals_lawful h) happroved).2

/-- The grants of a cycle without a failure: if the budget is not used up, no file is missing. -/
theorem processGrants_calm (hcalm : Calm env files grants w store₀) (gs : List Str)
    (hgs : ∀ g ∈ gs, g ∈ grants) (hnodup : gs.Nodup) {s : State V}
    (hadmitted : ∀ g ∈ gs, (s.store.approvals.get? g).isSome = true ∨ w.autoApprove g = true)
    (hfresh : ∀ a ∈ targets env files grants, a.grant ∈ gs →
      w.newId a ∉ s.store.documents.keys)
    (hfailures : ∀ a ∈ targets env files grants, a.grant ∈ gs →
      givenUp s.failures (a.grant, a.path, a.hash) = false) :
    let s' := (processGrants env w gs s).2
    Proceeds (fun id => ∃ a ∈ targets env files grants, a.grant ∈ gs ∧ id = w.newId a) s s' ∧
      (0 < s'.left → ∀ a ∈ targets env files grants, a.grant ∈ gs → Stored a s'.store) := by
  induction gs generalizing s with
  | nil => exact ⟨.refl _ s, fun _ _ _ h => absurd h List.not_mem_nil⟩
  | cons g gs ih =>
    obtain ⟨hg, hgs⟩ := List.forall_mem_cons.1 hgs
    obtain ⟨hgadmitted, hadmitted⟩ := List.forall_mem_cons.1 hadmitted
    obtain ⟨hnot, hnodup⟩ := List.nodup_cons.1 hnodup
    obtain ⟨hfirst, hall⟩ := processGrant_calm hcalm hg hgadmitted
      (fun a ha heq => hfresh a ha (heq ▸ List.mem_cons_self))
      (fun a ha heq => hfailures a ha (heq ▸ List.mem_cons_self))
    have hgw : g ∈ w.grants := hcalm.grants_eq ▸ hg
    generalize hs₁ : (processGrant env w g s).2 = s₁ at hfirst hall
    have hfresh₁ : ∀ a ∈ targets env files grants, a.grant ∈ gs →
        w.newId a ∉ s₁.store.documents.keys := by
      intro a ha hmem hin
      rcases hfirst.keys _ hin with hin | ⟨b, hb, hbg, heq⟩
      · exact hfresh a ha (List.mem_cons_of_mem _ hmem) hin
      · obtain rfl := hcalm.distinct a ha b hb heq
        exact hnot (hbg ▸ hmem)
    obtain ⟨hrest, hall'⟩ := ih hgs hnodup (s := s₁)
      (fun g' hg' => (hadmitted g' hg').imp_left fun h =>
        hs₁ ▸ processGrant_approvals hgw h) hfresh₁
      (fun a ha hmem => hfirst.failures _ (hfailures a ha (List.mem_cons_of_mem _ hmem)))
    have hcons : (processGrants env w (g :: gs) s).2 = (processGrants env w gs s₁).2 := by
      rw [← hs₁]
      rfl
    dsimp only
    rw [hcons]
    refine ⟨(hfirst.mono ?_).trans (hrest.mono ?_), fun hpos => ?_⟩
    · rintro id ⟨a, ha, hag, heq⟩
      exact ⟨a, ha, hag ▸ List.mem_cons_self, heq⟩
    · rintro id ⟨a, ha, hag, heq⟩
      exact ⟨a, ha, List.mem_cons_of_mem _ hag, heq⟩
    · have hleft := (within_processGrants (w := w) env gs s₁).2
      obtain ⟨new, -, hpath⟩ := processGrants_leads (A := fun _ => False) (s := s₁) env gs
        (fun g' hg' => hcalm.grants_eq ▸ hgs g' hg') fun _ h => h.elim
      intro a ha hmem
      rcases List.mem_cons.1 hmem with heq | hmem
      · exact hpath.stored (hcalm.listed_iff.2 ha) (hall (hpos.trans_le hleft) a ha heq)
      · exact hall' hpos a ha hmem

end Cycle

/-- **A cycle without a failure takes its budget off the files that are missing**, gives no file up
and keeps the approvals; new documents have the ids that it drew. -/
theorem runCycle_calm {s : State V} (hcalm : Calm env files grants w s.store)
    (hadmitted : ∀ g ∈ grants, (s.store.approvals.get? g).isSome = true ∨ w.autoApprove g = true)
    (hfailures : ∀ a ∈ targets env files grants,
      givenUp s.failures (a.grant, a.path, a.hash) = false) :
    let s' := (runCycle env w s).2
    (missing env files grants s'.store).length ≤
        (missing env files grants s.store).length - w.maxFiles ∧
      (∀ a ∈ targets env files grants, givenUp s'.failures (a.grant, a.path, a.hash) = false) ∧
      (∀ g, (s.store.approvals.get? g).isSome = true →
        (s'.store.approvals.get? g).isSome = true) ∧
      ∀ id ∈ s'.store.documents.keys, id ∈ s.store.documents.keys ∨
        ∃ a ∈ targets env files grants, id = w.newId a := by
  have hpath := path_runCycle env w s
  have hbudget := hpath.missing_add_ingests fun _ => hcalm.listed_iff
  have happrovals := fun g => (hpath.keeps (I := fun store =>
    (store.approvals.get? g).isSome = true) (fun _ _ h => approvals_lawful h))
  obtain ⟨hproceeds, hall⟩ := processGrants_calm hcalm grants (fun _ h => h)
    (hcalm.grants_eq ▸ w.nodup) (s := { s with deeds := [], left := w.maxFiles }) hadmitted
    (fun a ha _ => hcalm.fresh a ha) (fun a ha _ => hfailures a ha)
  have hrun : (runCycle env w s).2 =
      (processGrants env w grants { s with deeds := [], left := w.maxFiles }).2 := by
    unfold runCycle
    rw [hcalm.ready, hcalm.grants_eq]
    rfl
  dsimp only
  refine ⟨?_, ?_, fun g h => (happrovals g h).2, ?_⟩
  · rw [hrun] at hbudget ⊢
    generalize (processGrants env w grants { s with deeds := [], left := w.maxFiles }).2 = s' at *
    have hcount := hproceeds.count
    have hnone : ingests ([] : List (Deed V)) = 0 := rfl
    dsimp only at hcount
    rcases Nat.eq_zero_or_pos s'.left with hzero | hpos
    · omega
    · have hnil : missing env files grants s'.store = [] := by
        apply List.filter_eq_nil_iff.2
        intro a ha
        have hstored := hall hpos a ha (mem_targets.1 ha).1
        simpa using hstored
      rw [hnil]
      exact Nat.zero_le _
  · rw [hrun]
    exact fun a ha => hproceeds.failures _ (hfailures a ha)
  · rw [hrun]
    exact fun id hid => (hproceeds.keys id hid).imp_right fun ⟨a, ha, _, heq⟩ => ⟨a, ha, heq⟩

/-! ## Nothing left to do -/

/-- The plan made from the manifest of the cycle is empty; where documents of removed files are
kept, it may still name those. -/
def Settled (env : Env) (w : World V) (grant : Str) (store : Store V) : Prop :=
  ∀ manifest, loadManifest grant (w.manifestFile grant) = some manifest →
    let plan := makePlan env manifest (ingestedOf store grant)
    plan.new = [] ∧ plan.changed = [] ∧ plan.stale = [] ∧
      (w.deleteRemoved grant = true → plan.removed = [])

theorem sourced_filter {p : DocumentRow → Bool} {rows : List DocumentRow}
    (h : ∀ row ∈ rows, ∀ source, row.source = some source → source.grant = grant →
      p row = true) : sourced grant (rows.filter p) = sourced grant rows := by
  induction rows with
  | nil => rfl
  | cons row rows ih =>
    obtain ⟨hrow, hrows⟩ := List.forall_mem_cons.1 h
    have ih' := ih hrows
    unfold sourced at ih' ⊢
    rw [List.filter_cons, List.filterMap_cons]
    split
    · rw [List.filterMap_cons, ih']
    · rename_i hp
      rw [ih']
      cases hsource : row.source with
      | none => rfl
      | some source =>
        dsimp only
        rw [if_neg fun hg => hp (hrow source hsource hg)]

/-- Deletions that go through. -/
theorem parents_deleteDocs (hdeletes : ∀ id, w.deleteFate id = .passes) (ids : List Str)
    (s : State V) : (deleteDocs w ids s).store.documents.parents =
      s.store.documents.parents.filter fun row => decide (row.id ∉ ids) := by
  induction ids generalizing s with
  | nil => simp [deleteDocs]
  | cons id ids ih =>
    have hcons : deleteDocs w (id :: ids) s = deleteDocs w ids (deleteDocument w id s).2 := rfl
    have hone : (deleteDocument w id s).2.store.documents.parents =
        s.store.documents.parents.filter (·.id ≠ id) := by
      unfold deleteDocument change
      rw [hdeletes]
      rfl
    rw [hcons, ih, hone, List.filter_filter]
    apply List.filter_congr
    intro row _
    simp [Bool.and_comm]

theorem parents_cleared (hdeletes : ∀ id, w.deleteFate id = .passes) (grant : Str) (plan : Plan)
    (s : State V) : (cleared w grant plan s).store.documents.parents =
      s.store.documents.parents.filter fun row => decide (row.id ∉ plan.stale ∧
        (w.deleteRemoved grant = true → row.id ∉ plan.removed.flatMap Prod.snd)) := by
  unfold cleared
  rw [parents_deleteDocs hdeletes]
  split
  · rename_i hremoves
    rw [parents_deleteDocs hdeletes, List.filter_filter]
    apply List.filter_congr
    intro row _
    simp [hremoves]
  · rename_i hkeeps
    apply List.filter_congr
    intro row _
    simp [hkeeps]

/-- Each path that `_ingested` returns has documents. -/
theorem docs_ne_nil {store : Store V} {rel : Str}
    (h : rel ∈ (ingestedOf store grant).items.map Prod.fst) :
    (ingestedOf store grant).docs rel ≠ [] := by
  have hfold : ∀ (l : List (Str × Str × Str)) (out : Ingested),
      (∀ rel docs, out.get? rel = some docs → docs ≠ []) → ∀ rel docs,
      (l.foldl (fun out e => out.set e.1 (out.docs e.1 ++ [e.2])) out).get? rel =
        some docs → docs ≠ [] := by
    intro l
    induction l with
    | nil => exact fun _ h => h
    | cons e l ih =>
      intro out hout
      refine ih _ fun rel docs hget => ?_
      rw [Dict.get?_set] at hget
      split at hget
      · cases hget
        exact List.append_ne_nil_of_right_ne_nil _ (List.cons_ne_nil _ _)
      · exact hout rel docs hget
  obtain ⟨e, he, rfl⟩ := List.mem_map.1 h
  have hget := Dict.get?_eq_some_iff.2 he
  unfold Ingested.docs
  rw [hget]
  exact hfold _ Dict.empty (fun _ _ h => by cases h) e.1 e.2 hget

section Plan

variable {manifest : Manifest} {ingested : Ingested} {rel : Str}

theorem mem_stale {d : Str × Str} {entry : Entry} (hentry : manifest.files.get? rel = some entry)
    (hsupported : env.supported rel = true) (hd : d ∈ ingested.docs rel)
    (hne : d.2 ≠ entry.sha256) (hcurrent : current manifest ingested rel ≠ []) :
    d.1 ∈ (makePlan env manifest ingested).stale := by
  refine List.mem_flatMap.2 ⟨rel, List.mem_filter.2 ⟨List.mem_filter.2 ⟨?_, hsupported⟩, ?_⟩, ?_⟩
  · exact mem_sorted.2 (List.mem_map.2 ⟨_, Dict.get?_eq_some_iff.1 hentry, rfl⟩)
  · exact decide_eq_true ⟨List.ne_nil_of_mem hd, hcurrent⟩
  · refine List.mem_map.2 ⟨d, List.mem_filter.2 ⟨hd, decide_eq_true ?_⟩, rfl⟩
    rw [hentry]
    exact fun heq => hne (Option.some.inj heq)

theorem mem_removed {d : Str × Str} (hcomplete : manifest.complete = true)
    (hfiles : manifest.files.items ≠ []) (hgone : manifest.files.get? rel = none)
    (hd : d ∈ ingested.docs rel) :
    d.1 ∈ (makePlan env manifest ingested).removed.flatMap Prod.snd := by
  have hkey : rel ∈ ingested.items.map Prod.fst := by
    cases hget : ingested.get? rel with
    | none =>
      unfold Ingested.docs at hd
      rw [hget] at hd
      cases hd
    | some docs => exact List.mem_map.2 ⟨_, Dict.get?_eq_some_iff.1 hget, rfl⟩
  refine List.mem_flatMap.2 ⟨(rel, (ingested.docs rel).map Prod.fst), List.mem_map.2 ⟨rel, ?_, rfl⟩,
    List.mem_map_of_mem hd⟩
  rw [if_pos (by simp [hcomplete, hfiles])]
  exact mem_sorted.2 (List.mem_filter.2 ⟨hkey, decide_eq_true hgone⟩)

end Plan

section Cycle

variable {store₀ : Store V}

/-- A grant none of whose files is missing: what is left to do is done, and the documents of other
grants stay. -/
theorem processGrant_settles (hcalm : Calm env files grants w store₀) (hg : grant ∈ grants)
    {s : State V} (hadmitted : (s.store.approvals.get? grant).isSome = true ∨
      w.autoApprove grant = true)
    (hstored : ∀ a ∈ targets env files grants, a.grant = grant → Stored a s.store) :
    let s' := (processGrant env w grant s).2
    Settled env w grant s'.store ∧ ∀ g, g ≠ grant →
      sourced g s'.store.documents.parents = sourced g s.store.documents.parents := by
  obtain ⟨m, st, s₁, hm, hfiles, ⟨approvals, deeds, hs₁, -⟩, hrun⟩ :=
    processGrant_calm_eq hcalm hg hadmitted
  obtain ⟨new, hpath⟩ := exists_path_processGrant env s (hcalm.grants_eq ▸ hg)
  have hsame : s₁.store.documents = s.store.documents := by rw [hs₁]
  generalize hplan : makePlan env m (ingestedOf s₁.store grant) = plan at hrun
  have hnone : todoOf m (ingestedOf s₁.store grant) (plan.new ++ plan.changed) = [] := by
    apply List.eq_nil_iff_forall_not_mem.2
    intro t ht
    obtain ⟨hentry, -, hne⟩ := of_mem_todo env (hplan ▸ ht)
    have hsupported := supported_of_mem_todo (hplan ▸ ht)
    have htarget : (⟨grant, t.rel, t.entry.sha256⟩ : Source) ∈ targets env files grants :=
      mem_targets.2 ⟨hg, hsupported, t.entry, hfiles ▸ hentry, rfl⟩
    obtain ⟨row, hrow, hsource⟩ := hstored _ htarget rfl
    have hmem := mem_rowsOf.2 ⟨row, hsame.symm ▸ hrow, rfl, hsource⟩
    rw [← docs_ingestedOf] at hmem
    exact hne _ hmem rfl
  have hend : (processGrant env w grant s).2 = cleared w grant plan s₁ := by
    rw [hrun]
    unfold carryOut
    dsimp only
    rw [hnone]
    rfl
  have hparents := parents_cleared hcalm.deletes grant plan s₁
  rw [← hend, hsame] at hparents
  dsimp only
  generalize (processGrant env w grant s).2 = s' at hparents hpath
  -- What is deleted are documents of the grant.
  have hours : ∀ row ∈ s.store.documents.parents, ∀ source, row.source = some source →
      source.grant ≠ grant → row.id ∉ plan.stale ∧ row.id ∉ plan.removed.flatMap Prod.snd := by
    intro row hrow source hsource hother
    have hall : ∀ rel hash, (row.id, hash) ∈ (ingestedOf s₁.store grant).docs rel → False := by
      intro rel hash hd
      rw [docs_ingestedOf, hsame] at hd
      obtain ⟨row', hrow', hid, hsource'⟩ := mem_rowsOf.1 hd
      obtain rfl := unique_row hrow hrow' hid.symm
      rw [hsource] at hsource'
      cases hsource'
      exact hother rfl
    constructor
    · intro hin
      obtain ⟨rel, hash, entry, hd, -⟩ := of_mem_stale (hplan ▸ hin)
      exact hall rel hash hd
    · intro hin
      obtain ⟨rel, hash, hd, -⟩ := of_mem_removed (hplan ▸ hin)
      exact hall rel hash hd
  constructor
  · intro manifest hmanifest
    rw [hm] at hmanifest
    cases hmanifest
    -- A document that is left was there before, and was not to be deleted.
    have hleft : ∀ {rel : Str} {d : Str × Str}, d ∈ (ingestedOf s'.store grant).docs rel →
        d ∈ (ingestedOf s₁.store grant).docs rel ∧ d.1 ∉ plan.stale ∧
          (w.deleteRemoved grant = true → d.1 ∉ plan.removed.flatMap Prod.snd) := by
      rintro rel ⟨id, hash⟩ hd
      rw [docs_ingestedOf] at hd
      obtain ⟨row, hrow, rfl, hsource⟩ := mem_rowsOf.1 hd
      rw [hparents, List.mem_filter, decide_eq_true_eq] at hrow
      refine ⟨?_, hrow.2⟩
      rw [docs_ingestedOf, hsame]
      exact mem_rowsOf.2 ⟨row, hrow.1, rfl, hsource⟩
    -- A listed file has its current document.
    have hcurrent : ∀ rel entry, m.files.get? rel = some entry → env.supported rel = true →
        ∃ id, (id, entry.sha256) ∈ (ingestedOf s'.store grant).docs rel := by
      intro rel entry hentry hsupported
      have htarget : (⟨grant, rel, entry.sha256⟩ : Source) ∈ targets env files grants :=
        mem_targets.2 ⟨hg, hsupported, entry, hfiles ▸ hentry, rfl⟩
      obtain ⟨row, hrow, hsource⟩ :=
        hpath.stored (hcalm.listed_iff.2 htarget) (hstored _ htarget rfl)
      refine ⟨row.id, ?_⟩
      rw [docs_ingestedOf]
      exact mem_rowsOf.2 ⟨row, hrow, rfl, hsource⟩
    have hlisted : ∀ rel ∈ (sorted (m.files.items.map Prod.fst)).filter env.supported,
        (ingestedOf s'.store grant).docs rel ≠ [] ∧
          current m (ingestedOf s'.store grant) rel ≠ [] := by
      intro rel hrel
      obtain ⟨hrel, hsupported⟩ := List.mem_filter.1 hrel
      obtain ⟨entry, hentry⟩ := exists_entry hrel
      obtain ⟨id, hd⟩ := hcurrent rel entry hentry hsupported
      refine ⟨List.ne_nil_of_mem hd, List.ne_nil_of_mem (mem_current.2 ⟨hd, ?_⟩)⟩
      rw [hentry]
      rfl
    refine ⟨?_, ?_, ?_, fun hremoves => ?_⟩
    · apply List.filter_eq_nil_iff.2
      intro rel hrel h
      exact (hlisted rel hrel).1 (of_decide_eq_true h)
    · apply List.filter_eq_nil_iff.2
      intro rel hrel h
      exact (hlisted rel hrel).2 (of_decide_eq_true h).2
    · apply List.eq_nil_iff_forall_not_mem.2
      intro id hid
      obtain ⟨rel, hash, entry, hd, hentry, hsupported, hne, id', hd'⟩ :=
        supported_of_mem_stale hid
      obtain ⟨hd₁, hnot, -⟩ := hleft hd
      refine hnot (hplan ▸ mem_stale hentry hsupported hd₁ hne (List.ne_nil_of_mem
        (mem_current.2 ⟨(hleft hd').1, ?_⟩)))
      rw [hentry]
      rfl
    · apply List.eq_nil_iff_forall_not_mem.2
      intro e he
      obtain ⟨rel, hrel, -⟩ := List.mem_map.1 he
      split at hrel
      · rename_i hcomplete
        rw [Bool.and_eq_true, decide_eq_true_eq] at hcomplete
        rw [mem_sorted, List.mem_filter, decide_eq_true_eq] at hrel
        obtain ⟨d, l, hcons⟩ := List.exists_cons_of_ne_nil (docs_ne_nil hrel.1)
        obtain ⟨hd, -, hnot⟩ := hleft (hcons ▸ List.mem_cons_self)
        exact hnot hremoves (hplan ▸ mem_removed hcomplete.1 hcomplete.2 hrel.2 hd)
      · cases hrel
  · intro g hne
    rw [hparents]
    apply sourced_filter
    intro row hrow source hsource hgrant
    obtain ⟨hstale, hremoved⟩ := hours row hrow source hsource (hgrant ▸ hne)
    exact decide_eq_true ⟨hstale, fun _ => hremoved⟩

theorem Settled.congr {a b : Store V} (h : Settled env w grant a)
    (hsame : sourced grant b.documents.parents = sourced grant a.documents.parents) :
    Settled env w grant b := by
  have heq : ingestedOf b grant = ingestedOf a grant := by
    unfold ingestedOf
    rw [hsame]
  unfold Settled
  rw [heq]
  exact h

theorem processGrants_settles (hcalm : Calm env files grants w store₀) {gs : List Str}
    (hgs : ∀ g ∈ gs, g ∈ grants) (hnodup : gs.Nodup) {s : State V}
    (hadmitted : ∀ g ∈ gs, (s.store.approvals.get? g).isSome = true ∨ w.autoApprove g = true)
    (hstored : ∀ a ∈ targets env files grants, Stored a s.store) :
    let s' := (processGrants env w gs s).2
    (∀ g ∈ gs, Settled env w g s'.store) ∧ ∀ g, g ∉ gs →
      sourced g s'.store.documents.parents = sourced g s.store.documents.parents := by
  induction gs generalizing s with
  | nil => exact ⟨fun _ h => absurd h List.not_mem_nil, fun _ _ => rfl⟩
  | cons g gs ih =>
    obtain ⟨hg, hgs⟩ := List.forall_mem_cons.1 hgs
    obtain ⟨hgadmitted, hadmitted⟩ := List.forall_mem_cons.1 hadmitted
    obtain ⟨hnot, hnodup⟩ := List.nodup_cons.1 hnodup
    have hgw : g ∈ w.grants := hcalm.grants_eq ▸ hg
    obtain ⟨hsettled, hothers⟩ :=
      processGrant_settles hcalm hg hgadmitted fun a ha _ => hstored a ha
    obtain ⟨new, hpath⟩ := exists_path_processGrant env s hgw
    obtain ⟨hrest, hsame⟩ := ih hgs hnodup (s := (processGrant env w g s).2)
      (fun g' hg' => (hadmitted g' hg').imp_left fun h => processGrant_approvals hgw h)
      fun a ha => hpath.stored (hcalm.listed_iff.2 ha) (hstored a ha)
    refine ⟨List.forall_mem_cons.2 ⟨hsettled.congr (hsame g hnot), hrest⟩, fun g' hg' => ?_⟩
    rw [List.mem_cons, not_or] at hg'
    obtain ⟨hne, hnot'⟩ := hg'
    exact (hsame g' hnot').trans (hothers g' hne)

end Cycle

/-- A cycle without a failure, when no file is missing, leaves an empty plan. -/
theorem runCycle_settles {s : State V} (hcalm : Calm env files grants w s.store)
    (hadmitted : ∀ g ∈ grants, (s.store.approvals.get? g).isSome = true ∨ w.autoApprove g = true)
    (hnone : missing env files grants s.store = []) :
    ∀ g ∈ grants, Settled env w g (runCycle env w s).2.store := by
  have hstored : ∀ a ∈ targets env files grants, Stored a s.store := by
    intro a ha
    have hnot := List.filter_eq_nil_iff.1 hnone a ha
    simpa using hnot
  have hrun : (runCycle env w s).2 =
      (processGrants env w grants { s with deeds := [], left := w.maxFiles }).2 := by
    unfold runCycle
    rw [hcalm.ready, hcalm.grants_eq]
    rfl
  rw [hrun]
  exact (processGrants_settles hcalm (fun _ h => h) (hcalm.grants_eq ▸ w.nodup)
    (s := { s with deeds := [], left := w.maxFiles }) hadmitted hstored).1

/-- The documents of a path with a given hash. -/
theorem copies_eq_countP (store : Store V) (grant rel hash : Str) :
    copies ⟨grant, rel, hash⟩ store =
      ((ingestedOf store grant).docs rel).countP fun d => d.2 = hash := by
  rw [docs_ingestedOf]
  unfold copies rowsOf sourced
  generalize store.documents.parents = rows
  induction rows with
  | nil => rfl
  | cons row rows ih =>
    rw [List.countP_cons, ih, List.filterMap_cons]
    cases hsource : row.source with
    | none => simp
    | some source =>
      obtain ⟨g, path, h⟩ := source
      by_cases hg : g = grant
      · by_cases hpath : path = rel
        · simp [hg, hpath, List.countP_cons]
        · simp [hg, hpath]
      · simp [hg]

/-- A path whose plan is empty has a document, and every document of it has the current hash. -/
theorem Settled.docs {store : Store V} {manifest : Manifest} {rel : Str} {entry : Entry}
    (h : Settled env w grant store)
    (hmanifest : loadManifest grant (w.manifestFile grant) = some manifest)
    (hentry : manifest.files.get? rel = some entry) (hsupported : env.supported rel = true) :
    (ingestedOf store grant).docs rel ≠ [] ∧
      ∀ d ∈ (ingestedOf store grant).docs rel, d.2 = entry.sha256 := by
  obtain ⟨hnew, hchanged, hstale, -⟩ := h manifest hmanifest
  have hcurrent : ∃ d ∈ (ingestedOf store grant).docs rel, d.2 = entry.sha256 := by
    by_contra hnone
    push Not at hnone
    have ht := mem_todo hentry hsupported hnone
    rw [hnew, hchanged] at ht
    exact absurd ht List.not_mem_nil
  obtain ⟨d', hd', heq⟩ := hcurrent
  refine ⟨List.ne_nil_of_mem hd', fun d hd => ?_⟩
  by_contra hne
  have hmem := mem_stale hentry hsupported hd hne (List.ne_nil_of_mem
    (mem_current.2 ⟨hd', by rw [hentry, heq]; rfl⟩))
  rw [hstale] at hmem
  exact absurd hmem List.not_mem_nil

/-! ## Runs -/

theorem calmRun_append {ws us : List (World V)} {s : State V} :
    CalmRun env files grants (ws ++ us) s ↔ CalmRun env files grants ws s ∧
      CalmRun env files grants us (after env s (ws.map .cycle)) := by
  induction ws generalizing s with
  | nil => exact ⟨fun h => ⟨trivial, h⟩, fun h => h.2⟩
  | cons w ws ih => exact (and_congr_right fun _ => ih).trans and_assoc.symm

/-- What a run of cycles without failures does to the files that are missing, the approvals and the
documents of each file. -/
theorem after_calm {ws : List (World V)} {s : State V} (hcalm : CalmRun env files grants ws s)
    (hadmitted : ∀ w ∈ ws, ∀ g ∈ grants,
      (s.store.approvals.get? g).isSome = true ∨ w.autoApprove g = true)
    (hfailures : ∀ a ∈ targets env files grants,
      givenUp s.failures (a.grant, a.path, a.hash) = false) :
    let s' := after env s (ws.map .cycle)
    (missing env files grants s'.store).length ≤
        (missing env files grants s.store).length - (ws.map World.maxFiles).sum ∧
      (∀ g, (s.store.approvals.get? g).isSome = true →
        (s'.store.approvals.get? g).isSome = true) ∧
      ∀ a ∈ targets env files grants, copies a s'.store = copies a s.store ∨
        (copies a s.store = 0 ∧ copies a s'.store = 1) := by
  induction ws generalizing s with
  | nil => exact ⟨le_refl _, fun _ h => h, fun _ _ => .inl rfl⟩
  | cons w ws ih =>
    obtain ⟨hfirst, hrest⟩ := hcalm
    obtain ⟨hnow, hlater⟩ := List.forall_mem_cons.1 hadmitted
    obtain ⟨hmissing, hfailures₁, happrovals, -⟩ := runCycle_calm hfirst hnow hfailures
    have hpath := path_runCycle env w s
    obtain ⟨hmissing', happrovals', hcopies'⟩ := ih (s := (runCycle env w s).2) hrest
      (fun w' hw' g hg => (hlater w' hw' g hg).imp_left (happrovals g)) hfailures₁
    refine ⟨?_, fun g hg => happrovals' g (happrovals g hg), fun a ha => ?_⟩
    · have hsum : ((w :: ws).map World.maxFiles).sum =
          w.maxFiles + (ws.map World.maxFiles).sum := List.sum_cons
      rw [hsum, ← Nat.sub_sub]
      exact hmissing'.trans (Nat.sub_le_sub_right hmissing _)
    · have hone := hpath.copies (hfirst.listed_iff.2 ha)
      rcases hcopies' a ha with hmore | ⟨hzero, hmore⟩
      · exact hone.imp hmore.trans (And.imp_right hmore.trans)
      · exact .inr ⟨by omega, hmore⟩

/-- **Cycles without failures come to an end.** As soon as the cycles before the last one had the
budget for the files that were missing, the last one leaves an empty plan, and every file its
current document: one, unless more of that hash were stored at the beginning. -/
theorem cycles_converge {ws : List (World V)} {s : State V}
    (hcalm : CalmRun env files grants (ws ++ [w]) s)
    (hadmitted : ∀ w' ∈ ws ++ [w], ∀ g ∈ grants,
      (s.store.approvals.get? g).isSome = true ∨ w'.autoApprove g = true)
    (hfailures : ∀ a ∈ targets env files grants,
      givenUp s.failures (a.grant, a.path, a.hash) = false)
    (hlong : (missing env files grants s.store).length ≤ (ws.map World.maxFiles).sum) :
    let s' := after env s ((ws ++ [w]).map .cycle)
    (∀ g ∈ grants, Settled env w g s'.store) ∧ ∀ a ∈ targets env files grants,
      let docs := (ingestedOf s'.store a.grant).docs a.path
      (∀ d ∈ docs, d.2 = a.hash) ∧ docs.length = max 1 (copies a s.store) := by
  obtain ⟨hbefore, hlast, -⟩ := calmRun_append.1 hcalm
  obtain ⟨hmissing, happrovals, -⟩ := after_calm hbefore
    (fun w' hw' => hadmitted w' (List.mem_append_left _ hw')) hfailures
  obtain ⟨-, -, hcopies⟩ := after_calm hcalm hadmitted hfailures
  have hafter : after env s ((ws ++ [w]).map .cycle) =
      (runCycle env w (after env s (ws.map .cycle))).2 := by
    unfold after
    rw [List.map_append, List.foldl_append]
    rfl
  have hnone : missing env files grants (after env s (ws.map .cycle)).store = [] := by
    apply List.eq_nil_of_length_eq_zero
    omega
  have hsettled := runCycle_settles hlast (fun g hg =>
    (hadmitted w List.mem_concat_self g hg).imp_left (happrovals g)) hnone
  rw [← hafter] at hsettled
  refine ⟨hsettled, fun a ha => ?_⟩
  obtain ⟨hg, hsupported, entry, hentry, hhash⟩ := mem_targets.1 ha
  obtain ⟨m, hm, hfiles, -⟩ := hlast.manifest a.grant hg
  obtain ⟨hne, hall⟩ := (hsettled a.grant hg).docs hm (hfiles.symm ▸ hentry) hsupported
  rw [hhash] at hall
  refine ⟨hall, ?_⟩
  have hlength : copies a (after env s ((ws ++ [w]).map .cycle)).store =
      ((ingestedOf (after env s ((ws ++ [w]).map .cycle)).store a.grant).docs a.path).length := by
    have hcount := copies_eq_countP
      (after env s ((ws ++ [w]).map .cycle)).store a.grant a.path a.hash
    exact hcount.trans (List.countP_eq_length.2 fun d hd => decide_eq_true (hall d hd))
  have hpos := List.length_pos_of_ne_nil hne
  have hcases := hcopies a ha
  omega

end

/-! ## Any history -/

/-- **Folder ingestion is safe and converges.** After any history a cycle is lawful, deed after
deed, and ingests no more than its budget; and cycles without failures, once they had the budget for
the files that are missing, leave empty plans, and every file its current documents. -/
theorem folder_ingest_safe_and_convergent (env : Env) (s : State V)
    (history : List (Happening V)) :
    let s' := after env s history
    (∀ w : World V, let done := (runCycle env w s').2
      Path (Lawful (fun g => Approved g s.store) env w) s'.store done.deeds done.store ∧
        ingests done.deeds ≤ w.maxFiles) ∧
    ∀ (files : Str → Dict Str Entry) (grants : List Str) (ws : List (World V)) (w : World V),
      CalmRun env files grants (ws ++ [w]) s' →
      (∀ w' ∈ ws ++ [w], ∀ g ∈ grants,
        (s'.store.approvals.get? g).isSome = true ∨ w'.autoApprove g = true) →
      (∀ a ∈ targets env files grants, givenUp s'.failures (a.grant, a.path, a.hash) = false) →
      (missing env files grants s'.store).length ≤ (ws.map World.maxFiles).sum →
      let done := after env s' ((ws ++ [w]).map .cycle)
      (∀ g ∈ grants, Settled env w g done.store) ∧ ∀ a ∈ targets env files grants,
        let docs := (ingestedOf done.store a.grant).docs a.path
        (∀ d ∈ docs, d.2 = a.hash) ∧ docs.length = max 1 (copies a s'.store) :=
  ⟨cycle_lawful env s history, fun _ _ _ _ hcalm hadmitted hfailures hlong =>
    cycles_converge hcalm hadmitted hfailures hlong⟩

/-! ### One file -/

namespace Sample

def sha : Str := List.replicate 64 'a'

/-- One extension, one hash, and one text. -/
def env (text : Str) : Env := ⟨.ascii, [".md".toList], fun _ => sha, fun _ _ => some text⟩

def grant : Str := ['g']

def source : Source := ⟨grant, "a.md".toList, sha⟩

def files : Str → Dict Str Entry := fun _ => Dict.empty.set "a.md".toList ⟨1, sha⟩

/-- The file of the manifest. -/
def manifestFile : Json := .obj [("grant".toList, .str grant), ("files".toList, .arr
  [.obj [("path".toList, .str "a.md".toList), ("size".toList, .int 1),
    ("sha256".toList, .str sha)]])]

def manifest : Manifest := ⟨grant, 0, files grant, 0, false, 0, 0⟩

/-- A cycle in which every statement goes through; it draws ids of `i + 1` characters. -/
def world (embedText : Chunk → Option Unit) (i : ℕ) : World Unit where
  ready := true
  maxFilesEnv := none
  deleteRemoved _ := true
  autoApprove _ := true
  grants := [grant]
  nodup := List.nodup_singleton _
  manifestFile _ := some manifestFile
  now _ := 0
  staged _ _ := some [65]
  embedText _ _ := embedText
  uuid4 _ _ := List.replicate (i + 1) 'u'
  ingestedFate _ := .passes
  approvedFate _ := .passes
  approveFate _ := .passes
  ingestFate _ _ := .passes
  deleteFate _ := .passes

/-- Two documents of the file are stored. -/
def twice : State Unit where
  store := ⟨⟨[⟨['1'], ['n'], some source⟩, ⟨['2'], ['n'], some source⟩], [], by decide, nofun⟩,
    Dict.empty.set grant 1⟩
  failures := Dict.empty
  left := 0
  deeds := []

variable {text : Str} {embedText : Chunk → Option Unit}

theorem targets_eq (text : Str) : targets (env text) files [grant] = [source] := by
  have hsupported : ∀ rel, (env text).supported rel = (env []).supported rel := fun _ => rfl
  unfold targets
  simp only [hsupported]
  decide

theorem calm_world (hembed : ∃ chunk ∈ chunksOf text, (embedText chunk).isSome = true) {i : ℕ}
    {store : Store Unit} (hkeys : ∀ id ∈ store.documents.keys, id.length ≤ i) :
    Calm (env text) files [grant] (world embedText i) store where
  ready := rfl
  grants_eq := rfl
  manifest g hg := by
    rw [List.mem_singleton.1 hg]
    refine ⟨manifest, rfl, rfl, ?_⟩
    change (0 : ℤ) - 0 ≤ MAX_MANIFEST_AGE
    decide
  reads _ _ := ⟨rfl, rfl, rfl⟩
  ingests _ _ _ := rfl
  deletes _ := rfl
  ingestible g _ rel entry hentry _ := by
    rw [files, Dict.get?_set] at hentry
    split at hentry
    · cases hentry
      exact ⟨[65], text, rfl, rfl, hembed⟩
    · cases hentry
  distinct a ha b hb _ := by
    rw [targets_eq, List.mem_singleton] at ha hb
    rw [ha, hb]
  fresh a _ hin := by
    have hlength := hkeys _ hin
    rw [World.newId, world, List.length_replicate] at hlength
    omega

/-- Any number of cycles, one after another. -/
theorem calmRun_worlds (hembed : ∃ chunk ∈ chunksOf text, (embedText chunk).isSome = true)
    (n i : ℕ) {s : State Unit} (hkeys : ∀ id ∈ s.store.documents.keys, id.length ≤ i)
    (hfailures : givenUp s.failures (source.grant, source.path, source.hash) = false) :
    CalmRun (env text) files [grant] ((List.range' i n).map (world embedText)) s := by
  induction n generalizing i s with
  | zero => trivial
  | succ n ih =>
    have hcalm := calm_world hembed hkeys
    obtain ⟨-, hfailures', -, hkeys'⟩ := runCycle_calm hcalm (fun _ _ => .inr rfl) fun a ha => by
      rw [targets_eq, List.mem_singleton] at ha
      rwa [ha]
    refine ⟨hcalm, ih (i + 1) (fun id hid => ?_) (hfailures' source ?_)⟩
    · rcases hkeys' id hid with hid | ⟨a, -, rfl⟩
      · exact Nat.le_succ_of_le (hkeys id hid)
      · rw [World.newId, world, List.length_replicate]
    · rw [targets_eq]
      exact List.mem_singleton_self _

end Sample

section Sample

open Sample

/-- The chunks of a short text, all embedded. -/
theorem embeds_short : ∃ chunk ∈ chunksOf ['x'], (some () : Option Unit).isSome = true := by
  obtain ⟨chunk, hchunk⟩ := List.exists_mem_of_ne_nil (chunksOf ['x']) (by decide)
  exact ⟨chunk, hchunk, rfl⟩

/-- Two cycles without failures, the first of which ingests the file. -/
theorem folder_ingest_one_file :
    let worlds := [world (fun _ => some ()) 0, world (fun _ => some ()) 1]
    let done := after (env ['x']) .initial (worlds.map .cycle)
    Settled (env ['x']) (world (fun _ => some ()) 1) grant done.store ∧
      ((ingestedOf done.store grant).docs source.path).length = 1 := by
  have hcalm := calmRun_worlds embeds_short 2 0 (s := .initial)
    (fun _ h => absurd h List.not_mem_nil) rfl
  obtain ⟨hsettled, hdocs⟩ := (folder_ingest_safe_and_convergent (env ['x']) .initial []).2
    files [grant] [world (fun _ => some ()) 0] (world (fun _ => some ()) 1) hcalm
    (fun w' hw' _ _ => .inr (by
      rcases List.mem_pair.1 hw' with rfl | rfl
      · rfl
      · rfl))
    (fun _ _ => rfl) (by decide)
  refine ⟨hsettled _ List.mem_cons_self, ?_⟩
  have hsource : source ∈ targets (env ['x']) files [grant] := by
    rw [targets_eq]
    exact List.mem_singleton_self _
  exact (hdocs source hsource).2

/-- Two documents of a file with its current hash are never reduced to one: the cycles are
calm however many there are, and none of them leaves a single document. -/
theorem folder_ingest_keeps_duplicates : ¬ ∃ n,
    let worlds := (List.range' 1 n).map (world fun _ => some ())
    CalmRun (env ['x']) files [grant] worlds twice →
      let done := after (env ['x']) twice (worlds.map .cycle)
      ((ingestedOf done.store grant).docs source.path).length = 1 := by
  rintro ⟨n, hfails⟩
  have hcalm := calmRun_worlds embeds_short n 1 (s := twice)
    (by
      intro id hid
      rcases List.mem_pair.1 hid with rfl | rfl
      · decide
      · decide) rfl
  obtain ⟨-, -, hcopies⟩ := after_calm hcalm (fun w hw _ _ => .inr (by
    obtain ⟨i, -, rfl⟩ := List.mem_map.1 hw
    rfl)) fun _ _ => rfl
  have htwo : copies source twice.store = 2 := by decide
  have hkept := hcopies source (by rw [targets_eq]; exact List.mem_singleton_self _)
  rw [htwo] at hkept
  have hone := hfails hcalm
  have hle := List.countP_le_length (p := fun d : Str × Str => d.2 = source.hash)
    (l := (ingestedOf (after (env ['x']) twice
      (((List.range' 1 n).map (world fun _ => some ())).map .cycle)).store grant).docs
      source.path)
  rw [hone, ← copies_eq_countP] at hle
  have hkept' := hkept.resolve_right fun h => absurd h.1 (by decide)
  exact absurd (hkept'.symm.le.trans hle) (by decide)

end Sample

end RagLeap.FolderIngest
