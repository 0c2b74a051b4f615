import RagLeap.Core.FolderConverge

/-!
# What the document of a file contains

A path is up to date when a document with the hash of its file is stored. `Traced` says where such a
document comes from: one cycle read a file of that hash, extracted its text, and stored the chunks
that were embedded, at least one. `traced_after` keeps this over any history; a chunk whose
embedding failed stays missing while the path counts as up to date.
-/

namespace RagLeap.FolderIngest

variable {V : Type}

/-- The cycles of a history. -/
def worldsOf (history : List (Happening V)) : List (World V) :=
  history.filterMap fun
    | .cycle w | .killed w _ => some w
    | _ => none

/-- The document holds the chunks of its file's text that were embedded in one of the cycles. -/
def Traced (env : Env) (worlds : List (World V)) (store : Store V) : Prop :=
  ∀ row ∈ store.documents.parents, ∀ source, row.source = some source →
    ∃ w ∈ worlds, ∃ raw text, env.sha256 raw = source.hash ∧
      env.extractText source.path raw = some text ∧
      (store.documents.version row.id).2 =
        chunkRows (w.embedText source.grant source.path) row.id row.filename (chunksOf text) ∧
      (store.documents.version row.id).2 ≠ []

section

variable {A : Str → Prop} {env : Env} {worlds worlds' : List (World V)} {w : World V}

/-- What is stored under an id after a new document went in. -/
theorem version_insertRows {row : DocumentRow} {rows : List (ChunkRow V)} {t t' : Documents V}
    (h : insertRows row rows t = some t') (hrows : ∀ r ∈ rows, r.documentId = row.id) (id : Str) :
    (t'.version id).2 = if id = row.id then rows else (t.version id).2 := by
  obtain ⟨hfresh, -, hchildren⟩ := insertRows_eq h
  have hold := congrArg Prod.snd (Tables.version_eq_of_not_mem hfresh)
  unfold Tables.version at hold ⊢
  dsimp only at hold ⊢
  rw [hchildren, List.filter_append]
  split
  · rename_i hid
    rw [hid, hold, List.nil_append]
    exact List.filter_eq_self.2 fun r hr => decide_eq_true (hrows r hr)
  · rename_i hid
    have hnone : rows.filter (fun r => decide (r.documentId = id)) = [] := by
      apply List.filter_eq_nil_iff.2
      intro r hr heq
      exact hid ((of_decide_eq_true heq).symm.trans (hrows r hr))
    rw [hnone, List.append_nil]

/-- Deleting a document leaves the others as they are. -/
theorem traced_delete {store : Store V} (h : Traced env worlds store) (id : Str) :
    Traced env worlds (store.delete id) := by
  intro row hrow source hsource
  have hin := (shrinks_delete store (List.mem_singleton_self id)).subset hrow
  have hne : row.id ≠ id := by
    intro hid
    rw [mem_version, version_delete, if_pos hid] at hrow
    cases hrow
  rw [version_delete, if_neg hne]
  exact h row hin source hsource

/-- A document that goes in leaves the others as they are. -/
theorem traced_insert {store : Store V} (store' : Store V) {row : DocumentRow}
    {rows : List (ChunkRow V)} (h : Traced env worlds store)
    (hinsert : insertRows row rows store.documents = some store'.documents)
    (hrows : ∀ r ∈ rows, r.documentId = row.id)
    (hnew : ∀ source, row.source = some source → ∃ w ∈ worlds, ∃ raw text,
      env.sha256 raw = source.hash ∧ env.extractText source.path raw = some text ∧
      rows = chunkRows (w.embedText source.grant source.path) row.id row.filename
        (chunksOf text) ∧ rows ≠ []) : Traced env worlds store' := by
  intro row' hrow' source hsource
  rw [version_insertRows hinsert hrows]
  rw [(insertRows_eq hinsert).2.1] at hrow'
  rcases List.mem_append.1 hrow' with hold | hin
  · have hne : row'.id ≠ row.id := fun hid =>
      (insertRows_eq hinsert).1 (hid ▸ List.mem_map_of_mem hold)
    rw [if_neg hne]
    exact h row' hold source hsource
  · obtain rfl := List.mem_singleton.1 hin
    rw [if_pos rfl]
    exact hnew source hsource

/-- A step of a cycle. -/
theorem traced_lawful {d : Deed V} {store : Store V} (h : Lawful A env w d store)
    (hw : w ∈ worlds) (htraced : Traced env worlds d.before) : Traced env worlds store := by
  cases d with
  | deleted id before =>
    obtain ⟨rfl, -⟩ := h
    exact traced_delete htraced id
  | ingested source before =>
    obtain ⟨⟨raw, text, hsha, htext, row, rows, -, hsource, hrows, hne, hinsert, -⟩, -⟩ := h
    have hids : ∀ r ∈ rows, r.documentId = row.id := hrows ▸ documentId_chunkRows
    refine traced_insert _ htraced hinsert hids fun source' hsource' => ?_
    rw [hsource] at hsource'
    cases hsource'
    exact ⟨w, hw, raw, text, hsha, htext, hrows, hne⟩
  | approved g before =>
    intro row hrow source hsource
    rw [h.1] at hrow ⊢
    exact htraced row hrow source hsource

variable (env) in
theorem traced_runCycle {s : State V} (hw : w ∈ worlds) (htraced : Traced env worlds s.store) :
    (∀ d ∈ (runCycle env w s).2.deeds, Traced env worlds d.before) ∧
      Traced env worlds (runCycle env w s).2.store := by
  obtain ⟨hall, hend⟩ := (path_runCycle env w s).keeps (I := Traced env worlds)
    (fun _ _ h => traced_lawful h hw) htraced
  exact ⟨fun d hd => (hall d hd).1, hend⟩

/-- Whatever happens, the documents of folders stay traced to the cycles. -/
theorem traced_happen {s : State V} {h : Happening V} (hsub : ∀ w ∈ worldsOf [h], w ∈ worlds)
    (htraced : Traced env worlds s.store) : Traced env worlds (happen env s h).store := by
  cases h with
  | cycle w => exact (traced_runCycle env (hsub w List.mem_cons_self) htraced).2
  | killed w n =>
    obtain ⟨hall, hend⟩ := traced_runCycle env (hsub w List.mem_cons_self) htraced
    unfold happen
    dsimp only
    rw [List.getD_eq_getElem?_getD]
    cases hd : ((runCycle env w s).2.deeds.map Deed.before)[n]? with
    | none => exact hend
    | some before =>
      obtain ⟨d, hmem, rfl⟩ := List.mem_map.1 (List.mem_of_getElem? hd)
      exact hall d hmem
  | approve g files => exact htraced
  | upload id filename text embedText =>
    unfold happen
    dsimp only
    rcases upload_cases s.store id filename text embedText with heq | ⟨documents, hinsert, heq⟩
    · rw [heq]
      exact htraced
    · rw [heq]
      refine traced_insert { s.store with documents } htraced hinsert
        documentId_chunkRows fun source hsource => ?_
      cases hsource
  | delete id => exact traced_delete htraced id

variable (env) in
theorem traced_after {s : State V} (history : List (Happening V))
    (hsub : ∀ w ∈ worldsOf history, w ∈ worlds) (htraced : Traced env worlds s.store) :
    Traced env worlds (after env s history).store := by
  induction history generalizing s with
  | nil => exact htraced
  | cons h history ih =>
    have hcons : worldsOf (h :: history) = worldsOf [h] ++ worldsOf history := by
      unfold worldsOf
      rw [← List.filterMap_append]
      rfl
    rw [hcons] at hsub
    exact ih (fun w hw => hsub w (List.mem_append_right _ hw))
      (traced_happen (fun w hw => hsub w (List.mem_append_left _ hw)) htraced)

end

/-- **An up-to-date path has the chunks that were embedded.** After any history, if a plan takes a
path for up to date, each document that this relies on was stored by one cycle, from a file with the
hash of the manifest, with the chunks of its text whose embedding succeeded then, and no others. -/
theorem up_to_date_has_embedded_chunks (env : Env) (history : List (Happening V)) (grant : Str)
    (manifest : Manifest) (rel : Str) (entry : Entry)
    (hentry : manifest.files.get? rel = some entry) :
    let store := (after env .initial history).store
    ∀ d ∈ current manifest (ingestedOf store grant) rel,
      ∃ w ∈ worldsOf history, ∃ raw text filename, env.sha256 raw = entry.sha256 ∧
        env.extractText rel raw = some text ∧
        store.documents.children.filter (fun r => r.documentId = d.1) =
          chunkRows (w.embedText grant rel) d.1 filename (chunksOf text) ∧
        ∃ chunk ∈ chunksOf text, (w.embedText grant rel chunk).isSome = true := by
  have htraced := traced_after env (s := .initial) history (fun _ h => h) fun _ h =>
    absurd h List.not_mem_nil
  rintro store ⟨id, hash⟩ hd
  rw [mem_current, docs_ingestedOf, hentry] at hd
  obtain ⟨row, hrow, rfl, hsource⟩ := mem_rowsOf.1 hd.1
  obtain ⟨w, hw, raw, text, hsha, htext, hrows, hne⟩ := htraced row hrow _ hsource
  refine ⟨w, hw, raw, text, row.filename, hsha.trans (Option.some.inj hd.2), htext, hrows, ?_⟩
  rw [hrows] at hne
  obtain ⟨r, l, hcons⟩ := List.exists_cons_of_ne_nil hne
  have hmem : r ∈ chunkRows (w.embedText grant rel) row.id row.filename (chunksOf text) :=
    hcons ▸ List.mem_cons_self
  obtain ⟨chunk, hchunk, hembed⟩ := List.mem_filterMap.1 hmem
  obtain ⟨v, hv, -⟩ := Option.map_eq_some_iff.1 hembed
  exact ⟨chunk, hchunk, Option.isSome_iff_exists.2 ⟨v, hv⟩⟩

section Sample

open Sample

/-- A text of two chunks. -/
def longText : Str := (List.replicate 513 ['x', ' ']).flatten

/-- The embedding of the second chunk fails. -/
def embedFirst (chunk : Chunk) : Option Unit := if chunk.chunkIndex = 0 then some () else none

/-- The document of the file after one cycle. -/
theorem stored_longText : Stored source
    (after (env longText) .initial [.cycle (world embedFirst 0)]).store := by
  have hembed : ∃ chunk ∈ chunksOf longText, (embedFirst chunk).isSome = true := by
    decide +kernel
  have hcalm : Calm (env longText) files [grant] (world embedFirst 0) State.initial.store :=
    calm_world hembed fun _ h => absurd h List.not_mem_nil
  obtain ⟨hmissing, -⟩ := runCycle_calm (s := .initial) hcalm (fun _ _ => .inr rfl) fun _ _ => rfl
  have htarget : source ∈ targets (env longText) files [grant] := by
    rw [targets_eq]
    exact List.mem_singleton_self _
  have hnone : missing (env longText) files [grant]
      (runCycle (env longText) (world embedFirst 0) .initial).2.store = [] := by
    apply List.eq_nil_of_length_eq_zero
    have hbudget : (world embedFirst 0).maxFiles = 50 := by decide
    have hone : (missing (env longText) files [grant]
        (State.initial (V := Unit)).store).length ≤ 1 := by
      refine (List.length_filter_le _ _).trans ?_
      rw [targets_eq]
      exact le_refl _
    omega
  have hnot := List.filter_eq_nil_iff.1 hnone source htarget
  have hstored : Stored source
      (runCycle (env longText) (world embedFirst 0) .initial).2.store := by simpa using hnot
  exact hstored

/-- The file is up to date after one cycle, with the first of its two chunks. -/
theorem up_to_date_first_chunk :
    let store := (after (env longText) .initial [.cycle (world embedFirst 0)]).store
    ∃ d ∈ current manifest (ingestedOf store grant) source.path, ∃ text,
      ∃ chunk ∈ chunksOf text, ∃ r ∈ store.documents.children, r.documentId = d.1 ∧
        r.text = chunk.text := by
  obtain ⟨row, hrow, hsource⟩ := stored_longText
  have hcurrent : (row.id, sha) ∈ current manifest (ingestedOf
      (after (env longText) .initial [.cycle (world embedFirst 0)]).store grant) source.path := by
    rw [mem_current, docs_ingestedOf]
    exact ⟨mem_rowsOf.2 ⟨row, hrow, rfl, hsource⟩, rfl⟩
  obtain ⟨w, hw, raw, text, filename, -, -, hrows, chunk, hchunk, hembed⟩ :=
    up_to_date_has_embedded_chunks (env longText) [.cycle (world embedFirst 0)] grant manifest
      source.path ⟨1, sha⟩ rfl _ hcurrent
  obtain ⟨v, hv⟩ := Option.isSome_iff_exists.1 hembed
  have hr : (⟨row.id, filename, chunk.chunkIndex, chunk.text, chunk.tokenCount, v⟩ :
      ChunkRow Unit) ∈ chunkRows (w.embedText grant source.path) row.id filename
        (chunksOf text) := List.mem_filterMap.2 ⟨chunk, hchunk, by rw [hv]; rfl⟩
  rw [← hrows] at hr
  exact ⟨_, hcurrent, text, chunk, hchunk, _, (List.mem_filter.1 hr).1, rfl, rfl⟩

/-- The second chunk of the file's text is not stored although the file is up to date. -/
theorem up_to_date_without_chunk :
    let store := (after (env longText) .initial [.cycle (world embedFirst 0)]).store
    (∀ raw, (env longText).extractText source.path raw = some longText) ∧
    ∃ d ∈ current manifest (ingestedOf store grant) source.path,
      ∃ chunk ∈ chunksOf longText, ∀ r ∈ store.documents.children, r.documentId = d.1 →
        r.chunkIndex ≠ chunk.chunkIndex := by
  refine ⟨fun _ => rfl, ?_⟩
  obtain ⟨row, hrow, hsource⟩ := stored_longText
  have hcurrent : (row.id, sha) ∈ current manifest (ingestedOf
      (after (env longText) .initial [.cycle (world embedFirst 0)]).store grant) source.path := by
    rw [mem_current, docs_ingestedOf]
    exact ⟨mem_rowsOf.2 ⟨row, hrow, rfl, hsource⟩, rfl⟩
  have hsecond : ∃ chunk ∈ chunksOf longText, chunk.chunkIndex = 1 := by decide +kernel
  obtain ⟨chunk, hchunk, hindex⟩ := hsecond
  refine ⟨_, hcurrent, chunk, hchunk, fun r hr hid heq => ?_⟩
  have htraced := traced_after (env longText) (s := .initial)
    [.cycle (world embedFirst 0)] (fun _ h => h) fun _ h => absurd h List.not_mem_nil
  obtain ⟨w, hw, raw, text, -, -, hrows, -⟩ := htraced row hrow _ hsource
  have hmem : r ∈ ((after (env longText) .initial
      [.cycle (world embedFirst 0)]).store.documents.version row.id).2 :=
    List.mem_filter.2 ⟨hr, decide_eq_true hid⟩
  rw [hrows] at hmem
  obtain ⟨c, -, hc⟩ := List.mem_filterMap.1 hmem
  obtain ⟨v, hv, rfl⟩ := Option.map_eq_some_iff.1 hc
  obtain rfl := List.mem_singleton.1 hw
  have hfirst : c.chunkIndex = 1 := heq.trans hindex
  have hnone : embedFirst c = none := by
    unfold embedFirst
    rw [hfirst]
    rfl
  change embedFirst c = some v at hv
  rw [hnone] at hv
  cases hv

end Sample

end RagLeap.FolderIngest
