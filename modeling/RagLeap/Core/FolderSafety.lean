import RagLeap.Core.FolderIngest

/-!
# What a cycle deletes and ingests

`cycle_lawful`: a cycle deletes a document only while one with the current hash of its path is
stored, or by a complete manifest that has files and does not list the path; it ingests only files
of approved grants, and at most as many as its budget. The rows that a plan speaks of are compared
with the rows that are stored when a deletion is carried out: `Shrinks` says what the deletions
before it have left.
-/

namespace RagLeap.FolderIngest

variable {V : Type}

/-! ## The documents of a path -/

/-- The ids and hashes of the documents of a path. -/
def rowsOf (grant rel : Str) (rows : List DocumentRow) : List (Str × Str) :=
  (sourced grant rows).filterMap fun e => if e.1 = rel then some e.2 else none

theorem mem_sourced {grant path id hash : Str} {rows : List DocumentRow} :
    (path, id, hash) ∈ sourced grant rows ↔
      ∃ row ∈ rows, row.id = id ∧ row.source = some ⟨grant, path, hash⟩ := by
  unfold sourced
  rw [List.mem_filterMap]
  apply exists_congr
  intro row
  apply and_congr_right
  intro _
  cases hsource : row.source with
  | none => simp
  | some source =>
    obtain ⟨g, p, h⟩ := source
    by_cases hg : g = grant
    · simp [hg]
      tauto
    · simp [hg]

theorem mem_rowsOf {grant rel id hash : Str} {rows : List DocumentRow} :
    (id, hash) ∈ rowsOf grant rel rows ↔
      ∃ row ∈ rows, row.id = id ∧ row.source = some ⟨grant, rel, hash⟩ := by
  rw [← mem_sourced, rowsOf, List.mem_filterMap]
  constructor
  · rintro ⟨⟨path, d⟩, hmem, h⟩
    split at h
    · rename_i hpath
      cases h
      exact hpath ▸ hmem
    · cases h
  · exact fun hmem => ⟨_, hmem, if_pos rfl⟩

theorem docs_set (out : Ingested) (path rel : Str) (docs : List (Str × Str)) :
    Ingested.docs (out.set path docs) rel = if rel = path then docs else out.docs rel := by
  unfold Ingested.docs
  rw [Dict.get?_set]
  split
  · rfl
  · rfl

/-- What `_ingested` returns for a path. -/
theorem docs_ingestedOf (store : Store V) (grant rel : Str) :
    (ingestedOf store grant).docs rel = rowsOf grant rel store.documents.parents := by
  have hfold : ∀ (l : List (Str × Str × Str)) (out : Ingested),
      Ingested.docs (l.foldl (fun out e => out.set e.1 (out.docs e.1 ++ [e.2])) out) rel =
        out.docs rel ++ l.filterMap fun e => if e.1 = rel then some e.2 else none := by
    intro l
    induction l with
    | nil => exact fun out => (List.append_nil _).symm
    | cons e l ih =>
      intro out
      obtain ⟨path, d⟩ := e
      rw [List.foldl_cons, ih, docs_set]
      by_cases h : rel = path
      · simp [h]
      · simp [h, Ne.symm h]
  exact hfold _ Dict.empty

/-- A grant with documents has a document. -/
theorem exists_sourced {store : Store V} {grant : Str} (h : (ingestedOf store grant).items ≠ []) :
    ∃ row ∈ store.documents.parents, ∃ source, row.source = some source ∧ source.grant = grant := by
  have hne : sourced grant store.documents.parents ≠ [] := by
    intro hnil
    rw [ingestedOf, hnil] at h
    exact h rfl
  obtain ⟨⟨path, id, hash⟩, l, hcons⟩ := List.exists_cons_of_ne_nil hne
  obtain ⟨row, hrow, -, hsource⟩ :=
    mem_sourced.1 (hcons ▸ List.mem_cons_self : (path, id, hash) ∈ sourced grant _)
  exact ⟨row, hrow, _, hsource, rfl⟩

/-! ## What a plan says -/

section Plan

variable {env : Env} {manifest : Manifest} {ingested : Ingested} {rel id hash : Str}

theorem mem_sorted {l : List Str} : rel ∈ sorted l ↔ rel ∈ l := List.mem_mergeSort

theorem mem_current {d : Str × Str} : d ∈ current manifest ingested rel ↔
    d ∈ ingested.docs rel ∧ some d.2 = (manifest.files.get? rel).map Entry.sha256 := by
  rw [current, List.mem_filter, decide_eq_true_eq]

theorem exists_entry (h : rel ∈ sorted (manifest.files.items.map Prod.fst)) :
    ∃ entry, manifest.files.get? rel = some entry := by
  obtain ⟨e, he, rfl⟩ := List.mem_map.1 (mem_sorted.1 h)
  exact ⟨e.2, Dict.get?_eq_some_iff.2 he⟩

/-- A removed document's path is not listed by a complete manifest with files. -/
theorem of_mem_removed
    (h : id ∈ (makePlan env manifest ingested).removed.flatMap Prod.snd) :
    ∃ rel hash, (id, hash) ∈ ingested.docs rel ∧ manifest.complete = true ∧
      manifest.files.items ≠ [] ∧ manifest.files.get? rel = none := by
  obtain ⟨e, he, hid⟩ := List.mem_flatMap.1 h
  obtain ⟨rel, hrel, rfl⟩ := List.mem_map.1 he
  obtain ⟨d, hd, rfl⟩ := List.mem_map.1 hid
  split at hrel
  · rename_i hcomplete
    rw [Bool.and_eq_true, decide_eq_true_eq] at hcomplete
    rw [mem_sorted, List.mem_filter, decide_eq_true_eq] at hrel
    exact ⟨rel, d.2, hd, hcomplete.1, hcomplete.2, hrel.2⟩
  · cases hrel

/-- A stale document has another hash than its path, of which a current document is stored. -/
theorem supported_of_mem_stale (h : id ∈ (makePlan env manifest ingested).stale) :
    ∃ rel hash entry, (id, hash) ∈ ingested.docs rel ∧ manifest.files.get? rel = some entry ∧
      env.supported rel = true ∧ hash ≠ entry.sha256 ∧
      ∃ id', (id', entry.sha256) ∈ ingested.docs rel := by
  obtain ⟨rel, hrel, hid⟩ := List.mem_flatMap.1 h
  obtain ⟨d, hd, rfl⟩ := List.mem_map.1 hid
  rw [List.mem_filter, decide_eq_true_eq] at hrel hd
  obtain ⟨entry, hentry⟩ := exists_entry (List.mem_filter.1 hrel.1).1
  rw [hentry] at hd
  obtain ⟨d', l, hcons⟩ := List.exists_cons_of_ne_nil hrel.2.2
  have hd' : d' ∈ current manifest ingested rel := hcons ▸ List.mem_cons_self
  rw [mem_current, hentry] at hd'
  refine ⟨rel, d.2, entry, hd.1, hentry, (List.mem_filter.1 hrel.1).2,
    fun heq => hd.2 (congrArg some heq), d'.1, ?_⟩
  rw [← Option.some.inj hd'.2]
  exact hd'.1

theorem of_mem_stale (h : id ∈ (makePlan env manifest ingested).stale) :
    ∃ rel hash entry, (id, hash) ∈ ingested.docs rel ∧ manifest.files.get? rel = some entry ∧
      hash ≠ entry.sha256 ∧ ∃ id', (id', entry.sha256) ∈ ingested.docs rel := by
  obtain ⟨rel, hash, entry, hd, hentry, -, hrest⟩ := supported_of_mem_stale h
  exact ⟨rel, hash, entry, hd, hentry, hrest⟩

/-- A file to ingest has a parser. -/
theorem supported_of_mem_todo {t : Todo} (h : t ∈ todoOf manifest ingested
      ((makePlan env manifest ingested).new ++ (makePlan env manifest ingested).changed)) :
    env.supported t.rel = true := by
  obtain ⟨rel, hrel, hsome⟩ := List.mem_filterMap.1 h
  obtain ⟨entry, -, rfl⟩ := Option.map_eq_some_iff.1 hsome
  rcases List.mem_append.1 hrel with hrel | hrel
  · exact (List.mem_filter.1 (List.mem_filter.1 hrel).1).2
  · exact (List.mem_filter.1 (List.mem_filter.1 hrel).1).2

variable (env) in
/-- A file to ingest has no current document. -/
theorem of_mem_todo {t : Todo} (h : t ∈ todoOf manifest ingested
      ((makePlan env manifest ingested).new ++ (makePlan env manifest ingested).changed)) :
    manifest.files.get? t.rel = some t.entry ∧ t.oldIds = (ingested.docs t.rel).map Prod.fst ∧
      ∀ d ∈ ingested.docs t.rel, d.2 ≠ t.entry.sha256 := by
  obtain ⟨rel, hrel, hsome⟩ := List.mem_filterMap.1 h
  obtain ⟨entry, hentry, rfl⟩ := Option.map_eq_some_iff.1 hsome
  refine ⟨hentry, rfl, fun d hd heq => ?_⟩
  rcases List.mem_append.1 hrel with hrel | hrel
  · rw [makePlan, List.mem_filter, decide_eq_true_eq] at hrel
    rw [hrel.2] at hd
    cases hd
  · rw [makePlan, List.mem_filter, decide_eq_true_eq] at hrel
    have hmem : d ∈ current manifest ingested rel := by
      rw [mem_current, hentry]
      exact ⟨hd, congrArg some heq⟩
    rw [hrel.2.2] at hmem
    cases hmem

variable (env manifest ingested) in
theorem nodup_todo : ((todoOf manifest ingested ((makePlan env manifest ingested).new ++
    (makePlan env manifest ingested).changed)).map Todo.rel).Nodup := by
  have hrels : (sorted (manifest.files.items.map Prod.fst)).Nodup :=
    (List.mergeSort_perm _ _).nodup_iff.2 manifest.files.nodup
  have hboth : ((makePlan env manifest ingested).new ++
      (makePlan env manifest ingested).changed).Nodup := by
    rw [List.nodup_append]
    refine ⟨(hrels.filter _).filter _, (hrels.filter _).filter _, ?_⟩
    rintro a ha _ hb rfl
    rw [makePlan, List.mem_filter, decide_eq_true_eq] at ha hb
    exact hb.2.1 ha.2
  have hsub : ∀ rels : List Str,
      ((todoOf manifest ingested rels).map Todo.rel).Sublist rels := by
    intro rels
    induction rels with
    | nil => exact List.Sublist.refl _
    | cons rel rels ih =>
      rw [todoOf, List.filterMap_cons]
      cases manifest.files.get? rel with
      | none => exact ih.cons rel
      | some entry => exact ih.cons_cons rel
  exact hboth.sublist (hsub _)

end Plan

/-! ## Stores on the way -/

/-- Changes that lead from one store to another, each meeting `ok` with the store after it. -/
inductive Path (ok : Deed V → Store V → Prop) : Store V → List (Deed V) → Store V → Prop
  | nil (store : Store V) : Path ok store [] store
  | cons {d : Deed V} {ds : List (Deed V)} {store store' : Store V} (hok : ok d store)
      (h : Path ok store ds store') : Path ok d.before (d :: ds) store'

theorem Path.append {ok : Deed V → Store V → Prop} {a b c : Store V} {ds es : List (Deed V)}
    (h : Path ok a ds b) (h' : Path ok b es c) : Path ok a (ds ++ es) c := by
  induction h with
  | nil _ => exact h'
  | cons hok _ ih => exact .cons hok (ih h')

/-- What every change keeps holds of every store on the way. -/
theorem Path.keeps {ok : Deed V → Store V → Prop} {I : Store V → Prop}
    (hkeeps : ∀ d store, ok d store → I d.before → I store) {a b : Store V} {ds : List (Deed V)}
    (h : Path ok a ds b) (ha : I a) :
    (∀ d ∈ ds, I d.before ∧ ∃ store, ok d store) ∧ I b := by
  induction h with
  | nil _ => exact ⟨fun _ h => absurd h List.not_mem_nil, ha⟩
  | cons hok _ ih =>
    obtain ⟨hall, hb⟩ := ih (hkeeps _ _ hok ha)
    exact ⟨List.forall_mem_cons.2 ⟨⟨ha, ⟨_, hok⟩⟩, hall⟩, hb⟩

/-- The changes noted between two states lead from the store of one to the store of the other. -/
def Leads (ok : Deed V → Store V → Prop) (s s' : State V) : Prop :=
  ∃ new, s'.deeds = s.deeds ++ new ∧ Path ok s.store new s'.store

theorem Leads.refl (ok : Deed V → Store V → Prop) (s : State V) : Leads ok s s :=
  ⟨[], (List.append_nil _).symm, .nil _⟩

theorem Leads.trans {ok : Deed V → Store V → Prop} {a b c : State V} (h : Leads ok a b)
    (h' : Leads ok b c) : Leads ok a c := by
  obtain ⟨ds, hds, hpath⟩ := h
  obtain ⟨es, hes, hpath'⟩ := h'
  exact ⟨ds ++ es, by rw [hes, hds, List.append_assoc], hpath.append hpath'⟩

theorem Leads.of_eq {ok : Deed V → Store V → Prop} {s s' : State V} (hstore : s'.store = s.store)
    (hdeeds : s'.deeds = s.deeds) : Leads ok s s' :=
  ⟨[], by rw [hdeeds, List.append_nil], hstore ▸ .nil _⟩

/-- A transaction changes nothing, or the store and the notes as it says. -/
theorem change_cases {α : Type} (fate : Fate) (deed : Store V → Deed V)
    (t : Store V → Option (α × Store V)) (s : State V) :
    change fate deed t s = (none, s) ∨ ∃ a store, t s.store = some (a, store) ∧
      ∃ r, (fate = .passes → r = some a) ∧
        change fate deed t s = (r, { s with store, deeds := s.deeds ++ [deed s.store] }) := by
  unfold change
  cases ht : t s.store with
  | none => exact .inl (Attempt.commit_refused (by rw [ht, Option.map_none]) fate)
  | some x =>
    obtain ⟨a, store⟩ := x
    have hmap : ((t s.store).map fun x : α × Store V =>
        (x.1, { s with store := x.2, deeds := s.deeds ++ [deed s.store] })) =
          some (a, { s with store, deeds := s.deeds ++ [deed s.store] }) := by
      rw [ht, Option.map_some]
    rcases fate with _ | _ | _
    · exact .inr ⟨a, store, rfl, some a, fun _ => rfl, Attempt.commit_passes hmap⟩
    · exact .inl (Attempt.commit_raises_uncommitted _ s)
    · exact .inr ⟨a, store, rfl, none, nofun, Attempt.commit_raises_committed hmap⟩

/-! ## Deletions -/

/-- The second store is the first one without the documents of some of the ids. -/
def Shrinks (ids : List Str) (store store' : Store V) : Prop :=
  (∀ k, store'.documents.version k = store.documents.version k ∨
    (k ∈ ids ∧ store'.documents.version k = ([], []))) ∧ store'.approvals = store.approvals

theorem Shrinks.refl (ids : List Str) (store : Store V) : Shrinks ids store store :=
  ⟨fun _ => .inl rfl, rfl⟩

theorem Shrinks.trans {ids : List Str} {a b c : Store V} (h : Shrinks ids a b)
    (h' : Shrinks ids b c) : Shrinks ids a c := by
  refine ⟨fun k => ?_, h'.2.trans h.2⟩
  rcases h'.1 k with h₁ | h₁
  · rw [h₁]
    exact h.1 k
  · exact .inr h₁

theorem mem_version {t : Documents V} {row : DocumentRow} :
    row ∈ t.parents ↔ row ∈ (t.version row.id).1 := by
  simp [Tables.version]

theorem Shrinks.subset {ids : List Str} {store store' : Store V} (h : Shrinks ids store store')
    {row : DocumentRow} (hrow : row ∈ store'.documents.parents) :
    row ∈ store.documents.parents := by
  rw [mem_version] at hrow ⊢
  rcases h.1 row.id with heq | ⟨-, heq⟩
  · exact heq ▸ hrow
  · rw [heq] at hrow
    cases hrow

theorem Shrinks.kept {ids : List Str} {store store' : Store V} (h : Shrinks ids store store')
    {row : DocumentRow} (hrow : row ∈ store.documents.parents) (hid : row.id ∉ ids) :
    row ∈ store'.documents.parents := by
  rw [mem_version] at hrow ⊢
  rcases h.1 row.id with heq | ⟨hmem, -⟩
  · exact heq ▸ hrow
  · exact absurd hmem hid

theorem version_delete (store : Store V) (id k : Str) : (store.delete id).documents.version k =
    if k = id then ([], []) else store.documents.version k := by
  obtain ⟨⟨b, documents⟩, h⟩ : ∃ x, Tables.deleteParent id store.documents = some x := ⟨_, rfl⟩
  have hdelete : store.delete id = { store with documents } := by
    unfold Store.delete
    rw [h]
  rw [hdelete]
  split
  · rename_i hk
    rw [hk]
    exact Tables.version_eq_of_not_mem (Tables.not_mem_keys_deleteParent h)
  · rename_i hk
    exact Tables.version_deleteParent h hk

theorem shrinks_delete {ids : List Str} (store : Store V) {id : Str} (hid : id ∈ ids) :
    Shrinks ids store (store.delete id) := by
  refine ⟨fun k => ?_, rfl⟩
  rw [version_delete]
  split
  · rename_i hk
    exact .inr ⟨hk ▸ hid, rfl⟩
  · exact .inl rfl

theorem deleteDocument_cases (w : World V) (id : Str) (s : State V) :
    (deleteDocument w id s).2 = s ∨ (deleteDocument w id s).2 =
      { s with store := s.store.delete id, deeds := s.deeds ++ [.deleted id s.store] } := by
  unfold deleteDocument
  rcases change_cases (w.deleteFate id) (.deleted id) _ s with h | ⟨b, store, ht, r, -, h⟩
  · exact .inl (congrArg Prod.snd h)
  · right
    cases ht
    exact congrArg Prod.snd h

/-- Deletions out of `ids`, each lawful whichever of them were carried out before. -/
theorem deleteDocs_leads (w : World V) {ok : Deed V → Store V → Prop} {ids l : List Str}
    {base : Store V} {s : State V} (hl : ∀ id ∈ l, id ∈ ids) (hs : Shrinks ids base s.store)
    (hok : ∀ id ∈ ids, ∀ store, Shrinks ids base store →
      ok (.deleted id store) (store.delete id)) :
    Leads ok s (deleteDocs w l s) ∧ Shrinks ids base (deleteDocs w l s).store ∧
      (deleteDocs w l s).left = s.left := by
  induction l generalizing s with
  | nil => exact ⟨.refl ok s, hs, rfl⟩
  | cons id l ih =>
    obtain ⟨hid, hl⟩ := List.forall_mem_cons.1 hl
    have hcons : deleteDocs w (id :: l) s = deleteDocs w l (deleteDocument w id s).2 := rfl
    rw [hcons]
    rcases deleteDocument_cases w id s with h | h
    · rw [h]
      exact ih hl hs
    · rw [h]
      obtain ⟨hleads, hshrinks, hleft⟩ := ih (s := { s with
        store := s.store.delete id, deeds := s.deeds ++ [.deleted id s.store] }) hl
        (hs.trans (shrinks_delete s.store hid))
      refine ⟨Leads.trans ⟨[.deleted id s.store], rfl, ?_⟩ hleads, hshrinks, hleft⟩
      exact Path.cons (d := .deleted id s.store) (hok id hid _ hs) (.nil _)

/-! ## What a cycle may do -/

/-- A document from the source is stored. -/
def Stored (source : Source) (store : Store V) : Prop :=
  ∃ row ∈ store.documents.parents, row.source = some source

instance (source : Source) (store : Store V) : Decidable (Stored source store) :=
  inferInstanceAs (Decidable (∃ row ∈ store.documents.parents, row.source = some source))

/-- The document may be deleted: one with the current hash of its path is stored, or a complete
manifest with files does not list the path. -/
def Justified (manifest : Manifest) (grant : Str) (store : Store V) (row : DocumentRow) : Prop :=
  ∃ path hash, row.source = some ⟨grant, path, hash⟩ ∧
    ((∃ entry, manifest.files.get? path = some entry ∧ hash ≠ entry.sha256 ∧
        Stored ⟨grant, path, entry.sha256⟩ store) ∨
      (manifest.complete = true ∧ manifest.files.items ≠ [] ∧ manifest.files.get? path = none))

/-- If the grant has documents, it has been approved. -/
def Approved (grant : Str) (store : Store V) : Prop :=
  ∀ row ∈ store.documents.parents, ∀ source, row.source = some source → source.grant = grant →
    (store.approvals.get? grant).isSome = true

/-- What an ingestion stores: a document with the chunks of its file that are embedded. -/
def Ingests (env : Env) (w : World V) (source : Source) (store store' : Store V) : Prop :=
  ∃ raw text, env.sha256 raw = source.hash ∧ env.extractText source.path raw = some text ∧
    ∃ row rows, row.id = w.uuid4 source.grant source.path ∧ row.source = some source ∧
      rows = chunkRows (w.embedText source.grant source.path) row.id row.filename (chunksOf text) ∧
      rows ≠ [] ∧ insertRows row rows store.documents = some store'.documents ∧
      store'.approvals = store.approvals

/-- The manifest of one of the grants lists the source, and its path has a parser. -/
def Listed (env : Env) (w : World V) (source : Source) : Prop :=
  source.grant ∈ w.grants ∧ env.supported source.path = true ∧ ∃ manifest entry,
    loadManifest source.grant (w.manifestFile source.grant) = some manifest ∧
      manifest.files.get? source.path = some entry ∧ entry.sha256 = source.hash

/-- What a cycle does: justified deletions, ingestions of listed files that are not stored, of
approved grants where `A` holds, and approvals. -/
def Lawful (A : Str → Prop) (env : Env) (w : World V) (d : Deed V) (store : Store V) : Prop :=
  match d with
  | .deleted id before => store = before.delete id ∧
      ∀ row ∈ before.documents.parents, row.id = id → ∃ grant manifest,
        loadManifest grant (w.manifestFile grant) = some manifest ∧
          Justified manifest grant before row
  | .ingested source before => Ingests env w source before store ∧ Listed env w source ∧
      ¬ Stored source before ∧ (A source.grant → (before.approvals.get? source.grant).isSome = true)
  | .approved grant before => store.documents = before.documents ∧
      ∃ files, store.approvals = before.approvals.set grant files

theorem read_state {α : Type} {fate : Fate} {f : State V → α} {s s' : State V} {r : Option α}
    (h : Attempt.read fate f s = (r, s')) : s' = s := by
  rcases fate with _ | _ | _
  all_goals
    cases h
    rfl

theorem read_value {α : Type} {fate : Fate} {f : State V → α} {s s' : State V} {a : α}
    (h : Attempt.read fate f s = (some a, s')) : a = f s := by
  rcases fate with _ | _ | _
  all_goals cases h
  rfl

section Cycle

variable {A : Str → Prop} {env : Env} {w : World V} {grant : Str} {manifest : Manifest}

theorem unique_row {t : Documents V} {row row' : DocumentRow} (h : row ∈ t.parents)
    (h' : row' ∈ t.parents) (hid : row.id = row'.id) : row = row' :=
  List.inj_on_of_nodup_map t.nodup h h' hid

/-- Rows of a document and its chunks go in as they are. -/
theorem insertRows_eq {row : DocumentRow} {rows : List (ChunkRow V)} {t t' : Documents V}
    (h : insertRows row rows t = some t') :
    row.id ∉ t.keys ∧ t'.parents = t.parents ++ [row] ∧ t'.children = t.children ++ rows := by
  obtain ⟨⟨u, t₁⟩, h₁, h⟩ := Option.bind_eq_some_iff.1 h
  obtain ⟨hid, hparents, hchildren⟩ := Tables.insertParent_eq_some h₁
  have hfold : ∀ (rows : List (ChunkRow V)) (t₁ t' : Documents V),
      rows.foldlM (fun t row => (Tables.insertChild row t).map Prod.snd) t₁ = some t' →
      t'.parents = t₁.parents ∧ t'.children = t₁.children ++ rows := by
    intro rows
    induction rows with
    | nil =>
      intro t₁ t' h
      cases h
      exact ⟨rfl, (List.append_nil _).symm⟩
    | cons r rows ih =>
      intro t₁ t' h
      rw [List.foldlM_cons] at h
      obtain ⟨t₂, h₂, h⟩ := Option.bind_eq_some_iff.1 h
      obtain ⟨⟨u, t₃⟩, h₃, rfl⟩ := Option.map_eq_some_iff.1 h₂
      obtain ⟨hp, hc⟩ := Tables.insertChild_eq_some h₃
      obtain ⟨hp', hc'⟩ := ih _ _ h
      refine ⟨hp'.trans hp, ?_⟩
      rw [hc', hc, List.append_assoc]
      rfl
  obtain ⟨hp, hc⟩ := hfold rows t₁ t' h
  exact ⟨hid, hp.trans hparents, by rw [hc, hchildren]⟩

/-- The rows of a file's old documents, none of which is current. -/
def Outdated (grant : Str) (store : Store V) (t : Todo) : Prop :=
  ∀ id ∈ t.oldIds, ∃ row ∈ store.documents.parents, row.id = id ∧
    ∃ hash, hash ≠ t.entry.sha256 ∧ row.source = some ⟨grant, t.rel, hash⟩

theorem ingestDocument_cases (filename text : Str) (source : Source) (s : State V) :
    ingestDocument w filename text source s = (none, s) ∨ ∃ documents rows,
      rows = chunkRows (w.embedText source.grant source.path)
        (w.uuid4 source.grant source.path) filename (chunksOf text) ∧ rows ≠ [] ∧
      insertRows ⟨w.uuid4 source.grant source.path, filename, some source⟩ rows s.store.documents =
        some documents ∧
      ∃ r, ingestDocument w filename text source s = (r, { s with
        store := { s.store with documents }, deeds := s.deeds ++ [.ingested source s.store] }) := by
  unfold ingestDocument
  dsimp only
  split
  · exact .inl rfl
  · rename_i hrows
    rcases change_cases (w.ingestFate source.grant source.path) (.ingested source) _ s with
      h | ⟨u, store, ht, r, -, h⟩
    · exact .inl h
    · obtain ⟨documents, hinsert, heq⟩ := Option.map_eq_some_iff.1 ht
      cases heq
      exact .inr ⟨documents, _, rfl, hrows, hinsert, r, h⟩

variable (A env) in
/-- One file: the new document goes in before the old ones are deleted. -/
theorem ingestFile_leads {t : Todo} {s : State V}
    (hmanifest : loadManifest grant (w.manifestFile grant) = some manifest)
    (hentry : manifest.files.get? t.rel = some t.entry) (hold : Outdated grant s.store t)
    (hlisted : Listed env w ⟨grant, t.rel, t.entry.sha256⟩)
    (hnew : ¬ Stored ⟨grant, t.rel, t.entry.sha256⟩ s.store)
    (hA : A grant → (s.store.approvals.get? grant).isSome = true) :
    let s' := (ingestFile env w grant t.rel t.entry t.oldIds s).2
    Leads (Lawful A env w) s s' ∧ s'.store.approvals = s.store.approvals ∧ s'.left = s.left ∧
      (∀ row ∈ s.store.documents.parents, row.id ∉ t.oldIds → row ∈ s'.store.documents.parents) ∧
      ∀ source, source.path ≠ t.rel → ¬ Stored source s.store → ¬ Stored source s'.store := by
  have hstay : Leads (Lawful A env w) s s ∧ s.store.approvals = s.store.approvals ∧
      s.left = s.left ∧ (∀ row ∈ s.store.documents.parents, row.id ∉ t.oldIds →
        row ∈ s.store.documents.parents) ∧
      ∀ source, source.path ≠ t.rel → ¬ Stored source s.store → ¬ Stored source s.store :=
    ⟨.refl _ s, rfl, rfl, fun _ h _ => h, fun _ _ h => h⟩
  unfold ingestFile
  dsimp only
  cases hraw : readStaged env (w.staged grant t.rel) t.entry with
  | none => exact hstay
  | some raw =>
    rw [Attempt.ofOption_some, Attempt.pure_bind]
    cases htext : env.extractText t.rel raw with
    | none => exact hstay
    | some text =>
      rw [Attempt.ofOption_some, Attempt.pure_bind]
      have hsha : env.sha256 raw = t.entry.sha256 := by
        obtain ⟨-, hcheck⟩ := Option.filter_eq_some_iff.1 hraw
        rw [decide_eq_true_eq] at hcheck
        exact hcheck.2
      rcases ingestDocument_cases (w := w) (grant ++ '/' :: t.rel) text
          ⟨grant, t.rel, t.entry.sha256⟩ s with h | ⟨documents, rows, hrows, hne, hinsert, r, h⟩
      · rw [Attempt.bind_apply_of_none h]
        exact hstay
      · obtain ⟨hfresh, hparents, -⟩ := insertRows_eq hinsert
        generalize hs₁ : ({ s with
          store := { s.store with documents },
          deeds := s.deeds ++ [.ingested ⟨grant, t.rel, t.entry.sha256⟩ s.store] } : State V) =
            s₁ at h
        have hstore : s₁.store.documents.parents = s.store.documents.parents ++
            [⟨w.uuid4 grant t.rel, grant ++ '/' :: t.rel,
              some ⟨grant, t.rel, t.entry.sha256⟩⟩] := by
          rw [← hs₁]
          exact hparents
        have hingest : Leads (Lawful A env w) s s₁ := by
          refine ⟨[.ingested ⟨grant, t.rel, t.entry.sha256⟩ s.store], by rw [← hs₁], ?_⟩
          refine Path.cons (d := .ingested ⟨grant, t.rel, t.entry.sha256⟩ s.store)
            ⟨?_, hlisted, hnew, hA⟩ (.nil _)
          exact ⟨raw, text, hsha, htext, _, rows, rfl, rfl, hrows, hne,
            by rw [← hs₁]; exact hinsert, by rw [← hs₁]⟩
        have hmem : ∀ row ∈ s.store.documents.parents, row ∈ s₁.store.documents.parents := by
          intro row hrow
          rw [hstore]
          exact List.mem_append_left _ hrow
        have hother : ∀ source, source.path ≠ t.rel → ¬ Stored source s.store →
            ¬ Stored source s₁.store := by
          rintro source hpath hnone ⟨row, hrow, hsource⟩
          rw [hstore] at hrow
          rcases List.mem_append.1 hrow with hrow | hrow
          · exact hnone ⟨row, hrow, hsource⟩
          · rw [List.mem_singleton.1 hrow] at hsource
            cases hsource
            exact hpath rfl
        cases r with
        | none =>
          rw [Attempt.bind_apply_of_none h]
          exact ⟨hingest, by rw [← hs₁], by rw [← hs₁], fun row hrow _ => hmem row hrow, hother⟩
        | some u =>
          rw [Attempt.bind_apply_of_some h, Attempt.total_apply]
          have hid : w.uuid4 grant t.rel ∉ t.oldIds := by
            intro hin
            obtain ⟨row, hrow, hid, -⟩ := hold _ hin
            exact hfresh (List.mem_map.2 ⟨row, hrow, hid⟩)
          have hjust : ∀ id ∈ t.oldIds, ∀ store, Shrinks t.oldIds s₁.store store →
              Lawful A env w (.deleted id store) (store.delete id) := by
            intro id hin' store hshrinks
            refine ⟨rfl, fun row hrow hrowid => ⟨grant, manifest, hmanifest, ?_⟩⟩
            obtain ⟨row₀, hrow₀, hid₀, hash, hhash, hsource⟩ := hold id hin'
            have hin : row ∈ s.store.documents.parents := by
              have hin₁ := hshrinks.subset hrow
              rw [hstore] at hin₁
              rcases List.mem_append.1 hin₁ with hin | hin
              · exact hin
              · rw [List.mem_singleton.1 hin] at hrowid
                have hnewid : w.uuid4 grant t.rel = id := hrowid
                exact absurd (hnewid ▸ hin') hid
            obtain rfl := unique_row hin hrow₀ (hrowid.trans hid₀.symm)
            refine ⟨t.rel, hash, hsource, .inl ⟨t.entry, hentry, hhash, ⟨w.uuid4 grant t.rel,
              grant ++ '/' :: t.rel, some ⟨grant, t.rel, t.entry.sha256⟩⟩, ?_, rfl⟩⟩
            apply hshrinks.kept _ hid
            rw [hstore]
            exact List.mem_append_right _ List.mem_cons_self
          obtain ⟨hleads, hshrinks, hleft⟩ :=
            deleteDocs_leads w (fun _ h => h) (.refl t.oldIds s₁.store) hjust
          refine ⟨hingest.trans hleads, hshrinks.2.trans (by rw [← hs₁]),
            hleft.trans (by rw [← hs₁]), fun row hrow hid => hshrinks.kept (hmem row hrow) hid, ?_⟩
          rintro source hpath hnone ⟨row, hrow, hsource⟩
          exact hother source hpath hnone ⟨row, hshrinks.subset hrow, hsource⟩

/-- The files of a plan, one after another. -/
theorem ingestTodo_leads {todo : List Todo} {st : GrantStatus} {s : State V}
    (hmanifest : loadManifest grant (w.manifestFile grant) = some manifest)
    (hentry : ∀ t ∈ todo, manifest.files.get? t.rel = some t.entry)
    (hold : ∀ t ∈ todo, Outdated grant s.store t)
    (hlisted : ∀ t ∈ todo, Listed env w ⟨grant, t.rel, t.entry.sha256⟩)
    (hnew : ∀ t ∈ todo, ¬ Stored ⟨grant, t.rel, t.entry.sha256⟩ s.store)
    (hnodup : (todo.map Todo.rel).Nodup)
    (hA : A grant → (s.store.approvals.get? grant).isSome = true) :
    Leads (Lawful A env w) s (ingestTodo env w grant todo st s).2 := by
  induction todo generalizing st s with
  | nil => exact .refl _ s
  | cons t todo ih =>
    obtain ⟨htentry, hentry⟩ := List.forall_mem_cons.1 hentry
    obtain ⟨htold, hold⟩ := List.forall_mem_cons.1 hold
    obtain ⟨htlisted, hlisted⟩ := List.forall_mem_cons.1 hlisted
    obtain ⟨htnew, hnew⟩ := List.forall_mem_cons.1 hnew
    rw [List.map_cons, List.nodup_cons] at hnodup
    unfold ingestTodo
    dsimp only
    split
    · exact ih hentry hold hlisted hnew hnodup.2 hA
    · split
      · exact .refl _ s
      · have hfile := ingestFile_leads A env
          (s := { s with left := s.left - 1 }) hmanifest htentry htold htlisted htnew hA
        obtain ⟨hleads, happrovals, -, hkept, hother⟩ := hfile
        have hstart : Leads (Lawful A env w) s { s with left := s.left - 1 } := .of_eq rfl rfl
        have hold' : ∀ t' ∈ todo, Outdated grant (ingestFile env w grant t.rel t.entry t.oldIds
            { s with left := s.left - 1 }).2.store t' := by
          intro t' ht' id hid
          obtain ⟨row, hrow, hrowid, hash, hhash, hsource⟩ := hold t' ht' id hid
          refine ⟨row, hkept row hrow fun hin => ?_, hrowid, hash, hhash, hsource⟩
          -- The rows of two files of the plan are different ones.
          obtain ⟨row₀, hrow₀, hid₀, hash₀, -, hsource₀⟩ := htold row.id hin
          obtain rfl := unique_row hrow hrow₀ hid₀.symm
          rw [hsource] at hsource₀
          have hrel : t'.rel = t.rel := congrArg Source.path (Option.some.inj hsource₀)
          exact hnodup.1 (hrel ▸ List.mem_map_of_mem ht')
        have hnew' : ∀ t' ∈ todo, ¬ Stored ⟨grant, t'.rel, t'.entry.sha256⟩
            (ingestFile env w grant t.rel t.entry t.oldIds
              { s with left := s.left - 1 }).2.store := by
          intro t' ht'
          apply hother _ _ (hnew t' ht')
          intro hrel
          have hrel' : t'.rel = t.rel := hrel
          exact hnodup.1 (hrel' ▸ List.mem_map_of_mem ht')
        rcases hrun : ingestFile env w grant t.rel t.entry t.oldIds
          { s with left := s.left - 1 } with ⟨_ | u, s'⟩
        · rw [hrun] at hleads happrovals hold' hnew'
          refine (hstart.trans hleads).trans (Leads.trans (.of_eq rfl rfl)
            (ih (s := { s' with failures := _ }) hentry hold' hlisted hnew' hnodup.2 fun ha => ?_))
          exact happrovals ▸ hA ha
        · rw [hrun] at hleads happrovals hold' hnew'
          refine (hstart.trans hleads).trans (Leads.trans (.of_eq rfl rfl)
            (ih (s := { s' with failures := _ }) hentry hold' hlisted hnew' hnodup.2 fun ha => ?_))
          exact happrovals ▸ hA ha

/-- The deletions of a plan and then its files. -/
theorem carryOut_leads {st : GrantStatus} {s : State V} (hgrant : grant ∈ w.grants)
    (hmanifest : loadManifest grant (w.manifestFile grant) = some manifest)
    (hA : A grant → (s.store.approvals.get? grant).isSome = true) :
    Leads (Lawful A env w) s (carryOut env w grant manifest (ingestedOf s.store grant)
      (makePlan env manifest (ingestedOf s.store grant)) st s).2 := by
  generalize hplan : makePlan env manifest (ingestedOf s.store grant) = plan
  have hdocs : ∀ {id hash rel}, (id, hash) ∈ (ingestedOf s.store grant).docs rel →
      ∃ row ∈ s.store.documents.parents, row.id = id ∧ row.source = some ⟨grant, rel, hash⟩ := by
    intro id hash rel h
    rw [docs_ingestedOf] at h
    exact mem_rowsOf.1 h
  -- Every document that is deleted first is of a path that is gone or has a current document.
  have hout : ∀ id ∈ plan.removed.flatMap Prod.snd ++ plan.stale,
      ∃ row ∈ s.store.documents.parents, row.id = id ∧ ∃ rel hash,
        row.source = some ⟨grant, rel, hash⟩ ∧
        ∀ entry, manifest.files.get? rel = some entry → hash ≠ entry.sha256 := by
    intro id hid
    rcases List.mem_append.1 hid with hid | hid
    · obtain ⟨rel, hash, hmem, -, -, hgone⟩ := of_mem_removed (hplan ▸ hid)
      obtain ⟨row, hrow, hrowid, hsource⟩ := hdocs hmem
      refine ⟨row, hrow, hrowid, rel, hash, hsource, fun entry hentry => ?_⟩
      rw [hgone] at hentry
      cases hentry
    · obtain ⟨rel, hash, entry, hmem, hentry, hne, -⟩ := of_mem_stale (hplan ▸ hid)
      obtain ⟨row, hrow, hrowid, hsource⟩ := hdocs hmem
      refine ⟨row, hrow, hrowid, rel, hash, hsource, fun entry' hentry' => ?_⟩
      rw [hentry] at hentry'
      cases hentry'
      exact hne
  -- A current document is not among them, so it is still there.
  have hcurrent : ∀ {row rel entry}, row ∈ s.store.documents.parents →
      row.source = some ⟨grant, rel, entry.sha256⟩ → manifest.files.get? rel = some entry →
      row.id ∉ plan.removed.flatMap Prod.snd ++ plan.stale := by
    intro row rel entry hrow hsource hentry hin
    obtain ⟨row', hrow', hid', rel', hash', hsource', hne⟩ := hout row.id hin
    obtain rfl := unique_row hrow hrow' hid'.symm
    rw [hsource] at hsource'
    cases hsource'
    exact hne entry hentry rfl
  generalize hids : plan.removed.flatMap Prod.snd ++ plan.stale = ids at hout hcurrent
  have hjust : ∀ id ∈ ids, ∀ store, Shrinks ids s.store store →
      Lawful A env w (.deleted id store) (store.delete id) := by
    intro id hid store hshrinks
    refine ⟨rfl, fun row hrow hrowid => ⟨grant, manifest, hmanifest, ?_⟩⟩
    have hin := hshrinks.subset hrow
    rw [← hids] at hid
    rcases List.mem_append.1 hid with hid | hid
    · obtain ⟨rel, hash, hmem, hcomplete, hfiles, hgone⟩ := of_mem_removed (hplan ▸ hid)
      obtain ⟨row', hrow', hid', hsource⟩ := hdocs hmem
      obtain rfl := unique_row hin hrow' (hrowid.trans hid'.symm)
      exact ⟨rel, hash, hsource, .inr ⟨hcomplete, hfiles, hgone⟩⟩
    · obtain ⟨rel, hash, entry, hmem, hentry, hne, id', hmem'⟩ := of_mem_stale (hplan ▸ hid)
      obtain ⟨row', hrow', hid', hsource⟩ := hdocs hmem
      obtain rfl := unique_row hin hrow' (hrowid.trans hid'.symm)
      obtain ⟨cur, hcur, -, hcursource⟩ := hdocs hmem'
      exact ⟨rel, hash, hsource, .inl ⟨entry, hentry, hne, cur,
        hshrinks.kept hcur (hcurrent hcur hcursource hentry), hcursource⟩⟩
  have hremoved : ∀ id ∈ plan.removed.flatMap Prod.snd, id ∈ ids :=
    fun id h => hids ▸ List.mem_append_left _ h
  have hstale : ∀ id ∈ plan.stale, id ∈ ids := fun id h => hids ▸ List.mem_append_right _ h
  have hfirst : Leads (Lawful A env w) s
        (if w.deleteRemoved grant then deleteDocs w (plan.removed.flatMap Prod.snd) s else s) ∧
      Shrinks ids s.store
        (if w.deleteRemoved grant then deleteDocs w (plan.removed.flatMap Prod.snd) s
          else s).store := by
    split
    · obtain ⟨hleads, hshrinks, -⟩ := deleteDocs_leads w hremoved (.refl ids s.store) hjust
      exact ⟨hleads, hshrinks⟩
    · exact ⟨.refl _ s, .refl ids s.store⟩
  unfold carryOut
  dsimp only
  obtain ⟨hleads₁, hshrinks₁⟩ := hfirst
  obtain ⟨hleads₂, hshrinks₂, -⟩ := deleteDocs_leads w hstale hshrinks₁ hjust
  refine (hleads₁.trans hleads₂).trans (ingestTodo_leads hmanifest ?_ ?_ ?_ ?_
    (hplan ▸ nodup_todo env manifest _) fun ha => hshrinks₂.2 ▸ hA ha)
  · exact fun t ht => (of_mem_todo env (hplan ▸ ht)).1
  · intro t ht id hid
    obtain ⟨hentry, hold, hne⟩ := of_mem_todo env (hplan ▸ ht)
    rw [hold] at hid
    obtain ⟨⟨id', hash⟩, hd, rfl⟩ := List.mem_map.1 hid
    obtain ⟨row, hrow, hrowid, hsource⟩ := hdocs hd
    refine ⟨row, hshrinks₂.kept hrow fun hin => ?_, hrowid, hash, hne _ hd, hsource⟩
    -- A file to ingest is listed and has no current document.
    rw [← hids] at hin
    rcases List.mem_append.1 hin with hin | hin
    · obtain ⟨rel, hash', hmem, -, -, hgone⟩ := of_mem_removed (hplan ▸ hin)
      obtain ⟨row', hrow', hid', hsource'⟩ := hdocs hmem
      obtain rfl := unique_row hrow hrow' hid'.symm
      rw [hsource] at hsource'
      cases hsource'
      rw [hentry] at hgone
      cases hgone
    · obtain ⟨rel, hash', entry, hmem, hentry', -, id'', hmem'⟩ := of_mem_stale (hplan ▸ hin)
      obtain ⟨row', hrow', hid', hsource'⟩ := hdocs hmem
      obtain rfl := unique_row hrow hrow' hid'.symm
      rw [hsource] at hsource'
      cases hsource'
      rw [hentry] at hentry'
      cases hentry'
      exact hne _ hmem' rfl
  · exact fun t ht => ⟨hgrant, supported_of_mem_todo (hplan ▸ ht), manifest, t.entry, hmanifest,
      (of_mem_todo env (hplan ▸ ht)).1, rfl⟩
  · rintro t ht ⟨row, hrow, hsource⟩
    obtain ⟨-, -, hne⟩ := of_mem_todo env (hplan ▸ ht)
    have hmem := mem_rowsOf.2 ⟨row, hshrinks₂.subset hrow, rfl, hsource⟩
    rw [← docs_ingestedOf] at hmem
    exact hne _ hmem rfl

variable (env manifest) in
/-- Whether a grant may be ingested is found out with no change of the documents; afterwards a grant
that may be is approved. -/
theorem mayIngest_leads {s : State V} (happroved : A grant → Approved grant s.store) :
    let r := mayIngest w grant manifest (ingestedOf s.store grant) s
    Leads (Lawful A env w) s r.2 ∧ r.2.store.documents = s.store.documents ∧
      (r.1 = some true → A grant → (r.2.store.approvals.get? grant).isSome = true) := by
  unfold mayIngest
  split
  · rename_i hne
    refine ⟨.refl _ s, rfl, fun _ ha => ?_⟩
    obtain ⟨row, hrow, source, hsource, hgrant⟩ := exists_sourced hne
    exact happroved ha row hrow source hsource hgrant
  · rcases hread : Attempt.read (w.approvedFate grant)
      (fun s : State V => (s.store.approvals.get? grant).isSome) s with ⟨_ | b, s₁⟩
    · rw [Attempt.bind_apply_of_none hread]
      obtain rfl := read_state hread
      exact ⟨.refl _ _, rfl, nofun⟩
    · rw [Attempt.bind_apply_of_some hread]
      obtain rfl := read_state hread
      obtain rfl := read_value hread
      split
      · rename_i hsome
        exact ⟨.refl _ _, rfl, fun _ _ => hsome⟩
      · split
        · exact ⟨.refl _ _, rfl, fun h => by cases h⟩
        · unfold approve
          rcases change_cases (w.approveFate grant) (.approved grant) (fun store : Store V =>
            some ((), { store with approvals := store.approvals.set grant manifest.files.size })) s₁
            with h | ⟨u, store, ht, r, -, h⟩
          · rw [Attempt.bind_apply_of_none h]
            exact ⟨.refl _ _, rfl, nofun⟩
          · cases ht
            have hleads : Leads (Lawful A env w) s₁ { s₁ with
                store := { s₁.store with
                  approvals := s₁.store.approvals.set grant manifest.files.size }
                deeds := s₁.deeds ++ [.approved grant s₁.store] } := by
              refine ⟨[.approved grant s₁.store], rfl, ?_⟩
              have hlawful : Lawful A env w (.approved grant s₁.store) { s₁.store with
                  approvals := s₁.store.approvals.set grant manifest.files.size } := ⟨rfl, _, rfl⟩
              exact Path.cons (d := .approved grant s₁.store) hlawful (.nil _)
            cases r with
            | none =>
              rw [Attempt.bind_apply_of_none h]
              exact ⟨hleads, rfl, nofun⟩
            | some u =>
              rw [Attempt.bind_apply_of_some h]
              refine ⟨hleads, rfl, fun _ _ => ?_⟩
              simp [Dict.get?_set]

/-- What a cycle does for one grant. -/
theorem processManifest_leads {s : State V} (hgrant : grant ∈ w.grants)
    (hmanifest : loadManifest grant (w.manifestFile grant) = some manifest)
    (happroved : A grant → Approved grant s.store) :
    Leads (Lawful A env w) s (processManifest env w grant manifest s).2 := by
  unfold processManifest
  rcases hread : Attempt.read (w.ingestedFate grant)
    (fun s : State V => ingestedOf s.store grant) s with ⟨_ | ingested, s₁⟩
  · rw [Attempt.bind_apply_of_none hread]
    obtain rfl := read_state hread
    exact .refl _ _
  · rw [Attempt.bind_apply_of_some hread]
    obtain rfl := read_state hread
    obtain rfl := read_value hread
    dsimp only
    obtain ⟨hleads, hdocs, hmay⟩ := mayIngest_leads (w := w) env manifest happroved
    rcases hrun : mayIngest w grant manifest (ingestedOf s₁.store grant) s₁ with ⟨_ | may, s₂⟩
    · rw [Attempt.bind_apply_of_none hrun]
      rw [hrun] at hleads
      exact hleads
    · rw [Attempt.bind_apply_of_some hrun]
      rw [hrun] at hleads hdocs hmay
      cases may with
      | false => exact hleads
      | true =>
        have hsame : ingestedOf s₁.store grant = ingestedOf s₂.store grant := by
          unfold ingestedOf
          rw [hdocs]
        rw [hsame]
        exact hleads.trans (carryOut_leads hgrant hmanifest (hmay rfl))

variable (env) in
theorem processGrant_leads {s : State V} (hgrant : grant ∈ w.grants)
    (happroved : A grant → Approved grant s.store) :
    Leads (Lawful A env w) s (processGrant env w grant s).2 := by
  unfold processGrant
  cases hmanifest : loadManifest grant (w.manifestFile grant) with
  | none => exact .refl _ s
  | some manifest =>
    dsimp only
    split
    · exact .refl _ s
    · exact processManifest_leads hgrant hmanifest happroved

/-- Lawful changes keep a grant approved. -/
theorem approved_lawful {d : Deed V} {store : Store V} (h : Lawful A env w d store) (ha : A grant)
    (happroved : Approved grant d.before) : Approved grant store := by
  intro row hrow source hsource hgrant
  cases d with
  | deleted id before =>
    obtain ⟨rfl, -⟩ := h
    have hsub := (shrinks_delete before (List.mem_singleton_self id)).subset hrow
    exact happroved row hsub source hsource hgrant
  | ingested source' before =>
    obtain ⟨hingests, -, -, hgranted⟩ := h
    obtain ⟨raw, text, -, -, row', rows, -, hsource', -, -, hinsert, happrovals⟩ := hingests
    rw [happrovals]
    rw [(insertRows_eq hinsert).2.1] at hrow
    rcases List.mem_append.1 hrow with hrow | hrow
    · exact happroved row hrow source hsource hgrant
    · rw [List.mem_singleton.1 hrow, hsource'] at hsource
      cases hsource
      rw [← hgrant]
      exact hgranted (hgrant.symm ▸ ha)
  | approved grant' before =>
    obtain ⟨hdocs, files, happrovals⟩ := h
    rw [hdocs] at hrow
    rw [happrovals, Dict.get?_set]
    split
    · rfl
    · exact happroved row hrow source hsource hgrant

variable (env) in
theorem processGrants_leads (grants : List Str) {s : State V} (hgrants : ∀ g ∈ grants, g ∈ w.grants)
    (happroved : ∀ g, A g → Approved g s.store) :
    Leads (Lawful A env w) s (processGrants env w grants s).2 := by
  induction grants generalizing s with
  | nil => exact .refl _ s
  | cons g grants ih =>
    obtain ⟨hgrant, hgrants⟩ := List.forall_mem_cons.1 hgrants
    have hfirst := processGrant_leads (w := w) env hgrant (happroved g)
    refine hfirst.trans (ih hgrants fun g' ha => ?_)
    obtain ⟨new, -, hpath⟩ := hfirst
    exact (hpath.keeps (fun _ _ h => approved_lawful h ha) (happroved g' ha)).2

variable (env w) in
/-- **What a cycle does is lawful**, change after change. -/
theorem runCycle_lawful {s : State V} (happroved : ∀ g, A g → Approved g s.store) :
    Path (Lawful A env w) s.store (runCycle env w s).2.deeds (runCycle env w s).2.store := by
  unfold runCycle
  dsimp only
  split
  · obtain ⟨new, hdeeds, hpath⟩ := processGrants_leads (A := A) env w.grants
      (s := { s with left := w.maxFiles, deeds := [] }) (fun _ h => h) happroved
    rw [hdeeds]
    exact hpath
  · exact .nil _

/-- The changes for one grant, whether it is approved or not. -/
theorem exists_path_processGrant (env : Env) (s : State V) (hgrant : grant ∈ w.grants) :
    ∃ new, Path (Lawful (fun _ => False) env w) s.store new
      (processGrant env w grant s).2.store := by
  obtain ⟨new, -, hpath⟩ := processGrant_leads (A := fun _ => False) (s := s) env hgrant nofun
  exact ⟨new, hpath⟩

/-- The changes of a cycle, whether its grants are approved or not. -/
theorem path_runCycle (env : Env) (w : World V) (s : State V) :
    Path (Lawful (fun _ => False) env w) s.store (runCycle env w s).2.deeds
      (runCycle env w s).2.store :=
  runCycle_lawful env w fun _ h => h.elim

end Cycle

/-! ## The budget -/

/-- The number of files ingested. -/
def ingests (deeds : List (Deed V)) : ℕ :=
  deeds.countP fun d => match d with
    | .ingested _ _ => true
    | _ => false

theorem ingests_append (ds es : List (Deed V)) : ingests (ds ++ es) = ingests ds + ingests es :=
  List.countP_append

/-- What was ingested between two states was taken from the budget. -/
def Within (s s' : State V) : Prop :=
  ingests s'.deeds + s'.left ≤ ingests s.deeds + s.left ∧ s'.left ≤ s.left

theorem Within.refl (s : State V) : Within s s := ⟨le_refl _, le_refl _⟩

theorem Within.trans {a b c : State V} (h : Within a b) (h' : Within b c) : Within a c :=
  ⟨h'.1.trans h.1, h'.2.trans h.2⟩

section Budget

variable {env : Env} {w : World V} {grant : Str}

theorem ingests_deleteDocs (w : World V) (ids : List Str) (s : State V) :
    ingests (deleteDocs w ids s).deeds = ingests s.deeds ∧ (deleteDocs w ids s).left = s.left := by
  induction ids generalizing s with
  | nil => exact ⟨rfl, rfl⟩
  | cons id ids ih =>
    obtain ⟨hdeeds, hleft⟩ := ih (deleteDocument w id s).2
    rcases deleteDocument_cases w id s with h | h
    · rw [h] at hdeeds hleft
      exact ⟨(congrArg (fun s => ingests (deleteDocs w ids s).deeds) h).trans hdeeds,
        (congrArg (fun s => (deleteDocs w ids s).left) h).trans hleft⟩
    · rw [h] at hdeeds hleft
      have hone : ingests (s.deeds ++ [.deleted id s.store]) = ingests s.deeds :=
        ingests_append s.deeds [.deleted id s.store]
      exact ⟨(congrArg (fun s => ingests (deleteDocs w ids s).deeds) h).trans (hdeeds.trans hone),
        (congrArg (fun s => (deleteDocs w ids s).left) h).trans hleft⟩

theorem within_deleteDocs (w : World V) (ids : List Str) (s : State V) :
    Within s (deleteDocs w ids s) := by
  obtain ⟨hdeeds, hleft⟩ := ingests_deleteDocs w ids s
  unfold Within
  omega

variable (env grant) in
/-- A file is ingested at most once. -/
theorem ingests_ingestFile (rel : Str) (entry : Entry) (oldIds : List Str) (s : State V) :
    let s' := (ingestFile env w grant rel entry oldIds s).2
    ingests s'.deeds ≤ ingests s.deeds + 1 ∧ s'.left = s.left := by
  unfold ingestFile
  dsimp only
  cases readStaged env (w.staged grant rel) entry with
  | none => exact ⟨Nat.le_succ _, rfl⟩
  | some raw =>
    rw [Attempt.ofOption_some, Attempt.pure_bind]
    cases env.extractText rel raw with
    | none => exact ⟨Nat.le_succ _, rfl⟩
    | some text =>
      rw [Attempt.ofOption_some, Attempt.pure_bind]
      rcases ingestDocument_cases (w := w) (grant ++ '/' :: rel) text
        ⟨grant, rel, entry.sha256⟩ s with h | ⟨documents, rows, -, -, -, r, h⟩
      · rw [Attempt.bind_apply_of_none h]
        exact ⟨Nat.le_succ _, rfl⟩
      · have hone : ingests (s.deeds ++ [.ingested ⟨grant, rel, entry.sha256⟩ s.store]) =
            ingests s.deeds + 1 := ingests_append s.deeds [.ingested _ s.store]
        cases r with
        | none =>
          rw [Attempt.bind_apply_of_none h]
          exact ⟨hone.le, rfl⟩
        | some u =>
          rw [Attempt.bind_apply_of_some h, Attempt.total_apply]
          dsimp only
          obtain ⟨hdeeds, hleft⟩ := ingests_deleteDocs w oldIds { s with
            store := { s.store with documents }
            deeds := s.deeds ++ [.ingested ⟨grant, rel, entry.sha256⟩ s.store] }
          exact ⟨hdeeds.le.trans hone.le, hleft⟩

theorem within_ingestTodo (todo : List Todo) (st : GrantStatus) (s : State V) :
    Within s (ingestTodo env w grant todo st s).2 := by
  induction todo generalizing st s with
  | nil => exact .refl s
  | cons t todo ih =>
    unfold ingestTodo
    dsimp only
    split
    · exact ih _ s
    · split
      · exact .refl s
      · rename_i hleft
        obtain ⟨hone, hsame⟩ := ingests_ingestFile (w := w) env grant t.rel t.entry
          t.oldIds { s with left := s.left - 1 }
        rcases hrun : ingestFile env w grant t.rel t.entry t.oldIds { s with left := s.left - 1 }
          with ⟨_ | u, s'⟩
        all_goals
          rw [hrun] at hone hsame
          dsimp only at hone hsame
          refine Within.trans ?_ (ih _ _)
          unfold Within
          dsimp only
          omega

variable (grant) in
theorem within_mayIngest (manifest : Manifest) (ingested : Ingested) (s : State V) :
    Within s (mayIngest w grant manifest ingested s).2 := by
  unfold mayIngest
  split
  · exact .refl s
  · rcases hread : Attempt.read (w.approvedFate grant)
      (fun s : State V => (s.store.approvals.get? grant).isSome) s with ⟨_ | b, s₁⟩
    · rw [Attempt.bind_apply_of_none hread, read_state hread]
      exact .refl s
    · rw [Attempt.bind_apply_of_some hread, read_state hread]
      split
      · exact .refl s
      · split
        · exact .refl s
        · unfold approve
          rcases change_cases (w.approveFate grant) (.approved grant) (fun store : Store V =>
            some ((), { store with approvals := store.approvals.set grant manifest.files.size })) s
            with h | ⟨u, store, ht, r, -, h⟩
          · rw [Attempt.bind_apply_of_none h]
            exact .refl s
          · have hone : ingests (s.deeds ++ [.approved grant s.store]) = ingests s.deeds :=
              ingests_append s.deeds [.approved grant s.store]
            cases r with
            | none =>
              rw [Attempt.bind_apply_of_none h]
              exact ⟨(congrArg (· + s.left) hone).le, le_refl _⟩
            | some u =>
              rw [Attempt.bind_apply_of_some h]
              exact ⟨(congrArg (· + s.left) hone).le, le_refl _⟩

theorem within_carryOut (manifest : Manifest) (ingested : Ingested) (plan : Plan)
    (st : GrantStatus) (s : State V) :
    Within s (carryOut env w grant manifest ingested plan st s).2 := by
  unfold carryOut
  dsimp only
  refine Within.trans ?_ ((within_deleteDocs w _ _).trans (within_ingestTodo _ _ _))
  split
  · exact within_deleteDocs w _ s
  · exact .refl s

theorem within_processGrant (s : State V) : Within s (processGrant env w grant s).2 := by
  unfold processGrant
  cases loadManifest grant (w.manifestFile grant) with
  | none => exact .refl s
  | some manifest =>
    dsimp only
    split
    · exact .refl s
    · unfold processManifest
      rcases hread : Attempt.read (w.ingestedFate grant)
        (fun s : State V => ingestedOf s.store grant) s with ⟨_ | ingested, s₁⟩
      · rw [Attempt.bind_apply_of_none hread, read_state hread]
        exact .refl s
      · rw [Attempt.bind_apply_of_some hread, read_state hread]
        dsimp only
        have hmay := within_mayIngest (w := w) grant manifest ingested s
        rcases hrun : mayIngest w grant manifest ingested s with ⟨_ | may, s₂⟩
        · rw [Attempt.bind_apply_of_none hrun]
          rwa [hrun] at hmay
        · rw [Attempt.bind_apply_of_some hrun]
          rw [hrun] at hmay
          cases may with
          | false => exact hmay
          | true => exact hmay.trans (within_carryOut manifest ingested _ _ s₂)

variable (env) in
theorem within_processGrants (grants : List Str) (s : State V) :
    Within s (processGrants env w grants s).2 := by
  induction grants generalizing s with
  | nil => exact .refl s
  | cons g grants ih => exact (within_processGrant s).trans (ih _)

/-- A cycle ingests no more files than its budget. -/
theorem ingests_runCycle (s : State V) :
    ingests (runCycle env w s).2.deeds ≤ w.maxFiles := by
  unfold runCycle
  dsimp only
  split
  · obtain ⟨h, -⟩ := within_processGrants (w := w) env w.grants
      { s with left := w.maxFiles, deeds := [] }
    have hnone : ingests ([] : List (Deed V)) = 0 := rfl
    dsimp only at h
    omega
  · exact Nat.zero_le _

end Budget

/-! ## Histories -/

section History

variable {env : Env} {grant : Str}

variable (env) in
theorem approved_runCycle (w : World V) {s : State V} (happroved : Approved grant s.store) :
    (∀ d ∈ (runCycle env w s).2.deeds, Approved grant d.before) ∧
      Approved grant (runCycle env w s).2.store := by
  have hpath := runCycle_lawful (A := fun g => Approved g s.store) (s := s) env w fun _ h => h
  obtain ⟨hall, hend⟩ := hpath.keeps (fun _ _ h => approved_lawful h happroved) happroved
  exact ⟨fun d hd => (hall d hd).1, hend⟩

/-- An upload changes nothing, or inserts a document of no folder. -/
theorem upload_cases (store : Store V) (id filename text : Str) (embedText : Chunk → Option V) :
    store.upload id filename text embedText = store ∨ ∃ documents,
      insertRows ⟨id, filename, none⟩ (chunkRows embedText id filename (chunksOf text))
        store.documents = some documents ∧
      store.upload id filename text embedText = { store with documents } := by
  unfold Store.upload
  dsimp only
  split
  · exact .inl rfl
  · split
    · rename_i documents hinsert
      exact .inr ⟨documents, hinsert, rfl⟩
    · exact .inl rfl

theorem approved_upload {store : Store V} (happroved : Approved grant store)
    (id filename text : Str) (embedText : Chunk → Option V) :
    Approved grant (store.upload id filename text embedText) := by
  rcases upload_cases store id filename text embedText with h | ⟨documents, hinsert, h⟩
  · rw [h]
    exact happroved
  · rw [h]
    intro row hrow source hsource hgrant
    rw [(insertRows_eq hinsert).2.1] at hrow
    rcases List.mem_append.1 hrow with hrow | hrow
    · exact happroved row hrow source hsource hgrant
    · rw [List.mem_singleton.1 hrow] at hsource
      cases hsource

/-- Whatever happens, a grant with documents stays approved. -/
theorem approved_happen {s : State V} (happroved : Approved grant s.store) (h : Happening V) :
    Approved grant (happen env s h).store := by
  cases h with
  | cycle w => exact (approved_runCycle env w happroved).2
  | killed w n =>
    obtain ⟨hall, hend⟩ := approved_runCycle env w happroved
    unfold happen
    dsimp only
    rw [List.getD_eq_getElem?_getD]
    cases hd : ((runCycle env w s).2.deeds.map Deed.before)[n]? with
    | none => exact hend
    | some before =>
      obtain ⟨d, hmem, rfl⟩ := List.mem_map.1 (List.mem_of_getElem? hd)
      exact hall d hmem
  | approve g files =>
    intro row hrow source hsource hgrant
    change ((s.store.approvals.set g files).get? grant).isSome = true
    rw [Dict.get?_set]
    split
    · rfl
    · exact happroved row hrow source hsource hgrant
  | upload id filename text embedText =>
    exact approved_upload happroved id filename text embedText
  | delete id =>
    intro row hrow source hsource hgrant
    have hsub := (shrinks_delete s.store (List.mem_singleton_self id)).subset hrow
    exact happroved row hsub source hsource hgrant

theorem approved_after {s : State V} (happroved : Approved grant s.store)
    (history : List (Happening V)) : Approved grant (after env s history).store := by
  induction history generalizing s with
  | nil => exact happroved
  | cons h history ih => exact ih (approved_happen happroved h)

/-- **After any history a cycle is lawful** and keeps to its budget; a grant is approved before its
files are ingested, unless documents of it were stored without an approval at the beginning. -/
theorem cycle_lawful (env : Env) (s : State V) (history : List (Happening V)) (w : World V) :
    let s' := after env s history
    let done := (runCycle env w s').2
    Path (Lawful (fun g => Approved g s.store) env w) s'.store done.deeds done.store ∧
      ingests done.deeds ≤ w.maxFiles :=
  ⟨runCycle_lawful env w fun _ h => approved_after h history, ingests_runCycle _⟩

end History

end RagLeap.FolderIngest
