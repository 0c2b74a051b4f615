import RagLeap.Core.Chunker
import RagLeap.Foundations.Attempt
import RagLeap.Rag.VectorStore

/-!
# Ingesting and replacing a document

`Engine.ingestText` and `Engine.updateDocument` as sequences of calls of the vector backend, each
of which commits on its own. What the outside answers, and how each call goes, is a `World`.

`ingestText_fails_iff` lists where an ingestion raises. Replacing deletes the stored version before
the new text is looked at, so that a later exception finds it gone: `updateDocument_keeps_iff`
says exactly when an update that raises leaves the stored version as it was.
-/

namespace RagLeap.Rag

variable {V : Type}

/-- The configured parts of `RagLeap`. A guardrail returns a text or raises. -/
structure Engine where
  chunker : TextChunker
  inputGuardrails : List (Str → Option Str)

/-- What a call meets outside: the character and token tables, the embedding service, which gives
`None` where it fails, a new identifier, and how each call of the backend goes. -/
structure World (V : Type) where
  isControl : Char → Bool
  realTokenCount : Str → ℕ
  embedText : Chunk → Option V
  uuid4 : Str
  getDocumentFilename : Fate
  deleteDocument : Fate
  insertDocument : Fate
  insertChunk : Chunk → Fate
  deleteEmpty : Fate

structure IngestResult where
  documentId : Str
  chunksStored : ℕ
  deriving DecidableEq

/-- `sanitize_text`. -/
def sanitizeText (w : World V) (text : Str) : Str :=
  text.filter fun c => c = '\n' || c = '\t' || !w.isControl c

/-- `run_guardrails`. -/
def runGuardrails (text : Str) (guardrails : List (Str → Option Str)) : Option Str :=
  guardrails.foldlM (fun text guardrail => guardrail text) text

/-- `self._chunker.chunk_text`. -/
def Engine.chunkText (rag : Engine) (w : World V) (text : Str) : List Chunk :=
  rag.chunker.chunkText (fun tokens => w.realTokenCount ([' '].intercalate tokens)) text

/-- The chunks as they are stored, one after another; the result counts them. -/
def storeChunks (w : World V) (documentId filename : Str) (metadata : Metadata) :
    List Chunk → ℕ → Attempt (VectorStore V) ℕ
  | [], stored => pure stored
  | chunk :: chunks, stored =>
    match w.embedText chunk with
    | none => storeChunks w documentId filename metadata chunks stored
    | some embedding =>
      Attempt.commit (w.insertChunk chunk) (VectorStore.insertChunk
        { documentId, documentName := filename, chunkIndex := chunk.chunkIndex, text := chunk.text,
          tokenCount := chunk.tokenCount, embedding, metadata }) >>= fun _ =>
      storeChunks w documentId filename metadata chunks (stored + 1)

/-- `ingest_text`. -/
def Engine.ingestText (rag : Engine) (w : World V) (filename text : Str)
    (metadata : Metadata) (sanitize : Bool) : Attempt (VectorStore V) IngestResult :=
  let text := if sanitize then sanitizeText w text else text
  Attempt.ofOption (runGuardrails text rag.inputGuardrails) >>= fun text =>
  let chunks := rag.chunkText w text
  if chunks = [] then Attempt.raise
  else
    Attempt.commit w.insertDocument
      (VectorStore.insertDocument ⟨w.uuid4, filename, metadata⟩) >>= fun _ =>
    storeChunks w w.uuid4 filename metadata chunks 0 >>= fun stored =>
    if stored = 0 then
      Attempt.commit w.deleteEmpty (VectorStore.deleteDocument w.uuid4) >>= fun _ => Attempt.raise
    else pure ⟨w.uuid4, stored⟩

/-- The filename an updated document is stored under. -/
def updatedFilename (w : World V) (documentId : Str) :
    Option Str → Attempt (VectorStore V) Str
  | some filename => pure filename
  | none =>
    Attempt.read w.getDocumentFilename (VectorStore.getDocumentFilename documentId) >>=
      Attempt.ofOption

/-- `update_document`. -/
def Engine.updateDocument (rag : Engine) (w : World V) (documentId text : Str)
    (filename : Option Str) : Attempt (VectorStore V) IngestResult :=
  updatedFilename w documentId filename >>= fun existingFilename =>
  Attempt.commit w.deleteDocument (VectorStore.deleteDocument documentId) >>= fun _ =>
  rag.ingestText w existingFilename text [] true

/-! ## What an ingestion leaves alone -/

/-- The stored versions of all documents but `d` stay as they are. -/
def OthersKept (d : Str) (s s' : VectorStore V) : Prop :=
  ∀ e, e ≠ d → s'.version e = s.version e

instance (d : Str) : Std.Refl (OthersKept (V := V) d) := ⟨fun _ _ _ => rfl⟩

instance (d : Str) : IsTrans (VectorStore V) (OthersKept d) :=
  ⟨fun _ _ _ h h' e he => (h' e he).trans (h e he)⟩

variable {rag : Engine} {w : World V} {s : VectorStore V}

theorem storeChunks_moves (documentId filename : Str) (metadata : Metadata)
    (chunks : List Chunk) (stored : ℕ) :
    (storeChunks w documentId filename metadata chunks stored).Moves (OthersKept documentId) := by
  induction chunks generalizing stored with
  | nil => exact Attempt.Moves.pure stored
  | cons chunk chunks ih =>
    unfold storeChunks
    split
    · exact ih stored
    · refine Attempt.Moves.bind (Attempt.Moves.commit (fun s u s' h e he => ?_) _)
        fun _ => ih (stored + 1)
      exact Tables.version_insertChild h he

/-- An ingestion, also one that raises, touches the new document only. -/
theorem ingestText_moves (rag : Engine) (w : World V) (filename text : Str) (metadata : Metadata) (sanitize : Bool) :
    (rag.ingestText w filename text metadata sanitize).Moves (OthersKept w.uuid4) := by
  refine Attempt.Moves.bind (Attempt.Moves.ofOption _) fun text => ?_
  refine Attempt.Moves.ite Attempt.Moves.raise ?_
  refine Attempt.Moves.bind (Attempt.Moves.commit (fun s u s' h e he => ?_) _) fun _ => ?_
  · exact Tables.version_insertParent h he
  refine Attempt.Moves.bind (storeChunks_moves _ _ _ _ _) fun stored => ?_
  refine Attempt.Moves.ite ?_ (Attempt.Moves.pure _)
  refine Attempt.Moves.bind (Attempt.Moves.commit (fun s b s' h e he => ?_) _)
    fun _ => Attempt.Moves.raise
  exact Tables.version_deleteParent h he

/-! ## Where an ingestion raises -/

/-- Every embedded chunk's call goes through. -/
def Stores (w : World V) (chunks : List Chunk) : Prop :=
  ∀ chunk ∈ chunks, (w.embedText chunk).isSome → w.insertChunk chunk = .passes

theorem Stores.tail {chunk : Chunk} {chunks : List Chunk} (h : Stores w (chunk :: chunks)) :
    Stores w chunks := fun c hc => h c (List.mem_cons_of_mem _ hc)

/-- With nothing raising, the stored chunks are the embedded ones. -/
theorem storeChunks_eq (filename : Str) (metadata : Metadata) {documentId : Str}
    {chunks : List Chunk} (stored : ℕ) (hid : documentId ∈ s.keys) (h : Stores w chunks) :
    ∃ s', storeChunks w documentId filename metadata chunks stored s =
      (some (stored + chunks.countP fun chunk => (w.embedText chunk).isSome), s') := by
  induction chunks generalizing stored s with
  | nil => exact ⟨s, rfl⟩
  | cons chunk chunks ih =>
    unfold storeChunks
    cases hembed : w.embedText chunk with
    | none =>
      obtain ⟨s', hs'⟩ := ih stored hid h.tail
      exact ⟨s', by simpa [hembed] using hs'⟩
    | some embedding =>
      obtain ⟨⟨u, s₁⟩, h₁⟩ := Option.isSome_iff_exists.1
        (Tables.isSome_insertChild (ChunkRow.mk documentId filename chunk.chunkIndex
          chunk.text chunk.tokenCount embedding metadata) hid)
      have hpass := h chunk List.mem_cons_self (by simp [hembed])
      obtain ⟨s', hs'⟩ := ih (stored + 1)
        (Tables.keys_insertChild h₁ ▸ hid) h.tail
      refine ⟨s', ?_⟩
      dsimp only
      rw [hpass, Attempt.bind_apply_of_some (Attempt.commit_passes h₁), hs']
      simp [hembed]
      omega

/-- A call that does not go through raises. -/
theorem storeChunks_fails {documentId filename : Str} {metadata : Metadata} {chunks : List Chunk}
    {stored : ℕ} (h : ¬ Stores w chunks) :
    (storeChunks w documentId filename metadata chunks stored).Fails s := by
  induction chunks generalizing stored s with
  | nil => exact absurd (fun _ hc => absurd hc List.not_mem_nil) h
  | cons chunk chunks ih =>
    unfold storeChunks
    cases hembed : w.embedText chunk with
    | none =>
      refine ih fun hs => h fun c hc => ?_
      rcases List.mem_cons.1 hc with rfl | hc
      · simp [hembed]
      · exact hs c hc
    | some embedding =>
      by_cases hpass : w.insertChunk chunk = .passes
      · refine Attempt.fails_bind fun _ s' _ => ih fun hs => h fun c hc => ?_
        rcases List.mem_cons.1 hc with rfl | hc
        · exact fun _ => hpass
        · exact hs c hc
      · exact Attempt.fails_bind_left (Attempt.fails_commit hpass)

/-- No stage of an ingestion raises: the guardrails pass the cleaned text on, it has a chunk, at
least one chunk is embedded, and the backend takes the document and every embedded chunk. -/
structure Goes (rag : Engine) (w : World V) (text : Str) : Prop where
  guarded : ∃ t, runGuardrails text rag.inputGuardrails = some t ∧
    (∃ chunk ∈ rag.chunkText w t, (w.embedText chunk).isSome) ∧ Stores w (rag.chunkText w t)
  inserted : w.insertDocument = .passes

/-- The stages are the only ones to raise. -/
theorem ingestText_fails_iff {filename text : Str} {metadata : Metadata} {sanitize : Bool}
    (hfresh : w.uuid4 ∉ s.keys) :
    (rag.ingestText w filename text metadata sanitize).Fails s ↔
      ¬ Goes rag w (if sanitize then sanitizeText w text else text) := by
  unfold Engine.ingestText
  generalize (if sanitize then sanitizeText w text else text) = t₀
  dsimp only
  cases hguard : runGuardrails t₀ rag.inputGuardrails with
  | none =>
    refine iff_of_true rfl fun h => ?_
    obtain ⟨t, ht, -⟩ := h.guarded
    rw [hguard] at ht
    cases ht
  | some t =>
    have hgoes : Goes rag w t₀ ↔ (∃ chunk ∈ rag.chunkText w t, (w.embedText chunk).isSome) ∧
        Stores w (rag.chunkText w t) ∧ w.insertDocument = .passes := by
      constructor
      · rintro ⟨⟨t', ht', hsome, hstores⟩, hins⟩
        rw [hguard] at ht'
        cases ht'
        exact ⟨hsome, hstores, hins⟩
      · rintro ⟨hsome, hstores, hins⟩
        exact ⟨⟨t, hguard, hsome, hstores⟩, hins⟩
    rw [hgoes, Attempt.ofOption_some, Attempt.pure_bind]
    split
    case isTrue hnil =>
      refine iff_of_true rfl ?_
      rintro ⟨⟨chunk, hchunk, -⟩, -⟩
      rw [hnil] at hchunk
      cases hchunk
    case isFalse hne =>
      by_cases hins : w.insertDocument = .passes
      case neg =>
        exact iff_of_true (Attempt.fails_bind_left (Attempt.fails_commit hins)) fun h => hins h.2.2
      obtain ⟨⟨u, s₁⟩, h₁⟩ := Option.isSome_iff_exists.1
        (Tables.isSome_insertParent (DocumentRow.mk w.uuid4 filename metadata) hfresh)
      rw [hins, Attempt.fails_bind_of_some (Attempt.commit_passes h₁)]
      by_cases hstores : Stores w (rag.chunkText w t)
      case neg =>
        exact iff_of_true (Attempt.fails_bind_left (storeChunks_fails hstores))
          fun h => hstores h.2.1
      obtain ⟨s₂, h₂⟩ := storeChunks_eq filename metadata 0
        (Tables.mem_keys_insertParent h₁) hstores
      rw [Attempt.fails_bind_of_some h₂, Nat.zero_add]
      split
      case isTrue hzero =>
        refine iff_of_true (Attempt.fails_bind fun _ _ _ => rfl) ?_
        rintro ⟨⟨chunk, hchunk, hsome⟩, -⟩
        exact List.countP_eq_zero.1 hzero chunk hchunk hsome
      case isFalse hpos =>
        refine iff_of_false (Attempt.not_fails_pure _ _) (not_not.2 ⟨?_, hstores, rfl⟩)
        exact List.countP_pos_iff.1 (Nat.pos_of_ne_zero hpos)

/-! ## Replacing a document -/

/-- An update that raises cannot have lost the stored version: there is none, the filename is not
found or its lookup raises, the deletion raises without having been carried out, or nothing after
the deletion raises. -/
def Spared (rag : Engine) (w : World V) (s : VectorStore V) (documentId text : Str)
    (filename : Option Str) : Prop :=
  documentId ∉ s.keys ∨ (filename = none ∧ w.getDocumentFilename ≠ .passes) ∨
    w.deleteDocument = .raises false ∨
    (w.deleteDocument = .passes ∧ Goes rag w (sanitizeText w text))

/-- The filename of a stored document is found unless its lookup raises. -/
theorem updatedFilename_cases {documentId : Str} (hd : documentId ∈ s.keys)
    (filename : Option Str) :
    (∃ name, updatedFilename w documentId filename s = (some name, s) ∧
      ¬ (filename = none ∧ w.getDocumentFilename ≠ .passes)) ∨
    (updatedFilename w documentId filename s = (none, s) ∧
      filename = none ∧ w.getDocumentFilename ≠ .passes) := by
  cases filename with
  | some name => exact .inl ⟨name, rfl, fun h => by cases h.1⟩
  | none =>
    cases hread : w.getDocumentFilename with
    | passes =>
      obtain ⟨name, hname⟩ := Option.ne_none_iff_exists'.1
        (mt VectorStore.getDocumentFilename_eq_none_iff.1 (not_not.2 hd))
      refine .inl ⟨name, ?_, fun h => h.2 rfl⟩
      rw [updatedFilename, hread, Attempt.bind_apply_of_some (Attempt.read_passes _ _), hname]
      rfl
    | raises committed =>
      refine .inr ⟨?_, rfl, nofun⟩
      rw [updatedFilename, hread, Attempt.bind_apply_of_none (Attempt.read_raises _ _ _)]

/-- Once the deletion is in, the stored version is gone for good. -/
theorem not_keeps_of_deleted {documentId : Str} {s₁ s₂ : VectorStore V} {b : Bool}
    (hd : documentId ∈ s.keys) (hdel : VectorStore.deleteDocument documentId s = some (b, s₁))
    (h : s₂.version documentId = s₁.version documentId) : ¬ s.Keeps s₂ documentId := by
  refine Tables.not_keeps hd (Tables.version_eq_nil_iff.1 ?_)
  rw [h]
  exact Tables.version_eq_nil_iff.2 (Tables.not_mem_keys_deleteParent hdel)

/-- **Replacing a document.** When an update raises, all that was stored of the document is still
there, exactly under the condition `Spared`. -/
theorem updateDocument_keeps_iff (rag : Engine) (w : World V) (s : VectorStore V)
    (documentId text : Str) (filename : Option Str) (hfresh : w.uuid4 ∉ s.keys) :
    ((rag.updateDocument w documentId text filename).Fails s →
      s.Keeps (rag.updateDocument w documentId text filename s).2 documentId) ↔
      Spared rag w s documentId text filename := by
  by_cases hd : documentId ∈ s.keys
  case neg => exact iff_of_true (fun _ => Tables.keeps_of_not_mem hd _) (.inl hd)
  unfold Engine.updateDocument Spared
  rcases updatedFilename_cases hd filename with ⟨name, hname, hfound⟩ | ⟨hname, hlost⟩
  case inr =>
    rw [Attempt.bind_apply_of_none hname]
    exact iff_of_true (fun _ => Tables.keeps_of_version_eq rfl) (.inr (.inl hlost))
  rw [Attempt.bind_apply_of_some hname, Attempt.fails_bind_of_some hname]
  obtain ⟨⟨b, s₁⟩, hdel⟩ : ∃ r, VectorStore.deleteDocument documentId s = some r := ⟨_, rfl⟩
  rcases hfate : w.deleteDocument with _ | _ | _
  · -- the deletion is in, and the new text is ingested
    rw [Attempt.bind_apply_of_some (Attempt.commit_passes hdel),
      Attempt.fails_bind_of_some (Attempt.commit_passes hdel),
      ingestText_fails_iff fun h => hfresh (Tables.keys_deleteParent_subset hdel h)]
    have hkept := ingestText_moves rag w name text [] true s₁ documentId
      (fun h => hfresh (h ▸ hd))
    have hgone := not_keeps_of_deleted hd hdel hkept
    constructor
    · intro h
      refine .inr (.inr (.inr ⟨rfl, ?_⟩))
      by_contra hgoes
      exact hgone (h hgoes)
    · rintro (h | h | h | ⟨-, hgoes⟩) hfails
      · exact absurd hd h
      · exact absurd h hfound
      · cases h
      · exact absurd hgoes hfails
  · -- it raised before its change was in
    rw [Attempt.bind_apply_of_none (Attempt.commit_raises_uncommitted _ _)]
    exact iff_of_true (fun _ => Tables.keeps_of_version_eq rfl) (.inr (.inr (.inl rfl)))
  · -- it raised with its change in
    have hraise := Attempt.commit_raises_committed hdel
    rw [Attempt.bind_apply_of_none hraise]
    have hgone := not_keeps_of_deleted hd hdel rfl
    refine iff_of_false (fun h => hgone (h (Attempt.fails_bind_left ?_))) ?_
    · rw [Attempt.Fails, hraise]
    · rintro (h | h | h | ⟨h, -⟩)
      · exact h hd
      · exact hfound h
      · cases h
      · cases h

/-- An outside in which nothing raises. -/
def World.calm : World ℕ where
  isControl _ := false
  realTokenCount text := text.words.length
  embedText _ := some 0
  uuid4 := ['2']
  getDocumentFilename := .passes
  deleteDocument := .passes
  insertDocument := .passes
  insertChunk _ := .passes
  deleteEmpty := .passes

/-- A store with one document of one chunk. -/
def oneDocument : VectorStore ℕ where
  parents := [⟨['1'], ['a'], []⟩]
  children := [⟨['1'], ['a'], 0, ['o', 'l', 'd'], 1, 0, []⟩]
  nodup := by decide
  foreign c hc := by
    rw [List.mem_singleton.1 hc]
    decide

/-- The condition at work: with nothing raising, a document is replaced by a text of one word. -/
theorem updateDocument_keeps_iff_word :
    ((Engine.updateDocument ⟨.default, []⟩ .calm ['1'] ['n', 'e', 'w'] none).Fails oneDocument →
      oneDocument.Keeps (Engine.updateDocument ⟨.default, []⟩ .calm ['1'] ['n', 'e', 'w'] none
        oneDocument).2 ['1']) ↔
      Spared ⟨.default, []⟩ .calm oneDocument ['1'] ['n', 'e', 'w'] none :=
  updateDocument_keeps_iff _ _ _ _ _ _ (by decide)

/-- Replacing a document by an empty text raises, and the stored version is lost. -/
theorem empty_update_loses_document :
    ¬ ∀ (rag : Engine) (w : World ℕ) (s : VectorStore ℕ) (documentId text : Str)
      (filename : Option Str), w.uuid4 ∉ s.keys →
        (rag.updateDocument w documentId text filename).Fails s →
        s.Keeps (rag.updateDocument w documentId text filename s).2 documentId := by
  intro h
  have hkept := h ⟨.default, []⟩ .calm oneDocument ['1'] [] none (by decide) (by decide)
  have hgone : ['1'] ∉ (Engine.updateDocument ⟨.default, []⟩ .calm ['1'] [] none
      oneDocument).2.keys := by decide
  exact Tables.not_keeps (by decide) hgone hkept

end RagLeap.Rag
