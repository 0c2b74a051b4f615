import RagLeap.Rag.Ingest

/-!
# An ingestion that raises

`ingest_text` stores its chunks one by one, and nothing takes them back when a later one raises.
`ingestText_whole_iff` says exactly when the chunks are those from before.
-/

namespace RagLeap.Rag

variable {V : Type} {rag : Engine} {w : World V} {s : VectorStore V}

/-- Children are only added, at the end. -/
def Appends (s s' : VectorStore V) : Prop := s.children <+: s'.children

instance : Std.Refl (Appends (V := V)) := ⟨fun s => List.prefix_refl s.children⟩

instance : IsTrans (VectorStore V) Appends := ⟨fun _ _ _ h h' => h.trans h'⟩

theorem storeChunks_appends (documentId filename : Str) (metadata : Metadata)
    (chunks : List Chunk) (stored : ℕ) :
    (storeChunks w documentId filename metadata chunks stored).Moves Appends := by
  induction chunks generalizing stored with
  | nil => exact Attempt.Moves.pure stored
  | cons chunk chunks ih =>
    unfold storeChunks
    split
    · exact ih stored
    · apply Attempt.Moves.bind
      · apply Attempt.Moves.commit
        intro s u s' h
        rw [Appends, (Tables.insertChild_eq_some h).2]
        exact List.prefix_append _ _
      · intro _
        exact ih (stored + 1)

/-- The first chunk that is embedded, if any. -/
def firstEmbedded (w : World V) (chunks : List Chunk) : Option Chunk :=
  chunks.find? fun chunk => (w.embedText chunk).isSome

theorem firstEmbedded_cons_none {chunk : Chunk} {chunks : List Chunk}
    (h : w.embedText chunk = none) :
    firstEmbedded w (chunk :: chunks) = firstEmbedded w chunks := by
  simp [firstEmbedded, h]

theorem firstEmbedded_cons_some {chunk : Chunk} {chunks : List Chunk} {v : V}
    (h : w.embedText chunk = some v) : firstEmbedded w (chunk :: chunks) = some chunk := by
  simp [firstEmbedded, h]

/-- No embedded chunk gets into the store: there is none, or storing the first one raises and its
change is not in. -/
def StoresNone (w : World V) (chunks : List Chunk) : Prop :=
  ∀ chunk, firstEmbedded w chunks = some chunk → w.insertChunk chunk = .raises false

theorem storeChunks_children_iff {documentId filename : Str} {metadata : Metadata}
    {chunks : List Chunk} {stored : ℕ} (hid : documentId ∈ s.keys) :
    (storeChunks w documentId filename metadata chunks stored s).2.children = s.children ↔
      StoresNone w chunks := by
  induction chunks generalizing stored s with
  | nil =>
    refine iff_of_true rfl ?_
    intro chunk h
    cases h
  | cons chunk chunks ih =>
    unfold storeChunks
    cases hembed : w.embedText chunk with
    | none =>
      rw [StoresNone, firstEmbedded_cons_none hembed]
      exact ih hid
    | some embedding =>
      have hfirst : StoresNone w (chunk :: chunks) ↔ w.insertChunk chunk = .raises false := by
        rw [StoresNone, firstEmbedded_cons_some hembed]
        simp
      rw [hfirst]
      dsimp only
      obtain ⟨⟨u, s₁⟩, h₁⟩ := Option.isSome_iff_exists.1
        (Tables.isSome_insertChild (ChunkRow.mk documentId filename chunk.chunkIndex
          chunk.text chunk.tokenCount embedding metadata) hid)
      have hlonger : s.children.length < s₁.children.length := by
        simp [(Tables.insertChild_eq_some h₁).2]
      rcases hfate : w.insertChunk chunk with _ | _ | _
      · rw [Attempt.bind_apply_of_some (Attempt.commit_passes h₁)]
        refine iff_of_false (fun h => ?_) (by simp)
        have happ := storeChunks_appends (w := w) documentId filename metadata chunks (stored + 1) s₁
        have hle := List.IsPrefix.length_le happ
        rw [h] at hle
        omega
      · rw [Attempt.bind_apply_of_none (Attempt.commit_raises_uncommitted _ _)]
        exact iff_of_true rfl rfl
      · rw [Attempt.bind_apply_of_none (Attempt.commit_raises_committed h₁)]
        refine iff_of_false (fun h => ?_) (by simp)
        dsimp only at h
        rw [h] at hlonger
        omega

/-- If storing begins, then it goes through for every embedded chunk or stores none. -/
def Whole (rag : Engine) (w : World V) (s : VectorStore V) (text : Str) : Prop :=
  ∀ t, runGuardrails text rag.inputGuardrails = some t → w.uuid4 ∉ s.keys →
    w.insertDocument = .passes →
      Stores w (rag.chunkText w t) ∨ StoresNone w (rag.chunkText w t)

theorem commit_delete_children {k : Str} (o : Fate) (h : ∀ c ∈ s.children, c.documentId ≠ k) :
    (Attempt.commit o (VectorStore.deleteDocument k) s).2.children = s.children := by
  have hkept : s.children.filter (fun c => decide (c.documentId ≠ k)) = s.children :=
    List.filter_eq_self.2 fun c hc => by simpa using h c hc
  obtain ⟨⟨b, s₁⟩, hdel⟩ : ∃ r, VectorStore.deleteDocument k s = some r := ⟨_, rfl⟩
  have hchildren := (Tables.deleteParent_eq_some hdel).2
  rcases o with _ | _ | _
  · rw [Attempt.commit_passes hdel, hchildren, hkept]
  · rw [Attempt.commit_raises_uncommitted]
  · rw [Attempt.commit_raises_committed hdel, hchildren, hkept]

/-- The end of `ingest_text`: with no chunk stored, the document is deleted again. -/
def conclude (w : World V) (k : Str) (stored : ℕ) : Attempt (VectorStore V) IngestResult :=
  if stored = 0 then
    Attempt.commit w.deleteEmpty (VectorStore.deleteDocument k) >>= fun _ => Attempt.raise
  else pure ⟨k, stored⟩

/-- The chunks of a new document, stored one by one. -/
theorem stored_whole_iff {k filename : Str} {metadata : Metadata} {chunks : List Chunk}
    (hid : k ∈ s.keys) (hnone : ∀ c ∈ s.children, c.documentId ≠ k) :
    ((storeChunks w k filename metadata chunks 0 >>= conclude w k).Fails s →
      ((storeChunks w k filename metadata chunks 0 >>= conclude w k) s).2.children =
        s.children) ↔
      Stores w chunks ∨ StoresNone w chunks := by
  by_cases hstores : Stores w chunks
  case neg =>
    have hfails : (storeChunks w k filename metadata chunks 0).Fails s := storeChunks_fails hstores
    obtain ⟨s₂, h₂⟩ : ∃ s₂, storeChunks w k filename metadata chunks 0 s = (none, s₂) :=
      ⟨_, Prod.ext hfails rfl⟩
    have hkept : (storeChunks w k filename metadata chunks 0 s).2.children = s.children ↔
        StoresNone w chunks := storeChunks_children_iff hid
    rw [Attempt.bind_apply_of_none h₂]
    rw [h₂] at hkept
    rw [hkept]
    constructor
    · intro h
      exact .inr (h (Attempt.fails_bind_left hfails))
    · rintro (h | h) _
      · exact absurd h hstores
      · exact h
  obtain ⟨s₂, h₂⟩ := storeChunks_eq filename metadata 0 hid hstores
  rw [Nat.zero_add] at h₂
  refine iff_of_true ?_ (.inl hstores)
  rw [Attempt.fails_bind_of_some h₂, Attempt.bind_apply_of_some h₂]
  by_cases hzero : (chunks.countP fun chunk => (w.embedText chunk).isSome) = 0
  · have hempty : StoresNone w chunks := by
      intro chunk hfirst
      have hsome := List.find?_some hfirst
      exact absurd hsome (List.countP_eq_zero.1 hzero chunk (List.mem_of_find?_eq_some hfirst))
    have hkept : (storeChunks w k filename metadata chunks 0 s).2.children = s.children :=
      (storeChunks_children_iff hid).2 hempty
    rw [h₂] at hkept
    intro _
    rw [conclude, if_pos hzero]
    rw [← hkept]
    have hdelete := commit_delete_children (s := s₂) (k := k) w.deleteEmpty
      (by rw [hkept]; exact hnone)
    rcases hc : Attempt.commit w.deleteEmpty (VectorStore.deleteDocument k) s₂ with ⟨_ | b, s₃⟩
    · rw [Attempt.bind_apply_of_none hc]
      rwa [hc] at hdelete
    · rw [Attempt.bind_apply_of_some hc]
      rwa [hc] at hdelete
  · rw [conclude, if_neg hzero]
    intro h
    exact absurd h (Attempt.not_fails_pure _ _)

/-- **`ingest_text` is all or nothing** exactly under the condition `Whole`. -/
theorem ingestText_whole_iff (rag : Engine) (w : World V) (s : VectorStore V)
    (filename text : Str) (metadata : Metadata) (sanitize : Bool) :
    ((rag.ingestText w filename text metadata sanitize).Fails s →
      (rag.ingestText w filename text metadata sanitize s).2.children = s.children) ↔
      Whole rag w s (if sanitize then sanitizeText w text else text) := by
  unfold Engine.ingestText Whole
  generalize (if sanitize then sanitizeText w text else text) = t₀
  dsimp only
  cases hguard : runGuardrails t₀ rag.inputGuardrails with
  | none => exact iff_of_true (fun _ => rfl) nofun
  | some t =>
    rw [Attempt.ofOption_some, Attempt.pure_bind]
    split
    case isTrue hnil =>
      refine iff_of_true (fun _ => rfl) ?_
      intro t' ht' _ _
      cases ht'
      rw [hnil]
      exact .inl fun c hc => absurd hc List.not_mem_nil
    case isFalse hne =>
      by_cases hfresh : w.uuid4 ∈ s.keys
      case pos =>
        have hrefused : Tables.insertParent (DocumentRow.mk w.uuid4 filename metadata) s = none :=
          dif_pos hfresh
        rw [Attempt.bind_apply_of_none (Attempt.commit_refused hrefused _)]
        exact iff_of_true (fun _ => rfl) fun _ _ hnew => absurd hfresh hnew
      obtain ⟨⟨u, s₁⟩, h₁⟩ := Option.isSome_iff_exists.1
        (Tables.isSome_insertParent (DocumentRow.mk w.uuid4 filename metadata) hfresh)
      have hsame : s₁.children = s.children := (Tables.insertParent_eq_some h₁).2.2
      have hwhole : (∀ t', some t = some t' → w.uuid4 ∉ s.keys → w.insertDocument = .passes →
            Stores w (rag.chunkText w t') ∨ StoresNone w (rag.chunkText w t')) ↔
          (w.insertDocument = .passes →
            Stores w (rag.chunkText w t) ∨ StoresNone w (rag.chunkText w t)) := by
        constructor
        · intro h hins
          exact h t rfl hfresh hins
        · rintro h t' ⟨⟩ - hins
          exact h hins
      rw [hwhole]
      rcases hfate : w.insertDocument with _ | _ | _
      · rw [Attempt.bind_apply_of_some (Attempt.commit_passes h₁),
          Attempt.fails_bind_of_some (Attempt.commit_passes h₁), ← hsame]
        have hmem : w.uuid4 ∈ s₁.keys := Tables.mem_keys_insertParent h₁
        have hnone : ∀ c ∈ s₁.children, c.documentId ≠ w.uuid4 := by
          intro c hc heq
          have hparent := s.foreign c (hsame ▸ hc)
          rw [heq] at hparent
          exact hfresh hparent
        exact (stored_whole_iff hmem hnone).trans ⟨fun h _ => h, fun h => h rfl⟩
      · rw [Attempt.bind_apply_of_none (Attempt.commit_raises_uncommitted _ _)]
        exact iff_of_true (fun _ => rfl) nofun
      · rw [Attempt.bind_apply_of_none (Attempt.commit_raises_committed h₁)]
        exact iff_of_true (fun _ => hsame) nofun

/-- Storing the second chunk raises. -/
def World.secondRaises : World ℕ :=
  { World.calm with insertChunk := fun c => if c.chunkIndex = 1 then .raises false else .passes }

/-- Two chunks of one word, and storing the second one raises: the first one stays. -/
theorem first_chunk_stays :
    ¬ ∀ (rag : Engine) (w : World ℕ) (s : VectorStore ℕ) (filename text : Str)
      (metadata : Metadata) (sanitize : Bool),
      (rag.ingestText w filename text metadata sanitize).Fails s →
        (rag.ingestText w filename text metadata sanitize s).2.children = s.children := by
  intro h
  have hkept := h ⟨⟨1, 0, by decide⟩, []⟩ .secondRaises Tables.empty ['n'] ['a', ' ', 'b'] [] true
    (by decide)
  have hone : ((Engine.ingestText ⟨⟨1, 0, by decide⟩, []⟩ .secondRaises ['n'] ['a', ' ', 'b'] []
      true (Tables.empty : VectorStore ℕ)).2.children).length = 1 := by decide
  rw [hkept] at hone
  cases hone

end RagLeap.Rag
