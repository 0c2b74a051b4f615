import RagLeap.Foundations.Decimal
import RagLeap.Rag.VectorStore

/-!
# What the vector backends have in common

The arguments of `insert_chunk`, and the key `document_id:chunk_index` that most backends store a
chunk under. The key determines both parts, whatever stands in the document id
(`vectorKey_inj`); a key may begin like those of another document (`prefix_vectorKey_iff`).
-/

namespace RagLeap.Rag

/-- The arguments of `insert_chunk`; `V` is the type of embeddings. -/
structure NewChunk (V : Type) where
  documentId : Str
  documentName : Str
  chunkIndex : ℤ
  text : Str
  tokenCount : ℤ
  embedding : V
  metadata : Metadata

/-- `f"{document_id}:{chunk_index}"`. -/
def vectorKey (documentId : Str) (chunkIndex : ℤ) : Str := documentId ++ ':' :: Str.ofInt chunkIndex

/-- The key of a chunk. -/
def NewChunk.key {V : Type} (chunk : NewChunk V) : Str :=
  vectorKey chunk.documentId chunk.chunkIndex

/-- `{**own, **metadata}`: the caller's metadata replace fields of the same name. -/
def merge (own metadata : Metadata) : Metadata :=
  own.filter (fun e => e.1 ∉ metadata.map Prod.fst) ++ metadata

/-- `own.setdefault(key, value)` for all metadata: they never replace a field. -/
def setDefaults (own metadata : Metadata) : Metadata :=
  own ++ metadata.filter fun e => e.1 ∉ own.map Prod.fst

/-- The fields every backend sends with a chunk. -/
def NewChunk.fields {V : Type} (chunk : NewChunk V) : Metadata :=
  [("document_id".toList, .str chunk.documentId),
    ("document_name".toList, .str chunk.documentName),
    ("chunk_index".toList, .int chunk.chunkIndex)]

/-! ## Fields and metadata -/

theorem lookup_merge (own metadata : Metadata) (name : Str) :
    (merge own metadata).lookup name = (metadata.lookup name).or (own.lookup name) := by
  unfold merge
  rw [List.lookup_append]
  cases h : metadata.lookup name with
  | none =>
    have hnot : name ∉ metadata.map Prod.fst := by
      intro hmem
      obtain ⟨e, he, rfl⟩ := List.mem_map.1 hmem
      have hne := List.lookup_eq_none_iff.1 h e he
      simp at hne
    rw [Option.or_none, Option.none_or]
    induction own with
    | nil => rfl
    | cons e own ih =>
      by_cases hkey : name = e.1
      · have hkeep : e.1 ∉ metadata.map Prod.fst := hkey ▸ hnot
        rw [List.filter_cons_of_pos (by simpa using hkeep)]
        obtain ⟨k, v⟩ := e
        subst hkey
        simp
      · obtain ⟨k, v⟩ := e
        have hbeq : (name == k) = false := beq_eq_false_iff_ne.2 hkey
        rw [List.lookup_cons, hbeq, List.filter_cons]
        split
        · rw [List.lookup_cons, hbeq]
          exact ih
        · exact ih
  | some v =>
    have hmem : name ∈ metadata.map Prod.fst := by
      obtain ⟨l₁, l₂, hl, -⟩ := List.lookup_eq_some_iff.1 h
      rw [hl]
      simp
    have hnone : (own.filter fun e => e.1 ∉ metadata.map Prod.fst).lookup name = none := by
      apply List.lookup_eq_none_iff.2
      intro e he
      apply bne_iff_ne.2
      rintro rfl
      exact of_decide_eq_true (List.mem_filter.1 he).2 hmem
    rw [hnone, Option.none_or, Option.some_or]

theorem lookup_setDefaults {own metadata : Metadata} {name : Str} {v : Json}
    (h : own.lookup name = some v) : (setDefaults own metadata).lookup name = some v := by
  rw [setDefaults, List.lookup_append, h, Option.some_or]

/-! ## Keys -/

theorem colon_not_mem_ofInt (n : ℤ) : ':' ∉ Str.ofInt n := by
  intro h
  rcases Str.ofInt_ne_sign h with h | h
  · cases h
  · cases h

/-- Text is split at its last colon in one way. -/
theorem append_colon_inj {a b s t : Str} (hs : ':' ∉ s) (ht : ':' ∉ t)
    (h : a ++ ':' :: s = b ++ ':' :: t) : a = b ∧ s = t := by
  have htail : ∀ {a s : Str}, ':' ∉ s →
      ((a ++ ':' :: s).reverse.takeWhile (· ≠ ':')).reverse = s := by
    intro a s hs
    rw [List.reverse_append, List.reverse_cons, List.append_assoc, List.takeWhile_append_of_pos]
    · simp
    · intro c hc
      refine decide_eq_true fun hcolon => hs ?_
      rw [← hcolon]
      exact List.mem_reverse.1 hc
  have hst : s = t := by rw [← htail (a := a) hs, h, htail ht]
  subst hst
  exact ⟨List.append_cancel_right h, rfl⟩

theorem vectorKey_inj {d e : Str} {i j : ℤ} : vectorKey d i = vectorKey e j ↔ d = e ∧ i = j := by
  constructor
  · intro h
    obtain ⟨hd, hi⟩ := append_colon_inj (colon_not_mem_ofInt i) (colon_not_mem_ofInt j) h
    exact ⟨hd, Str.ofInt_injective hi⟩
  · rintro ⟨rfl, rfl⟩
    rfl

/-- The keys that begin like those of `d` are its own, and those of every document whose id begins
like that. -/
theorem prefix_vectorKey_iff {d e : Str} {i : ℤ} :
    d ++ [':'] <+: vectorKey e i ↔ d = e ∨ d ++ [':'] <+: e := by
  have hkey : vectorKey e i = (e ++ [':']) ++ Str.ofInt i := by simp [vectorKey]
  rw [hkey]
  constructor
  · intro h
    rcases List.prefix_or_prefix_of_prefix h (List.prefix_append (e ++ [':']) _) with hle | hle
    · rcases List.prefix_concat_iff.1 hle with heq | hle
      · exact .inl (List.append_cancel_right heq)
      · exact .inr hle
    · obtain ⟨t, ht⟩ := hle
      obtain ⟨u, hu⟩ := h
      have htail : t ++ u = Str.ofInt i := by
        rw [← ht, List.append_assoc] at hu
        exact List.append_cancel_left hu
      rcases List.eq_nil_or_concat t with rfl | ⟨t', c, rfl⟩
      · rw [List.append_nil] at ht
        exact .inl (List.append_cancel_right ht).symm
      · have hlast := congrArg List.getLast? ht
        simp only [List.concat_eq_append, ← List.append_assoc, List.getLast?_append,
          List.getLast?_singleton, Option.some_or] at hlast
        have hc : c = ':' := Option.some.inj hlast
        refine absurd ?_ (colon_not_mem_ofInt i)
        rw [← htail, hc]
        simp
  · rintro (rfl | h)
    · exact List.prefix_append _ _
    · rw [List.append_assoc]
      exact h.trans (List.prefix_append _ _)

end RagLeap.Rag
