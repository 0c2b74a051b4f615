import RagLeap.Rag.RankFusion

/-!
# Hybrid retrieval

`search_hybrid_chunks`, of the package and of the core, fuses a dense and a sparse list of chunks
and sorts them by their fused scores rounded to six digits; the core raises the chunks of linked
documents afterwards. The chunks come out of a set, so those of one score are in no given order.

`hybrid_monotone_iff`: a chunk that dominates another is certain to be before it just when the
graph lifts it alone, or both or neither and the rounded scores differ. They do as long as neither
list has more than `939` chunks (`fusedScore_ne_of_length_le`); `Sample.tie` has two that do not.
-/

namespace RagLeap.Retrieval

open Binary64 (fl roundDigits)
open RankFusion (Dominates rrfScore)

/-! ## The code -/

def Found.ids (f : Found) : List Str := f.chunks.map Chunk.chunkId

/-- The default of `HYBRID_RRF_K`. -/
def RRF_K : ℕ := 60

/-- The chunks of `chunk_lookup`: of a chunk in both lists, that of the dense one. -/
def merged (dense sparse : Found) : List Chunk :=
  dense.chunks ++ sparse.chunks.filter fun c => c.chunkId ∉ dense.ids

/-- The chunks in the order in which the set of their ids happens to be gone through. -/
structure Listing (dense sparse : Found) where
  chunks : List Chunk
  perm : chunks.Perm (merged dense sparse)

/-- `round(rrf_scores[chunk_id], 6)`. -/
def fusedScore (k : ℕ) (dense sparse : Found) (chunkId : Str) : ℚ :=
  roundDigits 6 (rrfScore k [dense.ids, sparse.ids] chunkId)

/-- A chunk of the results. -/
def fusedChunk (k : ℕ) (dense sparse : Found) (c : Chunk) : Chunk :=
  { c with similarityScore := fusedScore k dense sparse c.chunkId,
           retrievalMethod := some "hybrid_rrf".toList }

/-- The results, sorted. -/
def fuse (k : ℕ) (dense sparse : Found) (order : Listing dense sparse) : List Chunk :=
  sortDesc Chunk.similarityScore (order.chunks.map (fusedChunk k dense sparse))

/-- `search_hybrid_chunks` of the package, after the two searches. -/
def packageSearchHybridChunks (k : ℕ) (dense sparse : Found) (order : Listing dense sparse)
    (topK : ℕ) : List Chunk :=
  (fuse k dense sparse order).take topK

/-- The linked documents; `none` if a call raises. -/
def directDocuments (graph : GraphService) (queryText : Str) : Option (List Str) := do
  let entities ← graph.extractQueryEntities queryText
  if entities = [] then some [] else graph.findDocumentsByEntities entities

/-- The loop body over the results. -/
def lift (linked : List Str) (graphBoost : ℚ) (c : Chunk) : Chunk :=
  if c.documentId ∈ linked then
    { c with similarityScore := fl (c.similarityScore + graphBoost), graphBoosted := true }
  else c

/-- The graph stage. -/
def liftLinked (graph : GraphService) (queryText : Str) (useGraph : Bool) (graphBoost : ℚ)
    (results : List Chunk) : List Chunk :=
  if useGraph then
    match directDocuments graph queryText with
    | some linked => sortDesc Chunk.similarityScore (results.map (lift linked graphBoost))
    | none => results
  else results

/-- `search_hybrid_chunks` of the core, after the two searches. -/
def searchHybridChunks (k : ℕ) (graph : GraphService) (queryText : Str) (useGraph : Bool)
    (graphBoost : ℚ) (dense sparse : Found) (order : Listing dense sparse) (topK : ℕ) :
    List Chunk :=
  (liftLinked graph queryText useGraph graphBoost (fuse k dense sparse order)).take topK

/-! ## The order of the results -/

section

variable {k : ℕ} {dense sparse : Found} {order : Listing dense sparse} {linked : List Str}
  {graphBoost : ℚ} {a b c : Chunk}

theorem nodup_ids_merged (dense sparse : Found) :
    ((merged dense sparse).map Chunk.chunkId).Nodup := by
  rw [merged, List.map_append, List.nodup_append]
  refine ⟨dense.nodup, sparse.nodup.sublist (List.filter_sublist.map _), ?_⟩
  rintro x hx y hy rfl
  obtain ⟨c, hc, rfl⟩ := List.mem_map.1 hy
  exact of_decide_eq_true (List.mem_filter.1 hc).2 hx

theorem Listing.nodup_ids (order : Listing dense sparse) :
    (order.chunks.map Chunk.chunkId).Nodup :=
  (order.perm.map _).nodup_iff.2 (nodup_ids_merged dense sparse)

theorem Listing.nodup (order : Listing dense sparse) : order.chunks.Nodup := order.nodup_ids.of_map

/-- Any two chunks may come in the other order. -/
theorem exists_listing_not_before (dense sparse : Found) (a b : Chunk) :
    ∃ order : Listing dense sparse, ¬ Before order.chunks a b := by
  by_cases h : Before (merged dense sparse) a b
  · refine ⟨⟨(merged dense sparse).reverse, List.reverse_perm _⟩, fun hrev => ?_⟩
    have hba : Before (merged dense sparse) b a := by
      have := List.Sublist.reverse hrev
      rwa [List.reverse_reverse] at this
    exact h.not_before (nodup_ids_merged dense sparse).of_map hba
  · exact ⟨⟨merged dense sparse, List.Perm.refl _⟩, h⟩

/-- The score of a chunk after the graph stage. -/
def finalScore (k : ℕ) (dense sparse : Found) (linked : List Str) (graphBoost : ℚ) (c : Chunk) :
    ℚ :=
  (lift linked graphBoost (fusedChunk k dense sparse c)).similarityScore

theorem chunkId_lift : (lift linked graphBoost c).chunkId = c.chunkId := by
  rw [lift]
  split_ifs <;> rfl

/-- The documents whose chunks the graph stage lifts. -/
def liftedDocuments (graph : GraphService) (queryText : Str) (useGraph : Bool) : List Str :=
  if useGraph then (directDocuments graph queryText).getD [] else []

theorem ids_fuse : (fuse k dense sparse order).map Chunk.chunkId =
    (sortDesc (fun c => fusedScore k dense sparse c.chunkId) order.chunks).map Chunk.chunkId := by
  rw [fuse, sortDesc_map, List.map_map]
  rfl

theorem ids_lifted : (sortDesc Chunk.similarityScore
      ((fuse k dense sparse order).map (lift linked graphBoost))).map Chunk.chunkId =
    (sortDesc (finalScore k dense sparse linked graphBoost)
      (sortDesc (fun c => fusedScore k dense sparse c.chunkId) order.chunks)).map
        Chunk.chunkId := by
  rw [fuse, sortDesc_map, sortDesc_map, sortDesc_map, List.map_map, List.map_map]
  exact List.map_congr_left fun c _ => chunkId_lift

theorem nodup_ids_fuse : ((fuse k dense sparse order).map Chunk.chunkId).Nodup := by
  rw [ids_fuse, nodup_map_sortDesc]
  exact order.nodup_ids

/-- Each chunk comes once. -/
theorem nodup_ids_liftLinked (graph : GraphService) (queryText : Str) (useGraph : Bool) :
    ((liftLinked graph queryText useGraph graphBoost (fuse k dense sparse order)).map
      Chunk.chunkId).Nodup := by
  rw [liftLinked]
  split_ifs
  · cases directDocuments graph queryText with
    | some linked =>
      dsimp only
      rw [ids_lifted, nodup_map_sortDesc, ← ids_fuse]
      exact nodup_ids_fuse
    | none => exact nodup_ids_fuse
  · exact nodup_ids_fuse

section

variable (ha : a ∈ merged dense sparse) (hb : b ∈ merged dense sparse) (hne : a ≠ b)

include ha hb hne

theorem before_fuse_iff :
    Before ((fuse k dense sparse order).map Chunk.chunkId) a.chunkId b.chunkId ↔
      fusedScore k dense sparse b.chunkId < fusedScore k dense sparse a.chunkId ∨
        fusedScore k dense sparse b.chunkId = fusedScore k dense sparse a.chunkId ∧
          Before order.chunks a b := by
  rw [ids_fuse]
  exact before_map_sortDesc_iff (fun c : Chunk => fusedScore k dense sparse c.chunkId)
    order.nodup_ids (order.perm.mem_iff.2 ha) (order.perm.mem_iff.2 hb) hne

theorem before_lifted_iff : Before ((sortDesc Chunk.similarityScore
      ((fuse k dense sparse order).map (lift linked graphBoost))).map Chunk.chunkId)
        a.chunkId b.chunkId ↔
    finalScore k dense sparse linked graphBoost b < finalScore k dense sparse linked graphBoost a ∨
      finalScore k dense sparse linked graphBoost b =
          finalScore k dense sparse linked graphBoost a ∧
        Before ((fuse k dense sparse order).map Chunk.chunkId) a.chunkId b.chunkId := by
  have ha' := (mem_sortDesc fun c => fusedScore k dense sparse c.chunkId).2
    (order.perm.mem_iff.2 ha)
  have hb' := (mem_sortDesc fun c => fusedScore k dense sparse c.chunkId).2
    (order.perm.mem_iff.2 hb)
  have hn : ((sortDesc (fun c => fusedScore k dense sparse c.chunkId) order.chunks).map
      Chunk.chunkId).Nodup := ids_fuse ▸ nodup_ids_fuse
  rw [ids_lifted, ids_fuse, before_map_sortDesc_iff _ hn ha' hb' hne, before_map_iff hn ha' hb']

/-- The graph stage sorts by the final scores, and keeps the order of chunks where these agree. -/
theorem before_liftLinked_iff (graph : GraphService) (queryText : Str) (useGraph : Bool) :
    Before ((liftLinked graph queryText useGraph graphBoost (fuse k dense sparse order)).map
        Chunk.chunkId) a.chunkId b.chunkId ↔
      finalScore k dense sparse (liftedDocuments graph queryText useGraph) graphBoost b <
          finalScore k dense sparse (liftedDocuments graph queryText useGraph) graphBoost a ∨
        finalScore k dense sparse (liftedDocuments graph queryText useGraph) graphBoost b =
            finalScore k dense sparse (liftedDocuments graph queryText useGraph) graphBoost a ∧
          Before ((fuse k dense sparse order).map Chunk.chunkId) a.chunkId b.chunkId := by
  have hnone : ∀ c, finalScore k dense sparse [] graphBoost c =
      fusedScore k dense sparse c.chunkId := fun c => rfl
  have hplain : Before ((fuse k dense sparse order).map Chunk.chunkId) a.chunkId b.chunkId ↔
      finalScore k dense sparse [] graphBoost b < finalScore k dense sparse [] graphBoost a ∨
        finalScore k dense sparse [] graphBoost b = finalScore k dense sparse [] graphBoost a ∧
          Before ((fuse k dense sparse order).map Chunk.chunkId) a.chunkId b.chunkId := by
    rw [hnone, hnone, before_fuse_iff ha hb hne]
    tauto
  rw [liftLinked, liftedDocuments]
  split_ifs
  · cases directDocuments graph queryText with
    | some linked => exact before_lifted_iff ha hb hne
    | none => exact hplain
  · exact hplain

end

/-! ## Which chunk is first -/

theorem fusedScore_le {x y : Str} (h : Dominates [dense.ids, sparse.ids] x y) :
    fusedScore k dense sparse y ≤ fusedScore k dense sparse x :=
  Binary64.roundDigits_mono 6 (RankFusion.rrfScore_le h.1)

/-- With the default constant a fused score is a sixteenth at most. -/
theorem fusedScore_bounds (dense sparse : Found) (x : Str) :
    0 ≤ fusedScore RRF_K dense sparse x ∧ fusedScore RRF_K dense sparse x ≤ 1 / 16 := by
  obtain ⟨hlow, hhigh⟩ := RankFusion.rrfScore_le_pow dense.ids sparse.ids x
  have hzero : roundDigits 6 0 = 0 := by
    rw [roundDigits, zero_mul, ← Int.cast_zero, Binary64.roundEven_intCast, Int.cast_zero, zero_div,
      Binary64.fl_zero]
  have hsixteenth : roundDigits 6 (2 ^ (-4 : ℤ)) ≤ 1 / 16 := by
    have hdigits : (2 : ℚ) ^ (-4 : ℤ) * 10 ^ 6 = (62500 : ℤ) := by norm_num
    rw [roundDigits, hdigits, Binary64.roundEven_intCast]
    have hle := Binary64.fl_le_zpow (x := ((62500 : ℤ) : ℚ) / 10 ^ 6) (e := -4) (by norm_num)
      ((Binary64.lastPlace_le (by norm_num) (by norm_num)).trans (by norm_num))
    exact hle.trans (by norm_num)
  exact ⟨hzero ▸ Binary64.roundDigits_mono 6 hlow,
    (Binary64.roundDigits_mono 6 hhigh).trans hsixteenth⟩

theorem finalScore_of_mem (h : c.documentId ∈ linked) :
    finalScore k dense sparse linked graphBoost c =
      fl (fusedScore k dense sparse c.chunkId + graphBoost) :=
  congrArg Chunk.similarityScore (if_pos h)

theorem finalScore_of_not_mem (h : c.documentId ∉ linked) :
    finalScore k dense sparse linked graphBoost c = fusedScore k dense sparse c.chunkId :=
  congrArg Chunk.similarityScore (if_neg h)

/-- With the default amount a lifted chunk is before every other. -/
theorem finalScore_lt_of_lifted (ha : a.documentId ∉ linked) (hb : b.documentId ∈ linked) :
    finalScore RRF_K dense sparse linked GRAPH_BOOST a <
      finalScore RRF_K dense sparse linked GRAPH_BOOST b := by
  obtain ⟨-, hhigh⟩ := fusedScore_bounds dense sparse a.chunkId
  obtain ⟨hlow, hhigh'⟩ := fusedScore_bounds dense sparse b.chunkId
  obtain ⟨hboost, hboost'⟩ := GRAPH_BOOST_bounds
  have hlast : Numeral.lastPlace |fusedScore RRF_K dense sparse b.chunkId + GRAPH_BOOST| ≤ -3 :=
    (Binary64.lastPlace_le (by linarith) (by linarith)).trans (by norm_num)
  have heighth := Binary64.zpow_le_fl (e := -3) (by norm_num; linarith) hlast
  rw [finalScore_of_not_mem ha, finalScore_of_mem hb]
  exact hhigh.trans_lt (lt_of_lt_of_le (by norm_num) heighth)

/-- Two chunks of one kind are ordered by their fused scores at least as strictly. -/
theorem finalScore_cases (hsame : a.documentId ∈ linked ↔ b.documentId ∈ linked)
    (hle : fusedScore k dense sparse b.chunkId ≤ fusedScore k dense sparse a.chunkId) :
    finalScore k dense sparse linked graphBoost b ≤ finalScore k dense sparse linked graphBoost a ∧
      (fusedScore k dense sparse b.chunkId = fusedScore k dense sparse a.chunkId →
        finalScore k dense sparse linked graphBoost b =
          finalScore k dense sparse linked graphBoost a) := by
  by_cases hlinked : a.documentId ∈ linked
  · rw [finalScore_of_mem hlinked, finalScore_of_mem (hsame.1 hlinked)]
    exact ⟨Binary64.fl_mono (add_le_add_left hle _), fun heq => congrArg (fl <| · + graphBoost) heq⟩
  · rw [finalScore_of_not_mem hlinked, finalScore_of_not_mem (mt hsame.2 hlinked)]
    exact ⟨hle, id⟩

/-- What one of the scores does not decide depends on the order of the set. -/
theorem forall_listing_iff {p q : Prop} :
    (∀ order : Listing dense sparse, p ∨ q ∧ Before order.chunks a b) ↔ p := by
  refine ⟨fun h => ?_, fun hp _ => .inl hp⟩
  obtain ⟨order, hnot⟩ := exists_listing_not_before dense sparse a b
  exact (h order).resolve_right fun hq => hnot hq.2

theorem mem_ids_fuse (hb : b ∈ merged dense sparse) :
    b.chunkId ∈ (fuse k dense sparse order).map Chunk.chunkId := by
  rw [ids_fuse]
  exact List.mem_map_of_mem ((mem_sortDesc _).2 (order.perm.mem_iff.2 hb))

theorem mem_ids_liftLinked (graph : GraphService) (queryText : Str) (useGraph : Bool)
    (hb : b ∈ merged dense sparse) :
    b.chunkId ∈ (liftLinked graph queryText useGraph graphBoost
      (fuse k dense sparse order)).map Chunk.chunkId := by
  have hfuse : b.chunkId ∈ (fuse k dense sparse order).map Chunk.chunkId := mem_ids_fuse hb
  rw [liftLinked]
  split_ifs
  · cases directDocuments graph queryText with
    | some linked =>
      dsimp only
      rw [ids_fuse] at hfuse
      rw [ids_lifted]
      exact ((List.Perm.map _ (sortDesc_perm _ _)).mem_iff).2 hfuse
    | none => exact hfuse
  · exact hfuse

section

variable (ha : a ∈ merged dense sparse) (hb : b ∈ merged dense sparse) (hne : a ≠ b)

include ha hb hne

/-- In the package the order of two chunks is certain just when the rounded scores differ. -/
theorem package_certain_iff (hle : fusedScore k dense sparse b.chunkId ≤
      fusedScore k dense sparse a.chunkId) :
    (∀ order topK, NotBelow (packageSearchHybridChunks k dense sparse order topK) a b) ↔
      fusedScore k dense sparse a.chunkId ≠ fusedScore k dense sparse b.chunkId := by
  have hcertain : (∀ order topK, NotBelow (packageSearchHybridChunks k dense sparse order topK)
      a b) ↔ fusedScore k dense sparse b.chunkId < fusedScore k dense sparse a.chunkId := by
    have horder : ∀ order : Listing dense sparse,
        (∀ topK, NotBelow (packageSearchHybridChunks k dense sparse order topK) a b) ↔ _ :=
      fun order => (forall_notBelow_take_iff nodup_ids_fuse (mem_ids_fuse hb)).trans
        (before_fuse_iff ha hb hne)
    exact (forall_congr' horder).trans forall_listing_iff
  rw [hcertain, lt_iff_le_and_ne, and_iff_right hle, ne_comm]

/-- In the core the graph stage may decide it as well. -/
theorem core_certain_iff (graph : GraphService) (queryText : Str) (useGraph : Bool) :
    (∀ order topK, NotBelow (searchHybridChunks k graph queryText useGraph graphBoost dense sparse
        order topK) a b) ↔
      finalScore k dense sparse (liftedDocuments graph queryText useGraph) graphBoost b <
          finalScore k dense sparse (liftedDocuments graph queryText useGraph) graphBoost a ∨
        finalScore k dense sparse (liftedDocuments graph queryText useGraph) graphBoost b =
            finalScore k dense sparse (liftedDocuments graph queryText useGraph) graphBoost a ∧
          fusedScore k dense sparse b.chunkId < fusedScore k dense sparse a.chunkId := by
  have horder : ∀ order : Listing dense sparse,
      (∀ topK, NotBelow (searchHybridChunks k graph queryText useGraph graphBoost dense sparse order
        topK) a b) ↔ _ := fun order =>
    (forall_notBelow_take_iff (nodup_ids_liftLinked graph queryText useGraph)
      (mem_ids_liftLinked graph queryText useGraph hb)).trans
        (before_liftLinked_iff ha hb hne graph queryText useGraph)
  simp only [before_fuse_iff ha hb hne, and_or_left, ← or_assoc, ← and_assoc] at horder
  exact (forall_congr' horder).trans forall_listing_iff

end

/-- With the default amount: of two chunks of which the first has no lower fused score. -/
theorem final_certain_iff (hle : fusedScore RRF_K dense sparse b.chunkId ≤
      fusedScore RRF_K dense sparse a.chunkId) :
    finalScore RRF_K dense sparse linked GRAPH_BOOST b <
          finalScore RRF_K dense sparse linked GRAPH_BOOST a ∨
        finalScore RRF_K dense sparse linked GRAPH_BOOST b =
            finalScore RRF_K dense sparse linked GRAPH_BOOST a ∧
          fusedScore RRF_K dense sparse b.chunkId < fusedScore RRF_K dense sparse a.chunkId ↔
      a.documentId ∈ linked ∧ b.documentId ∉ linked ∨
        (a.documentId ∈ linked ↔ b.documentId ∈ linked) ∧
          fusedScore RRF_K dense sparse a.chunkId ≠ fusedScore RRF_K dense sparse b.chunkId := by
  by_cases hsame : a.documentId ∈ linked ↔ b.documentId ∈ linked
  · obtain ⟨hfinal, hfinalEq⟩ := @finalScore_cases _ _ _ _ GRAPH_BOOST _ _ hsame hle
    rcases hle.lt_or_eq with hlt | heq
    · have hle' := hfinal.lt_or_eq
      simp only [hlt, hlt.ne', hsame, and_true, ne_eq, not_false_eq_true, hle', or_true]
    · simp only [heq, hfinalEq heq, hsame, lt_irrefl, and_false, or_false, ne_eq,
        not_true_eq_false, and_not_self]
  · by_cases ha : a.documentId ∈ linked
    · have hb : b.documentId ∉ linked := fun hb => hsame ⟨fun _ => hb, fun _ => ha⟩
      simp only [finalScore_lt_of_lifted hb ha, true_or, ha, hb, not_false_eq_true, and_self]
    · have hb : b.documentId ∈ linked := by
        by_contra hb
        exact hsame ⟨fun h => absurd h ha, fun h => absurd h hb⟩
      have hlt := @finalScore_lt_of_lifted dense sparse _ _ _ ha hb
      simp only [hlt.not_gt, hlt.ne', ha, hb, false_and, not_true_eq_false, or_self, iff_true]

end

/-- Hybrid retrieval of the package (first parts) and of the core (second parts), with whatever
order the set has: each chunk is returned once; and a chunk that dominates another in the two lists
is certain to be before it just when the two sums of reciprocal ranks differ after rounding, in the
core among chunks that the graph stage lifts both or leaves both, while a lifted chunk is before
every other. In `reciprocal_rank_fusion`, which does not round, a chunk that dominates another is
before it always. -/
theorem hybrid_monotone_iff (dense sparse : Found) (graph : GraphService) (queryText : Str)
    (useGraph : Bool) :
    (∀ (order : Listing dense sparse) (topK : ℕ),
      (∀ k, ((packageSearchHybridChunks k dense sparse order topK).map Chunk.chunkId).Nodup) ∧
      ((searchHybridChunks RRF_K graph queryText useGraph GRAPH_BOOST dense sparse order topK).map
        Chunk.chunkId).Nodup) ∧
    (∀ a ∈ merged dense sparse, ∀ b ∈ merged dense sparse,
      Dominates [dense.ids, sparse.ids] a.chunkId b.chunkId →
      let lifted := liftedDocuments graph queryText useGraph
      (∀ k, (∀ order topK, NotBelow (packageSearchHybridChunks k dense sparse order topK) a b) ↔
        fusedScore k dense sparse a.chunkId ≠ fusedScore k dense sparse b.chunkId) ∧
      ((∀ order topK, NotBelow (searchHybridChunks RRF_K graph queryText useGraph GRAPH_BOOST dense
          sparse order topK) a b) ↔
        a.documentId ∈ lifted ∧ b.documentId ∉ lifted ∨
          (a.documentId ∈ lifted ↔ b.documentId ∈ lifted) ∧
            fusedScore RRF_K dense sparse a.chunkId ≠ fusedScore RRF_K dense sparse b.chunkId)) ∧
    (∀ (rankedLists : List (List Chunk)) (k : ℕ),
      (∀ l ∈ rankedLists, (l.map RankFusion.key).Nodup) →
      ((RankFusion.reciprocalRankFusion rankedLists k).map RankFusion.key).Nodup ∧
      ∀ a b, Dominates (rankedLists.map (List.map RankFusion.key)) a b →
        b ∈ (RankFusion.reciprocalRankFusion rankedLists k).map RankFusion.key →
        Before ((RankFusion.reciprocalRankFusion rankedLists k).map RankFusion.key) a b) := by
  refine ⟨fun order topK => ⟨fun k => ?_, ?_⟩, fun a ha b hb hdom => ?_,
    fun rankedLists k hn => ⟨?_, fun a b hdom hb => ?_⟩⟩
  · exact nodup_ids_fuse.sublist ((List.take_sublist _ _).map _)
  · exact (nodup_ids_liftLinked graph queryText useGraph).sublist ((List.take_sublist _ _).map _)
  · have hne : a ≠ b := fun heq => hdom.ne (congrArg Chunk.chunkId heq)
    dsimp only
    refine ⟨fun k => package_certain_iff ha hb hne (fusedScore_le hdom), ?_⟩
    rw [core_certain_iff ha hb hne, final_certain_iff (fusedScore_le hdom)]
  · rw [RankFusion.map_key_reciprocalRankFusion, nodup_sortDesc]
    exact (RankFusion.fusion k rankedLists).scores.nodup
  · exact RankFusion.before_reciprocalRankFusion hn k hdom hb

/-- Two lists of `939` chunks or less leave no ties. -/
theorem fusedScore_ne_of_length_le {dense sparse : Found} (hdense : dense.chunks.length ≤ 939)
    (hsparse : sparse.chunks.length ≤ 939) {x y : Str}
    (h : Dominates [dense.ids, sparse.ids] x y) :
    fusedScore RRF_K dense sparse x ≠ fusedScore RRF_K dense sparse y :=
  (RankFusion.roundDigits_rrfScore_lt (by rwa [Found.ids, List.length_map])
    (by rwa [Found.ids, List.length_map]) h).ne'

namespace Sample

/-- The id of the `n`-th chunk. -/
def nthId (n : ℕ) : Str := List.replicate n 'c'

theorem nthId_injective : Function.Injective nthId := by
  intro m n h
  have hlength := congrArg List.length h
  rwa [nthId, nthId, List.length_replicate, List.length_replicate] at hlength

def nthChunk (n : ℕ) : Chunk where
  chunkId := nthId n
  text := []
  documentId := []
  documentName := []
  chunkIndex := n
  similarityScore := 0

/-- A dense list of `n` chunks. -/
def firstChunks (n : ℕ) : Found where
  chunks := (List.range n).map nthChunk
  nodup := by
    rw [List.map_map]
    exact List.nodup_range.map nthId_injective

theorem idxOf?_map_range {κ : Type} [DecidableEq κ] {f : ℕ → κ} (hf : Function.Injective f)
    {i n : ℕ} (h : i < n) : ((List.range n).map f).idxOf? (f i) = some i := by
  rw [List.idxOf?, List.findIdx?_eq_some_iff_getElem]
  refine ⟨by simpa using h, by simp, fun j hj => ?_⟩
  simp [hf.eq_iff, hj.ne]

theorem mem_merged_firstChunks {i n : ℕ} (h : i < n) {sparse : Found} :
    nthChunk i ∈ merged (firstChunks n) sparse := by
  rw [merged, firstChunks]
  exact List.mem_append_left _ (List.mem_map_of_mem (List.mem_range.2 h))

theorem ids_firstChunks (n : ℕ) : (firstChunks n).ids = (List.range n).map nthId := List.map_map

theorem dominates_firstChunks {i j n : ℕ} (hij : i < j) (hj : j < n) :
    Dominates [(firstChunks n).ids, (firstChunks 0).ids] (nthId i) (nthId j) := by
  have hplace : RankFusion.place (firstChunks n).ids (nthId i) <
      RankFusion.place (firstChunks n).ids (nthId j) := by
    rw [RankFusion.place, RankFusion.place, ids_firstChunks,
      idxOf?_map_range nthId_injective (hij.trans hj), idxOf?_map_range nthId_injective hj]
    exact WithTop.coe_lt_coe.2 hij
  refine ⟨fun l hl => ?_, _, List.mem_cons_self, hplace⟩
  rcases List.mem_pair.1 hl with rfl | rfl
  · exact hplace.le
  · exact le_rfl

/-- The ranks `961` and `962` are both worth `0.000978`. -/
theorem fusedScore_firstChunks {i : ℕ} (h : i = 961 ∨ i = 962) :
    fusedScore RRF_K (firstChunks 963) (firstChunks 0) (nthId i) = fl (978 / 10 ^ 6) := by
  have hi : i < 963 := by omega
  have hidx := idxOf?_map_range nthId_injective hi
  have herror := @RankFusion.abs_rrfScore_sub_le _ _ ((List.range 963).map nthId) [] (nthId i)
    (fun r hr => by
      rw [hidx] at hr
      obtain rfl := Option.some.inj hr
      omega) nofun
  rw [hidx] at herror
  change |_ - (1 / ((i : ℚ) + 61) + 0)| ≤ _ at herror
  rw [add_zero, abs_le] at herror
  set score := rrfScore 60 [(List.range 963).map nthId, []] (nthId i) with hscore
  have hround : Numeral.roundEven (score * 10 ^ 6) = 978 := by
    have hbounds : 9775 / 10 < score * 10 ^ 6 ∧ score * 10 ^ 6 < 9785 / 10 := by
      rcases h with rfl | rfl
      · norm_num at herror
        constructor <;> linarith [herror.1, herror.2]
      · norm_num at herror
        constructor <;> linarith [herror.1, herror.2]
    refine Binary64.roundEven_eq_of_abs_lt (abs_lt.2 ?_)
    push_cast
    constructor <;> linarith [hbounds.1, hbounds.2]
  rw [fusedScore, ids_firstChunks, ids_firstChunks]
  change roundDigits 6 score = _
  rw [roundDigits, hround]
  rfl

/-- A chunk dominates the next one, and the set may give them the other way round. -/
theorem tie :
    Dominates [(firstChunks 963).ids, (firstChunks 0).ids] (nthId 961) (nthId 962) ∧
      ¬ ∀ order topK, NotBelow (packageSearchHybridChunks RRF_K (firstChunks 963) (firstChunks 0)
        order topK) (nthChunk 961) (nthChunk 962) := by
  have heq : fusedScore RRF_K (firstChunks 963) (firstChunks 0) (nthId 961) =
      fusedScore RRF_K (firstChunks 963) (firstChunks 0) (nthId 962) :=
    (fusedScore_firstChunks (.inl rfl)).trans (fusedScore_firstChunks (.inr rfl)).symm
  refine ⟨dominates_firstChunks (by norm_num) (by norm_num), fun h => ?_⟩
  have hne : nthChunk 961 ≠ nthChunk 962 := fun h =>
    absurd (nthId_injective (congrArg Chunk.chunkId h)) (by norm_num)
  exact (package_certain_iff (mem_merged_firstChunks (by norm_num))
    (mem_merged_firstChunks (by norm_num)) hne heq.ge).1 h heq

end Sample

end RagLeap.Retrieval
