import RagLeap.Foundations.Binary64
import RagLeap.Foundations.StableSort

/-!
# Retrieval with the knowledge graph

`search_similar_chunks_with_graph` of `core/retrieval.py` raises the scores of chunks whose document
the graph links to the query, by one amount where the link is direct and by another where it goes
over a related entity, and sorts anew. Scores are binary64 numbers, and `fl` the rounding of a sum.

`direct_notBelow_iff`: with the default amounts a chunk of a directly linked document comes before
one of an indirectly linked document just when its base score makes up for the larger amount that
the other gets.
-/

namespace RagLeap.Retrieval

open Binary64 (fl)

/-! ## The code -/

/-- A retrieved chunk; the last fields are the keys that later stages add. -/
structure Chunk where
  chunkId : Str
  text : Str
  documentId : Str
  documentName : Str
  chunkIndex : ℤ
  similarityScore : ℚ
  graphBoosted : Bool := false
  graphBoostType : Option Str := none
  retrievalMethod : Option Str := none
  deriving DecidableEq

/-- The chunks a query found, best first; their ids are primary keys of the table. -/
structure Found where
  chunks : List Chunk
  nodup : (chunks.map Chunk.chunkId).Nodup

/-- The calls to `graph_service`: entities by their names, documents by their ids, and `none` where
a call raises. -/
structure GraphService where
  extractQueryEntities : Str → Option (List Str)
  findDocumentsByEntities : List Str → Option (List Str)
  searchRelatedEntities : List Str → Option (List Str)

/-- The documents linked directly and indirectly; there are none if any call raises. -/
def linkedDocuments (graph : GraphService) (queryText : Str) : List Str × List Str :=
  let found : Option (List Str × List Str) := do
    let entities ← graph.extractQueryEntities queryText
    if entities = [] then some ([], [])
    else
      let linked ← graph.findDocumentsByEntities entities
      let related ← graph.searchRelatedEntities entities
      if related = [] then some (linked, [])
      else
        let indirect ← graph.findDocumentsByEntities related
        some (linked, indirect)
  found.getD ([], [])

/-- The default of `graph_boost`, `0.15`. -/
def GRAPH_BOOST : ℚ := fl (15 / 100)

/-- The default of `indirect_graph_boost`, `0.25`. -/
def INDIRECT_GRAPH_BOOST : ℚ := 1 / 4

/-- `min(1.0, score + amount)`. -/
def raised (score amount : ℚ) : ℚ := min 1 (fl (score + amount))

/-- The loop body over the candidates. -/
def boost (linked indirect : List Str) (graphBoost indirectGraphBoost : ℚ) (c : Chunk) : Chunk :=
  if c.documentId ∈ linked then
    { c with similarityScore := raised c.similarityScore graphBoost, graphBoosted := true }
  else if c.documentId ∈ indirect then
    { c with similarityScore := raised c.similarityScore indirectGraphBoost, graphBoosted := true,
             graphBoostType := some "indirect".toList }
  else c

/-- `search_similar_chunks_with_graph` after the vector search that gives the candidates. -/
def searchSimilarChunksWithGraph (graph : GraphService) (queryText : Str) (candidates : Found)
    (topK : ℕ) (graphBoost indirectGraphBoost : ℚ) : List Chunk :=
  if candidates.chunks = [] then []
  else
    let (linked, indirect) := linkedDocuments graph queryText
    (sortDesc Chunk.similarityScore
      (candidates.chunks.map (boost linked indirect graphBoost indirectGraphBoost))).take topK

/-! ## The order of the result -/

section

variable {graph : GraphService} {queryText : Str} {candidates : Found} {topK : ℕ}
  {linked indirect : List Str} {graphBoost indirectGraphBoost : ℚ} {c d i : Chunk}

theorem chunkId_boost : (boost linked indirect graphBoost indirectGraphBoost c).chunkId =
    c.chunkId := by
  rw [boost]
  split_ifs <;> rfl

theorem score_boost_of_linked (h : c.documentId ∈ linked) :
    (boost linked indirect graphBoost indirectGraphBoost c).similarityScore =
      raised c.similarityScore graphBoost := by
  rw [boost, if_pos h]

theorem score_boost_of_indirect (hnot : c.documentId ∉ linked) (h : c.documentId ∈ indirect) :
    (boost linked indirect graphBoost indirectGraphBoost c).similarityScore =
      raised c.similarityScore indirectGraphBoost := by
  rw [boost, if_neg hnot, if_pos h]

/-- The ids of the candidates in the order of their boosted scores. -/
def ranking (graph : GraphService) (queryText : Str) (candidates : Found)
    (graphBoost indirectGraphBoost : ℚ) : List Str :=
  let (linked, indirect) := linkedDocuments graph queryText
  (sortDesc (fun c => (boost linked indirect graphBoost indirectGraphBoost c).similarityScore)
    candidates.chunks).map Chunk.chunkId

/-- The result is a part of all candidates, boosted and sorted. -/
theorem search_eq_take (graph : GraphService) (queryText : Str) (candidates : Found)
    (graphBoost indirectGraphBoost : ℚ) :
    ∃ results : List Chunk,
      results.map Chunk.chunkId = ranking graph queryText candidates graphBoost indirectGraphBoost ∧
      ∀ topK, searchSimilarChunksWithGraph graph queryText candidates topK graphBoost
        indirectGraphBoost = results.take topK := by
  refine ⟨sortDesc Chunk.similarityScore (candidates.chunks.map (boost
    (linkedDocuments graph queryText).1 (linkedDocuments graph queryText).2 graphBoost
    indirectGraphBoost)), ?_, fun topK => ?_⟩
  · rw [sortDesc_map, List.map_map]
    exact List.map_congr_left fun c _ => chunkId_boost
  · rw [searchSimilarChunksWithGraph]
    split_ifs with hnil
    · rw [hnil]
      exact (List.take_nil).symm
    · rfl

theorem nodup_ranking : (ranking graph queryText candidates graphBoost indirectGraphBoost).Nodup :=
  (nodup_map_sortDesc _).2 candidates.nodup

/-- The score by which a candidate is ranked. -/
def rankScore (graph : GraphService) (queryText : Str) (graphBoost indirectGraphBoost : ℚ)
    (c : Chunk) : ℚ :=
  (boost (linkedDocuments graph queryText).1 (linkedDocuments graph queryText).2 graphBoost
    indirectGraphBoost c).similarityScore

/-- Two candidates are ranked by their boosted scores, and by their order where these are equal. -/
theorem before_ranking_iff (hc : c ∈ candidates.chunks) (hd : d ∈ candidates.chunks)
    (hne : c ≠ d) :
    Before (ranking graph queryText candidates graphBoost indirectGraphBoost) c.chunkId d.chunkId ↔
      rankScore graph queryText graphBoost indirectGraphBoost d <
          rankScore graph queryText graphBoost indirectGraphBoost c ∨
        rankScore graph queryText graphBoost indirectGraphBoost d =
            rankScore graph queryText graphBoost indirectGraphBoost c ∧
          Before candidates.chunks c d :=
  before_map_sortDesc_iff _ candidates.nodup hc hd hne

/-- `d` is not ranked below `i`: where `i` is in the result, `d` stands before it. -/
def NotBelow (result : List Chunk) (d i : Chunk) : Prop :=
  i.chunkId ∈ result.map Chunk.chunkId → Before (result.map Chunk.chunkId) d.chunkId i.chunkId

/-- However much is returned, `d` is not below `i` just when it is before it in all. -/
theorem forall_notBelow_take_iff {results : List Chunk} (hn : (results.map Chunk.chunkId).Nodup)
    (hi : i.chunkId ∈ results.map Chunk.chunkId) :
    (∀ topK, NotBelow (results.take topK) d i) ↔
      Before (results.map Chunk.chunkId) d.chunkId i.chunkId := by
  constructor
  · intro h
    have hall := h results.length
    rw [List.take_length] at hall
    exact hall hi
  · intro h topK hmem
    rw [List.map_take] at hmem ⊢
    exact h.take hn hmem

theorem notBelow_iff (hi : i ∈ candidates.chunks) :
    (∀ topK, NotBelow (searchSimilarChunksWithGraph graph queryText candidates topK graphBoost
        indirectGraphBoost) d i) ↔
      Before (ranking graph queryText candidates graphBoost indirectGraphBoost)
        d.chunkId i.chunkId := by
  obtain ⟨results, hids, htake⟩ :=
    search_eq_take graph queryText candidates graphBoost indirectGraphBoost
  simp only [htake]
  have hmem : i.chunkId ∈ results.map Chunk.chunkId :=
    hids ▸ List.mem_map_of_mem ((mem_sortDesc _).2 hi)
  rw [forall_notBelow_take_iff (hids ▸ nodup_ranking) hmem, hids]

end

/-- Of a directly linked document and one linked indirectly only, with the default amounts: the
first is never below the second, however many chunks are returned, just when `0.15` takes its base
score above what `0.25` makes of the other's, both sums rounded and capped at `1`, or to the same
where it stands first among the candidates. -/
theorem direct_notBelow_iff (graph : GraphService) (queryText : Str) (candidates : Found)
    {d i : Chunk} (hd : d ∈ candidates.chunks) (hi : i ∈ candidates.chunks)
    (hlinked : d.documentId ∈ (linkedDocuments graph queryText).1)
    (hnot : i.documentId ∉ (linkedDocuments graph queryText).1)
    (hindirect : i.documentId ∈ (linkedDocuments graph queryText).2) :
    (∀ topK, NotBelow (searchSimilarChunksWithGraph graph queryText candidates topK GRAPH_BOOST
        INDIRECT_GRAPH_BOOST) d i) ↔
      raised i.similarityScore INDIRECT_GRAPH_BOOST < raised d.similarityScore GRAPH_BOOST ∨
        raised i.similarityScore INDIRECT_GRAPH_BOOST = raised d.similarityScore GRAPH_BOOST ∧
          Before candidates.chunks d i := by
  have hne : d ≠ i := fun heq => hnot (heq ▸ hlinked)
  rw [notBelow_iff hi, before_ranking_iff hd hi hne, rankScore, rankScore,
    score_boost_of_linked hlinked, score_boost_of_indirect hnot hindirect]

/-! ## How the amounts compare -/

theorem GRAPH_BOOST_bounds :
    15 / 100 - 1 / 2 ^ 53 ≤ GRAPH_BOOST ∧ GRAPH_BOOST ≤ 15 / 100 + 1 / 2 ^ 53 := by
  have h := Binary64.abs_fl_sub_le_of_lt_one (x := 15 / 100) (by norm_num) (by norm_num)
  obtain ⟨hlow, hhigh⟩ := abs_le.1 h
  rw [GRAPH_BOOST]
  constructor <;> linarith

/-- Sums below the cap that differ by more than the last place keep their order. -/
theorem raised_lt_raised {s t a b : ℚ} (hs : 0 ≤ s + a) (ht : t + b < 1)
    (h : s + a + 1 / 2 ^ 52 < t + b) : raised s a < raised t b := by
  have hsum : s + a < t + b := lt_trans (lt_add_of_pos_right _ (by positivity)) h
  have hlt : fl (s + a) < fl (t + b) :=
    Binary64.fl_lt_fl (Binary64.zpow_lastPlace_le hs (hsum.trans ht))
      (Binary64.zpow_lastPlace_le (hs.trans hsum.le) ht) h
  have hone : fl (t + b) ≤ 1 := Binary64.fl_le_one (hs.trans hsum.le) ht.le
  exact lt_min ((min_le_right _ _).trans_lt (hlt.trans_le hone)) ((min_le_right _ _).trans_lt hlt)

/-- Below the cap a lead of less than a tenth is lost. -/
theorem indirect_before_of_lead_lt (graph : GraphService) (queryText : Str) {candidates : Found}
    {d i : Chunk} (hd : d ∈ candidates.chunks) (hi : i ∈ candidates.chunks)
    (hlinked : d.documentId ∈ (linkedDocuments graph queryText).1)
    (hnot : i.documentId ∉ (linkedDocuments graph queryText).1)
    (hindirect : i.documentId ∈ (linkedDocuments graph queryText).2)
    (hpos : 0 ≤ d.similarityScore) (hcap : i.similarityScore < 3 / 4)
    (hlead : d.similarityScore + 1 / 2 ^ 51 < i.similarityScore + 1 / 10) :
    Before (ranking graph queryText candidates GRAPH_BOOST INDIRECT_GRAPH_BOOST)
      i.chunkId d.chunkId := by
  have hne : i ≠ d := fun heq => hnot (heq ▸ hlinked)
  obtain ⟨hlow, hhigh⟩ := GRAPH_BOOST_bounds
  have hamount : INDIRECT_GRAPH_BOOST = 1 / 4 := rfl
  rw [before_ranking_iff hi hd hne, rankScore, rankScore, score_boost_of_linked hlinked,
    score_boost_of_indirect hnot hindirect]
  exact .inl (raised_lt_raised (by linarith) (by linarith) (by linarith))

namespace Sample

/-- A query about one entity, which one document contains, and another a related one. -/
def service : GraphService where
  extractQueryEntities _ := some ["acme".toList]
  findDocumentsByEntities names :=
    some (if names = ["acme".toList] then ["direct".toList] else ["indirect".toList])
  searchRelatedEntities _ := some ["lab".toList]

/-- A chunk of one of the two documents. -/
def chunk (document : String) (score : ℚ) : Chunk where
  chunkId := document.toList
  text := []
  documentId := document.toList
  documentName := []
  chunkIndex := 0
  similarityScore := score

def found (direct indirect : ℚ) : Found where
  chunks := [chunk "direct" direct, chunk "indirect" indirect]
  nodup := by
    change ["direct".toList, "indirect".toList].Nodup
    decide

/-- Of two chunks of one base score that of the indirectly linked document is returned first. -/
theorem indirect_first :
    ¬ NotBelow (searchSimilarChunksWithGraph service [] (found (1 / 2) (1 / 2)) 5 GRAPH_BOOST
      INDIRECT_GRAPH_BOOST) (chunk "direct" (1 / 2)) (chunk "indirect" (1 / 2)) := by
  have hdirect : chunk "direct" (1 / 2) ∈ (found (1 / 2) (1 / 2)).chunks := List.mem_cons_self
  have hindirect : chunk "indirect" (1 / 2) ∈ (found (1 / 2) (1 / 2)).chunks :=
    List.mem_cons_of_mem _ List.mem_cons_self
  have hbefore := indirect_before_of_lead_lt service [] hdirect hindirect (by decide)
    (by decide) (by decide) (by norm_num [chunk]) (by norm_num [chunk])
    (by norm_num [chunk])
  obtain ⟨results, hids, htake⟩ := search_eq_take service [] (found (1 / 2) (1 / 2)) GRAPH_BOOST
    INDIRECT_GRAPH_BOOST
  have hlength : results.length ≤ 5 := by
    rw [← List.length_map (f := Chunk.chunkId), hids, ranking, List.length_map,
      (sortDesc_perm _ _).length_eq]
    decide
  rw [htake, List.take_of_length_le hlength, NotBelow, hids]
  exact fun h => hbefore.not_before nodup_ranking (h hbefore.left_mem)

/-- A lead of a half is enough. -/
theorem direct_first :
    NotBelow (searchSimilarChunksWithGraph service [] (found (3 / 4) (1 / 4)) 5 GRAPH_BOOST
      INDIRECT_GRAPH_BOOST) (chunk "direct" (3 / 4)) (chunk "indirect" (1 / 4)) := by
  refine (direct_notBelow_iff service [] (found (3 / 4) (1 / 4)) List.mem_cons_self
    (List.mem_cons_of_mem _ List.mem_cons_self) (by decide) (by decide) (by decide)).2 (.inl ?_) 5
  obtain ⟨hlow, hhigh⟩ := GRAPH_BOOST_bounds
  show raised (1 / 4) (1 / 4) < raised (3 / 4) GRAPH_BOOST
  exact raised_lt_raised (by norm_num) (by linarith) (by linarith)

end Sample

end RagLeap.Retrieval
