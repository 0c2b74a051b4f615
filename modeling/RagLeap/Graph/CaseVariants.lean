import Mathlib.Algebra.Order.BigOperators.Group.List
import Mathlib.Tactic.Linarith
import Mathlib.Tactic.Ring
import RagLeap.Graph.Upsert

/-!
# Spellings of one name

The counters are keyed by the names as they are spelled, and what is written by the names in lower
case; the write sets the weight. Of several spellings, the weight of the one that is written last is
kept, so that a stored weight is the total exactly if there is one spelling (`stored_total_iff`).
-/

namespace RagLeap.Graph

namespace Counter

variable {κ κ' : Type} [DecidableEq κ']

/-- The total over the entries whose key is written under `k`. -/
def totalOf (c : Counter κ) (f : κ → κ') (k : κ') : ℚ :=
  ((c.items.filter fun e => f e.1 = k).map fun e => ((e.2 : ℕ) : ℚ)).sum

/-- At most one entry is written under `k`. -/
def OneSpelling (c : Counter κ) (f : κ → κ') (k : κ') : Prop :=
  ∀ e ∈ c.items, ∀ e' ∈ c.items, f e.1 = k → f e'.1 = k → e.1 = e'.1

theorem mem_of_mem_mostCommon {c : Counter κ} {n : ℕ} {e : κ × ℕ+} (h : e ∈ c.mostCommon n) :
    e ∈ c.items :=
  (List.perm_insertionSort _ c.items).subset (List.mem_of_mem_take h)

/-- The weight of any one spelling is the total exactly if there is no other. -/
theorem weight_eq_totalOf_iff {c : Counter κ} {f : κ → κ'} {k : κ'} {e : κ × ℕ+}
    (he : e ∈ c.items) (hk : f e.1 = k) :
    ((e.2 : ℕ) : ℚ) = c.totalOf f k ↔ c.OneSpelling f k := by
  have hmem : e ∈ c.items.filter fun e => f e.1 = k := List.mem_filter.2 ⟨he, by simpa using hk⟩
  obtain ⟨before, after, hsplit⟩ := List.append_of_mem hmem
  have hothers : ∀ e' ∈ before ++ after, e' ∈ c.items ∧ f e'.1 = k := by
    intro e' he'
    have he'' : e' ∈ c.items.filter fun e => f e.1 = k := by
      rw [hsplit]
      rcases List.mem_append.1 he' with h | h
      · exact List.mem_append_left _ h
      · exact List.mem_append_right _ (List.mem_cons_of_mem _ h)
    simpa using List.mem_filter.1 he''
  have htotal : c.totalOf f k =
      (e.2 : ℕ) + ((before ++ after).map fun e => ((e.2 : ℕ) : ℚ)).sum := by
    rw [totalOf, hsplit]
    simp only [List.map_append, List.map_cons, List.sum_append, List.sum_cons]
    ring
  have hpos : ∀ w ∈ (before ++ after).map fun e => ((e.2 : ℕ) : ℚ), 0 < w := by
    intro w hw
    obtain ⟨e', -, rfl⟩ := List.mem_map.1 hw
    exact_mod_cast e'.2.pos
  have hnodup : ((c.items.filter fun e => f e.1 = k).map Prod.fst).Nodup :=
    c.nodup.sublist (List.filter_sublist.map _)
  rw [hsplit, List.map_append, List.map_cons, List.nodup_middle, List.nodup_cons,
    ← List.map_append] at hnodup
  rw [htotal]
  constructor
  · intro heq
    have hzero : ((before ++ after).map fun e => ((e.2 : ℕ) : ℚ)).sum = 0 := by linarith
    have hnil : before ++ after = [] := by
      by_contra hne
      have hsum := List.sum_pos _ hpos (by simpa using hne)
      exact hsum.ne' hzero
    have honly : ∀ e' ∈ c.items, f e'.1 = k → e' = e := by
      intro e' he' hk'
      have hmem' : e' ∈ c.items.filter fun e => f e.1 = k :=
        List.mem_filter.2 ⟨he', by simpa using hk'⟩
      obtain ⟨hbefore, hafter⟩ := List.append_eq_nil_iff.1 hnil
      rw [hsplit, hbefore, hafter] at hmem'
      exact List.mem_singleton.1 hmem'
    intro e₁ h₁ e₂ h₂ hk₁ hk₂
    rw [honly e₁ h₁ hk₁, honly e₂ h₂ hk₂]
  · intro hone
    have hnil : before ++ after = [] := by
      refine List.eq_nil_iff_forall_not_mem.2 fun e' he' => ?_
      obtain ⟨hitem, hk'⟩ := hothers e' he'
      refine hnodup.1 ?_
      rw [hone e he e' hitem hk hk']
      exact List.mem_map_of_mem he'
    rw [hnil]
    simp

/-- The weight that is kept of the most common entries. -/
theorem lastWeight_eq_totalOf_iff {c : Counter κ} {f : κ → κ'} {n : ℕ} {k : κ'} {w : ℚ}
    (h : lastWeight f (c.mostCommon n) k = some w) :
    w = c.totalOf f k ↔ c.OneSpelling f k := by
  obtain ⟨e, he, rfl⟩ := Option.map_eq_some_iff.1 h
  obtain ⟨hmem, hk⟩ := List.mem_filter.1 (List.mem_of_getLast? he)
  exact weight_eq_totalOf_iff (mem_of_mem_mostCommon hmem) (by simpa using hk)

end Counter

theorem lastWeight_map {β κ : Type} [DecidableEq κ] (f : β → κ) (l : List (β × ℕ+)) (k : κ) :
    lastWeight id (l.map fun e => (f e.1, e.2)) k = lastWeight f l k := by
  unfold lastWeight
  rw [List.filter_map, List.getLast?_map, Option.map_map]
  rfl

variable {env : GraphEnv}

theorem Counters.recordAfter_pair (c : Counters env.lower) (doc title : Str)
    (maxEntities maxPairs : ℕ) (p : Pair) :
    (c.plan doc title maxEntities maxPairs).recordAfter (.pair p) =
      lastWeight NamePair.key (c.pairs.mostCommon maxPairs) (.pair p) :=
  lastWeight_map _ _ _

theorem Counters.recordAfter_relation (c : Counters env.lower) (doc title : Str)
    (maxEntities maxPairs : ℕ) (s t o : Str) :
    (c.plan doc title maxEntities maxPairs).recordAfter (.relation s t o) =
      lastWeight (Relation.key env.lower) (c.relations.mostCommon maxPairs) (.relation s t o) :=
  lastWeight_map _ _ _

/-- What an upsert stores for a document with the counts `c`: the weight of an entity, a pair or a
relation is the total over its spellings exactly if there is one. -/
theorem stored_total_iff (c : Counters env.lower) (doc title : Str) (maxEntities maxPairs : ℕ)
    (order : SetOrder) (g : Collection) :
    let g' := upserted env.lower (c.plan doc title maxEntities maxPairs) order g
    (∀ k w, g'.contains.get? (doc, k) = some w →
        (w = c.entities.totalOf env.lower k ↔ c.entities.OneSpelling env.lower k)) ∧
      (∀ p w, g'.records.get? (doc, .pair p) = some w →
        (w = c.pairs.totalOf NamePair.key (.pair p) ↔
          c.pairs.OneSpelling NamePair.key (.pair p))) ∧
      ∀ s t o w, g'.records.get? (doc, .relation s t o) = some w →
        (w = c.relations.totalOf (Relation.key env.lower) (.relation s t o) ↔
          c.relations.OneSpelling (Relation.key env.lower) (.relation s t o)) := by
  intro g'
  have hspec : Upserted env.lower (c.plan doc title maxEntities maxPairs) g g' :=
    upserted_spec order g
  refine ⟨fun k w hw => ?_, fun p w hw => ?_, fun s t o w hw => ?_⟩
  · have hstored := (hspec.contains_own k).symm.trans hw
    exact Counter.lastWeight_eq_totalOf_iff hstored
  · have hstored := (hspec.records_own (.pair p)).symm.trans hw
    rw [Counters.recordAfter_pair] at hstored
    exact Counter.lastWeight_eq_totalOf_iff hstored
  · have hstored := (hspec.records_own (.relation s t o)).symm.trans hw
    rw [Counters.recordAfter_relation] at hstored
    exact Counter.lastWeight_eq_totalOf_iff hstored

/-- One chunk says `ALARA`, the other `Alara`: each is counted once, and one is stored for both. -/
theorem spelling_lost :
    ¬ ∀ (env : GraphEnv) (x : Extractor) (chunks : List Str) (doc title : Str)
      (maxEntities maxPairs : ℕ) (order : SetOrder) (g : Collection),
      ∀ c ∈ countDocument env x chunks, ∀ k, ∀ w ∈ (upserted env.lower
        (c.plan doc title maxEntities maxPairs) order g).contains.get? (doc, k),
        w = c.entities.totalOf env.lower k := by
  intro h
  have hone := h .ascii .regex ["ALARA".toList, "Alara".toList] "d".toList [] 80 150 .insertion
    .empty _ rfl "alara".toList 1 (by decide)
  revert hone
  decide +kernel

end RagLeap.Graph
