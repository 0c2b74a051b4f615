import Mathlib.Algebra.Order.BigOperators.Group.List
import RagLeap.Graph.Upsert

/-!
# The weights of the co-occurrence edges

After any upserts, the edge between two entities should have the sum of the pair weights of the
documents' latest versions. An upsert computes anew the edges of the pairs it writes or replaces, so
the one thing that goes wrong is an `Entity` node that is created while other documents already have
records of its pairs (`LateEntity`): `aggregated_iff` says that the sums are right throughout exactly
if this does not happen.
-/

namespace RagLeap.Graph

open Collection

variable {lower : Str → Str} {plan : Plan} {g : Collection}

/-! ## Sums over documents -/

/-- A sum of records, document by document. -/
theorem Collection.total_eq_sum {r : Dict (Str × Key) ℚ} {k : Key} {docs : List Str}
    (hdocs : docs.Nodup) (h : ∀ d, r.get? (d, k) ≠ none → d ∈ docs) :
    total r k = (docs.map fun d => (r.get? (d, k)).getD 0).sum := by
  have hown : ∀ d (e : (Str × Key) × ℚ), ((r.get? (d, k)).map fun w => ((d, k), w)) = some e ↔
      e ∈ r.items ∧ e.1 = (d, k) := by
    rintro d ⟨e, w⟩
    rw [Option.map_eq_some_iff]
    constructor
    · rintro ⟨w', hw, he⟩
      cases he
      exact ⟨Dict.get?_eq_some_iff.1 hw, rfl⟩
    · rintro ⟨hmem, rfl⟩
      exact ⟨w, Dict.get?_eq_some_iff.2 hmem, rfl⟩
  have hperm : (r.items.filter fun e => e.1.2 = k).Perm
      (docs.filterMap fun d => (r.get? (d, k)).map fun w => ((d, k), w)) := by
    refine (List.perm_ext_iff_of_nodup ((List.Nodup.of_map _ r.nodup).filter _) ?_).2 ?_
    · refine hdocs.filterMap fun d d' e he he' => ?_
      have hd := ((hown d e).1 he).2
      have hd' := ((hown d' e).1 he').2
      exact congrArg Prod.fst (hd.symm.trans hd')
    · intro e
      simp only [List.mem_filter, decide_eq_true_eq, List.mem_filterMap, hown]
      constructor
      · rintro ⟨hmem, rfl⟩
        refine ⟨e.1.1, h e.1.1 ?_, hmem, rfl⟩
        rw [Dict.get?_eq_some_iff.2 hmem]
        exact nofun
      · rintro ⟨d, -, hmem, hd⟩
        rw [hd]
        exact ⟨hmem, rfl⟩
  rw [total, (hperm.map Prod.snd).sum_eq]
  clear h hperm hdocs
  induction docs with
  | nil => rfl
  | cons d docs ih =>
    rw [List.filterMap_cons, List.map_cons, List.sum_cons, ← ih]
    cases r.get? (d, k) with
    | none => simp
    | some w => simp

/-- All records are positive. -/
def Positive (g : Collection) : Prop := ∀ e w, g.records.get? e = some w → 0 < w

theorem Positive.total_nonneg (h : Positive g) (k : Key) : 0 ≤ total g.records k := by
  refine List.sum_nonneg fun w hw => ?_
  obtain ⟨e, he, rfl⟩ := List.mem_map.1 hw
  exact (h e.1 e.2 (Dict.get?_eq_some_iff.2 (List.mem_of_mem_filter he))).le

/-- Edges are between entities of the graph. -/
def Connected (g : Collection) : Prop :=
  ∀ k, g.edges.get? k ≠ none → present g.entities k = true

/-- The edge of a key is as the records say, if its entities are there. -/
def Exact (g : Collection) (k : Key) : Prop :=
  present g.entities k = true →
    g.edges.get? k = if total g.records k = 0 then none else some (total g.records k)

/-! ## One upsert -/

/-- The upsert creates an entity of a pair that other documents have records of and that it neither
writes nor replaces, and both entities are there afterwards. -/
def LateEntity (lower : Str → Str) (plan : Plan) (g : Collection) (k : Key) : Prop :=
  ¬ plan.Touches g k ∧ present g.entities k = false ∧ plan.presentAfter lower g k = true ∧
    total g.records k ≠ 0

theorem lastWeight_pos {β κ : Type} [DecidableEq κ] {f : β → κ} {l : List (β × ℕ+)} {k : κ}
    {w : ℚ} (h : lastWeight f l k = some w) : 0 < w := by
  obtain ⟨e, -, rfl⟩ := Option.map_eq_some_iff.1 h
  exact_mod_cast e.2.pos

namespace Upserted

variable {x : Collection}

theorem total_eq (h : Upserted lower plan g x) (k : Key) :
    total x.records k = plan.totalAfter g k :=
  Plan.total_eq_totalAfter fun d => h.records (d, k)

theorem total_eq_of_not_touches (h : Upserted lower plan g x) {k : Key}
    (hk : ¬ plan.Touches g k) : total x.records k = total g.records k := by
  rw [Plan.Touches, not_or, not_not] at hk
  refine total_congr fun d => ?_
  rw [h.records]
  split_ifs with hd
  · have hnone : plan.recordAfter k = none := by
      by_contra hne
      exact hk.2 (Plan.recordAfter_ne_none_iff.1 hne)
    have hown : g.records.get? (d, k) = none := by
      obtain rfl : d = plan.document := hd
      exact hk.1
    rw [hnone, hown]
  · rfl

theorem positive (h : Upserted lower plan g x) (hg : Positive g) : Positive x := by
  intro e w he
  rw [h.records] at he
  split_ifs at he with hd
  · exact lastWeight_pos he
  · exact hg e w he

/-- An entity stays. -/
theorem present_of_present (h : Upserted lower plan g x) {k : Key}
    (hk : present g.entities k = true) : present x.entities k = true := by
  have hstay : ∀ n, (g.entities.get? n).isSome = true → (x.entities.get? n).isSome = true := by
    intro n hn
    rw [h.entities n, Plan.entityAt, Plan.entityAfter]
    split
    · exact hn
    · rfl
  rw [present, Bool.and_eq_true] at hk ⊢
  exact ⟨hstay _ hk.1, hstay _ hk.2⟩

theorem connected (h : Upserted lower plan g x) (hg : Connected g) : Connected x := by
  intro k hk
  by_cases htouch : plan.Touches g k
  · rw [h.touched k htouch] at hk
    rw [h.entities.present_eq]
    by_contra hnot
    rw [settle, if_neg hnot] at hk
    refine hnot ?_
    rw [← h.entities.present_eq]
    exact h.present_of_present (hg k hk)
  · rw [h.untouched k htouch] at hk
    exact h.present_of_present (hg k hk)

/-- A sum that was right is right after the upsert, unless an entity came late. -/
theorem exact_iff (h : Upserted lower plan g x) (hpos : Positive g) (hconn : Connected g) {k : Key}
    (hk : Exact g k) : Exact x k ↔ ¬ LateEntity lower plan g k := by
  by_cases htouch : plan.Touches g k
  · have hnot : ¬ LateEntity lower plan g k := fun hlate => hlate.1 htouch
    refine iff_of_true (fun hpresent => ?_) hnot
    have hnonneg : 0 ≤ plan.totalAfter g k := by
      rw [← h.total_eq]
      exact (h.positive hpos).total_nonneg k
    rw [h.touched k htouch, h.total_eq, ← h.entities.present_eq, hpresent, settle, if_pos rfl]
    rcases hnonneg.eq_or_lt with hzero | hlt
    · rw [← hzero]
      rfl
    · rw [if_pos hlt, if_neg hlt.ne']
  · have htotal := h.total_eq_of_not_touches htouch
    have hafter : present x.entities k = plan.presentAfter lower g k := h.entities.present_eq k
    rw [Exact, h.untouched k htouch, htotal, hafter]
    cases hbefore : present g.entities k with
    | true =>
      refine iff_of_true (fun _ => hk hbefore) fun hlate => ?_
      rw [hlate.2.1] at hbefore
      cases hbefore
    | false =>
      have hnone : g.edges.get? k = none := by
        by_contra hne
        rw [hconn k hne] at hbefore
        cases hbefore
      rw [hnone]
      constructor
      · rintro hexact ⟨-, -, hpresent, hne⟩
        have hedge := hexact hpresent
        rw [if_neg hne] at hedge
        cases hedge
      · intro hlate hpresent
        have hzero : total g.records k = 0 := by
          by_contra hne
          exact hlate ⟨htouch, hbefore, hpresent, hne⟩
        rw [if_pos hzero]

end Upserted

/-! ## Histories -/

/-- An upsert of a history. -/
structure Upload where
  plan : Plan
  order : SetOrder

/-- The graph after the upserts of a history. -/
def graphAfter (lower : Str → Str) (history : List Upload) : Collection :=
  history.foldl (fun g u => upserted lower u.plan u.order g) .empty

/-- The latest version of a document. -/
def latest (history : List Upload) (doc : Str) : Option Plan :=
  (history.reverse.find? fun u => u.plan.document = doc).map Upload.plan

/-- The sum over the documents of the weight of a key in the document's latest version. -/
def versionSum (history : List Upload) (k : Key) : ℚ :=
  ((history.map fun u => u.plan.document).dedup.map fun doc =>
    (((latest history doc).bind fun plan => plan.recordAfter k).getD 0)).sum

theorem graphAfter_append (history : List Upload) (u : Upload) :
    graphAfter lower (history ++ [u]) = upserted lower u.plan u.order (graphAfter lower history) :=
  by rw [graphAfter, List.foldl_append]; rfl

theorem latest_append (history : List Upload) (u : Upload) (doc : Str) :
    latest (history ++ [u]) doc =
      if doc = u.plan.document then some u.plan else latest history doc := by
  unfold latest
  rw [List.reverse_append, List.reverse_singleton, List.singleton_append, List.find?_cons]
  by_cases h : u.plan.document = doc
  · simp [h]
  · simp [h, Ne.symm h]

/-- The records are those of the latest versions. -/
theorem records_graphAfter (history : List Upload) (d : Str) (k : Key) :
    (graphAfter lower history).records.get? (d, k) =
      (latest history d).bind fun plan => plan.recordAfter k := by
  induction history using List.reverseRecOn with
  | nil => rfl
  | append_singleton history u ih =>
    rw [graphAfter_append, (upserted_spec u.order _).records, latest_append]
    by_cases h : d = u.plan.document
    · rw [if_pos h, if_pos h]
      rfl
    · rw [if_neg h, if_neg h, ih]

theorem total_graphAfter (history : List Upload) (k : Key) :
    total (graphAfter lower history).records k = versionSum history k := by
  rw [total_eq_sum (List.nodup_dedup (history.map fun u => u.plan.document))]
  · refine congrArg List.sum (List.map_congr_left fun d _ => ?_)
    rw [records_graphAfter]
  · intro d hd
    rw [records_graphAfter] at hd
    rw [List.mem_dedup]
    cases hfind : history.reverse.find? fun u => u.plan.document = d with
    | none =>
      rw [latest, hfind] at hd
      exact absurd rfl hd
    | some u =>
      have hu := List.find?_some hfind
      have hmem := List.mem_reverse.1 (List.mem_of_find?_eq_some hfind)
      exact List.mem_map.2 ⟨u, hmem, by simpa using hu⟩

theorem positive_graphAfter (history : List Upload) : Positive (graphAfter lower history) := by
  induction history using List.reverseRecOn with
  | nil => exact nofun
  | append_singleton history u ih =>
    rw [graphAfter_append]
    exact (upserted_spec u.order _).positive ih

theorem connected_graphAfter (history : List Upload) : Connected (graphAfter lower history) := by
  induction history using List.reverseRecOn with
  | nil => exact fun k hk => absurd rfl hk
  | append_singleton history u ih =>
    rw [graphAfter_append]
    exact (upserted_spec u.order _).connected ih

/-- Between any two entities of the graph, the edge has the sum of the weights in the latest
versions, and there is none exactly if that sum is zero. -/
def Aggregated (lower : Str → Str) (history : List Upload) : Prop :=
  ∀ p : Pair, present (graphAfter lower history).entities (.pair p) = true →
    (graphAfter lower history).edges.get? (.pair p) =
      if versionSum history (.pair p) = 0 then none else some (versionSum history (.pair p))

theorem aggregated_iff_exact (history : List Upload) :
    Aggregated lower history ↔ ∀ p : Pair, Exact (graphAfter lower history) (.pair p) := by
  simp only [Aggregated, Exact, total_graphAfter]

/-- The weights are right after every upsert of a history exactly if no upsert creates an entity of a
pair that is only in other documents. -/
theorem aggregated_iff (lower : Str → Str) (history : List Upload) :
    (∀ past, past <+: history → Aggregated lower past) ↔
      ∀ past u, past ++ [u] <+: history →
        ∀ p : Pair, ¬ LateEntity lower u.plan (graphAfter lower past) (.pair p) := by
  induction history using List.reverseRecOn with
  | nil =>
    constructor
    · intro _ past u hpast
      simp at hpast
    · intro _ past hpast
      obtain rfl := List.prefix_nil.1 hpast
      intro p hp
      cases hp
  | append_singleton history u ih =>
    have hstep : Aggregated lower history → (Aggregated lower (history ++ [u]) ↔
        ∀ p : Pair, ¬ LateEntity lower u.plan (graphAfter lower history) (.pair p)) := by
      intro hbefore
      rw [aggregated_iff_exact] at hbefore ⊢
      rw [graphAfter_append]
      exact forall_congr' fun p => (upserted_spec u.order _).exact_iff (positive_graphAfter _)
        (connected_graphAfter _) (hbefore p)
    constructor
    · intro h past u' hpast
      have hhistory : ∀ past, past <+: history → Aggregated lower past :=
        fun past hpast => h past (hpast.trans (List.prefix_append _ _))
      rcases List.prefix_concat_iff.1 hpast with heq | hprefix
      · obtain ⟨rfl, hu⟩ := List.append_inj' heq rfl
        obtain rfl := List.singleton_inj.1 hu
        exact (hstep (hhistory _ (List.prefix_refl _))).1 (h _ (List.prefix_refl _))
      · exact ih.1 hhistory past u' hprefix
    · intro h past hpast
      have hhistory : ∀ past, past <+: history → Aggregated lower past :=
        ih.2 fun past u' hpast => h past u' (hpast.trans (List.prefix_append _ _))
      rcases List.prefix_concat_iff.1 hpast with rfl | hprefix
      · exact (hstep (hhistory _ (List.prefix_refl _))).2 (h history u (List.prefix_refl _))
      · exact hhistory past hprefix

/-! ## An edge that is missing -/

/-- The default configuration's upsert of a document with one chunk. -/
def regexUpload (doc text : String) (maxEntities : ℕ) : Upload where
  plan := ((countDocument .ascii .regex [text.toList]).getD .empty).plan doc.toList [] maxEntities
    150
  order := .insertion

/-- The first document has a pair whose second entity is beyond the cap; the second document brings
the entity. -/
theorem edge_missing :
    ¬ ∀ (lower : Str → Str) (history : List Upload), Aggregated lower history := by
  intro h
  have hedge := h GraphEnv.ascii.lower
    [regexUpload "d1" "Acme bought Bolt." 1, regexUpload "d2" "Bolt grew." 80]
    ⟨"acme".toList, "bolt".toList, by decide⟩
  revert hedge
  decide +kernel

end RagLeap.Graph
