import Mathlib.Algebra.Order.Ring.Rat
import Mathlib.Data.List.Dedup
import RagLeap.Graph.Index

/-!
# What an upsert does

`upserted_spec` says what an upsert that nothing interrupts leaves, read through `Dict.get?`;
`partial_of_cut` says what an attempt can leave that is cut anywhere. Both come from one pass over
the program text (`upsertOnce_along`): the entities are written by `writeEntities_along`, pairs and
relations are replaced by `replace_along`.
-/

namespace RagLeap.Graph

open Collection

variable {lower : Str → Str} {plan : Plan}

/-! ## Sums and edges -/

namespace Collection

/-- A sum depends on the records of its key only. -/
theorem total_congr {r r' : Dict (Str × Key) ℚ} {k : Key}
    (h : ∀ d, r.get? (d, k) = r'.get? (d, k)) : total r k = total r' k := by
  have hnodup : ∀ r : Dict (Str × Key) ℚ, (r.items.filter fun e => e.1.2 = k).Nodup :=
    fun r => (List.Nodup.of_map _ r.nodup).filter _
  have hperm : (r.items.filter fun e => e.1.2 = k).Perm (r'.items.filter fun e => e.1.2 = k) := by
    refine (List.perm_ext_iff_of_nodup (hnodup r) (hnodup r')).2 ?_
    rintro ⟨⟨d, k'⟩, w⟩
    simp only [List.mem_filter, decide_eq_true_eq]
    refine and_congr_left fun hk => ?_
    obtain rfl : k' = k := hk
    rw [← Dict.get?_eq_some_iff, ← Dict.get?_eq_some_iff, h d]
  exact (hperm.map Prod.snd).sum_eq

theorem mem_oldKeys {r : Dict (Str × Key) ℚ} {doc : Str} {kind : Kind} {k : Key} :
    k ∈ oldKeys r doc kind ↔ k.kind = kind ∧ r.get? (doc, k) ≠ none := by
  rw [Option.ne_none_iff_exists']
  simp only [oldKeys, List.mem_map, List.mem_filter, decide_eq_true_eq, Dict.get?_eq_some_iff]
  constructor
  · rintro ⟨⟨⟨d, k'⟩, w⟩, ⟨hmem, hd, hkind⟩, hk⟩
    obtain rfl : k' = k := hk
    obtain rfl : d = doc := hd
    exact ⟨hkind, w, hmem⟩
  · rintro ⟨hkind, w, hmem⟩
    exact ⟨((doc, k), w), ⟨hmem, rfl, hkind⟩, rfl⟩

end Collection

/-- The weight of an edge after it was computed anew. -/
def settle (present : Bool) (total : ℚ) (e : Option ℚ) : Option ℚ :=
  if present then if 0 < total then some total else if total = 0 then none else e else e

theorem settle_settle (present : Bool) (total : ℚ) (e : Option ℚ) :
    settle present total (settle present total e) = settle present total e := by
  unfold settle
  split_ifs <;> rfl

theorem get?_settleEdges (edges : Dict Key ℚ) (k k' : Key) (present : Bool) (total : ℚ) :
    (settleEdges edges k present total).get? k' =
      if k' = k then settle present total (edges.get? k') else edges.get? k' := by
  unfold settleEdges settle
  split_ifs with h₁ h₂ h₃ h₄ h₅ h₆ <;> simp_all [Dict.get?_set, Dict.get?_erase]

/-! ## The last weight of a key -/

/-- The weight of the last entry whose key is `k`. -/
def lastWeight {β κ : Type} [DecidableEq κ] (f : β → κ) (l : List (β × ℕ+)) (k : κ) : Option ℚ :=
  ((l.filter fun e => f e.1 = k).getLast?).map fun e => ((e.2 : ℕ) : ℚ)

theorem lastWeight_append {β κ : Type} [DecidableEq κ] (f : β → κ) (l : List (β × ℕ+))
    (e : β × ℕ+) (k : κ) :
    lastWeight f (l ++ [e]) k = if k = f e.1 then some ((e.2 : ℕ) : ℚ) else lastWeight f l k := by
  unfold lastWeight
  by_cases h : f e.1 = k
  · simp [h]
  · simp [h, Ne.symm h]

theorem lastWeight_ne_none_iff {β κ : Type} [DecidableEq κ] {f : β → κ} {l : List (β × ℕ+)}
    {k : κ} : lastWeight f l k ≠ none ↔ k ∈ l.map fun e => f e.1 := by
  unfold lastWeight
  rw [Ne, Option.map_eq_none_iff, List.getLast?_eq_none_iff, List.filter_eq_nil_iff]
  simp

/-! ## The entities -/

/-- An entity after the entries of `done` were merged into it. -/
def Plan.entityAfter (plan : Plan) (lower : Str → Str) (done : List (Str × ℕ+)) (k : Str)
    (e : Option Entity) : Option Entity :=
  match done.find? fun d => lower d.1 = k with
  | none => e
  | some d => some (.merge d.1 (plan.typeOf k) e)

/-- An entity after the upsert. -/
def Plan.entityAt (plan : Plan) (lower : Str → Str) (k : Str) (e : Option Entity) :
    Option Entity :=
  plan.entityAfter lower plan.entities k e

theorem Entity.merge_merge (name name' entityType : Str) (e : Option Entity) :
    Entity.merge name' entityType (some (.merge name entityType e)) =
      .merge name entityType e := by
  unfold Entity.merge
  split_ifs <;> rfl

/-- Merging one more entry: the first entry of a key decides. -/
theorem Plan.entityAfter_append (done : List (Str × ℕ+)) (d : Str × ℕ+) (k : Str)
    (e : Option Entity) :
    plan.entityAfter lower (done ++ [d]) k e =
      if k = lower d.1 then
        some (.merge d.1 (plan.typeOf k) (plan.entityAfter lower done k e))
      else plan.entityAfter lower done k e := by
  unfold entityAfter
  rw [List.find?_append]
  cases hfind : done.find? fun d => lower d.1 = k with
  | some d' =>
    simp only [Option.some_or, Entity.merge_merge, ite_self]
  | none =>
    by_cases h : lower d.1 = k
    · simp [h]
    · simp [h, Ne.symm h]

/-- Merging entities once more changes nothing. -/
theorem Plan.entityAt_entityAt (k : Str) (e : Option Entity) :
    plan.entityAt lower k (plan.entityAt lower k e) = plan.entityAt lower k e := by
  unfold entityAt entityAfter
  cases plan.entities.find? fun d => lower d.1 = k with
  | none => rfl
  | some d => exact congrArg some (Entity.merge_merge _ _ _ _)

/-- Part of the entries leaves an entity as it was or as the whole list makes it. -/
theorem Plan.entityAfter_of_prefix {done : List (Str × ℕ+)} (h : done <+: plan.entities) (k : Str)
    (e : Option Entity) :
    plan.entityAfter lower done k e = e ∨
      plan.entityAfter lower done k e = plan.entityAt lower k e := by
  obtain ⟨rest, hrest⟩ := h
  cases hfind : done.find? fun d => lower d.1 = k with
  | none =>
    left
    rw [entityAfter, hfind]
  | some d =>
    right
    rw [entityAt, ← hrest]
    unfold entityAfter
    rw [List.find?_append, hfind, Option.some_or]

/-! ## What is written for a key -/

namespace Plan

/-- The keys of a kind that are written. -/
def keys (plan : Plan) (kind : Kind) : List Key := (plan.links kind).map Prod.fst

/-- The document's record of a key after the upsert. -/
def recordAfter (plan : Plan) (k : Key) : Option ℚ := lastWeight id (plan.links k.kind) k

/-- The keys whose edges an upsert computes anew. -/
def Touches (plan : Plan) (g : Collection) (k : Key) : Prop :=
  g.records.get? (plan.document, k) ≠ none ∨ k ∈ plan.keys k.kind

/-- The sum of the records of a key after the upsert. -/
def totalAfter (plan : Plan) (g : Collection) (k : Key) : ℚ :=
  total (match plan.recordAfter k with
    | some w => g.records.set (plan.document, k) w
    | none => g.records.erase (plan.document, k)) k

/-- Both entities of a key are in the graph after the upsert. -/
def presentAfter (plan : Plan) (lower : Str → Str) (g : Collection) (k : Key) : Bool :=
  (plan.entityAt lower k.ends.1 (g.entities.get? k.ends.1)).isSome &&
    (plan.entityAt lower k.ends.2 (g.entities.get? k.ends.2)).isSome

theorem recordAfter_ne_none_iff {k : Key} :
    plan.recordAfter k ≠ none ↔ k ∈ plan.keys k.kind := by
  rw [recordAfter, lastWeight_ne_none_iff]
  rfl

/-- Records that are those of the upsert for the document, and as before for all others. -/
theorem total_eq_totalAfter {g : Collection} {r : Dict (Str × Key) ℚ} {k : Key}
    (h : ∀ d, r.get? (d, k) =
      if d = plan.document then plan.recordAfter k else g.records.get? (d, k)) :
    total r k = plan.totalAfter g k := by
  refine total_congr fun d => ?_
  rw [h d]
  cases plan.recordAfter k with
  | none => simp [Dict.get?_erase]
  | some w => simp [Dict.get?_set]

end Plan

/-- The entities are as the upsert makes them. -/
def Complete (lower : Str → Str) (plan : Plan) (g x : Collection) : Prop :=
  ∀ k, x.entities.get? k = plan.entityAt lower k (g.entities.get? k)

theorem Complete.present_eq {g x : Collection} (h : Complete lower plan g x) (k : Key) :
    present x.entities k = plan.presentAfter lower g k := by
  rw [present, Plan.presentAfter, h, h]

/-! ## Replacing the records of a kind -/

/-- What the replacement leaves alone. -/
structure Elsewhere (doc : Str) (kind : Kind) (g x : Collection) : Prop where
  documents : x.documents = g.documents
  entities : x.entities = g.entities
  contains : x.contains = g.contains
  records : ∀ e, ¬ (e.1 = doc ∧ e.2.kind = kind) → x.records.get? e = g.records.get? e
  edges : ∀ k, k.kind ≠ kind → x.edges.get? k = g.edges.get? k

/-- On the way: the old records are there or only new ones are, and an edge that changed has its new
weight. -/
structure Replacing (plan : Plan) (kind : Kind) (g x : Collection) : Prop
    extends Elsewhere plan.document kind g x where
  own : (∀ k, k.kind = kind →
      x.records.get? (plan.document, k) = g.records.get? (plan.document, k)) ∨
    ∀ k, k.kind = kind → x.records.get? (plan.document, k) ≠ none → k ∈ plan.keys kind
  settled : ∀ k, k.kind = kind → x.edges.get? k = g.edges.get? k ∨
    plan.Touches g k ∧
      x.edges.get? k = settle (present g.entities k) (plan.totalAfter g k) (g.edges.get? k)

/-- In the end: the records are the new ones, and the edges of all old and new keys are computed
anew. -/
structure Replaced (plan : Plan) (kind : Kind) (g x : Collection) : Prop
    extends Elsewhere plan.document kind g x where
  own : ∀ k, k.kind = kind → x.records.get? (plan.document, k) = plan.recordAfter k
  touched : ∀ k, k.kind = kind → plan.Touches g k →
    x.edges.get? k = settle (present g.entities k) (plan.totalAfter g k) (g.edges.get? k)
  untouched : ∀ k, k.kind = kind → ¬ plan.Touches g k → x.edges.get? k = g.edges.get? k

/-- The records after the deletion and the entries of `done`. -/
structure Written (plan : Plan) (kind : Kind) (done : List (Key × ℕ+)) (g x : Collection) :
    Prop where
  documents : x.documents = g.documents
  entities : x.entities = g.entities
  contains : x.contains = g.contains
  records : ∀ e, x.records.get? e = if e.1 = plan.document ∧ e.2.kind = kind then
    lastWeight id done e.2 else g.records.get? e
  edges : x.edges = g.edges

theorem Written.replacing {kind : Kind} {done : List (Key × ℕ+)} {g x : Collection}
    (hdone : done <+: plan.links kind) (h : Written plan kind done g x) :
    Replacing plan kind g x where
  documents := h.documents
  entities := h.entities
  contains := h.contains
  records e he := by rw [h.records, if_neg he]
  edges k _ := by rw [h.edges]
  own := by
    right
    intro k hk hne
    rw [h.records, if_pos ⟨rfl, hk⟩, lastWeight_ne_none_iff] at hne
    exact (hdone.map Prod.fst).subset hne
  settled k _ := by
    left
    rw [h.edges]

/-- The edges after the keys of `done` were computed anew. -/
structure Recomputed (plan : Plan) (kind : Kind) (done : List Key) (g x : Collection) :
    Prop where
  documents : x.documents = g.documents
  entities : x.entities = g.entities
  contains : x.contains = g.contains
  records : ∀ e, x.records.get? e = if e.1 = plan.document ∧ e.2.kind = kind then
    plan.recordAfter e.2 else g.records.get? e
  edges : ∀ k, x.edges.get? k =
    if k ∈ done then settle (present g.entities k) (plan.totalAfter g k) (g.edges.get? k)
    else g.edges.get? k

/-- The keys of the document before and after. -/
def Plan.affected (plan : Plan) (kind : Kind) (g : Collection) : List Key :=
  oldKeys g.records plan.document kind ++ plan.keys kind

theorem Plan.mem_affected {kind : Kind} {g : Collection} {k : Key} :
    k ∈ plan.affected kind g ↔ k.kind = kind ∧ plan.Touches g k := by
  rw [affected, List.mem_append, mem_oldKeys, Touches]
  constructor
  · rintro (⟨hk, hold⟩ | hnew)
    · exact ⟨hk, .inl hold⟩
    · obtain ⟨e, he, rfl⟩ := List.mem_map.1 hnew
      have hk := plan.kinds kind e he
      exact ⟨hk, .inr (hk ▸ hnew)⟩
  · rintro ⟨rfl, hold | hnew⟩
    · exact .inl ⟨rfl, hold⟩
    · exact .inr hnew

namespace Recomputed

variable {kind : Kind} {g x : Collection} {done : List Key}

theorem elsewhere (hdone : ∀ k ∈ done, k ∈ plan.affected kind g)
    (h : Recomputed plan kind done g x) : Elsewhere plan.document kind g x where
  documents := h.documents
  entities := h.entities
  contains := h.contains
  records e he := by rw [h.records, if_neg he]
  edges k hk := by
    rw [h.edges, if_neg]
    intro hmem
    exact hk (Plan.mem_affected.1 (hdone k hmem)).1

theorem replacing (hdone : ∀ k ∈ done, k ∈ plan.affected kind g)
    (h : Recomputed plan kind done g x) : Replacing plan kind g x where
  toElsewhere := h.elsewhere hdone
  own := by
    right
    intro k hk hne
    rw [h.records, if_pos ⟨rfl, hk⟩, Plan.recordAfter_ne_none_iff, hk] at hne
    exact hne
  settled k hk := by
    rw [h.edges]
    split_ifs with hmem
    · exact .inr ⟨(Plan.mem_affected.1 (hdone k hmem)).2, rfl⟩
    · exact .inl rfl

theorem replaced (hdone : ∀ k, k ∈ done ↔ k ∈ plan.affected kind g)
    (h : Recomputed plan kind done g x) : Replaced plan kind g x where
  toElsewhere := h.elsewhere fun k hk => (hdone k).1 hk
  own k hk := by rw [h.records, if_pos ⟨rfl, hk⟩]
  touched k hk htouch := by
    rw [h.edges, if_pos ((hdone k).2 (Plan.mem_affected.2 ⟨hk, htouch⟩))]
  untouched k hk htouch := by
    rw [h.edges, if_neg]
    intro hmem
    exact htouch (Plan.mem_affected.1 ((hdone k).1 hmem)).2

/-- One more key. The records are all written, so its sum is the one after the upsert. -/
theorem step {k : Key} (hk : k ∈ plan.affected kind g) (h : Recomputed plan kind done g x) :
    Recomputed plan kind (done ++ [k]) g (act plan.document (.recompute k) x).2 where
  documents := h.documents
  entities := h.entities
  contains := h.contains
  records := h.records
  edges k' := by
    have htotal : total x.records k = plan.totalAfter g k := by
      refine Plan.total_eq_totalAfter fun d => ?_
      rw [h.records]
      have hkind : k.kind = kind := (Plan.mem_affected.1 hk).1
      simp [hkind]
    show (settleEdges x.edges k (present x.entities k) (total x.records k)).get? k' = _
    rw [get?_settleEdges, h.entities, htotal, h.edges]
    by_cases hk' : k' = k
    · subst hk'
      by_cases hmem : k' ∈ done <;> simp [hmem, settle_settle]
    · by_cases hmem : k' ∈ done <;> simp [hmem, hk']

end Recomputed

/-- The three loops in turn: the deletion, the new records, the edges. -/
theorem replace_along (order : SetOrder) (kind : Kind) (g : Collection) :
    (replace order kind (plan.links kind)).Along (act plan.document) (Replacing plan kind g)
      (fun _ x => Replaced plan kind g x) g := by
  have hstart : Replacing plan kind g g :=
    ⟨⟨rfl, rfl, rfl, fun _ _ => rfl, fun _ _ => rfl⟩, .inl fun _ _ => rfl, fun _ _ => .inl rfl⟩
  have hdeleted : Written plan kind [] g (act plan.document (.deleteRecords kind) g).2 := by
    refine ⟨rfl, rfl, rfl, fun e => ?_, rfl⟩
    show (g.records.filter _).get? e = _
    rw [Dict.get?_filter]
    by_cases he : e.1 = plan.document ∧ e.2.kind = kind
    · cases g.records.get? e <;> simp [he, Option.filter, lastWeight]
    · cases g.records.get? e <;> simp [he, Option.filter]
  refine Prog.Along.call_bind hstart (Prog.Along.call_bind hstart ?_)
  refine Prog.Along.bind (Q := fun _ x => Written plan kind (plan.links kind) g x) ?_ ?_
  · refine Prog.Along.forEach (fun done x => Written plan kind done g x)
      (fun done x hdone h => h.replacing hdone) ?_ hdeleted
    intro done b x hdone h
    have hstep : Written plan kind (done ++ [b]) g
        (act plan.document (.mergeRecord b.1 (b.2 : ℕ)) x).2 := by
      refine ⟨h.documents, h.entities, h.contains, fun e => ?_, h.edges⟩
      have hkind : b.1.kind = kind := plan.kinds kind b (hdone.subset (by simp))
      show (x.records.set (plan.document, b.1) _).get? e = _
      rw [Dict.get?_set, h.records, lastWeight_append]
      obtain ⟨d, k⟩ := e
      by_cases hk : k = b.1
      · subst hk
        by_cases hd : d = plan.document <;> simp [hd, hkind]
      · by_cases hd : d = plan.document <;> simp [hd, hk]
    exact ⟨h.replacing ((List.prefix_append _ _).trans hdone), hstep.replacing hdone, hstep⟩
  · intro _ y hy
    have hrecords : Recomputed plan kind [] g y := by
      refine ⟨hy.documents, hy.entities, hy.contains, fun e => ?_, fun k => by simp [hy.edges]⟩
      rw [hy.records]
      by_cases he : e.1 = plan.document ∧ e.2.kind = kind
      · rw [if_pos he, if_pos he, Plan.recordAfter, he.2]
      · rw [if_neg he, if_neg he]
    have hmem : ∀ k, k ∈ order.1 (plan.affected kind g) ↔ k ∈ plan.affected kind g := by
      intro k
      rw [(order.2 _).mem_iff, List.mem_dedup]
    have hsub : ∀ done, done <+: order.1 (plan.affected kind g) →
        ∀ k ∈ done, k ∈ plan.affected kind g :=
      fun done hdone k hk => (hmem k).1 (hdone.subset hk)
    refine (Prog.Along.forEach (fun done x => Recomputed plan kind done g x)
      (fun done x hdone h => h.replacing (hsub done hdone)) ?_ hrecords).mono (fun _ h => h)
      fun _ x h => h.replaced hmem
    intro done k x hdone h
    have hk : k ∈ plan.affected kind g := hsub _ hdone k (by simp)
    have hstep := h.step hk
    exact ⟨h.replacing (hsub done ((List.prefix_append _ _).trans hdone)),
      hstep.replacing (hsub _ hdone), hstep⟩

/-- What an attempt leaves that found `g` and was cut somewhere. -/
structure Partial (lower : Str → Str) (plan : Plan) (g x : Collection) : Prop where
  documents : ∀ d, d ≠ plan.document → x.documents.get? d = g.documents.get? d
  entities : ∀ k, x.entities.get? k = g.entities.get? k ∨
    x.entities.get? k = plan.entityAt lower k (g.entities.get? k)
  contains : ∀ e, e.1 ≠ plan.document → x.contains.get? e = g.contains.get? e
  records : ∀ e, e.1 ≠ plan.document → x.records.get? e = g.records.get? e
  own : ∀ kind, (∀ k, k.kind = kind →
      x.records.get? (plan.document, k) = g.records.get? (plan.document, k)) ∨
    Complete lower plan g x ∧ ∀ k, k.kind = kind →
      x.records.get? (plan.document, k) ≠ none → k ∈ plan.keys kind
  edges : ∀ k, x.edges.get? k = g.edges.get? k ∨
    Complete lower plan g x ∧ plan.Touches g k ∧
      x.edges.get? k =
        settle (plan.presentAfter lower g k) (plan.totalAfter g k) (g.edges.get? k)

/-- What an upsert leaves that found `g`. -/
structure Upserted (lower : Str → Str) (plan : Plan) (g x : Collection) : Prop where
  documents : ∀ d, x.documents.get? d =
    if d = plan.document then some plan.title else g.documents.get? d
  entities : Complete lower plan g x
  contains : ∀ e, x.contains.get? e =
    if e.1 = plan.document then lastWeight lower plan.entities e.2 else g.contains.get? e
  records : ∀ e, x.records.get? e =
    if e.1 = plan.document then plan.recordAfter e.2 else g.records.get? e
  touched : ∀ k, plan.Touches g k → x.edges.get? k =
    settle (plan.presentAfter lower g k) (plan.totalAfter g k) (g.edges.get? k)
  untouched : ∀ k, ¬ plan.Touches g k → x.edges.get? k = g.edges.get? k

theorem Upserted.contains_own {g x : Collection} (h : Upserted lower plan g x) (k : Str) :
    x.contains.get? (plan.document, k) = lastWeight lower plan.entities k := by
  rw [h.contains, if_pos rfl]

theorem Upserted.records_own {g x : Collection} (h : Upserted lower plan g x) (k : Key) :
    x.records.get? (plan.document, k) = plan.recordAfter k := by
  rw [h.records, if_pos rfl]

theorem Replaced.replacing {kind : Kind} {g x : Collection} (h : Replaced plan kind g x) :
    Replacing plan kind g x where
  toElsewhere := h.toElsewhere
  own := by
    right
    intro k hk hne
    rw [h.own k hk, Plan.recordAfter_ne_none_iff, hk] at hne
    exact hne
  settled k hk := by
    by_cases htouch : plan.Touches g k
    · exact .inr ⟨htouch, h.touched k hk htouch⟩
    · exact .inl (h.untouched k hk htouch)

section

variable {kind : Kind} {g y x : Collection}

/-- Two graphs with the same records of a key. -/
theorem Plan.totalAfter_congr {k : Key}
    (h : ∀ d, y.records.get? (d, k) = g.records.get? (d, k)) :
    plan.totalAfter y k = plan.totalAfter g k := by
  refine Plan.total_eq_totalAfter fun d => ?_
  rw [← h d]
  cases plan.recordAfter k with
  | none => simp [Dict.get?_erase]
  | some w => simp [Dict.get?_set]

theorem Plan.touches_congr {k : Key} (h : ∀ d, y.records.get? (d, k) = g.records.get? (d, k)) :
    plan.Touches y k ↔ plan.Touches g k := by
  rw [Touches, Touches, h]

theorem Complete.of_entities_eq (h : Complete lower plan g y) (hx : x.entities = y.entities) :
    Complete lower plan g x := fun k => by rw [hx, h]

/-- The replacement of a kind that was not touched before. -/
theorem Partial.replacing (hy : Partial lower plan g y) (hcomplete : Complete lower plan g y)
    (hrecords : ∀ e, e.2.kind = kind → y.records.get? e = g.records.get? e)
    (hedges : ∀ k, k.kind = kind → y.edges.get? k = g.edges.get? k)
    (h : Replacing plan kind y x) : Partial lower plan g x := by
  have hx : Complete lower plan g x := hcomplete.of_entities_eq h.entities
  refine ⟨?_, fun k => .inr (hx k), ?_, ?_, ?_, ?_⟩
  · intro d hd
    rw [h.documents]
    exact hy.documents d hd
  · intro e he
    rw [h.contains]
    exact hy.contains e he
  · intro e he
    rw [h.toElsewhere.records e fun h => he h.1]
    exact hy.records e he
  · intro kind'
    by_cases hkind : kind' = kind
    · subst hkind
      refine h.own.imp ?_ fun hnew => ⟨hx, hnew⟩
      intro hsame k hk
      rw [hsame k hk, hrecords _ hk]
    · have hframe : ∀ k, k.kind = kind' →
          x.records.get? (plan.document, k) = y.records.get? (plan.document, k) := by
        rintro k rfl
        exact h.toElsewhere.records _ fun h => hkind h.2
      refine (hy.own kind').imp ?_ ?_
      · intro hsame k hk
        rw [hframe k hk, hsame k hk]
      · rintro ⟨-, hnew⟩
        refine ⟨hx, fun k hk => ?_⟩
        rw [hframe k hk]
        exact hnew k hk
  · intro k
    by_cases hk : k.kind = kind
    · have hsame : ∀ d, y.records.get? (d, k) = g.records.get? (d, k) :=
        fun d => hrecords (d, k) hk
      rw [← hedges k hk]
      refine (h.settled k hk).imp_right ?_
      rintro ⟨htouch, hsettled⟩
      rw [hcomplete.present_eq, Plan.totalAfter_congr hsame] at hsettled
      exact ⟨hx, (Plan.touches_congr hsame).1 htouch, hsettled⟩
    · rw [h.toElsewhere.edges k hk]
      exact (hy.edges k).imp_right fun ⟨_, hrest⟩ => ⟨hx, hrest⟩

end

/-- The graph after the document and the entries of `done` were written. -/
structure Entered (lower : Str → Str) (plan : Plan) (done : List (Str × ℕ+)) (g x : Collection) :
    Prop where
  documents : x.documents = g.documents.set plan.document plan.title
  entities : ∀ k, x.entities.get? k = plan.entityAfter lower done k (g.entities.get? k)
  contains : ∀ e, x.contains.get? e =
    if e.1 = plan.document then lastWeight lower done e.2 else g.contains.get? e
  records : x.records = g.records
  edges : x.edges = g.edges

namespace Entered

variable {g x : Collection} {done : List (Str × ℕ+)}

theorem partial_of_prefix (hdone : done <+: plan.entities) (h : Entered lower plan done g x) :
    Partial lower plan g x where
  documents d hd := by rw [h.documents, Dict.get?_set, if_neg hd]
  entities k := by
    rw [h.entities]
    exact Plan.entityAfter_of_prefix hdone k _
  contains e he := by rw [h.contains, if_neg he]
  records e _ := by rw [h.records]
  own kind := by
    left
    intro k _
    rw [h.records]
  edges k := by
    left
    rw [h.edges]

theorem step {d : Str × ℕ+} (h : Entered lower plan done g x) :
    Entered lower plan (done ++ [d]) g (act plan.document
      (.mergeEntity (lower d.1) d.1 (plan.typeOf (lower d.1)) (d.2 : ℕ)) x).2 := by
  have hdoc : (x.documents.get? plan.document).isSome = true := by
    rw [h.documents, Dict.get?_set, if_pos rfl]
    rfl
  have hact : (act plan.document
      (.mergeEntity (lower d.1) d.1 (plan.typeOf (lower d.1)) (d.2 : ℕ)) x).2 =
      { x with
        entities := x.entities.set (lower d.1)
          (.merge d.1 (plan.typeOf (lower d.1)) (x.entities.get? (lower d.1)))
        contains := x.contains.set (plan.document, lower d.1) (d.2 : ℕ) } := if_pos hdoc
  rw [hact]
  refine ⟨h.documents, fun k => ?_, fun e => ?_, h.records, h.edges⟩
  · show (x.entities.set _ _).get? k = _
    rw [Dict.get?_set, Plan.entityAfter_append, h.entities, h.entities]
    by_cases hk : k = lower d.1
    · simp [hk]
    · rw [if_neg hk, if_neg hk]
  · show (x.contains.set _ _).get? e = _
    rw [Dict.get?_set, lastWeight_append, h.contains]
    obtain ⟨doc, k⟩ := e
    by_cases hd : doc = plan.document
    · by_cases hk : k = lower d.1 <;> simp [hd, hk]
    · simp [hd]

end Entered

/-- Document, entities, pairs, relations. -/
theorem upsertOnce_along (order : SetOrder) (g : Collection) :
    (upsertOnce lower plan order).Along (act plan.document) (Partial lower plan g)
      (fun _ x => Upserted lower plan g x) g := by
  have hstart : Partial lower plan g g :=
    ⟨fun _ _ => rfl, fun _ => .inl rfl, fun _ _ => rfl, fun _ _ => rfl,
      fun _ => .inl fun _ _ => rfl, fun _ => .inl rfl⟩
  have hdocument : Partial lower plan g (act plan.document (.mergeDocument plan.title) g).2 := by
    refine ⟨fun d hd => ?_, fun _ => .inl rfl, fun _ _ => rfl, fun _ _ => rfl,
      fun _ => .inl fun _ _ => rfl, fun _ => .inl rfl⟩
    show (g.documents.set _ _).get? d = _
    rw [Dict.get?_set, if_neg hd]
  refine Prog.Along.call_bind hstart (Prog.Along.call_bind hdocument ?_)
  refine Prog.Along.bind (Q := fun _ x => Entered lower plan plan.entities g x) ?_ ?_
  · refine Prog.Along.forEach (fun done x => Entered lower plan done g x)
      (fun done x hdone h => h.partial_of_prefix hdone) ?_ ?_
    · intro done d x hdone h
      have hbefore : done <+: plan.entities := (List.prefix_append _ _).trans hdone
      exact ⟨h.partial_of_prefix hbefore, h.step.partial_of_prefix hdone, h.step⟩
    · refine ⟨rfl, fun k => rfl, fun e => ?_, rfl, rfl⟩
      show (g.contains.filter _).get? e = _
      rw [Dict.get?_filter]
      by_cases he : e.1 = plan.document
      · cases g.contains.get? e <;> simp [he, Option.filter, lastWeight]
      · cases g.contains.get? e <;> simp [he, Option.filter]
  · intro _ y hy
    have hcomplete : Complete lower plan g y := hy.entities
    have hpartial : Partial lower plan g y := hy.partial_of_prefix (List.prefix_refl _)
    have hrecords : ∀ e, y.records.get? e = g.records.get? e := fun e => by rw [hy.records]
    have hedges : ∀ k, y.edges.get? k = g.edges.get? k := fun k => by rw [hy.edges]
    have hpairs : ∀ x, Replacing plan .pair y x → Partial lower plan g x :=
      fun x hx => hpartial.replacing hcomplete (fun e _ => hrecords e) (fun k _ => hedges k) hx
    refine ((replace_along order .pair y).mono hpairs fun _ _ h => h).bind ?_
    intro _ z hz
    have hz' : Complete lower plan g z := hcomplete.of_entities_eq hz.entities
    have hrecords' : ∀ e : Str × Key, e.2.kind = .relation →
        z.records.get? e = g.records.get? e := by
      intro e he
      rw [hz.records e (by simp [he]), hrecords]
    have hedges' : ∀ k : Key, k.kind = .relation → z.edges.get? k = g.edges.get? k := by
      intro k hk
      rw [hz.edges k (by simp [hk]), hedges]
    refine (replace_along order .relation z).mono (fun x hx =>
      (hpairs z hz.replacing).replacing hz' hrecords' hedges' hx) fun _ x hx => ?_
    have hkinds : ∀ k : Key, k.kind = .pair ∨ k.kind = .relation := by
      intro k
      cases k
      · exact .inl rfl
      · exact .inr rfl
    have hsame : ∀ k d, y.records.get? (d, k) = g.records.get? (d, k) :=
      fun k d => hrecords (d, k)
    have hsame' : ∀ k : Key, k.kind = .relation → ∀ d,
        z.records.get? (d, k) = g.records.get? (d, k) := fun k hk d => hrecords' (d, k) hk
    refine ⟨fun d => ?_, hz'.of_entities_eq hx.entities, fun e => ?_, fun e => ?_,
      fun k htouch => ?_, fun k htouch => ?_⟩
    · rw [hx.documents, hz.documents, hy.documents, Dict.get?_set]
    · rw [hx.contains, hz.contains, hy.contains]
    · obtain ⟨d, k⟩ := e
      by_cases hd : d = plan.document
      · subst hd
        rw [if_pos rfl]
        rcases hkinds k with hk | hk
        · rw [hx.records _ (by simp [hk]), hz.own k hk]
        · rw [hx.own k hk]
      · rw [if_neg hd, hx.records _ (by simp [hd]), hz.records _ (by simp [hd]), hrecords]
    · rcases hkinds k with hk | hk
      · rw [hx.edges k (by simp [hk]), hz.touched k hk ((Plan.touches_congr (hsame k)).2 htouch),
          hcomplete.present_eq, Plan.totalAfter_congr (hsame k), hedges]
      · rw [hx.touched k hk ((Plan.touches_congr (hsame' k hk)).2 htouch), hz'.present_eq,
          Plan.totalAfter_congr (hsame' k hk), hedges' k hk]
    · rcases hkinds k with hk | hk
      · rw [hx.edges k (by simp [hk]),
          hz.untouched k hk fun h => htouch ((Plan.touches_congr (hsame k)).1 h), hedges]
      · rw [hx.untouched k hk fun h => htouch ((Plan.touches_congr (hsame' k hk)).1 h),
          hedges' k hk]

theorem upserted_spec (order : SetOrder) (g : Collection) :
    Upserted lower plan g (upserted lower plan order g) :=
  (upsertOnce_along order g).final

theorem partial_of_cut {order : SetOrder} {g x : Collection}
    (h : (upsertOnce lower plan order).Cut (act plan.document) g x) : Partial lower plan g x :=
  (upsertOnce_along order g).cut h

end RagLeap.Graph
