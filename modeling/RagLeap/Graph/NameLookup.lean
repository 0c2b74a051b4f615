import RagLeap.Graph.Upsert

/-!
# Finding a document by the name of its entity

A lookup normalises the name it is given, an upsert stores what the extraction found: the two agree
on a display name exactly if the normalised name, in lower case, is one the document was stored
under. `found_iff` adds the cap on the number of hits.
-/

namespace RagLeap.Graph

open Collection

variable {env : GraphEnv} {plan : Plan} {g : Collection}

/-- A cut list still has an entry that meets `P` if fewer than `n` entries stand before the first. -/
theorem exists_mem_take_iff {α : Type} (P : α → Prop) [DecidablePred P] (l : List α) (n : ℕ) :
    (∃ a ∈ l.take n, P a) ↔ (∃ a ∈ l, P a) ∧ (l.takeWhile fun a => ¬ P a).length < n := by
  induction l generalizing n with
  | nil => simp
  | cons a l ih =>
    cases n with
    | zero => simp
    | succ n =>
      by_cases ha : P a
      · simp [ha]
      · have hrest := ih n
        simp only [List.take_succ_cons, List.mem_cons, exists_eq_or_imp, ha, false_or,
          not_false_eq_true, decide_true, List.takeWhile_cons_of_pos, List.length_cons,
          Nat.add_lt_add_iff_right]
        exact hrest

/-- The document is among the hits for one name exactly if it contains an entity of that name. -/
theorem Collection.exists_hit_iff (g : Collection) (n doc : Str) :
    (∃ h ∈ g.hits [n], h.document = doc) ↔ g.contains.get? (doc, n) ≠ none := by
  rw [Option.ne_none_iff_exists']
  simp only [hits, List.mem_map, List.mem_dedup, List.mem_filter, List.mem_singleton,
    decide_eq_true_eq, Dict.get?_eq_some_iff]
  constructor
  · rintro ⟨_, ⟨_, ⟨⟨⟨d, k⟩, w⟩, ⟨hmem, hk⟩, rfl⟩, rfl⟩, hdoc⟩
    obtain rfl : k = n := hk
    obtain rfl : d = doc := hdoc
    exact ⟨w, hmem⟩
  · rintro ⟨w, hmem⟩
    exact ⟨_, ⟨doc, ⟨((doc, n), w), ⟨hmem, rfl⟩, rfl⟩, rfl⟩, rfl⟩

/-- The list of names for a single one. -/
theorem normalizeEntityList_singleton (env : GraphEnv) (name : Str) :
    normalizeEntityList env [name] =
      if normalizeEntityName env name = [] then []
      else [env.lower (normalizeEntityName env name)] := by
  unfold normalizeEntityList
  by_cases h : normalizeEntityName env name = [] <;> simp [h, distinctBy]

/-- How many documents a lookup lists before this one. -/
def rankOf (rank : Ranking) (g : Collection) (n doc : Str) : ℕ :=
  ((rank.1 (g.hits [n])).takeWhile fun h => ¬ h.document = doc).length

/-- After an upsert, a lookup of any name gives the document exactly if its normalised form in lower
case is the name of an entity that was written for the document, and fewer documents than the limit
are ranked before it. -/
theorem Upserted.found_iff {g x : Collection} (h : Upserted env.lower plan g x) (rank : Ranking)
    (name : Str) (limit : ℤ) :
    (∃ hit ∈ findDocumentsByEntities env rank x [name] limit, hit.document = plan.document) ↔
      normalizeEntityName env name ≠ [] ∧
        env.lower (normalizeEntityName env name) ∈ plan.entities.map (fun e => env.lower e.1) ∧
        rankOf rank x (env.lower (normalizeEntityName env name)) plan.document <
          (max 1 limit).toNat := by
  unfold findDocumentsByEntities
  rw [normalizeEntityList_singleton]
  by_cases hname : normalizeEntityName env name = []
  · simp [hname]
  · have hperm := (rank.2 (x.hits [env.lower (normalizeEntityName env name)])).1
    have hhits : (∃ hit ∈ rank.1 (x.hits [env.lower (normalizeEntityName env name)]),
        hit.document = plan.document) ↔
        env.lower (normalizeEntityName env name) ∈ plan.entities.map fun e => env.lower e.1 := by
      simp only [hperm.mem_iff]
      rw [exists_hit_iff, h.contains_own, lastWeight_ne_none_iff]
    simp only [hname, if_false, List.cons_ne_nil, exists_mem_take_iff, hhits, rankOf, ne_eq,
      not_false_eq_true, true_and]

/-- The document of an upsert is found by the display name of an entity that the upsert stored
exactly if that name, normalised and in lower case, is the name of an entity the upsert stored, and
fewer documents than the limit are ranked before it. -/
theorem found_by_displayName_iff (env : GraphEnv) (plan : Plan) (order : SetOrder) (g : Collection)
    (rank : Ranking) (limit : ℤ) :
    ∀ name ∈ plan.entities.map Prod.fst,
      ∀ e ∈ (upserted env.lower plan order g).entities.get? (env.lower name),
        (∃ hit ∈ findDocumentsByEntities env rank (upserted env.lower plan order g)
            [e.displayName] limit, hit.document = plan.document) ↔
          normalizeEntityName env e.displayName ≠ [] ∧
            env.lower (normalizeEntityName env e.displayName) ∈
              plan.entities.map (fun e => env.lower e.1) ∧
            rankOf rank (upserted env.lower plan order g)
                (env.lower (normalizeEntityName env e.displayName)) plan.document <
              (max 1 limit).toNat :=
  fun _ _ e _ => (upserted_spec order g).found_iff rank e.displayName limit

instance : DecidableRel Hit.before := fun h h' =>
  inferInstanceAs (Decidable (h'.matched < h.matched ∨ h'.matched = h.matched ∧ h'.score ≤ h.score))

/-- The ranking that keeps documents with equal scores as they are. -/
def Ranking.insertion : Ranking := ⟨fun l => l.insertionSort Hit.before, fun l => by
  have : Std.Total Hit.before := ⟨fun h h' => by
    rcases lt_trichotomy h.matched h'.matched with hlt | heq | hgt
    · exact .inr (.inl hlt)
    · rcases le_total h.score h'.score with hle | hle
      · exact .inr (.inr ⟨heq, hle⟩)
      · exact .inl (.inr ⟨heq.symm, hle⟩)
    · exact .inl (.inl hgt)⟩
  have : IsTrans Hit Hit.before := ⟨by
    rintro a b c (hab | ⟨hab, hs⟩) (hbc | ⟨hbc, hs'⟩)
    · exact .inl (hbc.trans hab)
    · exact .inl (hbc ▸ hab)
    · exact .inl (hab ▸ hbc)
    · exact .inr ⟨hbc.trans hab, hs'.trans hs⟩⟩
  exact ⟨List.perm_insertionSort _ l, List.pairwise_insertionSort _ l⟩⟩

/-- What a model's entities make of the document `d` with one chunk. -/
def modelPlan (names : List String) (text : String) : Plan :=
  ((countDocument .ascii { Extractor.regex with
      llm := true
      entityReply := fun _ => some (names.map fun name => (name.toList, UNKNOWN)) }
    [text.toList]).getD .empty).plan "d".toList [] 80 150

/-- A model finds the entity `Yahoo!`; a lookup of that name looks for `yahoo`. -/
theorem punctuated_name_not_found :
    ¬ ∀ (env : GraphEnv) (plan : Plan) (order : SetOrder) (g : Collection) (rank : Ranking)
      (limit : ℤ), ∀ name ∈ plan.entities.map Prod.fst,
        ∀ e ∈ (upserted env.lower plan order g).entities.get? (env.lower name),
          ∃ hit ∈ findDocumentsByEntities env rank (upserted env.lower plan order g)
            [e.displayName] limit, hit.document = plan.document := by
  intro h
  have hfound := h .ascii (modelPlan ["Yahoo!"] "Yahoo! grew.") .insertion .empty .insertion 25
    "Yahoo!".toList (by decide) ⟨"Yahoo!".toList, some UNKNOWN⟩ (by decide)
  have hnone : findDocumentsByEntities .ascii .insertion (upserted GraphEnv.ascii.lower
      (modelPlan ["Yahoo!"] "Yahoo! grew.") .insertion .empty) ["Yahoo!".toList] 25 = [] := by
    have hlength : (findDocumentsByEntities .ascii .insertion (upserted GraphEnv.ascii.lower
      (modelPlan ["Yahoo!"] "Yahoo! grew.") .insertion .empty) ["Yahoo!".toList] 25).length = 0 := by
      decide
    exact List.eq_nil_of_length_eq_zero hlength
  obtain ⟨hit, hmem, -⟩ := hfound
  have hmem' : hit ∈ ([] : List Hit) := hnone ▸ hmem
  cases hmem'

/-- A name without punctuation is found. -/
theorem found_by_displayName_iff_acme :
    (∃ hit ∈ findDocumentsByEntities .ascii .insertion (upserted GraphEnv.ascii.lower
        (modelPlan ["Acme"] "Acme grew.") .insertion .empty) ["Acme".toList] 25,
      hit.document = "d".toList) :=
  (found_by_displayName_iff .ascii (modelPlan ["Acme"] "Acme grew.") .insertion .empty .insertion 25
    "Acme".toList (by decide) ⟨"Acme".toList, some UNKNOWN⟩ (by decide)).2
      (by decide)

end RagLeap.Graph
