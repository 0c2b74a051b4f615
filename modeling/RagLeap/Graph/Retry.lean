import Mathlib.Logic.Relation
import RagLeap.Graph.Upsert

/-!
# Upserts that are tried again

An attempt that was cut leaves a graph in which the document's records of a kind are the old ones or
only new ones (`Partial`). In the second case the next attempt no longer learns which old keys there
were: the edge of an old key that the first attempt did not come to keeps the weight it had.
`retried_iff` says that nothing else can differ from an upsert that was not interrupted.
-/

namespace RagLeap.Graph

open Collection

variable {lower : Str → Str} {plan : Plan} {g h x : Collection}

/-- The two graphs hold the same. -/
structure SameGraph (g h : Collection) : Prop where
  documents : ∀ d, g.documents.get? d = h.documents.get? d
  entities : ∀ k, g.entities.get? k = h.entities.get? k
  contains : ∀ e, g.contains.get? e = h.contains.get? e
  records : ∀ e, g.records.get? e = h.records.get? e
  edges : ∀ k, g.edges.get? k = h.edges.get? k

/-- Every key that the document had in `g` and has no longer has its record in `h`, or computing its
edge anew would change nothing in `h`. -/
def Accounted (plan : Plan) (g h : Collection) : Prop :=
  ∀ k, g.records.get? (plan.document, k) ≠ none → k ∉ plan.keys k.kind →
    h.records.get? (plan.document, k) ≠ none ∨
      settle (present h.entities k) (total h.records k) (h.edges.get? k) = h.edges.get? k

/-! ## Attempts in a row -/

namespace Partial

theorem refl (g : Collection) : Partial lower plan g g :=
  ⟨fun _ _ => rfl, fun _ => .inl rfl, fun _ _ => rfl, fun _ _ => rfl,
    fun _ => .inl fun _ _ => rfl, fun _ => .inl rfl⟩

/-- What an entity becomes does not depend on how far an attempt came. -/
theorem entityAt_eq (hg : Partial lower plan g h) (k : Str) :
    plan.entityAt lower k (h.entities.get? k) = plan.entityAt lower k (g.entities.get? k) := by
  rcases hg.entities k with hk | hk
  · rw [hk]
  · rw [hk, Plan.entityAt_entityAt]

theorem presentAfter_eq (hg : Partial lower plan g h) (k : Key) :
    plan.presentAfter lower h k = plan.presentAfter lower g k := by
  rw [Plan.presentAfter, Plan.presentAfter, hg.entityAt_eq, hg.entityAt_eq]

theorem totalAfter_eq (hg : Partial lower plan g h) (k : Key) :
    plan.totalAfter h k = plan.totalAfter g k := by
  refine Plan.total_eq_totalAfter fun d => ?_
  by_cases hd : d = plan.document
  · subst hd
    cases plan.recordAfter k with
    | none => simp [Dict.get?_erase]
    | some w => simp [Dict.get?_set]
  · rw [if_neg hd, ← hg.records (d, k) hd]
    cases plan.recordAfter k with
    | none => simp [Dict.get?_erase, hd]
    | some w => simp [Dict.get?_set, hd]

/-- An attempt touches no key that the attempt before it had no reason to touch. -/
theorem touches (hg : Partial lower plan g h) {k : Key} (hk : plan.Touches h k) :
    plan.Touches g k := by
  rcases hk with hold | hnew
  · rcases hg.own k.kind with hsame | ⟨-, hnew⟩
    · left
      rw [← hsame k rfl]
      exact hold
    · exact .inr (hnew k rfl hold)
  · exact .inr hnew

theorem complete_trans (hg : Partial lower plan g h) (hx : Complete lower plan h x) :
    Complete lower plan g x := fun k => by rw [hx, hg.entityAt_eq]

theorem complete_keep (hc : Complete lower plan g h) (hx : Partial lower plan h x) :
    Complete lower plan g x := by
  intro k
  rcases hx.entities k with hk | hk
  · rw [hk, hc]
  · rw [hk, hc, Plan.entityAt_entityAt]

/-- One attempt after another. -/
theorem trans (hg : Partial lower plan g h) (hx : Partial lower plan h x) :
    Partial lower plan g x := by
  refine ⟨fun d hd => ?_, fun k => ?_, fun e he => ?_, fun e he => ?_, fun kind => ?_,
    fun k => ?_⟩
  · rw [hx.documents d hd, hg.documents d hd]
  · rcases hx.entities k with hk | hk
    · rw [hk]
      exact hg.entities k
    · rw [hk, hg.entityAt_eq]
      exact .inr rfl
  · rw [hx.contains e he, hg.contains e he]
  · rw [hx.records e he, hg.records e he]
  · rcases hx.own kind with hsame | ⟨hc, hnew⟩
    · refine (hg.own kind).imp ?_ ?_
      · intro hsame' k hk
        rw [hsame k hk, hsame' k hk]
      · rintro ⟨hc, hnew⟩
        refine ⟨complete_keep hc hx, fun k hk => ?_⟩
        rw [hsame k hk]
        exact hnew k hk
    · exact .inr ⟨hg.complete_trans hc, hnew⟩
  · rcases hx.edges k with hk | ⟨hc, htouch, hk⟩
    · rw [hk]
      refine (hg.edges k).imp_right ?_
      rintro ⟨hc, hrest⟩
      exact ⟨complete_keep hc hx, hrest⟩
    · refine .inr ⟨hg.complete_trans hc, hg.touches htouch, ?_⟩
      rw [hk, hg.presentAfter_eq, hg.totalAfter_eq]
      rcases hg.edges k with hk' | ⟨-, -, hk'⟩
      · rw [hk']
      · rw [hk', settle_settle]

/-- A key that an attempt has lost: its record is gone, and the edge is as it was or as it is to
be. -/
theorem edge_eq_iff_of_lost (hg : Partial lower plan g h) {k : Key}
    (hold : g.records.get? (plan.document, k) ≠ none) (hnew : k ∉ plan.keys k.kind)
    (hlost : h.records.get? (plan.document, k) = none) :
    h.edges.get? k =
        settle (plan.presentAfter lower g k) (plan.totalAfter g k) (g.edges.get? k) ↔
      settle (present h.entities k) (total h.records k) (h.edges.get? k) = h.edges.get? k := by
  have hcomplete : Complete lower plan g h := by
    rcases hg.own k.kind with hsame | ⟨hc, -⟩
    · rw [hsame k rfl] at hlost
      exact absurd hlost hold
    · exact hc
  have htotal : total h.records k = plan.totalAfter g k := by
    have hnone : plan.recordAfter k = none := by
      by_contra hne
      exact hnew (Plan.recordAfter_ne_none_iff.1 hne)
    refine Plan.total_eq_totalAfter fun d => ?_
    by_cases hd : d = plan.document
    · subst hd
      rw [if_pos rfl, hnone, hlost]
    · rw [if_neg hd, hg.records (d, k) hd]
  rw [hcomplete.present_eq, htotal]
  rcases hg.edges k with hk | ⟨-, -, hk⟩
  · rw [hk, eq_comm]
  · rw [hk, settle_settle]

/-- An upsert that finds what interrupted attempts left. -/
theorem upserted_same_iff (hg : Partial lower plan g h) {y z : Collection}
    (hy : Upserted lower plan h y) (hz : Upserted lower plan g z) :
    SameGraph y z ↔ Accounted plan g h := by
  constructor
  · intro hsame k hold hnew
    by_contra hlost
    rw [not_or, not_not] at hlost
    obtain ⟨hlost, hchange⟩ := hlost
    have hnot : ¬ plan.Touches h k := by
      rintro (hne | hmem)
      · exact hne hlost
      · exact hnew hmem
    refine hchange ((hg.edge_eq_iff_of_lost hold hnew hlost).1 ?_)
    rw [← hy.untouched k hnot, hsame.edges, hz.touched k (.inl hold)]
  · intro haccounted
    refine ⟨fun d => ?_, fun k => ?_, fun e => ?_, fun e => ?_, fun k => ?_⟩
    · rw [hy.documents, hz.documents]
      split_ifs with hd
      · rfl
      · exact hg.documents d hd
    · rw [hy.entities, hz.entities, hg.entityAt_eq]
    · rw [hy.contains, hz.contains]
      split_ifs with he
      · rfl
      · exact hg.contains e he
    · rw [hy.records, hz.records]
      split_ifs with he
      · rfl
      · exact hg.records e he
    · by_cases hh : plan.Touches h k
      · rw [hy.touched k hh, hz.touched k (hg.touches hh), hg.presentAfter_eq, hg.totalAfter_eq]
        rcases hg.edges k with hk | ⟨-, -, hk⟩
        · rw [hk]
        · rw [hk, settle_settle]
      · rw [hy.untouched k hh]
        rw [Plan.Touches, not_or, not_not] at hh
        obtain ⟨hlost, hnew⟩ := hh
        by_cases hold : g.records.get? (plan.document, k) = none
        · have hnot : ¬ plan.Touches g k := by
            rintro (hne | hmem)
            · exact hne hold
            · exact hnew hmem
          rw [hz.untouched k hnot]
          exact (hg.edges k).resolve_right fun hk => hnot hk.2.1
        · rw [hz.touched k (.inl hold)]
          refine (hg.edge_eq_iff_of_lost hold hnew hlost).2 ?_
          exact (haccounted k hold hnew).resolve_left fun hne => hne hlost

end Partial

/-! ## Calls in a row -/

/-- The graph the last attempt of a call finds and the graph the call leaves are graphs that
attempts lead to; if the call succeeds, its last attempt went to the end. -/
theorem attempts_spec (tries : ℕ → Try) (n : ℕ) (g : Collection) :
    Partial lower plan g (attempts lower plan tries n g).found ∧
      Partial lower plan g (attempts lower plan tries n g).graph ∧
      ((attempts lower plan tries n g).success = true → Upserted lower plan
        (attempts lower plan tries n g).found (attempts lower plan tries n g).graph) := by
  induction n generalizing g with
  | zero => exact ⟨.refl g, .refl g, nofun⟩
  | succ n ih =>
    unfold attempts
    split
    · refine ⟨.refl g, ?_, fun _ => upserted_spec _ g⟩
      exact partial_of_cut (Prog.cut_final _ _ _)
    · rename_i i transient _
      have hcut : Partial lower plan g ((upsertOnce lower plan (tries n).order).cutAt
          (act plan.document) i g) := partial_of_cut (Prog.cut_cutAt _ _ _ _)
      dsimp only
      split
      · obtain ⟨hfound, hgraph, hsuccess⟩ := ih ((upsertOnce lower plan (tries n).order).cutAt
          (act plan.document) i g)
        exact ⟨hcut.trans hfound, hcut.trans hgraph, hsuccess⟩
      · exact ⟨.refl g, hcut, nofun⟩

/-- Several calls for the document, each with its own faults. -/
def callAll (lower : Str → Str) (plan : Plan) (calls : List (ℕ → Try)) (g : Collection) :
    Collection :=
  calls.foldl (fun g tries => (upsertDocument lower plan tries g).graph) g

theorem partial_callAll (calls : List (ℕ → Try)) (g : Collection) :
    Partial lower plan g (callAll lower plan calls g) := by
  induction calls generalizing g with
  | nil => exact .refl g
  | cons tries calls ih => exact (attempts_spec tries MAX_ATTEMPTS g).2.1.trans (ih _)

/-- Calls for a document may be interrupted in any way. When one succeeds, the graph is the one an
upsert without interruption leaves exactly if every key that the document had at first and has no
longer was accounted for when the last attempt began. -/
theorem retried_iff (lower : Str → Str) (plan : Plan) (g : Collection) (calls : List (ℕ → Try))
    (tries : ℕ → Try) (order : SetOrder)
    (h : (upsertDocument lower plan tries (callAll lower plan calls g)).success = true) :
    SameGraph (upsertDocument lower plan tries (callAll lower plan calls g)).graph
        (upserted lower plan order g) ↔
      Accounted plan g (upsertDocument lower plan tries (callAll lower plan calls g)).found := by
  obtain ⟨hfound, -, hsuccess⟩ := @attempts_spec lower plan tries MAX_ATTEMPTS
    (callAll lower plan calls g)
  exact ((partial_callAll calls g).trans hfound).upserted_same_iff (hsuccess h)
    (upserted_spec order g)

/-! ## A lost edge -/

/-- What the default configuration writes for the document `d` with one chunk. -/
def regexPlan (text : Str) : Plan :=
  ((countDocument .ascii .regex [text]).getD .empty).plan "d".toList [] 80 150

/-- Attempts of which the first is interrupted at a statement. -/
def interruptedAt (i : ℕ) : ℕ → Try
  | 2 => ⟨.insertion, some (i, true)⟩
  | _ => ⟨.insertion, none⟩

/-- A document about two companies. -/
def acquisition : Collection :=
  upserted GraphEnv.ascii.lower (regexPlan "Acme bought Bolt.".toList) .insertion .empty

/-- The second version of the document is about neither company. Its first attempt is interrupted
after the old record is deleted; the second one does not know that there was a pair, and the edge
stays. -/
theorem edge_outlives_pair :
    ¬ ∀ (lower : Str → Str) (plan : Plan) (g : Collection) (calls : List (ℕ → Try))
      (tries : ℕ → Try) (order : SetOrder),
      (upsertDocument lower plan tries (callAll lower plan calls g)).success = true →
        SameGraph (upsertDocument lower plan tries (callAll lower plan calls g)).graph
          (upserted lower plan order g) := by
  intro h
  have hsame := h GraphEnv.ascii.lower (regexPlan "it was withdrawn".toList) acquisition []
    (interruptedAt 4) .insertion rfl
  have hedge := hsame.edges (.pair ⟨"acme".toList, "bolt".toList, by decide⟩)
  revert hedge
  decide +kernel

/-- Interrupted at its first statement, the same upsert is made up for. -/
theorem retried_iff_withdrawn :
    SameGraph
        (upsertDocument GraphEnv.ascii.lower (regexPlan "it was withdrawn".toList)
          (interruptedAt 0) acquisition).graph
        (upserted GraphEnv.ascii.lower (regexPlan "it was withdrawn".toList) .insertion
          acquisition) ↔
      Accounted (regexPlan "it was withdrawn".toList) acquisition
        (upsertDocument GraphEnv.ascii.lower (regexPlan "it was withdrawn".toList)
          (interruptedAt 0) acquisition).found :=
  retried_iff _ _ acquisition [] (interruptedAt 0) .insertion rfl

end RagLeap.Graph
