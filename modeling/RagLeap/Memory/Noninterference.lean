import RagLeap.Memory.Isolation

/-!
# Searches and other tenants

The operations of other tenants leave the rows a search chooses from as they are
(`covered_execAll`), but not the statistics of the index, from which the scores are made. What a
search returns can therefore change in its order, its scores and, beyond the limit, its entries;
it stays the same where the statistics do (`search_execAll`).
-/

namespace RagLeap.Memory

open Security

variable {env : Env} {scope : Scope} {w : World} {q : Query} {m m' : Memories}
  {ops : List (World × Op)}

/-! ## The rows of the tenant -/

/-- An operation of another tenant leaves the covered rows as they are. -/
theorem covered_exec {op : Op} (h : op.scope.tenant ≠ scope.tenant) :
    covered scope (exec env w op m).2 = covered scope m := by
  have hout : ∀ r : Row, scope.covers r.scope = true → (!op.scope.covers r.scope) = true := by
    intro r hr
    rw [Bool.not_eq_true']
    by_contra hcovers
    rw [Bool.not_eq_false] at hcovers
    exact h ((Scope.tenant_eq_of_covers hcovers).trans (Scope.tenant_eq_of_covers hr).symm)
  have hpart : ∀ m : Memories,
      covered scope m = (uncovered op.scope m).filter fun r => scope.covers r.scope := by
    intro m
    unfold covered uncovered
    rw [List.filter_filter]
    refine List.filter_congr fun r _ => ?_
    cases hr : scope.covers r.scope with
    | false => rfl
    | true => rw [hout r hr, Bool.and_self]
  rw [hpart, uncovered_exec, ← hpart]

theorem covered_execAll (h : ∀ e ∈ ops, e.2.scope.tenant ≠ scope.tenant) :
    covered scope (execAll env m ops) = covered scope m := by
  induction ops generalizing m with
  | nil => rfl
  | cons e ops ih =>
    show covered scope (execAll env (exec env e.1 e.2 m).2 ops) = covered scope m
    rw [ih fun e he => h e (List.mem_cons_of_mem _ he)]
    exact covered_exec (h e List.mem_cons_self)

/-! ## What a search keeps -/

theorem ranked_perm {k : ℕ} {score : Row → ℚ} {rows : List Row} (h : rows.length ≤ k) :
    ((ranked k score rows).map SearchHit.entry).Perm rows := by
  unfold ranked
  rw [List.map_map, List.take_of_length_le (by rw [List.length_mergeSort]; exact h)]
  exact (List.Perm.of_eq (List.map_id _)).trans (List.mergeSort_perm _ _)

theorem length_ranked (k : ℕ) (score : Row → ℚ) (rows : List Row) :
    (ranked k score rows).length = min k rows.length := by
  unfold ranked
  rw [List.length_map, List.length_take, List.length_mergeSort]

/-- What two searches have in common when they choose from the same rows. -/
inductive SameChoice (env : Env) (q : Query) :
    Except Error Result → Except Error Result → Prop
  /-- Both are refused for the same reason. -/
  | refused (e : Error) : SameChoice env q (.error e) (.error e)
  /-- Both rank the same rows. All of them are hits if the limit allows. -/
  | ranked {kinds : List Kind} {minTrust : Trust} {k : ℕ} {hits hits' : List SearchHit}
      (rows : List Row) (hcheck : checkQuery env q = .ok (kinds, minTrust, k))
      (hsub : ∀ hit ∈ hits, hit.entry ∈ rows) (hsub' : ∀ hit ∈ hits', hit.entry ∈ rows)
      (hlength : hits.length = hits'.length)
      (hall : rows.length ≤ k → (hits.map SearchHit.entry).Perm (hits'.map SearchHit.entry)) :
      SameChoice env q (.ok (.hits hits)) (.ok (.hits hits'))

theorem search_sameChoice (h : covered scope m = covered scope m') :
    SameChoice env q (search env w scope q m) (search env w scope q m') := by
  unfold search
  cases hcheck : checkQuery env q with
  | error e => exact .refused e
  | ok res =>
    obtain ⟨kinds, minTrust, k⟩ := res
    dsimp only
    rw [candidates_congr h]
    refine .ranked (candidates env w scope q kinds minTrust m') hcheck ?_ ?_ ?_ ?_
    · intro hit hhit
      exact mem_of_mem_ranked (List.mem_map_of_mem hhit)
    · intro hit hhit
      exact mem_of_mem_ranked (List.mem_map_of_mem hhit)
    · rw [length_ranked, length_ranked]
    · intro hlimit
      exact (ranked_perm hlimit).trans (ranked_perm hlimit).symm

/-- **Searches beside other tenants.** Operations of other tenants leave what a search of the
tenant chooses from as it is, and the whole result where the statistics of the index come out the
same. -/
theorem search_execAll (env : Env) (scope : Scope) (m : Memories) (ops : List (World × Op))
    (hother : ∀ e ∈ ops, e.2.scope.tenant ≠ scope.tenant) (w : World) (q : Query) :
    (∀ kinds minTrust, candidates env w scope q kinds minTrust (execAll env m ops) =
        candidates env w scope q kinds minTrust m) ∧
      SameChoice env q (search env w scope q (execAll env m ops)) (search env w scope q m) ∧
      (indexStats env (phrases env q.text) (execAll env m ops) =
          indexStats env (phrases env q.text) m →
        search env w scope q (execAll env m ops) = search env w scope q m) := by
  have hcovered : covered scope (execAll env m ops) = covered scope m := covered_execAll hother
  refine ⟨fun _ _ => candidates_congr hcovered q _ _, search_sameChoice hcovered, ?_⟩
  intro hstats
  exact search_congr hcovered hstats

/-! ### A long entry of another tenant -/

/-- The other tenant stores a text of a hundred words. -/
def longEntry : World × Op := (sampleWorld, .add tenantB { fact "" with text := hundredWords } [])

theorem other_longEntry : ∀ e ∈ [longEntry], e.2.scope.tenant ≠ tenantA.tenant := by
  decide

/-- Beside the long entry the choice is the same; an erasure that meets no row changes nothing. -/
theorem search_execAll_sample :
    SameChoice wordEnv queryX
        (search wordEnv sampleWorld tenantA queryX (execAll wordEnv twoFacts [longEntry]))
        (search wordEnv sampleWorld tenantA queryX twoFacts) ∧
      search wordEnv sampleWorld tenantA queryX
          (execAll wordEnv twoFacts [(sampleWorld, .erase tenantB)]) =
        search wordEnv sampleWorld tenantA queryX twoFacts :=
  ⟨(search_execAll wordEnv tenantA twoFacts [longEntry] other_longEntry sampleWorld queryX).2.1,
    (search_execAll wordEnv tenantA twoFacts [(sampleWorld, .erase tenantB)] (by decide) sampleWorld
      queryX).2.2 (by decide)⟩

theorem hitIds_longEntry :
    hitIds (search wordEnv sampleWorld tenantA queryX (execAll wordEnv twoFacts [longEntry])) =
      [idOf '1'] := by
  have hfound : foundBy (execAll wordEnv twoFacts [longEntry]) = [shortFact, longFact] := by
    rw [← foundBy_twoFacts]
    exact candidates_congr (covered_execAll other_longEntry) _ _ _
  rw [search_queryX hfound (show _ = ⟨3, 111, [2]⟩ by decide +kernel)]
  rw [ranked_pair _ _ (by decide +kernel), if_neg (by decide +kernel)]
  rfl

/-- The entry of another tenant changes which entry a search returns. -/
theorem search_not_isolated : ¬ ∀ env (scope : Scope) m (ops : List (World × Op)),
    (∀ e ∈ ops, e.2.scope.tenant ≠ scope.tenant) → ∀ w q,
      search env w scope q (execAll env m ops) = search env w scope q m := by
  intro h
  have heq := congrArg hitIds
    (h wordEnv tenantA twoFacts [longEntry] other_longEntry sampleWorld queryX)
  rw [hitIds_longEntry, hitIds_twoFacts] at heq
  exact absurd heq (by decide)

end RagLeap.Memory
