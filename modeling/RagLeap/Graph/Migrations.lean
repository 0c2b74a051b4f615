import Mathlib.Data.Char
import Mathlib.Data.List.Lex
import Mathlib.Data.List.Sort
import RagLeap.Foundations.Text

/-!
# Schema migrations

`MigrationRunner.run_pending` of `ragleap_graph/migrations/runner.py` over histories of runs. The
graph is whatever the migrations change, `γ`, and the `:_Migration` nodes that say which of them
were applied. A `World` is what a run meets: which statements fail, what a migration does. The
trace of a run lists the calls of `up` and the nodes that were created.

`Orderly` says how a trace looks, and `pending_run` what a run without failures does;
`migrations_applied` puts them together over every history.
-/

namespace RagLeap.Graph.Migrations

/-- `Migration`, up to `up`. -/
structure Migration where
  id : Str
  description : Str

/-- A `:_Migration` node, up to its date. -/
structure Node where
  id : Str
  description : Str
  executionTimeMs : ℕ
  result : Str

structure Database (γ : Type) where
  data : γ
  nodes : List Node

/-- What the statement that creates a `:_Migration` node comes to. -/
inductive Fate
  | created
  /-- It raises, with the node not created or created all the same. -/
  | raises (created : Bool)
  /-- It fails unnoticed: the error is raised by the next statement, if there is one. -/
  | late
  deriving DecidableEq

/-- What a run meets: whether the query of `is_applied` is answered; what `up` leaves of the data
and its result, if it does not raise; the result as JSON; the elapsed time; the last statement. -/
structure World (γ ρ : Type) where
  answers : Str → Bool
  up : Str → γ → γ × Option ρ
  dumps : ρ → Option Str
  elapsedMs : Str → ℕ
  record : Str → Fate

/-- An entry of the list `run_pending` returns. -/
inductive Entry (ρ : Type)
  | pending (id description : Str)
  | applied (id description : Str) (elapsedMs : ℕ) (result : ρ)

/-- What a run has done: a call of `up`, returning or raising, and a created node. -/
inductive Event
  | up (id : Str) (ok : Bool)
  | record (id : Str)
  deriving DecidableEq

inductive Outcome (ρ : Type)
  | returned (results : List (Entry ρ))
  /-- `RuntimeError("Migration … failed")`. -/
  | failed (id : Str)
  /-- Any other exception. -/
  | raised

structure Run (γ ρ : Type) where
  outcome : Outcome ρ
  graph : Database γ
  trace : List Event

variable {γ ρ : Type}

def Run.after (events : List Event) (r : Run γ ρ) : Run γ ρ := { r with trace := events ++ r.trace }

/-- `is_applied`: `count(m) > 0` over the nodes with the id. -/
def isApplied (g : Database γ) (id : Str) : Bool := id ∈ g.nodes.map Node.id

/-- `self.migrations`. -/
def sorted (migrations : List Migration) : List Migration :=
  migrations.insertionSort fun m m' => m.id ≤ m'.id

/-- The node that records a migration. -/
def World.node (w : World γ ρ) (m : Migration) (json : Str) : Node :=
  ⟨m.id, m.description, w.elapsedMs m.id, json⟩

/-- The loop of `run_pending`, with `results` collected so far. -/
def runFrom (w : World γ ρ) (dryRun : Bool) :
    List Migration → Database γ → List (Entry ρ) → Run γ ρ
  | [], g, results => ⟨.returned results, g, []⟩
  | m :: ms, g, results =>
    if ¬ w.answers m.id then ⟨.raised, g, []⟩
    else if isApplied g m.id then runFrom w dryRun ms g results
    else if dryRun then runFrom w dryRun ms g (results ++ [.pending m.id m.description])
    else
      match w.up m.id g.data with
      | (data, none) => ⟨.failed m.id, { g with data }, [.up m.id false]⟩
      | (data, some result) =>
        match w.dumps result with
        | none => ⟨.raised, { g with data }, [.up m.id true]⟩
        | some json =>
          let nodes := g.nodes ++ [w.node m json]
          let results := results ++ [.applied m.id m.description (w.elapsedMs m.id) result]
          match w.record m.id with
          | .created =>
            (runFrom w dryRun ms ⟨data, nodes⟩ results).after
              [.up m.id true, .record m.id]
          | .raises true => ⟨.raised, ⟨data, nodes⟩, [.up m.id true, .record m.id]⟩
          | .raises false => ⟨.raised, { g with data }, [.up m.id true]⟩
          | .late =>
            -- the next `is_applied` raises, the end of the session does not
            ⟨if ms.isEmpty then .returned results else .raised, { g with data }, [.up m.id true]⟩

def runPending (migrations : List Migration) (w : World γ ρ) (dryRun : Bool) (g : Database γ) :
    Run γ ρ :=
  runFrom w dryRun (sorted migrations) g []

/-- The runs of a history, each on the graph the one before it left. -/
def runs (migrations : List Migration) : List (Bool × World γ ρ) → Database γ → List (Run γ ρ)
  | [], _ => []
  | (dryRun, w) :: history, g =>
    runPending migrations w dryRun g ::
      runs migrations history (runPending migrations w dryRun g).graph

/-- The graph a history leaves. -/
def graphAfter (migrations : List Migration) : List (Bool × World γ ρ) → Database γ → Database γ
  | [], g => g
  | (dryRun, w) :: history, g =>
    graphAfter migrations history (runPending migrations w dryRun g).graph

/-! ## Traces -/

/-- The migrations a trace calls `up` of. -/
def attempted : List Event → List Str
  | [] => []
  | .up id _ :: events => id :: attempted events
  | .record _ :: events => attempted events

/-- The migrations a trace creates a node for. -/
def recorded : List Event → List Str
  | [] => []
  | .up _ _ :: events => recorded events
  | .record id :: events => id :: recorded events

/-- A trace in which a migration is begun only after the one before it succeeded and was
recorded. -/
inductive Orderly : List Event → Prop
  | nil : Orderly []
  | failed (id : Str) : Orderly [.up id false]
  | unrecorded (id : Str) : Orderly [.up id true]
  | applied (id : Str) {t : List Event} : Orderly t → Orderly (.up id true :: .record id :: t)

namespace Orderly

variable {t : List Event}

theorem recorded_sublist (h : Orderly t) : (recorded t).Sublist (attempted t) := by
  induction h with
  | nil => exact .slnil
  | failed id => exact .cons _ .slnil
  | unrecorded id => exact .cons _ .slnil
  | applied id _ ih => exact ih.cons_cons id

/-- A migration that another one follows succeeded and was recorded first. -/
theorem of_up (h : Orderly t) {pre post : List Event} {id : Str} {ok : Bool}
    (heq : t = pre ++ .up id ok :: post) (hpost : attempted post ≠ []) :
    ok = true ∧ post.head? = some (.record id) := by
  induction h generalizing pre with
  | nil => simp at heq
  | failed i | unrecorded i =>
    rw [List.singleton_eq_append_iff] at heq
    simp only [List.cons.injEq, reduceCtorEq, and_false, or_false] at heq
    rw [heq.2.2] at hpost
    exact absurd rfl hpost
  | applied i h ih =>
    match pre with
    | [] =>
      obtain ⟨he, rfl⟩ := List.cons.inj heq
      cases he
      exact ⟨rfl, rfl⟩
    | [e] => cases (List.cons.inj (List.cons.inj heq).2).1
    | e :: e' :: pre => exact ih (List.cons.inj (List.cons.inj heq).2).2

/-- A node is created right after the `up` of its migration returned. -/
theorem of_record (h : Orderly t) {pre post : List Event} {id : Str}
    (heq : t = pre ++ .record id :: post) : ∃ pre', pre = pre' ++ [.up id true] := by
  induction h generalizing pre with
  | nil => simp at heq
  | failed i | unrecorded i =>
    rw [List.singleton_eq_append_iff] at heq
    simp at heq
  | applied i h ih =>
    match pre with
    | [] => cases (List.cons.inj heq).1
    | [e] =>
      obtain ⟨he, heq⟩ := List.cons.inj heq
      cases (List.cons.inj heq).1
      exact ⟨[], by rw [← he]; rfl⟩
    | e :: e' :: pre =>
      obtain ⟨pre', hpre⟩ := ih (List.cons.inj (List.cons.inj heq).2).2
      exact ⟨e :: e' :: pre', by rw [hpre]; rfl⟩

end Orderly

/-! ## One run -/

/-- What a run over the rest of the migrations does to a graph and its trace. -/
structure Spec (ms : List Migration) (g : Database γ) (r : Run γ ρ) : Prop where
  orderly : Orderly r.trace
  sublist : (attempted r.trace).Sublist (ms.map Migration.id)
  nodes : r.graph.nodes.map Node.id = g.nodes.map Node.id ++ recorded r.trace
  new : ∀ id ∈ recorded r.trace, id ∉ g.nodes.map Node.id

namespace Spec

variable {ms : List Migration} {m : Migration} {g : Database γ} {r : Run γ ρ} {data : γ}

theorem skip (h : Spec ms g r) : Spec (m :: ms) g r :=
  ⟨h.orderly, h.sublist.cons _, h.nodes, h.new⟩

/-- A run that ends before the migration's node is created. -/
theorem stop (o : Outcome ρ) {t : List Event} (ht : t = [] ∨ ∃ ok, t = [.up m.id ok]) :
    Spec (m :: ms) g ⟨o, { g with data }, t⟩ := by
  rcases ht with rfl | ⟨ok, rfl⟩
  · exact ⟨.nil, List.nil_sublist _, by simp [recorded], by simp [recorded]⟩
  · constructor
    · cases ok with
      | false => exact .failed _
      | true => exact .unrecorded _
    · exact (List.nil_sublist _).cons_cons _
    · simp [recorded]
    · simp [recorded]

/-- A run that ends where it is. -/
theorem done (o : Outcome ρ) : Spec ms g ⟨o, g, []⟩ :=
  ⟨.nil, List.nil_sublist _, by simp [recorded], by simp [recorded]⟩

/-- A run that goes on after the migration's node is created. -/
theorem applied {w : World γ ρ} {json : Str} (hnew : m.id ∉ g.nodes.map Node.id)
    (h : Spec ms ⟨data, g.nodes ++ [w.node m json]⟩ r) :
    Spec (m :: ms) g (r.after [.up m.id true, .record m.id]) := by
  constructor
  · exact .applied _ h.orderly
  · exact h.sublist.cons_cons _
  · simp only [Run.after, h.nodes, List.map_append, List.append_assoc]
    rfl
  · intro id hmem
    simp only [Run.after, List.cons_append, List.nil_append, recorded, List.mem_cons] at hmem
    rcases hmem with rfl | hmem
    · exact hnew
    · intro hold
      exact h.new id hmem (by simp [hold])

end Spec

/-- **What a run does, whatever fails in it.** -/
theorem runFrom_spec (w : World γ ρ) (dryRun : Bool) (ms : List Migration) (g : Database γ)
    (results : List (Entry ρ)) : Spec ms g (runFrom w dryRun ms g results) := by
  induction ms generalizing g results with
  | nil => exact .done _
  | cons m ms ih =>
    unfold runFrom
    split
    · exact .stop _ (.inl rfl)
    · split
      · exact (ih g results).skip
      · rename_i hpending
        have hnew : m.id ∉ g.nodes.map Node.id := by simpa [isApplied] using hpending
        split
        · exact (ih g _).skip
        · split
          · exact .stop _ (.inr ⟨_, rfl⟩)
          · split
            · exact .stop _ (.inr ⟨_, rfl⟩)
            · dsimp only
              split
              · exact .applied hnew (ih _ _)
              · exact (Spec.done .raised).applied hnew
              · exact .stop _ (.inr ⟨_, rfl⟩)
              · exact .stop _ (.inr ⟨_, rfl⟩)

/-! ## A dry run and a run without failures -/

/-- The migrations that have no node. -/
def pending (g : Database γ) (ms : List Migration) : List Migration :=
  ms.filter fun m => ¬ isApplied g m.id

def Entry.name : Entry ρ → Str × Str
  | .pending id description => (id, description)
  | .applied id description _ _ => (id, description)

def Migration.name (m : Migration) : Str × Str := (m.id, m.description)

/-- Nothing fails in a run over `ms`. -/
structure Calm (w : World γ ρ) (ms : List Migration) : Prop where
  answers : ∀ m ∈ ms, w.answers m.id = true
  up : ∀ m ∈ ms, ∀ data, ∃ data' result, w.up m.id data = (data', some result) ∧
    ∃ json, w.dumps result = some json
  record : ∀ m ∈ ms, w.record m.id = .created

theorem pending_cons_of_isApplied {g : Database γ} {m : Migration} (h : isApplied g m.id = true)
    (ms : List Migration) : pending g (m :: ms) = pending g ms :=
  List.filter_cons_of_neg (by simpa using h)

theorem pending_cons {g : Database γ} {m : Migration} (h : ¬ isApplied g m.id = true)
    (ms : List Migration) : pending g (m :: ms) = m :: pending g ms :=
  List.filter_cons_of_pos (by simpa using h)

/-- A node more takes its own migration only off the pending ones. -/
theorem pending_append {w : World γ ρ} {g : Database γ} {m : Migration} {json : Str} {data : γ}
    {ms : List Migration} (h : m.id ∉ ms.map Migration.id) :
    pending ⟨data, g.nodes ++ [w.node m json]⟩ ms = pending g ms := by
  apply List.filter_congr
  intro m' hm'
  have hne : m'.id ≠ m.id := fun he => h (he ▸ List.mem_map_of_mem hm')
  simp [isApplied, World.node, hne]

/-- **A dry run reports the pending migrations and changes nothing.** -/
theorem dry_run {w : World γ ρ} {ms : List Migration} {g : Database γ}
    {results entries : List (Entry ρ)}
    (h : (runFrom w true ms g results).outcome = .returned entries) :
    entries.map Entry.name = results.map Entry.name ++ (pending g ms).map Migration.name := by
  induction ms generalizing results with
  | nil =>
    cases h
    simp [pending]
  | cons m ms ih =>
    unfold runFrom at h
    split at h
    · cases h
    · split at h
      · rename_i happlied
        rw [pending_cons_of_isApplied happlied]
        exact ih h
      · rename_i hpending
        rw [if_pos rfl] at h
        simpa [pending_cons hpending, Entry.name, Migration.name] using ih h

/-- **A run in which nothing fails applies the pending migrations.** -/
theorem calm_run {w : World γ ρ} {ms : List Migration} (hw : Calm w ms)
    (hids : (ms.map Migration.id).Nodup) (g : Database γ) (results : List (Entry ρ)) :
    ∃ entries, (runFrom w false ms g results).outcome = .returned (results ++ entries) ∧
      entries.map Entry.name = (pending g ms).map Migration.name ∧
      attempted (runFrom w false ms g results).trace = (pending g ms).map Migration.id := by
  induction ms generalizing g results with
  | nil => exact ⟨[], by simp [runFrom], rfl, rfl⟩
  | cons m ms ih =>
    obtain ⟨hm, hids⟩ := List.nodup_cons.1 hids
    have hrest : Calm w ms :=
      ⟨fun m' h => hw.answers m' (List.mem_cons_of_mem _ h),
        fun m' h => hw.up m' (List.mem_cons_of_mem _ h),
        fun m' h => hw.record m' (List.mem_cons_of_mem _ h)⟩
    have hanswers := hw.answers m List.mem_cons_self
    unfold runFrom
    rw [if_neg (by simp [hanswers])]
    split
    · rename_i happlied
      rw [pending_cons_of_isApplied happlied]
      exact ih hrest hids g results
    · rename_i hpending
      obtain ⟨data, result, hup, json, hjson⟩ := hw.up m List.mem_cons_self g.data
      obtain ⟨entries, hout, hnames, htrace⟩ := ih hrest hids ⟨data, g.nodes ++ [w.node m json]⟩
        (results ++ [.applied m.id m.description (w.elapsedMs m.id) result])
      rw [pending_append hm] at hnames htrace
      simp only [hup, hjson, hw.record m List.mem_cons_self, pending_cons hpending]
      refine ⟨.applied m.id m.description (w.elapsedMs m.id) result :: entries, ?_, ?_, ?_⟩
      · simpa [Run.after] using hout
      · simp [Entry.name, Migration.name, hnames]
      · simpa [Run.after, attempted] using htrace

/-! ## Histories -/

theorem nodup_sorted {migrations : List Migration} (h : (migrations.map Migration.id).Nodup) :
    ((sorted migrations).map Migration.id).Nodup :=
  ((List.perm_insertionSort _ migrations).map _).nodup_iff.2 h

/-- The runner's migrations stand in strictly ascending order. -/
theorem sorted_ascending {migrations : List Migration}
    (h : (migrations.map Migration.id).Nodup) :
    ((sorted migrations).map Migration.id).Pairwise (· < ·) := by
  have : Std.Total fun m m' : Migration => m.id ≤ m'.id := ⟨fun m m' => le_total m.id m'.id⟩
  have : IsTrans Migration fun m m' => m.id ≤ m'.id := ⟨fun _ _ _ => le_trans⟩
  have hle : ((sorted migrations).map Migration.id).Pairwise (· ≤ ·) :=
    List.pairwise_map.2 (List.pairwise_insertionSort _ migrations)
  exact (List.Pairwise.and hle (nodup_sorted h)).imp fun ⟨hle, hne⟩ => lt_of_le_of_ne hle hne

/-- What every run of a history does, from the graph it finds. -/
theorem runs_spec (migrations : List Migration) (history : List (Bool × World γ ρ))
    (g : Database γ) :
    ∀ r ∈ runs migrations history g, ∃ g', Spec (sorted migrations) g' r := by
  induction history generalizing g with
  | nil => simp [runs]
  | cons run history ih =>
    obtain ⟨dryRun, w⟩ := run
    intro r hr
    rcases List.mem_cons.1 hr with rfl | hr
    · exact ⟨g, runFrom_spec w dryRun _ g []⟩
    · exact ih _ r hr

/-- The migrations a history creates nodes for, in their order. -/
def recordedIn (runs : List (Run γ ρ)) : List Str := runs.flatMap fun r => recorded r.trace

/-- A history creates each node once, none it found, and none is lost. -/
theorem recordedIn_runs {migrations : List Migration} (hids : (migrations.map Migration.id).Nodup)
    (history : List (Bool × World γ ρ)) (g : Database γ) :
    (recordedIn (runs migrations history g)).Nodup ∧
      (∀ id ∈ recordedIn (runs migrations history g), id ∉ g.nodes.map Node.id) ∧
      (graphAfter migrations history g).nodes.map Node.id =
        g.nodes.map Node.id ++ recordedIn (runs migrations history g) := by
  induction history generalizing g with
  | nil => simp [runs, recordedIn, graphAfter]
  | cons run history ih =>
    obtain ⟨dryRun, w⟩ := run
    have hrun : Spec (sorted migrations) g (runPending migrations w dryRun g) :=
      runFrom_spec w dryRun _ g []
    obtain ⟨hnodup, hnew, hnodes⟩ := ih (runPending migrations w dryRun g).graph
    have hfirst : (recorded (runPending migrations w dryRun g).trace).Nodup :=
      (nodup_sorted hids).sublist (hrun.orderly.recorded_sublist.trans hrun.sublist)
    simp only [runs, recordedIn, List.flatMap_cons, graphAfter]
    rw [hrun.nodes] at hnew
    refine ⟨?_, ?_, ?_⟩
    · refine List.nodup_append.2 ⟨hfirst, hnodup, fun id hid id' hid' he => ?_⟩
      exact hnew id' hid' (List.mem_append_right _ (he ▸ hid))
    · intro id hid hold
      rcases List.mem_append.1 hid with hid | hid
      · exact hrun.new id hid hold
      · exact hnew id hid (List.mem_append_left _ hold)
    · rw [hnodes, hrun.nodes, List.append_assoc]
      rfl

/-- **Over every history of runs, whatever fails in them: each run calls the migrations in
ascending order and none after one that was not applied and recorded; each migration is recorded
once at most, right after it succeeded; and a dry run of the graph it leaves reports what a run
without failures applies.** -/
theorem migrations_applied {migrations : List Migration}
    (hids : (migrations.map Migration.id).Nodup) (history : List (Bool × World γ ρ))
    (g : Database γ) :
    (∀ r ∈ runs migrations history g,
        (attempted r.trace).Pairwise (· < ·) ∧
        (∀ pre id ok post, r.trace = pre ++ .up id ok :: post → attempted post ≠ [] →
          ok = true ∧ post.head? = some (.record id)) ∧
        ∀ pre id post, r.trace = pre ++ .record id :: post → ∃ pre', pre = pre' ++ [.up id true]) ∧
      ((recordedIn (runs migrations history g)).Nodup ∧
        (∀ id ∈ recordedIn (runs migrations history g), id ∉ g.nodes.map Node.id) ∧
        (graphAfter migrations history g).nodes.map Node.id =
          g.nodes.map Node.id ++ recordedIn (runs migrations history g)) ∧
      ∀ (w w' : World γ ρ) (reported : List (Entry ρ)),
        (runPending migrations w true (graphAfter migrations history g)).outcome =
          .returned reported → Calm w' migrations →
        let real := runPending migrations w' false (graphAfter migrations history g)
        ∃ applied, real.outcome = .returned applied ∧
          reported.map Entry.name = applied.map Entry.name ∧
          attempted real.trace = reported.map fun e => e.name.1 := by
  refine ⟨fun r hr => ?_, recordedIn_runs hids history g, fun w w' reported hdry hcalm => ?_⟩
  · obtain ⟨g', hr⟩ := runs_spec migrations history g r hr
    refine ⟨(sorted_ascending hids).sublist hr.sublist, ?_, ?_⟩
    · intro pre id ok post heq hpost
      exact hr.orderly.of_up heq hpost
    · intro pre id post heq
      exact hr.orderly.of_record heq
  · have hmem : ∀ m ∈ sorted migrations, m ∈ migrations := fun m hm =>
      (List.perm_insertionSort _ migrations).subset hm
    have hcalm' : Calm w' (sorted migrations) :=
      ⟨fun m h => hcalm.answers m (hmem m h), fun m h => hcalm.up m (hmem m h),
        fun m h => hcalm.record m (hmem m h)⟩
    obtain ⟨applied, hout, hnames, htrace⟩ :=
      calm_run hcalm' (nodup_sorted hids) (graphAfter migrations history g) []
    have hreported := dry_run hdry
    rw [List.map_nil, List.nil_append] at hreported
    refine ⟨applied, hout, hreported.trans hnames.symm, htrace.trans ?_⟩
    have hids' := congrArg (List.map Prod.fst) hreported
    simpa [List.map_map, Function.comp_def, Migration.name] using hids'.symm

/-! ## The two migrations of the registry -/

def backfillUserId : Migration := ⟨"0001_backfill_user_id".toList, "user_id".toList⟩
def backfillCompositeKey : Migration :=
  ⟨"0002_backfill_composite_key".toList, "composite_key".toList⟩

/-- A run in which the migrations of `failing` raise; the data counts the calls. -/
def world (failing : List Str) : World ℕ ℕ where
  answers _ := true
  up id n := (n + 1, if id ∈ failing then none else some n)
  dumps n := some (Str.ofNat n)
  elapsedMs _ := 0
  record _ := .created

/-- The second migration fails in a first run, a dry run reports it, and it is applied in a last
run. -/
theorem second_migration_applied :
    let history := [(false, world [backfillCompositeKey.id]), (true, world [])]
    let g := graphAfter [backfillCompositeKey, backfillUserId] history ⟨0, []⟩
    g.nodes.map Node.id = [backfillUserId.id] ∧
      ∃ applied, (runPending [backfillCompositeKey, backfillUserId] (world []) false g).outcome =
        .returned applied ∧ [(backfillCompositeKey.id, backfillCompositeKey.description)] =
          applied.map Entry.name := by
  have hids : ([backfillCompositeKey, backfillUserId].map Migration.id).Nodup := by decide
  have h := migrations_applied hids
    [(false, world [backfillCompositeKey.id]), (true, world [])] ⟨0, []⟩
  refine ⟨by decide, ?_⟩
  obtain ⟨applied, hout, hnames, -⟩ := h.2.2 (world []) (world [])
    [.pending backfillCompositeKey.id backfillCompositeKey.description] rfl
    ⟨fun _ _ => rfl, fun m _ n => ⟨n + 1, n, rfl, _, rfl⟩, fun _ _ => rfl⟩
  exact ⟨applied, hout, hnames⟩

end RagLeap.Graph.Migrations
