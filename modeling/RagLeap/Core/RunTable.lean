import Mathlib.Logic.Relation
import RagLeap.Core.AgentTaint

/-!
# The table of runs

`Process` is the loop at work on the table `agent_runs`: calls that start a run or take one up
follow one another, each statement by statement, and a call may be cut short at any point. The
loop keeps the typestate `recording`: a row it writes is `Sound`, and its flag is set if the row's
was when the call last read or wrote it. `stored_runs_sound` is what follows for every row of
every table that is reached.
-/

namespace RagLeap.Core

/-! ## Sound rows -/

/-- What a row of `agent_runs` is to satisfy, when no step limit the loop ran with exceeds `N`. -/
structure Run.Sound (N : ℕ) (run : Run) : Prop where
  bounded : run.steps.length ≤ N
  distinct : (run.steps.map Step.sig).Nodup
  pending : run.pendingActionId ≠ none ↔ run.status = .waitingApproval

instance (N : ℕ) (run : Run) : Decidable (run.Sound N) :=
  decidable_of_iff (run.steps.length ≤ N ∧ (run.steps.map Step.sig).Nodup ∧
      (run.pendingActionId ≠ none ↔ run.status = .waitingApproval))
    ⟨fun h => ⟨h.1, h.2.1, h.2.2⟩, fun h => ⟨h.bounded, h.distinct, h.pending⟩⟩

/-- Every row is sound and knows its id. -/
def Store.Tidy (N : ℕ) (s : Store) : Prop :=
  ∀ id row, s.runs.get? id = some row → row.id = some id ∧ row.Sound N

/-- No row is removed and no flag goes back. -/
def Store.KeepsFlags (s s' : Store) : Prop :=
  ∀ id row, s.runs.get? id = some row → ∃ row', s'.runs.get? id = some row' ∧
    (row.tainted = true → row'.tainted = true)

theorem Store.keepsFlags_of_runs_eq {s s' : Store} (h : s'.runs = s.runs) : s.KeepsFlags s' :=
  fun _ row hrow => ⟨row, h ▸ hrow, id⟩

theorem Store.KeepsFlags.trans {s s₁ s' : Store} (h : s.KeepsFlags s₁) (h' : s₁.KeepsFlags s') :
    s.KeepsFlags s' := by
  intro id row hrow
  obtain ⟨row₁, hrow₁, hflag⟩ := h id row hrow
  obtain ⟨row', hrow', hflag'⟩ := h' id row₁ hrow₁
  exact ⟨row', hrow', fun ht => hflag' (hflag ht)⟩

/-! ## The typestate of a call -/

/-- Typestate of a call: the row it holds, with the flag the row had when the call last read or
wrote it. -/
def recording (N : ℕ) : Protocol Statements where
  Phase := Option (Str × Bool)
  permits
    | _, .insertRun run => run.Sound N
    | φ, .updateRun id run => run.Sound N ∧ ∃ t, φ = some (id, t) ∧ (t = true → run.tainted = true)
    | _, _ => True
  next
    | φ, .insertRun run, ans =>
      match (ans : Option Str) with
      | some id => some (some (id, run.tainted))
      | none => some φ
    | _, .updateRun id run, _ => some (some (id, run.tainted))
    | φ, .selectRunByPending _, ans =>
      match (ans : Option (Option Run)) with
      | some (some row) =>
        if row.Sound N then some (row.id.map (·, row.tainted)) else none
      | _ => some φ
    | φ, _, _ => some φ

/-- The run in memory is the one the call holds. -/
def Holds (φ : Option (Str × Bool)) (run : Run) : Prop :=
  ∀ id, run.id = some id → ∃ t, φ = some (id, t) ∧ (t = true → run.tainted = true)

/-- The recorded steps leave room for `left` more. -/
def Room (N left : ℕ) (run : Run) : Prop :=
  run.steps.length + left ≤ N ∧ (run.steps.map Step.sig).Nodup

section

variable {N : ℕ} {env : Env} {φ : Option (Str × Bool)} {run : Run}

theorem saving_recording (hs : run.Sound N) (hh : Holds φ run) :
    Saving (recording N) φ run fun φ' run' => (∃ id, run' = { run with id }) ∧ Holds φ' run' := by
  refine saving_of (fun hid => ⟨hs, fun ans φ' hφ' => ⟨⟨ans, rfl⟩, ?_⟩⟩)
    fun id hid => ⟨⟨hs, hh id hid⟩, fun ans φ' hφ' => ⟨⟨id, by rw [← hid]⟩, ?_⟩⟩
  · intro id h
    cases h
    cases hφ'
    exact ⟨_, rfl, fun h => h⟩
  · intro id' h
    rw [hid] at h
    cases h
    cases hφ'
    exact ⟨_, rfl, fun h => h⟩

/-- The run between two turns. -/
def Ongoing (N : ℕ) (φ : Option (Str × Bool)) (left : ℕ) (run : Run) : Prop :=
  Holds φ run ∧ Room N left run ∧ run.pendingActionId = none ∧ run.status ≠ .waitingApproval

theorem Ongoing.sound {left : ℕ} (h : Ongoing N φ left run) : run.Sound N := by
  obtain ⟨-, ⟨hlen, hnodup⟩, hpending, hstatus⟩ := h
  exact ⟨by omega, hnodup, iff_of_false (not_not.2 hpending) hstatus⟩

theorem saving_ongoing {left : ℕ} (h : Ongoing N φ left run) :
    Saving (recording N) φ run (Ongoing N · left) := by
  refine (saving_recording h.sound h.1).mono ?_
  rintro φ' _ ⟨⟨id, rfl⟩, hh⟩
  exact ⟨hh, h.2⟩

theorem saving_stopped (hs : run.Sound N) (hh : Holds φ run) :
    Saving (recording N) φ run fun φ' run' => Holds φ' run' ∧ Room N 0 run' := by
  refine (saving_recording hs hh).mono ?_
  rintro φ' _ ⟨⟨id, rfl⟩, hh⟩
  exact ⟨hh, hs.bounded, hs.distinct⟩

/-- A new step takes one place. -/
theorem Room.add {left : ℕ} (h : Room N (left + 1) run) (valid : Plan) (status : StepStatus)
    (obs : Str) (hnew : ∀ s ∈ run.steps, s.sig ≠ valid.sig env) :
    Room N left (run.add env valid status obs) := by
  obtain ⟨hlen, hnodup⟩ := h
  refine ⟨?_, ?_⟩
  · simp only [Run.add, List.length_append, List.length_singleton]
    omega
  · simp only [Run.add, List.map_append, List.map_singleton]
    rw [List.nodup_append]
    refine ⟨hnodup, List.nodup_singleton _, ?_⟩
    rintro _ hsig _ hvalid rfl
    rw [List.mem_singleton] at hvalid
    obtain ⟨s, hs, hsig⟩ := List.mem_map.1 hsig
    exact hnew s hs (hsig.trans hvalid)

/-- The loop keeps to the typestate. -/
def recordRule (N : ℕ) (env : Env) : TurnRule env (recording N) where
  Live := Ongoing N
  Left φ run := Holds φ run ∧ Room N 0 run
  left_of_live h := ⟨h.1, by have := h.2.1.1; omega, h.2.1.2⟩
  consults ho := by
    cases ho with
    | asks h => cases h <;> exact ⟨trivial, fun _ _ hr => (Option.some.inj hr).symm⟩
    | _ => exact ⟨trivial, fun _ _ hr => (Option.some.inj hr).symm⟩
  closing {φ run status} hs summary h := by
    refine saving_stopped ⟨h.2.1, h.2.2, iff_of_false (fun hne => hne rfl) ?_⟩ h.1
    rintro rfl
    simp at hs
  handing {φ left run} h valid role hnew := by
    refine ⟨trivial, fun ans φ' hφ' => ?_⟩
    cases hφ'
    obtain ⟨hholds, hroom, hpending, hstatus⟩ := h
    have hadd (status : StepStatus) (obs : Str) :
        Ongoing N φ left (run.add env valid status obs) :=
      ⟨hholds, hroom.add valid status obs hnew, hpending, hstatus⟩
    have hstop (status : StepStatus) (obs : Str) :=
      saving_stopped (hadd status obs).sound (hadd status obs).1
    rcases ans with _ | (result | ⟨id, sent⟩ | _ | _)
    · exact ⟨hholds, by have := hroom.1; omega, hroom.2⟩
    · obtain ⟨hholds', hrest⟩ := hadd .executed result.render
      refine saving_ongoing ⟨fun id hid => ?_, hrest⟩
      obtain ⟨t, ht, hflag⟩ := hholds' id hid
      exact ⟨t, ht, fun h => Bool.or_eq_true_iff.2 (.inl (hflag h))⟩
    · have hsound := (hadd .pendingApproval []).sound
      exact saving_stopped ⟨hsound.bounded, hsound.distinct, iff_of_true nofun rfl⟩
        (hadd .pendingApproval []).1
    · exact hstop _ _
    · exact hstop _ _

theorem run_recording (query answer : Str) (service : Bool) (role : Option Str)
    (hN : maxSteps env ≤ N) :
    (Core.run env query answer service role).Follows (recording N) (fun _ _ => True) φ := by
  unfold Core.run
  split
  · trivial
  · refine ⟨trivial, fun tools φ' hφ' => ?_⟩
    cases hφ'
    dsimp only
    split
    · trivial
    · refine Prog.Follows.bind ((recordRule N env).drive_follows ?_) fun _ d _ => ?_
      · exact ⟨(fun id h => by cases h), ⟨by simpa using hN, List.nodup_nil⟩, rfl, nofun⟩
      · cases d <;> trivial

/-- Answering the last step changes no signature. -/
theorem map_sig_answered {steps : List Step} {step : Step} (hlast : steps.getLast? = some step)
    {step' : Step} (hsig : step'.sig = step.sig) :
    (steps.dropLast ++ [step']).map Step.sig = steps.map Step.sig := by
  obtain ⟨init, rfl⟩ := List.getLast?_eq_some_iff.1 hlast
  simp [hsig]

theorem onResolved_recording (actionId : Str) (approved : Bool) (result : Str)
    (hN : maxSteps env ≤ N) :
    (onResolved env actionId approved result).run.Follows (recording N) (fun _ _ => True) φ := by
  refine Proc.follows_call_bind trivial fun ans φ' hφ' => ?_
  rcases ans with _ | _ | row
  · trivial
  · trivial
  · obtain ⟨hsound, hφ'⟩ := Option.ite_none_right_eq_some.1 hφ'
    cases hφ'
    have hholds : Holds (row.id.map (·, row.tainted)) row := by
      intro id hid
      exact ⟨row.tainted, by rw [hid]; rfl, fun h => h⟩
    cases hlast : row.steps.getLast? with
    | none =>
      dsimp only
      unfold takeUp
      rw [hlast]
      trivial
    | some step =>
      by_cases hwait : row.status = .waitingApproval
      · have hsteps (step' : Step) (hsig : step'.sig = step.sig) :
            Room N 0 { row with steps := row.steps.dropLast ++ [step'] } := by
          have hmap := map_sig_answered hlast hsig
          refine ⟨?_, hmap ▸ hsound.distinct⟩
          have := congrArg List.length hmap
          simp only [List.length_map] at this
          rw [Nat.add_zero, this]
          exact hsound.bounded
        cases approved with
        | true =>
          refine ((recordRule N env).takeUp_approved_follows hlast hwait ?_).mono
            fun _ _ _ => trivial
          obtain ⟨hlen, hnodup⟩ : Room N 0 (row.approveLast env step result) :=
            hsteps { step with status := .executed, observation := result.take OBS_CAP } rfl
          refine (saving_recording ⟨hlen, hnodup, iff_of_false (fun h => h rfl) nofun⟩
            fun id hid => ?_).mono ?_
          · obtain ⟨t, ht, hflag⟩ := hholds id hid
            exact ⟨t, ht, fun h => Bool.or_eq_true_iff.2 (.inl (hflag h))⟩
          · rintro φ' _ ⟨⟨id, rfl⟩, hh⟩
            exact ⟨hh, ⟨by dsimp only; omega, hnodup⟩, rfl, nofun⟩
        | false =>
          have hroom : Room N 0 (row.rejectLast step) :=
            hsteps { step with status := .rejected } rfl
          refine (LoopRule.takeUp_rejected_follows hlast hwait (saving_recording
            ⟨hroom.1, hroom.2, iff_of_false (fun h => h rfl) nofun⟩ hholds)).mono
              fun _ _ _ => trivial
      · dsimp only
        unfold takeUp
        rw [hlast]
        dsimp only
        rw [if_pos hwait]
        trivial

end

/-! ## The loop at work -/

/-- A call into the loop: a run is started, or a pending action was answered. -/
inductive Call
  | start (query answer : Str) (service : Bool) (role : Option Str)
  | resolved (actionId : Str) (approved : Bool) (result : Str)

def Call.program (env : Env) : Call → Prog Statements Unit
  | start query answer service role => run env query answer service role >>= fun _ => .ret ()
  | resolved actionId approved result =>
    (onResolved env actionId approved result).run >>= fun _ => .ret ()

/-- The tables, and what is left to do of the call under way. -/
structure Process where
  tables : Store
  running : Prog Statements Unit

/-- One step: the call takes its next statement, with any answer the statement can have; a new call
begins, whether or not the last one came to its end; or a table other than `agent_runs` changes. -/
inductive Process.Step (N : ℕ) : Process → Process → Prop
  | statement {s s' : Store} {o : Stmt} {k : o.Res → Prog Statements Unit} {w : Choice} {r : o.Res}
      (h : act o w s = some (r, s')) : Step N ⟨s, .op o k⟩ ⟨s', k r⟩
  | call (s : Store) (p : Prog Statements Unit) {env : Env} (hN : maxSteps env ≤ N) (c : Call) :
      Step N ⟨s, p⟩ ⟨s, c.program env⟩
  | other {s s' : Store} (p : Prog Statements Unit) (h : s'.runs = s.runs) : Step N ⟨s, p⟩ ⟨s', p⟩

/-- Any number of steps. -/
abbrev Process.Leads (N : ℕ) : Process → Process → Prop := Relation.ReflTransGen (Process.Step N)

/-- The processes that are reached from an empty table of runs. -/
def Process.Reached (N : ℕ) (c : Process) : Prop :=
  ∃ s, s.runs = Dict.empty ∧ Process.Leads N ⟨s, .ret ()⟩ c

/-! ## What a statement keeps -/

/-- The table is tidy, and the row a call holds is there with a flag the call knows of. -/
def Recorded (N : ℕ) (φ : Option (Str × Bool)) (s : Store) : Prop :=
  s.Tidy N ∧ ∀ id t, φ = some (id, t) →
    ∃ row, s.runs.get? id = some row ∧ (row.tainted = true → t = true)

theorem Recorded.congr {N : ℕ} {φ : Option (Str × Bool)} {s s' : Store} (h : Recorded N φ s)
    (hruns : s'.runs = s.runs) : Recorded N φ s' := by
  unfold Recorded Store.Tidy
  rw [hruns]
  exact h

/-- A new row leaves the others alone. -/
theorem keepsFlags_insert {s : Store} {id : Str} (hfree : s.runs.get? id = none) (run : Run) :
    s.KeepsFlags { s with runs := s.runs.set id run } := by
  intro id' row hrow
  have hne : id' ≠ id := by
    rintro rfl
    rw [hfree] at hrow
    cases hrow
  exact ⟨row, by rw [Dict.get?_set, if_neg hne, hrow], fun h => h⟩

theorem act_insertRun_recorded {N : ℕ} {φ : Option (Str × Bool)} {run : Run} {w : Choice}
    {s s' : Store} {r : Option Str} (hI : Recorded N φ s) (hp : run.Sound N)
    (h : act (.insertRun run) w s = some (r, s')) :
    ∃ φ', (recording N).next φ (.insertRun run) r = some φ' ∧ Recorded N φ' s' ∧
      s.KeepsFlags s' := by
  obtain ⟨htidy, hheld⟩ := hI
  simp only [act] at h
  split at h
  · cases h
  · rename_i hfree
    have hkeeps := keepsFlags_insert hfree { run with id := some w.id }
    have htidy' : Store.Tidy N
        { s with runs := s.runs.set w.id { run with id := some w.id } } := by
      intro id row hrow
      rw [Dict.get?_set] at hrow
      split at hrow
      · rename_i hid
        cases hrow
        exact ⟨hid ▸ rfl, hp.bounded, hp.distinct, hp.pending⟩
      · exact htidy id row hrow
    -- the row a call held before is another one
    have hheld' : ∀ id t, φ = some (id, t) → ∃ row,
        (s.runs.set w.id { run with id := some w.id }).get? id = some row ∧
          (row.tainted = true → t = true) := by
      intro id t hφ
      obtain ⟨row, hrow, hflag⟩ := hheld id t hφ
      have hne : id ≠ w.id := by
        rintro rfl
        rw [hfree] at hrow
        cases hrow
      exact ⟨row, by rw [Dict.get?_set, if_neg hne, hrow], hflag⟩
    cases hf : w.fault <;> rw [hf] at h <;> cases h
    · refine ⟨_, rfl, ⟨htidy', ?_⟩, hkeeps⟩
      rintro id t h
      cases h
      exact ⟨_, (Dict.get?_set _ _ _ _).trans (if_pos rfl), fun h => h⟩
    · exact ⟨_, rfl, ⟨htidy, hheld⟩, Store.keepsFlags_of_runs_eq rfl⟩
    · exact ⟨_, rfl, ⟨htidy, hheld⟩, Store.keepsFlags_of_runs_eq rfl⟩
    · exact ⟨_, rfl, ⟨htidy', hheld'⟩, hkeeps⟩

theorem act_updateRun_recorded {N : ℕ} {φ : Option (Str × Bool)} {id : Str} {run : Run} {w : Choice}
    {s s' : Store} {r : Option Unit} (hI : Recorded N φ s)
    (hp : (recording N).permits φ (.updateRun id run))
    (h : act (.updateRun id run) w s = some (r, s')) :
    ∃ φ', (recording N).next φ (.updateRun id run) r = some φ' ∧ Recorded N φ' s' ∧
      s.KeepsFlags s' := by
  obtain ⟨htidy, hheld⟩ := hI
  obtain ⟨hsound, t, hφ, hflag⟩ := hp
  obtain ⟨row, hrow, hknown⟩ := hheld id t hφ
  have hs' : _ = s' := congrArg Prod.snd (Option.some.inj h)
  rw [Fault.write_snd] at hs'
  refine ⟨_, rfl, ?_⟩
  rw [← hs']
  split_ifs
  · have hget : ∀ id', (s.updateRun id run).runs.get? id' = if id' = id then some { row with
        status := run.status, steps := run.steps, tainted := run.tainted
        pendingActionId := run.pendingActionId, summary := run.summary } else s.runs.get? id' := by
      intro id'
      simp only [Store.updateRun, hrow, Dict.get?_set]
    refine ⟨⟨fun id' row' hrow' => ?_, ?_⟩, fun id' row' hrow' => ?_⟩
    · rw [hget] at hrow'
      split at hrow'
      · rename_i hid
        cases hrow'
        exact ⟨hid ▸ (htidy id row hrow).1, hsound.bounded, hsound.distinct, hsound.pending⟩
      · exact htidy id' row' hrow'
    · rintro id' t' h
      cases h
      exact ⟨_, (hget _).trans (if_pos rfl), fun h => h⟩
    · by_cases hid : id' = id
      · subst hid
        rw [hrow] at hrow'
        cases hrow'
        exact ⟨_, (hget _).trans (if_pos rfl), fun h => hflag (hknown h)⟩
      · exact ⟨row', by rw [hget, if_neg hid, hrow'], fun h => h⟩
  · refine ⟨⟨htidy, ?_⟩, Store.keepsFlags_of_runs_eq rfl⟩
    rintro id' t' h
    cases h
    exact ⟨row, hrow, fun h => hflag (hknown h)⟩

theorem act_selectRun_recorded {N : ℕ} {φ : Option (Str × Bool)} {actionId : Str} {w : Choice}
    {s s' : Store} {r : Option (Option Run)} (hI : Recorded N φ s)
    (h : act (.selectRunByPending actionId) w s = some (r, s')) :
    ∃ φ', (recording N).next φ (.selectRunByPending actionId) r = some φ' ∧ Recorded N φ' s' ∧
      s.KeepsFlags s' := by
  have hr : _ = r := congrArg Prod.fst (Option.some.inj h)
  have hs' : _ = s' := congrArg Prod.snd (Option.some.inj h)
  have hruns : s'.runs = s.runs := by rw [← hs']
  rcases r with _ | _ | row
  · exact ⟨φ, rfl, hI.congr hruns, Store.keepsFlags_of_runs_eq hruns⟩
  · exact ⟨φ, rfl, hI.congr hruns, Store.keepsFlags_of_runs_eq hruns⟩
  · have hfound : s.findRun actionId = some row := by
      cases hf : w.fault with
      | none =>
        rw [hf] at hr
        exact Option.some.inj hr
      | _ =>
        rw [hf] at hr
        cases hr
    obtain ⟨id, hrow, -⟩ := Store.findRun_eq_some hfound
    obtain ⟨hid, hsound⟩ := hI.1 id row hrow
    refine ⟨_, if_pos hsound, ?_, Store.keepsFlags_of_runs_eq hruns⟩
    refine Recorded.congr ⟨hI.1, ?_⟩ hruns
    rw [hid]
    rintro id' t h
    cases h
    exact ⟨row, hrow, fun h => h⟩

/-- Every statement of a call keeps the table as it is to be. -/
theorem act_recorded {N : ℕ} {φ : Option (Str × Bool)} {o : Stmt} {w : Choice} {s s' : Store}
    {r : o.Res} (hI : Recorded N φ s) (hp : (recording N).permits φ o)
    (h : act o w s = some (r, s')) :
    ∃ φ', (recording N).next φ o r = some φ' ∧ Recorded N φ' s' ∧ s.KeepsFlags s' := by
  have hother (hnext : (recording N).next φ o r = some φ) (hruns : s'.runs = s.runs) :
      ∃ φ', (recording N).next φ o r = some φ' ∧ Recorded N φ' s' ∧ s.KeepsFlags s' :=
    ⟨φ, hnext, hI.congr hruns, Store.keepsFlags_of_runs_eq hruns⟩
  cases o with
  | insertRun run => exact act_insertRun_recorded hI hp h
  | updateRun id run => exact act_updateRun_recorded hI hp h
  | selectRunByPending actionId => exact act_selectRun_recorded hI h
  | insertPending id a =>
    refine hother rfl ?_
    simp only [act] at h
    split at h
    · cases h
      rfl
    · have hs' : _ = s' := congrArg Prod.snd (Option.some.inj h)
      rw [Fault.write_snd] at hs'
      rw [← hs']
      split_ifs <;> rfl
  | deletePending id b =>
    refine hother rfl ?_
    have hs' : _ = s' := congrArg Prod.snd (Option.some.inj h)
    rw [Fault.write_snd] at hs'
    rw [← hs']
    split_ifs <;> rfl
  | uuid =>
    obtain ⟨-, h⟩ := Option.ite_none_right_eq_some.1 h
    cases h
    exact hother rfl rfl
  | _ =>
    cases h
    exact hother rfl rfl

/-! ## Every table that is reached -/

/-- What holds of a process at work: the table is tidy and the call keeps to the typestate. -/
def Process.Good (N : ℕ) (c : Process) : Prop :=
  ∃ φ, Recorded N φ c.tables ∧ c.running.Follows (recording N) (fun _ _ => True) φ

theorem Call.program_recording {N : ℕ} {env : Env} (hN : maxSteps env ≤ N) (c : Call) :
    (c.program env).Follows (recording N) (fun _ _ => True) none := by
  cases c with
  | start query answer service role =>
    exact (run_recording query answer service role hN).bind fun _ _ _ => trivial
  | resolved actionId approved result =>
    exact (onResolved_recording actionId approved result hN).bind fun _ _ _ => trivial

theorem Process.Step.good {N : ℕ} {c c' : Process} (h : Process.Step N c c') (hc : c.Good N) :
    c'.Good N ∧ c.tables.KeepsFlags c'.tables := by
  obtain ⟨φ, hI, hfollows⟩ := hc
  cases h with
  | statement h =>
    obtain ⟨φ', hφ', hI', hkeeps⟩ := act_recorded hI hfollows.1 h
    exact ⟨⟨φ', hI', hfollows.2 _ φ' hφ'⟩, hkeeps⟩
  | call s p hN call =>
    exact ⟨⟨none, ⟨hI.1, nofun⟩, call.program_recording hN⟩, Store.keepsFlags_of_runs_eq rfl⟩
  | other p hruns =>
    exact ⟨⟨φ, hI.congr hruns, hfollows⟩, Store.keepsFlags_of_runs_eq hruns⟩

theorem Process.Leads.good {N : ℕ} {c c' : Process} (h : Process.Leads N c c') (hc : c.Good N) :
    c'.Good N ∧ c.tables.KeepsFlags c'.tables := by
  induction h with
  | refl => exact ⟨hc, Store.keepsFlags_of_runs_eq rfl⟩
  | tail _ hstep ih =>
    obtain ⟨hgood, hkeeps⟩ := hstep.good ih.1
    exact ⟨hgood, ih.2.trans hkeeps⟩

theorem Process.Reached.good {N : ℕ} {c : Process} (h : c.Reached N) : c.Good N := by
  obtain ⟨s, hempty, hleads⟩ := h
  have hnone : ∀ id, s.runs.get? id = none := fun id => by rw [hempty, Dict.get?_empty]
  refine (hleads.good ⟨none, ⟨fun id row hrow => ?_, nofun⟩, trivial⟩).1
  rw [hnone] at hrow
  cases hrow

/-- **The invariant of the stored runs.** However the calls, the planner, the tools and the database
answer, every stored run has at most as many steps as the step limit, no two of them with the same
signature, and a pending action exactly while it waits for approval; and its flag does not go
back. -/
theorem stored_runs_sound {N : ℕ} {c : Process} (h : c.Reached N) :
    (∀ id run, c.tables.runs.get? id = some run → run.Sound N) ∧
      ∀ c', Process.Leads N c c' → c.tables.KeepsFlags c'.tables := by
  obtain ⟨φ, hI, hfollows⟩ := h.good
  exact ⟨fun id run hrun => (hI.1 id run hrun).2,
    fun c' hleads => (hleads.good ⟨φ, hI, hfollows⟩).2⟩

/-- A call that is carried out without interruption. -/
theorem leads_of_runs {N : ℕ} {p : Prog Statements Unit} {s s' : Store} {es : List (Stmt × Choice)}
    {u : Unit} (h : store.Runs p s es u s') : Process.Leads N ⟨s, p⟩ ⟨s', .ret ()⟩ := by
  induction h with
  | ret u s => exact .refl
  | op hact _ ih => exact .head (.statement hact) ih

/-- A run that has fetched a page and waits for the webhook to be approved. -/
theorem stored_runs_sound_page :
    ∃ c run, Process.Reached 4 c ∧ c.tables.runs.get? "r1".toList = some run ∧
      run.status = .waitingApproval ∧ run.tainted = true ∧ run.Sound 4 := by
  let call := Call.start "Is the build green? Tell ops.".toList [] true none
  obtain ⟨es, u, s', hruns, htest⟩ := Machine.exists_runs_of_plays (M := store)
    (call.program (loopEnv "/guide"))
    (List.replicate 7 ⟨.none, "r1".toList, loopWorld .full "/guide" (pageReply "/guide")⟩ ++
      List.replicate 5 ⟨.none, "r1".toList, loopWorld .full "/guide" hookReply⟩)
    ⟨Dict.empty, Dict.empty, []⟩
    (fun _ _ s' => (s'.runs.get? "r1".toList).any fun run : Run =>
      decide (run.status = .waitingApproval ∧ run.tainted = true)) (by decide +kernel)
  obtain ⟨run, hrow, hrun⟩ := (Option.any_eq_true _ _).1 htest
  obtain ⟨hwait, htainted⟩ := of_decide_eq_true hrun
  have hreached : Process.Reached 4 ⟨s', .ret ()⟩ :=
    ⟨⟨Dict.empty, Dict.empty, []⟩, rfl,
      .trans (.single (.call _ _ (by decide) call)) (leads_of_runs hruns)⟩
  exact ⟨_, run, hreached, hrow, hwait, htainted, (stored_runs_sound hreached).1 _ run hrow⟩

end RagLeap.Core
