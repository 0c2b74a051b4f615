import RagLeap.Core.AgentLoop

/-!
# The rule of the agent loop

To show that every run of the loop follows a protocol, it suffices to say what the run in memory
satisfies between two turns (`Live`) and when the loop has stopped (`Left`), and to follow the
statements that save the run or hand a step to the gate. `TurnRule` lists them, with the number of
turns that are left and with the step handed over known to be new; `LoopRule` is the rule where
neither matters. `drive_follows` and `resume_follows` are the rule; the calls of the model, the
checks of a plan and the order of the steps are dealt with here once.
-/

namespace RagLeap.Core

/-- The statements of the loop that neither save a run nor hand over a step. -/
inductive Consults : Stmt → Prop
  | availableTools : Consults .availableTools
  | checkBudget (role : Option Str) : Consults (.checkBudget role)
  | callModel (prompt : Str) (maxTokens : ℕ) : Consults (.callModel prompt maxTokens)
  | generationService : Consults .generationService
  | asks {o : Stmt} (h : Asks o) : Consults o

/-- Saving a run from phase `φ` keeps to the protocol and leaves the run in memory, saved or not,
with `Q`. -/
def Saving (P : Protocol Statements) (φ : P.Phase) (run : Run) (Q : P.Phase → Run → Prop) : Prop :=
  (save run).Follows P (fun φ' saved => Q φ' (saved.getD run)) φ

theorem saving_of {P : Protocol Statements} {φ : P.Phase} {run : Run} {Q : P.Phase → Run → Prop}
    (hinsert : run.id = none → P.permits φ (.insertRun run) ∧ ∀ ans φ',
      P.next φ (.insertRun run) ans = some φ' → Q φ' { run with id := ans })
    (hupdate : ∀ id, run.id = some id → P.permits φ (.updateRun id run) ∧ ∀ ans φ',
      P.next φ (.updateRun id run) ans = some φ' → Q φ' run) : Saving P φ run Q := by
  unfold Saving save
  cases hid : run.id with
  | none =>
    obtain ⟨hp, hn⟩ := hinsert hid
    refine ⟨hp, fun ans φ' h => ?_⟩
    have := hn ans φ' h
    cases ans with
    | none =>
      rw [← hid] at this
      exact this
    | some id => exact this
  | some id =>
    obtain ⟨hp, hn⟩ := hupdate id hid
    refine ⟨hp, fun ans φ' h => ?_⟩
    cases ans <;> exact hn _ φ' h

theorem Saving.mono {P : Protocol Statements} {φ : P.Phase} {run : Run}
    {Q Q' : P.Phase → Run → Prop} (h : Saving P φ run Q) (hQ : ∀ φ run, Q φ run → Q' φ run) :
    Saving P φ run Q' :=
  Prog.Follows.mono h fun φ _ => hQ φ _

theorem saveThen_follows {P : Protocol Statements} {φ : P.Phase} {run : Run}
    {Q : P.Phase → Run → Prop} (h : Saving P φ run Q) {α : Type} {raised saved : Run → α}
    {Q' : P.Phase → α → Prop} (hr : ∀ φ' run', Q φ' run' → Q' φ' (raised run'))
    (hs : ∀ φ' run', Q φ' run' → Q' φ' (saved run')) :
    (saveThen run raised saved).Follows P Q' φ := by
  refine h.bind fun φ' ans hans => ?_
  cases ans with
  | none => exact hr φ' run hans
  | some run' => exact hs φ' run' hans

/-- What has to be shown of a protocol for the loop to follow it, turn by turn. -/
structure TurnRule (env : Env) (P : Protocol Statements) where
  /-- The run in memory between two turns, with the turns that are left. -/
  Live : P.Phase → ℕ → Run → Prop
  /-- The run in memory when the loop stopped. -/
  Left : P.Phase → Run → Prop
  left_of_live : ∀ {φ left run}, Live φ left run → Left φ run
  consults : ∀ {φ : P.Phase} {o : Stmt}, Consults o →
    P.permits φ o ∧ ∀ r φ', P.next φ o r = some φ' → φ' = φ
  closing : ∀ {φ run status}, status ∈ [RunStatus.done, .failed, .budget] → ∀ summary,
    Left φ run → Saving P φ (run.close status summary) Left
  handing : ∀ {φ left run}, Live φ (left + 1) run → ∀ (valid : Plan) (role : Option Str),
    (∀ s ∈ run.steps, s.sig ≠ valid.sig env) →
    P.permits φ (.executeOrRequest (valid.request role run)) ∧ ∀ ans φ',
      P.next φ (.executeOrRequest (valid.request role run)) ans = some φ' →
      match ans with
      | none => Left φ' run
      | some (.pendingApproval actionId _) =>
        Saving P φ' ((run.add env valid .pendingApproval []).await actionId) Left
      | some (.executed result) =>
        Saving P φ' ((run.add env valid .executed result.render).observe env valid.tool
          result.render) (Live · left)
      | some (.skipped obs) => Saving P φ' (run.add env valid .skipped obs) Left
      | some (.error obs) => Saving P φ' (run.add env valid .error obs) Left

namespace TurnRule

variable {env : Env} {P : Protocol Statements} (R : TurnRule env P) {φ : P.Phase} {run : Run}
  {role : Option Str} {service : Bool} {left : ℕ}

/-- Where a stopped loop leaves the protocol, and the run if an exception stopped it. -/
def Stopped (φ : P.Phase) : Driven → Prop
  | .done _ => ∃ run, R.Left φ run
  | .raised run => R.Left φ run

def Turned (left : ℕ) (φ : P.Phase) : Turn → Prop
  | .stop d => R.Stopped φ d
  | .again run => R.Live φ left run

include R in
theorem llm_follows (prompt : Str) (maxTokens : ℕ) :
    (llm prompt role maxTokens).Follows P (fun φ' _ => φ' = φ) φ := by
  refine Prog.Only.follows (φ := Consults) ?_ fun _ => R.consults
  refine (Prog.Only.op_iff _ _).2 ⟨.checkBudget _, fun blocked => ?_⟩
  rcases blocked with _ | _ | _
  · trivial
  · refine (Prog.Only.op_iff _ _).2 ⟨.callModel _ _, fun ans => ?_⟩
    cases ans <;> trivial
  · trivial

include R in
theorem summarize_follows (run : Run) (status : RunStatus) :
    (summarize service run role status).Follows P (fun φ' _ => φ' = φ) φ := by
  unfold summarize
  split
  · refine (R.llm_follows _ _).bind ?_
    rintro _ reply rfl
    cases reply <;> rfl
  · rfl

theorem finish_follows (h : R.Left φ run) {status : RunStatus}
    (hs : status ∈ [RunStatus.done, .failed, .budget]) (note : Str) :
    (finish service run role status note).Follows P R.Stopped φ := by
  unfold finish
  split
  · exact ⟨run, h⟩
  · refine (R.summarize_follows run status).bind ?_
    rintro _ summary rfl
    refine saveThen_follows (R.closing hs _ h) (fun _ _ hl => ?_) fun _ run' hl => ?_
    · exact hl
    · exact ⟨run', hl⟩

theorem ending_follows {p : Prog Statements Driven} (h : p.Follows P R.Stopped φ) :
    (ending p).Follows P (R.Turned left) φ :=
  h.bind fun _ _ hd => hd

theorem endStep_follows (h : Saving P φ run R.Left) {ends : RunStatus}
    (hs : ends ∈ [RunStatus.done, .failed, .budget]) (note : Str) :
    (endStep role run ends note).Follows P (R.Turned left) φ := by
  refine h.bind fun φ' ans hans => ?_
  cases ans with
  | none => exact hans
  | some run' => exact R.ending_follows (R.finish_follows hans hs note)

theorem takeStep_follows (h : R.Live φ (left + 1) run) (valid : Plan) :
    (takeStep env service role valid run).Follows P (R.Turned left) φ := by
  unfold takeStep
  split
  · exact R.ending_follows (R.finish_follows (R.left_of_live h) (by simp) _)
  · rename_i hnew
    obtain ⟨hp, hn⟩ := R.handing h valid role (by simpa using hnew)
    refine ⟨hp, fun ans φ' hφ' => ?_⟩
    have hreply := hn ans φ' hφ'
    unfold record
    rcases ans with _ | (result | _ | _ | _)
    · exact hreply
    · refine saveThen_follows hreply (fun _ _ hl => ?_) fun _ _ hl => ?_
      · exact R.left_of_live hl
      · exact hl
    · refine saveThen_follows hreply (fun _ _ hl => ?_) fun _ run' hl => ?_
      · exact hl
      · exact ⟨run', hl⟩
    · exact R.endStep_follows hreply (by simp) _
    · exact R.endStep_follows hreply (by simp) _

theorem turn_follows (h : R.Live φ (left + 1) run) (tools : List (Str × Str)) (remaining : ℕ) :
    (turn env service role tools remaining run).Follows P (R.Turned left) φ := by
  have hfinish {status : RunStatus} (hs : status ∈ [RunStatus.done, .failed, .budget])
      (service : Bool) (note : Str) :
      (ending (finish service run role status note)).Follows P (R.Turned left) φ :=
    R.ending_follows (R.finish_follows (R.left_of_live h) hs note)
  refine (R.llm_follows _ _).bind ?_
  rintro _ reply rfl
  cases reply with
  | blocked => exact hfinish (by simp) _ _
  | raised => exact hfinish (by simp) _ _
  | text text =>
    dsimp only
    split
    · exact hfinish (by simp) _ _
    · refine ((validatePlan_asks _ _ _).follows fun _ ho => R.consults (.asks ho)).bind ?_
      rintro _ valid rfl
      rcases valid with _ | (_ | valid)
      · exact R.left_of_live h
      · exact hfinish (by simp) _ _
      · exact R.takeStep_follows h valid

/-- The turns, by induction on how many are left; `Live` carries over from turn to turn. -/
theorem loop_follows (tools : List (Str × Str)) (left : ℕ) (h : R.Live φ left run) :
    (loop env service role tools left run).Follows P R.Stopped φ := by
  induction left generalizing φ run with
  | zero => exact R.finish_follows (R.left_of_live h) (by simp) _
  | succ left ih =>
    refine (R.turn_follows h tools (left + 1)).bind fun φ' t ht => ?_
    cases t with
    | stop d => exact ht
    | again run' => exact ih ht

/-- **The rule of the loop**: from a live run it follows the protocol, however the model, the
gate and the tools answer. -/
theorem drive_follows (h : R.Live φ (maxSteps env - run.steps.length) run) :
    (drive env service role run).Follows P R.Stopped φ := by
  obtain ⟨hp, hn⟩ := R.consults (φ := φ) .availableTools
  refine ⟨hp, fun tools φ' hφ' => ?_⟩
  obtain rfl := hn tools φ' hφ'
  dsimp only
  split
  · exact R.finish_follows (R.left_of_live h) (by simp) _
  · exact R.loop_follows tools _ h

/-- The thread that goes on with a live run. -/
theorem resume_follows (h : R.Live φ (maxSteps env - run.steps.length) run) :
    (resume env run).Follows P (fun φ' _ => ∃ run, R.Left φ' run) φ := by
  have hdriven {p : Prog Statements Driven} (hp : p.Follows P R.Stopped φ) :
      Prog.Follows P (fun φ' _ => ∃ run, R.Left φ' run) φ (p >>= fun driven => match driven with
        | .done _ => pure ()
        | .raised run => do
          let _ ← finish false run run.role .failed
            "Stopped: the run could not be resumed.".toList
          pure ()) := by
    refine hp.bind fun φ' d hd => ?_
    cases d with
    | done o => exact hd
    | raised run' =>
      refine (R.finish_follows hd (by simp) _).bind fun φ' d hd => ?_
      cases d with
      | done o => exact hd
      | raised run' => exact ⟨run', hd⟩
  obtain ⟨hp, hn⟩ := R.consults (φ := φ) .generationService
  refine ⟨hp, fun service φ' hφ' => ?_⟩
  obtain rfl := hn service φ' hφ'
  cases service with
  | none => exact hdriven (p := .ret (.raised run)) (R.left_of_live h)
  | some _ => exact hdriven (R.drive_follows h)

/-- Taking up a waiting row whose step was approved: it suffices to follow the save of the row
with its answered step. -/
theorem takeUp_approved_follows {result : Str} {row : Run} {step : Step}
    (hlast : row.steps.getLast? = some step) (hwait : row.status = .waitingApproval)
    (h : Saving P φ (row.approveLast env step result)
      fun φ run => R.Live φ (maxSteps env - run.steps.length) run) :
    (takeUp env true result row).run.Follows P (fun φ' _ => ∃ run, R.Left φ' run) φ := by
  unfold takeUp
  rw [hlast]
  dsimp only
  rw [if_neg (not_not.2 hwait), if_neg (not_not.2 rfl)]
  refine h.bind fun φ' ans hans => ?_
  cases ans with
  | none => exact ⟨_, R.left_of_live hans⟩
  | some run =>
    dsimp only
    split
    · refine (R.finish_follows (R.left_of_live hans) (by simp) _).bind fun φ' d hd => ?_
      cases d with
      | done o => exact hd
      | raised run' => exact ⟨run', hd⟩
    · exact (R.resume_follows hans).bind fun _ _ hl => hl

end TurnRule

/-- What has to be shown of a protocol for the loop to follow it. -/
structure LoopRule (env : Env) (P : Protocol Statements) where
  /-- The run in memory between two turns. -/
  Live : P.Phase → Run → Prop
  /-- The run in memory when the loop stopped. -/
  Left : P.Phase → Run → Prop
  left_of_live : ∀ {φ run}, Live φ run → Left φ run
  consults : ∀ {φ : P.Phase} {o : Stmt}, Consults o →
    P.permits φ o ∧ ∀ r φ', P.next φ o r = some φ' → φ' = φ
  closing : ∀ {φ run status}, status ∈ [RunStatus.done, .failed, .budget] → ∀ summary,
    Left φ run → Saving P φ (run.close status summary) Left
  handing : ∀ {φ run}, Live φ run → ∀ (valid : Plan) (role : Option Str),
    P.permits φ (.executeOrRequest (valid.request role run)) ∧ ∀ ans φ',
      P.next φ (.executeOrRequest (valid.request role run)) ans = some φ' →
      match ans with
      | none => Left φ' run
      | some (.pendingApproval actionId _) =>
        Saving P φ' ((run.add env valid .pendingApproval []).await actionId) Left
      | some (.executed result) =>
        Saving P φ' ((run.add env valid .executed result.render).observe env valid.tool
          result.render) Live
      | some (.skipped obs) => Saving P φ' (run.add env valid .skipped obs) Left
      | some (.error obs) => Saving P φ' (run.add env valid .error obs) Left

namespace LoopRule

variable {env : Env} {P : Protocol Statements} (R : LoopRule env P) {φ : P.Phase} {run : Run}
  {role : Option Str} {service : Bool}

/-- The rule for every number of turns that are left. -/
def toTurnRule : TurnRule env P where
  Live φ _ run := R.Live φ run
  Left := R.Left
  left_of_live := R.left_of_live
  consults := R.consults
  closing := R.closing
  handing h valid role _ := R.handing h valid role

/-- Where a stopped loop leaves the protocol, and the run if an exception stopped it. -/
def Stopped (φ : P.Phase) : Driven → Prop
  | .done _ => ∃ run, R.Left φ run
  | .raised run => R.Left φ run

theorem drive_follows (h : R.Live φ run) :
    (drive env service role run).Follows P R.Stopped φ := by
  refine (R.toTurnRule.drive_follows h).mono fun φ d hd => ?_
  cases d <;> exact hd

theorem takeUp_approved_follows {result : Str} {row : Run} {step : Step}
    (hlast : row.steps.getLast? = some step) (hwait : row.status = .waitingApproval)
    (h : Saving P φ (row.approveLast env step result) R.Live) :
    (takeUp env true result row).run.Follows P (fun φ' _ => ∃ run, R.Left φ' run) φ :=
  R.toTurnRule.takeUp_approved_follows hlast hwait h

theorem takeUp_rejected_follows {Q : P.Phase → Run → Prop} {result : Str} {row : Run} {step : Step}
    (hlast : row.steps.getLast? = some step) (hwait : row.status = .waitingApproval)
    (h : Saving P φ (row.rejectLast step) Q) :
    (takeUp env false result row).run.Follows P (fun φ' _ => ∃ run, Q φ' run) φ := by
  unfold takeUp
  rw [hlast]
  dsimp only
  rw [if_neg (not_not.2 hwait), if_pos Bool.false_ne_true]
  refine h.bind fun φ' ans hans => ?_
  cases ans <;> exact ⟨_, hans⟩

end LoopRule

end RagLeap.Core
