import RagLeap.Agents.Agent

/-!
# The rule of the agent loop

To show that the loop of an agent follows a protocol it suffices to say what a run in memory
satisfies between two turns (`Live`), when it may be finished (`Open`), when an exception has left
the loop (`Left`) and when the loop has returned (`Done`), and to follow the statements that save the
run and the calls of tools:
`DriveRule` lists them. `OwnRule` is the rule for a protocol that speaks of a run's own statements
only; what happens inside its tool calls is dealt with here once.
-/

namespace RagLeap.Agents

/-- The statements of the loop that neither save a run nor run a tool. -/
inductive Asks : Act → Prop
  | llm (prompt : Str) : Asks (.llm prompt)
  | now : Asks .now

/-- Saving a run from phase `φ` keeps to the protocol and leads to `Q`, or to `E` if it raises. -/
def Saves (P : Protocol Acts) (φ : P.Phase) (store : Store) (r : Running)
    (Q E : P.Phase → Running → Prop) : Prop :=
  P.permits φ (.save store r.state.runId r.state) ∧
    ∀ (ans : Except Str Unit) φ', P.next φ (.save store r.state.runId r.state) ans = some φ' →
      (ans.isOk = true → Q φ' r) ∧ (ans.isOk = false → E φ' r)

/-- The ends of a stretch of the loop: with `Q`, or with `E` if an exception left it. -/
def EndsIn {α : Type} (Q E : α → Running → Prop) (φ : α) (e : Ended) : Prop :=
  (e.exception = none → Q φ e.running) ∧ (e.exception ≠ none → E φ e.running)

theorem Saves.endsIn {P : Protocol Acts} {φ : P.Phase} {store : Store} {r : Running}
    {Q E : P.Phase → Running → Prop} (h : Saves P φ store r Q E) :
    (exec (.save store r.state.runId r.state) >>= fun saved =>
      (pure ⟨r, exceptionOf saved⟩ : Prog Acts Ended)).Follows P (EndsIn Q E) φ := by
  refine ⟨h.1, fun (ans : Except Str Unit) φ' hφ' => ?_⟩
  obtain ⟨hok, herr⟩ := h.2 ans φ' hφ'
  cases ans with
  | ok u => exact ⟨fun _ => hok rfl, fun hne => absurd rfl hne⟩
  | error e => exact ⟨nofun, fun _ => herr rfl⟩

/-- The run as it stands when it pauses for approval. -/
def Running.paused (r : Running) (callId : Str) (tool : Tool) (args : Json) (sig : Sig)
    (forced : Bool) : Running :=
  { r with state := { r.state with
    pending := some { callId, tool := tool.name, arguments := args, sig, forced }
    status := .awaitingApproval
    stopReason := "awaiting_approval".toList } }

/-- The run after a tool call. -/
def Agent.afterCall (a : Agent) (env : Env) (r : Running) (tool : Tool) (args : Json) (sig : Sig)
    (forced : Bool) (out : ToolOutcome) (counters : Counters) : Running :=
  (r.charge counters).record (a.stepOf env tool args sig forced out)
    (a.policy.forTool tool.name).taints

section AfterCall

variable (a : Agent) (env : Env) (r : Running) (tool : Tool) (args : Json) (sig : Sig)
  (forced : Bool) (out : ToolOutcome) (counters : Counters)

@[simp] theorem afterCall_runId :
    (a.afterCall env r tool args sig forced out counters).state.runId = r.state.runId := by
  rcases r with ⟨s, _ | ctx⟩ <;> rfl

@[simp] theorem afterCall_status :
    (a.afterCall env r tool args sig forced out counters).state.status = r.state.status := by
  rcases r with ⟨s, _ | ctx⟩ <;> rfl

@[simp] theorem afterCall_steps :
    (a.afterCall env r tool args sig forced out counters).state.steps =
      r.state.steps ++ [a.stepOf env tool args sig forced out] := by
  rcases r with ⟨s, _ | ctx⟩ <;> rfl

@[simp] theorem afterCall_steps_length :
    (a.afterCall env r tool args sig forced out counters).state.steps.length =
      r.state.steps.length + 1 := by
  rw [afterCall_steps, List.length_append, List.length_singleton]

@[simp] theorem afterCall_tainted :
    (a.afterCall env r tool args sig forced out counters).state.tainted =
      (r.state.tainted || (a.policy.forTool tool.name).taints) := by
  rcases r with ⟨s, _ | ctx⟩ <;> rfl

@[simp] theorem afterCall_depth :
    Running.depth (a.afterCall env r tool args sig forced out counters).parent =
      Running.depth r.parent := by
  rcases r with ⟨s, _ | ctx⟩ <;> rfl

@[simp] theorem afterCall_shared :
    (a.afterCall env r tool args sig forced out counters).shared = counters := by
  rcases r with ⟨s, _ | ctx⟩ <;> rfl

end AfterCall

/-- A proposal the loop takes up: below the step limit, and not made before. -/
structure Fresh (a : Agent) (env : Env) (r : Running) (tool : Tool) (args : Json) : Prop where
  found : a.tool? tool.name = some tool
  below : r.state.steps.length < a.limit
  new : ∀ s ∈ r.state.steps, s.sig ≠ sigOf env tool.name args

/-- A tool that is run without approval. -/
def Free (a : Agent) (r : Running) (tool : Tool) : Prop :=
  (a.policy.forTool tool.name).requiresApproval = false ∧
    (r.state.tainted = true → (a.policy.forTool tool.name).outbound = false)

/-- What has to be shown of a protocol for the loop of an agent to follow it. -/
structure DriveRule (a : Agent) (env : Env) (P : Protocol Acts) where
  /-- The run in memory between two turns. -/
  Live : P.Phase → Running → Prop
  /-- The run in memory when it may be finished. -/
  Open : P.Phase → Running → Prop
  /-- The run in memory when an exception has left the loop. -/
  Left : P.Phase → Running → Prop
  /-- The run in memory when the loop has returned. -/
  Done : P.Phase → Running → Prop
  open_of_live : ∀ {φ r}, Live φ r → Open φ r
  open_of_left : ∀ {φ r}, Left φ r → Open φ r
  asks : ∀ {φ : P.Phase} {o : Act}, Asks o → P.permits φ o ∧
    ∀ ans φ', P.next φ o ans = some φ' → (∀ r, Live φ r → Live φ' r) ∧ ∀ r, Open φ r → Open φ' r
  closing : ∀ {φ r}, Open φ r → ∀ status ∈ [RunStatus.done, .rejected, .failed, .stopped],
    ∀ reason summary,
    Saves P φ a.store { r with state := a.close r.state status reason summary } Done Left
  pausing : ∀ {φ r tool args}, Live φ r → Fresh a env r tool args → ∀ forced,
    P.permits φ (.uuid .call) ∧ ∀ (callId : Str) φ', P.next φ (.uuid .call) callId = some φ' →
      Saves P φ' a.store (r.paused callId tool args (sigOf env tool.name args) forced) Done Left
  calling : ∀ {φ r tool args}, Live φ r → Fresh a env r tool args → Free a r tool →
    (a.runTool env r tool args (sigOf env tool.name args) false none).Follows P
      (fun φ' e => EndsIn Live Left φ' e ∧
        e.running.state.steps.length = r.state.steps.length + 1) φ

theorem tool?_of_checkReply {a : Agent} {env : Env} {text : Str} {tool : Tool} {args : Json}
    (h : a.checkReply env text = .call tool args) : a.tool? tool.name = some tool := by
  unfold Agent.checkReply at h
  split at h
  · cases h
  split at h
  · cases h
  dsimp only at h
  split at h
  · cases h
  split at h
  · cases h
  · rename_i t ht
    split at h
    · cases h
    · cases h
      rw [(Agent.mem_tools_of_tool? ht).2, ht]

namespace DriveRule

variable {a : Agent} {env : Env} {P : Protocol Acts} (R : DriveRule a env P) {φ : P.Phase}
  {r : Running}

/-- Where a loop that ended leaves the protocol. -/
def Stopped : P.Phase → Ended → Prop := EndsIn R.Done R.Left

def Turned (φ : P.Phase) : Turn → Prop
  | .stop e => R.Stopped φ e
  | .again r => R.Live φ r

/-- A stretch between two phases that leaves a run as it was. -/
def Keeps (φ φ' : P.Phase) : Prop := (∀ r, R.Live φ r → R.Live φ' r) ∧ ∀ r, R.Open φ r → R.Open φ' r

theorem Keeps.refl : R.Keeps φ φ := ⟨fun _ h => h, fun _ h => h⟩

variable {R} in
theorem Keeps.trans {φ' φ'' : P.Phase} (h : R.Keeps φ φ') (h' : R.Keeps φ' φ'') : R.Keeps φ φ'' :=
  ⟨fun r hr => h'.1 r (h.1 r hr), fun r hr => h'.2 r (h.2 r hr)⟩

theorem exec_follows {o : Act} (ho : Asks o) :
    (exec o).Follows P (fun φ' _ => R.Keeps φ φ') φ :=
  ⟨(R.asks ho).1, fun ans φ' hφ' => (R.asks ho).2 ans φ' hφ'⟩

theorem overdue_follows (deadline : Option ℚ) :
    (overdue deadline).Follows P (fun φ' _ => R.Keeps φ φ') φ := by
  cases deadline with
  | none => exact Keeps.refl R
  | some d => exact (R.exec_follows .now).bind fun _ _ h => h

theorem deadline_follows : a.deadline.Follows P (fun φ' _ => R.Keeps φ φ') φ := by
  unfold Agent.deadline
  split
  · exact Keeps.refl R
  · exact (R.exec_follows .now).bind fun _ _ h => h

theorem summary_follows (state : RunState) (status : RunStatus) (useLlm : Bool) (planAnswer : Str) :
    (a.summary env state status useLlm planAnswer).Follows P (fun φ' _ => R.Keeps φ φ') φ := by
  unfold Agent.summary
  split
  · refine (R.exec_follows (.llm _)).bind fun φ' (reply : LlmReply) h => ?_
    cases reply <;> exact h
  · exact Keeps.refl R

theorem finish_follows (h : R.Open φ r) {status : RunStatus}
    (hs : status ∈ [RunStatus.done, .rejected, .failed, .stopped]) (reason : Str)
    (useLlm : Bool) (planAnswer : Str) :
    (a.finish env r status reason useLlm planAnswer).Follows P R.Stopped φ :=
  (R.summary_follows _ _ _ _).bind fun _ _ hkeeps =>
    (R.closing (hkeeps.2 r h) status hs _ _).endsIn

/-- How a proposal ends or what it proposes. -/
def Proposed (a : Agent) : Proposal → Prop
  | .ends status _ _ _ => status ∈ [RunStatus.done, .rejected, .failed, .stopped]
  | .call tool _ => a.tool? tool.name = some tool

theorem takeReply_follows (reply : LlmReply) {rejected : Str → Str → Prog Acts Proposal}
    {K : P.Phase → Prop} (hφ : K φ) (h : ∀ problem reason,
      (rejected problem reason).Follows P (fun φ' p => K φ' ∧ Proposed a p) φ) :
    (a.takeReply env reply rejected).Follows P (fun φ' p => K φ' ∧ Proposed a p) φ := by
  unfold Agent.takeReply
  dsimp only
  split
  · exact ⟨hφ, by simp [Proposed]⟩
  · split
    · exact ⟨hφ, by simp [Proposed]⟩
    · rename_i htext
      exact ⟨hφ, tool?_of_checkReply htext⟩
    · exact h _ _

/-- Proposals, by induction on the repairs that are left. -/
theorem propose_follows (deadline : Option ℚ) (basePrompt : Str) (repairsLeft : ℕ) (prompt : Str) :
    (a.propose env deadline basePrompt repairsLeft prompt).Follows P
      (fun φ' p => R.Keeps φ φ' ∧ Proposed a p) φ := by
  induction repairsLeft generalizing φ prompt with
  | zero =>
    refine (R.exec_follows (.llm _)).bind fun φ' reply h => ?_
    exact takeReply_follows reply h fun _ _ => ⟨h, by simp [Proposed]⟩
  | succ repairsLeft ih =>
    refine (R.exec_follows (.llm _)).bind fun φ' reply h => ?_
    refine takeReply_follows reply h fun problem _ => ?_
    refine (R.overdue_follows deadline).bind fun φ'' late h' => ?_
    split
    · exact ⟨h.trans h', by simp [Proposed]⟩
    · exact (ih _).mono fun _ _ h'' => ⟨(h.trans h').trans h''.1, h''.2⟩

/-- A turn that goes on has one more step to show for it. -/
def Advanced (n : ℕ) (φ : P.Phase) (t : Turn) : Prop :=
  R.Turned φ t ∧ ∀ r, t = .again r → r.state.steps.length = n + 1

theorem advanced_ending {n : ℕ} {p : Prog Acts Ended} (h : p.Follows P R.Stopped φ) :
    (Agent.ending p).Follows P (R.Advanced n) φ :=
  h.bind fun _ _ he => ⟨he, nofun⟩

theorem takeStep_follows (h : R.Live φ r) (hlt : r.state.steps.length < a.limit) {tool : Tool}
    (ht : a.tool? tool.name = some tool) (deadline : Option ℚ) (args : Json) :
    (a.takeStep env deadline r tool args).Follows P (R.Advanced r.state.steps.length) φ := by
  unfold Agent.takeStep
  dsimp only
  split
  · exact R.advanced_ending (R.finish_follows (R.open_of_live h) (by simp) _ _ _)
  · rename_i hnew
    have hfresh : Fresh a env r tool args := ⟨ht, hlt, by simpa using hnew⟩
    split
    · obtain ⟨hp, hn⟩ := R.pausing h hfresh
        (r.state.tainted && (a.policy.forTool tool.name).outbound &&
          ! (a.policy.forTool tool.name).requiresApproval)
      exact R.advanced_ending ⟨hp, fun callId φ' hφ' => (hn callId φ' hφ').endsIn⟩
    · rename_i hfree
      refine (R.overdue_follows deadline).bind fun φ' late hkeeps => ?_
      replace h := hkeeps.1 r h
      split
      · exact R.advanced_ending (R.finish_follows (R.open_of_live h) (by simp) _ _ _)
      · refine (R.calling h hfresh (by simpa [Free] using hfree)).bind ?_
        rintro φ' ⟨running, exception⟩ ⟨⟨hlive, hleft⟩, hlen⟩
        cases exception with
        | none => exact ⟨hlive rfl, fun _ he => by cases he; exact hlen⟩
        | some e => exact ⟨⟨nofun, fun _ => hleft nofun⟩, nofun⟩

theorem turn_follows (h : R.Live φ r) (hlt : r.state.steps.length < a.limit)
    (deadline : Option ℚ) (remaining : ℕ) :
    (a.turn env deadline remaining r).Follows P (R.Advanced r.state.steps.length) φ := by
  have hfinish {φ : P.Phase} (h : R.Live φ r) {status : RunStatus}
      (hs : status ∈ [RunStatus.done, .rejected, .failed, .stopped]) (reason : Str)
      (useLlm : Bool) (answer : Str) :
      (Agent.ending (a.finish env r status reason useLlm answer)).Follows P
        (R.Advanced r.state.steps.length) φ :=
    R.advanced_ending (R.finish_follows (R.open_of_live h) hs _ _ _)
  unfold Agent.turn
  refine (R.overdue_follows deadline).bind fun φ' late hkeeps => ?_
  replace h := hkeeps.1 r h
  split
  · exact hfinish h (by simp) _ _ _
  · refine (R.propose_follows deadline _ _ _).bind ?_
    rintro φ'' proposal ⟨hkeeps, hproposed⟩
    replace h := hkeeps.1 r h
    cases proposal with
    | ends status reason useLlm answer => exact hfinish h hproposed _ _ _
    | call tool args => exact R.takeStep_follows h hlt hproposed deadline args

/-- The turns, by induction on how many are left below the limit. -/
theorem loop_follows (deadline : Option ℚ) (left : ℕ) (h : R.Live φ r)
    (hleft : left ≤ a.limit - r.state.steps.length) :
    (a.loop env deadline left r).Follows P R.Stopped φ := by
  induction left generalizing φ r with
  | zero => exact R.finish_follows (R.open_of_live h) (by simp) _ _ _
  | succ left ih =>
    refine (R.turn_follows h (by omega) deadline _).bind ?_
    rintro φ' t ⟨ht, hlen⟩
    cases t with
    | stop e => exact ht
    | again r' =>
      have := hlen r' rfl
      exact ih ht (by omega)

/-- **The rule of the loop**: from a live run it follows the protocol, however the model answers
and whatever the tools do. -/
theorem drive_follows (h : R.Live φ r) : (a.drive env r).Follows P R.Stopped φ := by
  refine R.deadline_follows.bind fun φ' deadline hkeeps => ?_
  exact R.loop_follows deadline _ (hkeeps.1 r h) le_rfl

/-- The save that closes a run which an exception has left. -/
theorem lastSave (h : R.Open φ r) (summary : Str) :
    Saves P φ a.store { r with state := a.close r.state .failed "internal_error".toList summary }
      R.Done R.Left :=
  R.closing h .failed (by simp) _ _

section LastResort

variable {E : P.Phase → Running → Prop}
  (hlast : ∀ {φ r}, R.Open φ r → ∀ summary,
    Saves P φ a.store { r with state := a.close r.state .failed "internal_error".toList summary }
      R.Done E)

include hlast

theorem lastResort_follows {e : Ended} (h : R.Stopped φ e) :
    (a.lastResort env e).Follows P (EndsIn R.Done E) φ := by
  unfold Agent.lastResort
  split
  · rename_i hx
    exact ⟨h.1, fun hne => absurd hx hne⟩
  · rename_i x hx
    exact (R.summary_follows _ _ _ _).bind fun _ _ hkeeps =>
      (hlast (hkeeps.2 _ (R.open_of_left (h.2 (by simp [hx])))) _).endsIn

/-- Starting a run: its id is drawn, and the run that has it is live. -/
theorem run_follows {parent : Option RunContext} {task : Str} {tainted : Bool}
    (hp : P.permits φ (.uuid (.run (Running.depth parent))))
    (hn : ∀ (runId : Str) φ', P.next φ (.uuid (.run (Running.depth parent))) runId = some φ' →
      R.Live φ' ⟨a.start runId task tainted, parent⟩) :
    (a.run env parent task tainted).Follows P
      (fun φ' x => ∃ e, EndsIn R.Done E φ' e ∧ x = (e.outcome, e.running.parent)) φ := by
  refine ⟨hp, fun (runId : Str) φ' hφ' => ?_⟩
  have hlive := hn runId φ' hφ'
  have hended : (a.driveTask env ⟨a.start runId task tainted, parent⟩).Follows P R.Stopped φ' := by
    unfold Agent.driveTask
    split
    · exact R.finish_follows (R.open_of_live hlive) (by simp) _ _ _
    · exact R.drive_follows hlive
  exact hended.bind fun φ' e he =>
    (R.lastResort_follows hlast he).bind fun φ' e he => ⟨e, he, rfl⟩

end LastResort

/-- Going on with an approved call. -/
theorem carryOut_follows {pending : PendingCall} (hopen : R.Open φ r)
    (hcall : ∀ tool, a.tool? pending.tool = some tool →
      (a.runTool env r tool pending.arguments pending.sig pending.forced
        (some pending.callId)).Follows P (EndsIn R.Live R.Left) φ) :
    (a.carryOut env r pending).Follows P R.Stopped φ := by
  unfold Agent.carryOut
  split
  · exact R.finish_follows hopen (by simp) _ _ _
  · rename_i tool htool
    split
    · exact R.finish_follows hopen (by simp) _ _ _
    · refine (hcall tool htool).bind ?_
      rintro φ' ⟨running, exception⟩ ⟨hlive, hleft⟩
      cases exception with
      | none => exact R.drive_follows (hlive rfl)
      | some e => exact ⟨nofun, fun _ => hleft nofun⟩

theorem answer_follows {pending : PendingCall} {approved : Bool} (hopen : R.Open φ r)
    (hreject : approved = false → R.Open φ (r.record (Agent.rejectedStep pending) false))
    (hcall : approved = true → ∀ tool, a.tool? pending.tool = some tool →
      (a.runTool env r tool pending.arguments pending.sig pending.forced
        (some pending.callId)).Follows P (EndsIn R.Live R.Left) φ) :
    (a.answer env r pending approved).Follows P R.Stopped φ := by
  unfold Agent.answer
  split
  · rename_i h
    exact R.carryOut_follows hopen (hcall h)
  · rename_i h
    exact R.finish_follows (hreject (by simpa using h)) (by simp) _ _ _

end DriveRule

/-! ## A run's own statements -/

section Own

variable {P : Protocol Acts} {barred : Str → Prop} [DecidablePred barred]

/-- The protocol `P` for the statements of a run itself. Inside its tool calls anything goes,
except that no barred run is written, no tool is entered for one and no barred run id is drawn. -/
def own (P : Protocol Acts) (barred : Str → Prop) [DecidablePred barred] : Protocol Acts where
  Phase := P.Phase × ℕ
  permits
    | (_, 0), .leaveRun => False
    | (φ, 0), o => P.permits φ o
    | (_, _ + 1), .enterRun ctx _ => ¬ barred ctx.runId
    | (_, _ + 1), .save _ runId _ => ¬ barred runId
    | (_, _ + 1), .saveIfStatus _ runId _ _ => ¬ barred runId
    | _, _ => True
  next
    | (φ, 0), .enterRun ctx l, r => (P.next φ (.enterRun ctx l) r).map fun φ' => (φ', 1)
    | (φ, 0), o, r => (P.next φ o r).map fun φ' => (φ', 0)
    | (φ, n + 1), .enterRun .., _ => some (φ, n + 2)
    | (φ, n + 1), .leaveRun, _ => some (φ, n)
    | (φ, n + 1), .uuid (.run _), drawn =>
      let runId : Str := drawn
      if barred runId then none else some (φ, n + 1)
    | (φ, n + 1), _, _ => some (φ, n + 1)

/-- A handler does nothing that a run's own protocol would notice. -/
theorem handler_own (tool : Tool) (ctx : RunContext) (args : List (Str × Json)) (φ : P.Phase) :
    (tool.handler ctx args).Follows (own P barred) (fun φ' _ => φ' = (φ, 1)) (φ, 1) := by
  refine (Prog.Follows.transfer
    (fun (reach : Reach) (ψ : P.Phase × ℕ) =>
      ψ = (φ, reach.nested + 1) ∧ ∀ runId ∈ reach.drawn, ¬ barred runId)
    ?_ (tool.confines ctx args ⟨0, []⟩) ⟨rfl, by simp⟩).mono ?_
  · rintro reach _ o ⟨rfl, hdrawn⟩ hp
    cases o with
    | leaveRun =>
      obtain ⟨n, hn⟩ : ∃ n, reach.nested = n + 1 := Nat.exists_eq_succ_of_ne_zero (Nat.ne_of_gt hp)
      refine ⟨trivial, fun _ ψ' hψ' => ⟨_, rfl, ?_, hdrawn⟩⟩
      cases hψ'
      simp [hn]
    | uuid use =>
      refine ⟨trivial, fun (runId : Str) ψ' hψ' => ?_⟩
      cases use with
      | call => exact ⟨_, rfl, (Option.some.inj hψ').symm, hdrawn⟩
      | run depth =>
        change (if barred runId then none else _) = _ at hψ'
        split_ifs at hψ' with hbarred
        refine ⟨_, rfl, (Option.some.inj hψ').symm, ?_⟩
        simpa [hbarred] using hdrawn
    | enterRun ctx l =>
      exact ⟨hdrawn ctx.runId hp, fun _ _ h => ⟨_, rfl, (Option.some.inj h).symm, hdrawn⟩⟩
    | save store runId s =>
      exact ⟨hdrawn runId hp, fun _ _ h => ⟨_, rfl, (Option.some.inj h).symm, hdrawn⟩⟩
    | saveIfStatus store runId s expected =>
      exact ⟨hdrawn runId hp, fun _ _ h => ⟨_, rfl, (Option.some.inj h).symm, hdrawn⟩⟩
    | _ => exact ⟨trivial, fun _ _ h => ⟨_, rfl, (Option.some.inj h).symm, hdrawn⟩⟩
  · rintro _ _ ⟨reach, hreach, rfl, -⟩
    rw [hreach.1]

/-- A condition on a run in memory outside its tool calls. -/
def Outside (Q : P.Phase → Running → Prop) (φ : P.Phase × ℕ) (r : Running) : Prop :=
  φ.2 = 0 ∧ Q φ.1 r

theorem Saves.own {φ : P.Phase} {store : Store} {r : Running} {Q E : P.Phase → Running → Prop}
    (h : Saves P φ store r Q E) :
    Saves (own P barred) (φ, 0) store r (Outside Q) (Outside E) := by
  refine ⟨h.1, fun ans φ' hφ' => ?_⟩
  obtain ⟨φ₁, h₁, rfl⟩ := Option.map_eq_some_iff.1 hφ'
  exact ⟨fun hans => ⟨rfl, (h.2 ans φ₁ h₁).1 hans⟩, fun hans => ⟨rfl, (h.2 ans φ₁ h₁).2 hans⟩⟩

/-- Entering a tool call keeps to the protocol, and so does saving the run with its step. -/
def Launches (P : Protocol Acts) (φ : P.Phase) (a : Agent) (env : Env) (r : Running) (tool : Tool)
    (args : Json) (sig : Sig) (forced : Bool) (approved : Option Str)
    (Q E : P.Phase → Running → Prop) : Prop :=
  let enter : Act := .enterRun r.context ⟨tool.name, a.policy.forTool tool.name, sig, approved⟩
  P.permits φ enter ∧ ∀ u φ', P.next φ enter u = some φ' → ∀ out counters,
    Saves P φ' a.store (a.afterCall env r tool args sig forced out counters) Q E

theorem runTool_own {a : Agent} {env : Env} {φ : P.Phase} {r : Running} {tool : Tool} {args : Json}
    {sig : Sig} {forced : Bool} {approved : Option Str} {Q E : P.Phase → Running → Prop}
    (h : Launches P φ a env r tool args sig forced approved Q E) :
    (a.runTool env r tool args sig forced approved).Follows (own P barred)
      (fun φ' e => EndsIn (Outside Q) (Outside E) φ' e ∧
        e.running.state.steps.length = r.state.steps.length + 1) (φ, 0) := by
  refine ⟨h.1, fun u φ' hφ' => ?_⟩
  obtain ⟨φ₁, h₁, rfl⟩ := Option.map_eq_some_iff.1 hφ'
  refine (handler_own tool _ _ φ₁).bind ?_
  rintro _ ⟨out, counters⟩ rfl
  refine ⟨trivial, fun _ φ' hφ' => ?_⟩
  cases hφ'
  have hsaves : Saves (own P barred) (φ₁, 0) a.store
      (a.afterCall env r tool args sig forced out counters) (Outside Q) (Outside E) :=
    (h.2 u φ₁ h₁ out counters).own
  refine ⟨hsaves.1, fun (ans : Except Str Unit) φ' hφ' => ?_⟩
  obtain ⟨hok, herr⟩ := hsaves.2 ans φ' hφ'
  cases ans with
  | ok u =>
    exact ⟨⟨fun _ => hok rfl, fun hne => absurd rfl hne⟩, afterCall_steps_length _ _ _ _ _ _ _ _ _⟩
  | error e => exact ⟨⟨nofun, fun _ => herr rfl⟩, afterCall_steps_length _ _ _ _ _ _ _ _ _⟩

/-- What has to be shown of a protocol for a run's own statements to follow it. -/
structure OwnRule (a : Agent) (env : Env) (P : Protocol Acts) where
  Live : P.Phase → Running → Prop
  Open : P.Phase → Running → Prop
  Left : P.Phase → Running → Prop
  Done : P.Phase → Running → Prop
  open_of_live : ∀ {φ r}, Live φ r → Open φ r
  open_of_left : ∀ {φ r}, Left φ r → Open φ r
  asks : ∀ {φ : P.Phase} {o : Act}, Asks o →
    P.permits φ o ∧ ∀ r φ', P.next φ o r = some φ' → φ' = φ
  closing : ∀ {φ r}, Open φ r → ∀ status ∈ [RunStatus.done, .rejected, .failed, .stopped],
    ∀ reason summary,
    Saves P φ a.store { r with state := a.close r.state status reason summary } Done Left
  pausing : ∀ {φ r tool args}, Live φ r → Fresh a env r tool args → ∀ forced,
    P.permits φ (.uuid .call) ∧ ∀ (callId : Str) φ', P.next φ (.uuid .call) callId = some φ' →
      Saves P φ' a.store (r.paused callId tool args (sigOf env tool.name args) forced) Done Left
  launching : ∀ {φ r tool args}, Live φ r → Fresh a env r tool args → Free a r tool →
    Launches P φ a env r tool args (sigOf env tool.name args) false none Live Left

/-- The rule for a run's own statements is one for all statements. -/
def OwnRule.toDriveRule {a : Agent} {env : Env} (R : OwnRule a env P) (barred : Str → Prop)
    [DecidablePred barred] : DriveRule a env (own P barred) where
  Live := Outside R.Live
  Open := Outside R.Open
  Left := Outside R.Left
  Done := Outside R.Done
  open_of_live h := ⟨h.1, R.open_of_live h.2⟩
  open_of_left h := ⟨h.1, R.open_of_left h.2⟩
  asks {φ o} ho := by
    obtain ⟨φ, n⟩ := φ
    have hP := R.asks (φ := φ) ho
    cases n with
    | zero =>
      cases ho <;>
      · refine ⟨hP.1, fun ans φ' hφ' => ?_⟩
        obtain ⟨φ₁, h₁, rfl⟩ := Option.map_eq_some_iff.1 hφ'
        rw [hP.2 ans φ₁ h₁]
        exact ⟨fun _ h => h, fun _ h => h⟩
    | succ n =>
      cases ho <;>
      · refine ⟨trivial, fun ans φ' hφ' => ?_⟩
        cases hφ'
        exact ⟨fun _ h => h, fun _ h => h⟩
  closing {φ r} h status hs reason summary := by
    obtain ⟨φ, n⟩ := φ
    obtain ⟨rfl, h⟩ := h
    exact (R.closing h status hs reason summary).own
  pausing {φ r tool args} h hfresh forced := by
    obtain ⟨φ, n⟩ := φ
    obtain ⟨rfl, h⟩ := h
    obtain ⟨hp, hn⟩ := R.pausing h hfresh forced
    refine ⟨hp, fun callId φ' hφ' => ?_⟩
    obtain ⟨φ₁, h₁, rfl⟩ := Option.map_eq_some_iff.1 hφ'
    exact (hn callId φ₁ h₁).own
  calling {φ r tool args} h hfresh hfree := by
    obtain ⟨φ, n⟩ := φ
    obtain ⟨rfl, h⟩ := h
    exact runTool_own (R.launching h hfresh hfree)

end Own

end RagLeap.Agents
