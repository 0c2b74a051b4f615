import Mathlib
import RagLeap.Agents.DriveRule
import RagLeap.Foundations.Raising

/-!
# Delegation

`ragleap_agents/delegate.py`: a `Delegation` is what `make_delegate_tool` accepts, and
`Delegation.tool` the tool it makes. The tool runs a child agent to completion inside one tool call
of its parent; the shared counters are charged on the way. Its handler is confined, as every tool's
is, because the child's own tools are (`run_confined`).
-/

namespace RagLeap.Agents

def MAX_DEPTH_CEILING : ℕ := 3
def ANSWER_CAP : ℕ := 800

structure Budget where
  maxDelegations : ℕ := 4
  maxChildSteps : ℕ := 16
  maxDelegations_pos : 0 < maxDelegations := by decide
  maxChildSteps_pos : 0 < maxChildSteps := by decide

/-! ## The policy of a delegate tool -/

/-- Whether the tools of a child may taint, or what is wrong with one of them. -/
def childTaints (allowOutbound : Bool) (name : Str) (child : Agent) : Except Str Bool :=
  child.tools.foldlM (fun taints tool =>
    match child.policy.tools.get? tool.name with
    | none =>
      .error ("child '".toList ++ name ++ "': tool '".toList ++ tool.name
        ++ "' has no declared policy (an undeclared tool is both tainting and ".toList
        ++ "outbound); declare it in the child's Policy".toList)
    | some declared =>
      if declared.outbound ∧ ¬ allowOutbound then
        .error ("child '".toList ++ name ++ "': tool '".toList ++ tool.name
          ++ "' is outbound; pass allow_outbound=True to allow it (a child cannot ask for ".toList
          ++ "approval, so it stops instead of running it after a taint)".toList)
      else .ok (taints || declared.taints)) false

/-- `delegate_policy`: the policy to declare for a delegate tool, or what is unsafe or unclear. -/
def delegatePolicy (children : Dict Str Agent) (allowOutbound : Bool) : Except Str ToolPolicy :=
  if children.items = [] then .error "children must be a non-empty dict of name -> Agent".toList
  else do
    let taints ← children.items.foldlM (fun taints (name, child) =>
      if isName name then do
        let t ← childTaints allowOutbound name child
        pure (taints || t)
      else
        .error ("invalid child name '".toList ++ name.take 50
          ++ "': use 1-64 of A-Z a-z 0-9 _ . -".toList)) false
    pure ⟨taints, false, false⟩

/-- A flag collected along a list stays set, and is set by each element that sets it. -/
theorem flag_of_foldlM {α ε : Type} {f : Bool → α → Except ε Bool}
    (hf : ∀ flag x b, f flag x = .ok b → flag = true → b = true) {l : List α} {flag b : Bool}
    (h : l.foldlM f flag = .ok b) : (flag = true → b = true) ∧
      ∀ x ∈ l, (∀ flag b, f flag x = .ok b → b = true) → b = true := by
  induction l generalizing flag with
  | nil =>
    cases h
    exact ⟨id, by simp⟩
  | cons x l ih =>
    rw [List.foldlM_cons] at h
    cases hx : f flag x with
    | error e =>
      rw [hx] at h
      cases h
    | ok b' =>
      rw [hx] at h
      obtain ⟨hset, hmem⟩ := ih h
      refine ⟨fun hflag => hset (hf _ _ _ hx hflag), fun y hy hsets => ?_⟩
      rcases List.mem_cons.1 hy with rfl | hy
      · exact hset (hsets _ _ hx)
      · exact hmem y hy hsets

theorem childTaints_ok {allowOutbound : Bool} {name : Str} {child : Agent} {b : Bool}
    (h : childTaints allowOutbound name child = .ok b) {t : Tool} (ht : t ∈ child.tools)
    (htaints : (child.policy.forTool t.name).taints = true) : b = true := by
  refine (flag_of_foldlM ?_ h).2 t ht ?_
  · intro flag t b hb hflag
    split at hb
    · cases hb
    · split at hb
      · cases hb
      · cases hb
        rw [hflag, Bool.true_or]
  · intro flag b hb
    split at hb
    · cases hb
    · rename_i declared hdeclared
      split at hb
      · cases hb
      · cases hb
        rw [Policy.forTool, hdeclared] at htaints
        rw [show declared.taints = true from htaints, Bool.or_true]

/-- The policy of a delegate tool taints if a tool of a child does. -/
theorem delegatePolicy_taints {children : Dict Str Agent} {allowOutbound : Bool} {p : ToolPolicy}
    (h : delegatePolicy children allowOutbound = .ok p) {name : Str} {child : Agent}
    (hchild : children.get? name = some child) {t : Tool} (ht : t ∈ child.tools)
    (htaints : (child.policy.forTool t.name).taints = true) : p.taints = true := by
  unfold delegatePolicy at h
  split at h
  · cases h
  · obtain ⟨b, hb, hp⟩ := bind_eq_ok.1 h
    cases hp
    refine (flag_of_foldlM ?_ hb).2 (name, child) (Dict.get?_eq_some_iff.1 hchild) ?_
    · rintro flag ⟨name, child⟩ b hb hflag
      dsimp only at hb
      split at hb
      · obtain ⟨t, -, ht⟩ := bind_eq_ok.1 hb
        cases ht
        rw [hflag, Bool.true_or]
      · cases hb
    · rintro flag b hb
      dsimp only at hb
      split at hb
      · obtain ⟨b', hb', hb⟩ := bind_eq_ok.1 hb
        cases hb
        rw [childTaints_ok hb' ht htaints, Bool.or_true]
      · cases hb

/-- Arguments that `make_delegate_tool` accepts. -/
structure Delegation where
  children : Dict Str Agent
  maxDepth : ℕ := 1
  budget : Budget := {}
  allowOutbound : Bool := false
  name : Str := "delegate".toList
  one_le_maxDepth : 1 ≤ maxDepth := by decide
  maxDepth_le : maxDepth ≤ MAX_DEPTH_CEILING := by decide
  named : isName name = true
  checked : (delegatePolicy children allowOutbound).isOk = true

def RunStatus.text : RunStatus → Str
  | running => "running".toList
  | awaitingApproval => "awaiting_approval".toList
  | done => "done".toList
  | rejected => "rejected".toList
  | failed => "failed".toList
  | stopped => "stopped".toList

/-! ## The handler -/

/-- `_stop_unapproved`: closes the saved run of a child that paused for approval. -/
def Agent.stopUnapproved (child : Agent) (env : Env) (parent : Option RunContext)
    (res : RunResult) : Prog Acts (Except Str RunResult) := do
  let loaded ← exec (.load child.store res.runId)
  match loaded with
  | .refused | .missing => pure (.ok res)
  | .raised exception => pure (.error exception)
  | .found ⟨state, _⟩ => do
    let e ← child.finish env ⟨state, parent⟩ .stopped "approval_not_available".toList false []
    pure e.outcome

/-- A child's result, closed if it paused. -/
def Agent.settle (child : Agent) (env : Env) (parent : Option RunContext) (res : RunResult) :
    Prog Acts (Except Str RunResult) :=
  if res.status = .awaitingApproval then child.stopUnapproved env parent res else pure (.ok res)

/-- What the parent is told of a child's result. -/
def delegateOutcome (name : Str) : Except Str RunResult → ToolOutcome
  | .error exception => .raised exception
  | .ok res =>
    if res.status = .done then
      .success (.obj [("child_run".toList, .str res.runId),
        ("answer".toList, .str (res.answer.take ANSWER_CAP))])
    else
      let reason := if res.status = .awaitingApproval then "approval_not_available".toList
        else res.stopReason
      .failure ("agent ".toList ++ name ++ ' ' :: res.status.text ++ " (".toList ++ reason
        ++ "); run ".toList ++ res.runId)

namespace Delegation

variable (d : Delegation) (env : Env)

/-- Why a delegation is refused before the child starts. -/
def refusal (ctx : RunContext) : Option String :=
  if d.maxDepth < ctx.depth + 1 then some "delegation depth limit reached"
  else if d.budget.maxDelegations ≤ ctx.delegation.delegations then
    some "delegation budget used up"
  else if d.budget.maxChildSteps ≤ ctx.delegation.childSteps then
    some "delegation step budget used up"
  else none

/-- Runs a child and charges the counters for it. -/
def runChild (name : Str) (child : Agent) (task : Str) (ctx : RunContext) :
    Prog Acts (ToolOutcome × Counters) := do
  let started : RunContext :=
    { ctx with delegation := ⟨ctx.delegation.delegations + 1, ctx.delegation.childSteps⟩ }
  let (ran, parent) ← child.run env (some started) task ctx.tainted
  let counters := (parent.getD started).delegation
  match ran with
  | .error exception => pure (.raised exception, counters)
  | .ok res => do
    let settled ← child.settle env parent res
    pure (delegateOutcome name settled,
      ⟨counters.delegations, counters.childSteps + res.steps.length⟩)

def handler (ctx : RunContext) (args : List (Str × Json)) : Prog Acts (ToolOutcome × Counters) :=
  let fails (error : String) : Prog Acts (ToolOutcome × Counters) :=
    pure (.failure error.toList, ctx.delegation)
  match args.lookup "agent".toList, args.lookup "task".toList with
  | some agent, some task =>
    if args.any fun e => e.1 ≠ "agent".toList ∧ e.1 ≠ "task".toList then
      pure (.raised "TypeError".toList, ctx.delegation)
    else
      match agent with
      | .str name =>
        match d.children.get? name, task with
        | none, _ => fails "unknown agent"
        | some child, .str task =>
          match d.refusal ctx with
          | some error => fails error
          | none => runChild env name child task ctx
        | some _, _ => fails "task must be a string"
      | _ => fails "unknown agent"
  -- a missing argument is a `TypeError` of the handler
  | _, _ => pure (.raised "TypeError".toList, ctx.delegation)

/-- A program is what the handler comes to, once it returns without starting a child and where it
runs one. -/
theorem handler_cases {ctx : RunContext} {args : List (Str × Json)}
    {C : Prog Acts (ToolOutcome × Counters) → Prop}
    (hret : ∀ out, C (.ret (out, ctx.delegation)))
    (hrun : ∀ name child task, d.children.get? name = some child → d.refusal ctx = none →
      C (runChild env name child task ctx)) : C (d.handler env ctx args) := by
  unfold handler
  dsimp only
  split
  · split
    · exact hret _
    · split
      · split
        · exact hret _
        · split
          · exact hret _
          · exact hrun _ _ _ (by assumption) (by assumption)
        · exact hret _
      · exact hret _
  · exact hret _

end Delegation

/-! ## Runs are confined -/

/-- A run of an agent writes itself and the runs it starts, and leaves the calls it enters. -/
def confinedRule (a : Agent) (env : Env) (φ₀ : Reach) : DriveRule a env confined where
  Live φ r := φ₀.Around φ ∧ r.state.runId ∈ φ.drawn
  Open φ r := φ₀.Around φ ∧ r.state.runId ∈ φ.drawn
  Left φ r := φ₀.Around φ ∧ r.state.runId ∈ φ.drawn
  Done φ r := φ₀.Around φ ∧ r.state.runId ∈ φ.drawn
  open_of_live h := h
  open_of_left h := h
  asks ho := by
    cases ho <;>
    · refine ⟨trivial, fun _ _ hφ' => ?_⟩
      cases hφ'
      exact ⟨fun _ h => h, fun _ h => h⟩
  closing h _ _ _ _ := ⟨h.2, fun _ _ hφ' => by cases hφ'; exact ⟨fun _ => h, fun _ => h⟩⟩
  pausing h _ _ := by
    refine ⟨trivial, fun callId φ' hφ' => ?_⟩
    cases hφ'
    exact ⟨h.2, fun _ _ hφ' => by cases hφ'; exact ⟨fun _ => h, fun _ => h⟩⟩
  calling {φ r tool args} h _ _ := by
    refine ⟨h.2, fun _ φ' hφ' => ?_⟩
    cases hφ'
    refine (tool.confines _ _ _).bind ?_
    rintro φ' ⟨out, counters⟩ ⟨hnested, hdrawn⟩
    refine ⟨?_, fun _ φ'' hφ'' => ?_⟩
    · change 0 < φ'.nested
      rw [hnested]
      exact Nat.succ_pos _
    · cases hφ''
      have hlive : φ₀.Around { φ' with nested := φ'.nested - 1 } ∧
          (a.afterCall env r tool args (sigOf env tool.name args) false out counters).state.runId ∈
            φ'.drawn := by
        refine ⟨⟨?_, List.Subset.trans h.1.2 hdrawn⟩, by simpa using hdrawn h.2⟩
        change φ'.nested - 1 = φ₀.nested
        rw [hnested]
        exact h.1.1
      refine ⟨hlive.2, fun (ans : Except Str Unit) φ₃ hφ₃ => ?_⟩
      cases hφ₃
      exact ⟨⟨fun _ => hlive, fun _ => hlive⟩, afterCall_steps_length _ _ _ _ _ _ _ _ _⟩

theorem run_confined (a : Agent) (env : Env) (parent : Option RunContext) (task : Str)
    (tainted : Bool) (φ : Reach) :
    (a.run env parent task tainted).Follows confined
      (fun φ' x => φ.Around φ' ∧ ∀ res, x.1 = .ok res → res.runId ∈ φ'.drawn) φ := by
  refine ((confinedRule a env φ).run_follows (confinedRule a env φ).lastSave trivial ?_).mono ?_
  · rintro runId _ hφ'
    cases hφ'
    exact ⟨⟨rfl, List.subset_cons_self _ _⟩, by simp [Agent.start]⟩
  · rintro φ' _ ⟨e, he, rfl⟩
    have hend : φ.Around φ' ∧ e.running.state.runId ∈ φ'.drawn := by
      cases hx : e.exception with
      | none => exact he.1 hx
      | some x => exact he.2 (by simp [hx])
    refine ⟨hend.1, fun res hres => ?_⟩
    unfold Ended.outcome at hres
    split at hres
    · cases hres
      exact hend.2
    · cases hres

theorem settle_confined (child : Agent) (env : Env) (parent : Option RunContext) {res : RunResult}
    {φ : Reach} (h : res.runId ∈ φ.drawn) :
    (child.settle env parent res).Follows confined (fun φ' _ => φ.Around φ') φ := by
  have hrefl : φ.Around φ := ⟨rfl, List.Subset.refl _⟩
  unfold Agent.settle
  split
  · refine ⟨trivial, fun loaded φ' hφ' => ?_⟩
    cases hφ'
    rcases (loaded : Loaded res.runId) with _ | _ | _ | ⟨state, hstate⟩
    · exact hrefl
    · exact hrefl
    · exact hrefl
    · refine (((confinedRule child env φ).finish_follows ?_ (by simp) _ _ _).mono
        fun φ' e he => ?_).bind fun φ' e he => he
      · exact ⟨hrefl, hstate ▸ h⟩
      · cases hx : e.exception with
        | none => exact (he.1 hx).1
        | some x => exact (he.2 (by simp [hx])).1
  · exact hrefl

namespace Delegation

theorem runChild_confined (env : Env) (name : Str) (child : Agent) (task : Str) (ctx : RunContext)
    (φ : Reach) :
    (runChild env name child task ctx).Follows confined (fun φ' _ => φ.Around φ') φ := by
  refine (run_confined child env _ task ctx.tainted φ).bind ?_
  rintro φ' ⟨ran, parent⟩ ⟨haround, hid⟩
  cases ran with
  | error exception => exact haround
  | ok res =>
    refine (settle_confined child env parent (hid res rfl)).bind ?_
    rintro φ'' settled ⟨hnested, hdrawn⟩
    exact ⟨hnested.trans haround.1, List.Subset.trans haround.2 hdrawn⟩

/-- `make_delegate_tool`. -/
def tool (d : Delegation) (env : Env) : Tool where
  name := d.name
  description := "Hand one task to a sub-agent and get its short answer. Agents: ".toList
    ++ ", ".toList.intercalate ((d.children.items.map Prod.fst).mergeSort fun s t => s ≤ t)
    ++ ".".toList
  parameters :=
    { properties := (Dict.empty.set "agent".toList ⟨some (.str "string".toList),
        some (((d.children.items.map Prod.fst).mergeSort fun s t => s ≤ t).map Json.str)⟩).set
          "task".toList ⟨some (.str "string".toList), none⟩
      required := ["agent".toList, "task".toList] }
  handler := d.handler env
  confines ctx args φ := by
    refine d.handler_cases env (C := fun p => p.Follows confined (fun φ' _ => φ.Around φ') φ) ?_ ?_
    · exact fun out => ⟨rfl, List.Subset.refl _⟩
    · exact fun name child task _ _ => runChild_confined env name child task ctx φ

end Delegation

end RagLeap.Agents
