import RagLeap.Core.Approval
import RagLeap.Core.Chat

/-!
# The role of a ledger row

A row carries the role that was set last. The cap checked for a model call is that of the last check
in the innermost call of `ask` that is under way. The two agree for every call of a request but two
kinds (`ask_follows`): the merge of a team run is made for the team, whose check was for no role,
while the role is still that of the last sub-task; and the agent loop checks no role's cap where the
routed role is itself named `auto` or `team`.
-/

namespace RagLeap.Chat

open Budget (Config)
open Core (Env Stmt Statements)

/-! ## Roles and checks along a run -/

/-- A role as `set_role` and the checks take it: the empty name is none. -/
def working (role : Option Str) : Option Str := if role = some [] then none else role

/-- The role that is set, and for each call of `ask` under way, the innermost first, the role its
last check was for. -/
structure Phase where
  ambient : Option Str
  checks : List (Option (Option Str))

/-- The role of the check that governs a call. -/
def Phase.governing (φ : Phase) : Option (Option Str) := φ.checks.head?.join

def Phase.check (φ : Phase) (role : Option Str) : Phase :=
  { φ with checks := match φ.checks with
      | [] => []
      | _ :: checks => some (working role) :: checks }

def Phase.step (φ : Phase) : Op → Phase
  | .enter => { φ with checks := none :: φ.checks }
  | .leave => { φ with checks := φ.checks.tail }
  | .setRole role => { φ with ambient := working role }
  | .checkBudget role => φ.check role
  | _ => φ

/-- A ledger row: the role it carries, the role whose cap was checked for the call, and the call's
prompt. -/
structure Entry where
  role : Option Str
  checked : Option (Option Str)
  prompt : Prompt

/-- The rows an event leaves. -/
def Phase.rows (φ : Phase) : (o : Op) → o.Res → List Entry
  | .callProvider _ prompt _, some _ => [⟨φ.ambient, φ.governing, prompt⟩]
  | .streamProvider _ prompt _, streamed =>
    if streamed.gavePiece ∨ streamed.finished then [⟨φ.ambient, φ.governing, prompt⟩] else []
  | _, _ => []

/-- The rows of a run. -/
def ledger : Phase → List (Prog.Event Requests) → List Entry
  | _, [] => []
  | φ, e :: es => φ.rows e.1 e.2 ++ ledger (φ.step e.1) es

/-! ## The checks of the calls -/

/-- The check that governs a call, by its kind. -/
def Prompt.checkedFor (ambient : Option Str) : Prompt → Option Str
  | merge _ _ => none
  | loop _ => working (preRole ambient)
  | _ => ambient

/-- Every model call has the check of its kind. -/
def attribution : Protocol Requests where
  Phase := Phase
  permits φ
    | .callProvider _ prompt _ | .streamProvider _ prompt _ =>
      φ.governing = some (prompt.checkedFor φ.ambient)
    | _ => True
  next φ o _ := some (φ.step o)

/-- A row of a run has the check of its kind. -/
theorem checked_of_mem_ledger {α : Type} {p q : Prog Requests α}
    {Q : Phase → α → Prop} {φ : Phase} {es : List (Prog.Event Requests)} (ht : Prog.Trace p es q)
    (hp : p.Follows attribution Q φ) :
    ∀ e ∈ ledger φ es, e.checked = some (e.prompt.checkedFor e.role) := by
  induction ht generalizing φ with
  | refl p =>
    intro e he
    cases he
  | @step o k r es q h ih =>
    intro e he
    rcases List.mem_append.1 he with he | he
    · have hpermits := hp.1
      cases o with
      | callProvider config prompt maxTokens =>
        cases r with
        | none => cases he
        | some reply =>
          rw [List.mem_singleton.1 he]
          exact hpermits
      | streamProvider config prompt maxTokens =>
        simp only [Phase.rows] at he
        split at he
        · rw [List.mem_singleton.1 he]
          exact hpermits
        · cases he
      | _ => cases he
    · exact ih (hp.2 r _ rfl) e he

/-! ## Programs that check nothing and set no role -/

/-- The prompts that are neither a merge nor of the agent loop. -/
def Prompt.Ordinary : Prompt → Prop
  | merge _ _ | loop _ => False
  | _ => True

/-- The statements that leave roles and checks as they are, with ordinary prompts. -/
inductive Quiet : Op → Prop
  | call (config : Config) {prompt : Prompt} (h : prompt.Ordinary) (maxTokens : ℕ) :
      Quiet (.callProvider config prompt maxTokens)
  | stream (config : Config) {prompt : Prompt} (h : prompt.Ordinary) (maxTokens : ℕ) :
      Quiet (.streamProvider config prompt maxTokens)
  | generationService : Quiet .generationService
  | fallbackChain : Quiet .fallbackChain
  | listRoles : Quiet .listRoles
  | prepare (query : Str) : Quiet (.prepare query)
  | systemPrompt (role : Option Str) (query : Str) : Quiet (.systemPrompt role query)
  | augment (role : Option Str) (query : Str) : Quiet (.augment role query)
  | other (o : Stmt) : Quiet (.other o)

/-- Where the governing check is for the role that is set, quiet statements are permitted. -/
theorem Quiet.permits {φ : Phase} (h : φ.governing = some φ.ambient) {o : Op} (ho : Quiet o) :
    attribution.permits φ o ∧ ∀ r φ', attribution.next φ o r = some φ' → φ' = φ := by
  cases ho with
  | call config hprompt n =>
    refine ⟨?_, fun r φ' hnext => (Option.some.inj hnext).symm⟩
    rename_i prompt
    cases prompt <;> first | exact h | exact hprompt.elim
  | stream config hprompt n =>
    refine ⟨?_, fun r φ' hnext => (Option.some.inj hnext).symm⟩
    rename_i prompt
    cases prompt <;> first | exact h | exact hprompt.elim
  | _ => exact ⟨trivial, fun r φ' hnext => (Option.some.inj hnext).symm⟩

section

variable {ψ : Op → Prop} {env : ChatEnv} {config primary : Config} {prompt : Prompt}

theorem raising_only {α : Type} {p : Request (Option α)} (h : p.run.Only ψ) :
    (raising p).run.Only ψ := by
  refine Proc.only_bind h fun a => ?_
  cases a <;> trivial

theorem exec_only {o : Op} (h : ψ o) : (exec o).run.Only ψ :=
  (Prog.Only.op_iff _ _).2 ⟨h, fun _ => trivial⟩

theorem callProvider_only (h : ∀ n, ψ (.callProvider config prompt n)) (n : ℕ) :
    (callProvider config prompt n).run.Only ψ :=
  raising_only (exec_only (h n))

theorem callTwice_only (h : ∀ n, ψ (.callProvider config prompt n)) (n : ℕ) :
    (callTwice config prompt n).run.Only ψ := by
  refine Proc.only_bind (callProvider_only h n) fun reply => Proc.only_ite ?_ trivial
  exact Proc.only_bind (callProvider_only h _) fun _ => trivial

theorem attempts_only (h : ∀ n, ψ (.callProvider config prompt n)) (n tries : ℕ) :
    (attempts config prompt n tries).run.Only ψ := by
  induction tries with
  | zero => trivial
  | succ tries ih =>
    refine Proc.only_bind (Proc.only_attempt (callTwice_only h n)) fun text => ?_
    cases text with
    | some text => trivial
    | none => exact Proc.only_bind ih fun _ => trivial

theorem tryChain_only (h : ∀ config n, ψ (.callProvider config prompt n)) (n : ℕ)
    (chain : List Config) (raised : Bool) : (tryChain prompt n chain raised).run.Only ψ := by
  induction chain generalizing raised with
  | nil => exact Proc.only_ite trivial trivial
  | cons config chain ih =>
    refine Proc.only_bind (attempts_only (h config) n 2) fun r => ?_
    obtain ⟨text, failed⟩ := r
    cases text with
    | some text => trivial
    | none => exact ih _

theorem callWithFallback_only (hchain : ψ .fallbackChain)
    (h : ∀ config n, ψ (.callProvider config prompt n)) (n : ℕ) :
    (callWithFallback primary prompt n).run.Only ψ :=
  Proc.only_bind (exec_only hchain) fun _ => tryChain_only h n _ _

end

section

variable {env : ChatEnv} {primary : Config}

theorem callTwice_quiet {prompt : Prompt} (h : prompt.Ordinary) (n : ℕ) :
    (callTwice primary prompt n).run.Only Quiet :=
  callTwice_only (fun n => .call _ h n) n

theorem routeTask_quiet (trusted : Bool) (task : Str) :
    (routeTask env primary trusted task).run.Only Quiet := by
  have hallowed : (allowedRoles trusted).run.Only Quiet :=
    Proc.only_bind (exec_only .listRoles) fun _ => trivial
  refine Proc.only_bind hallowed fun allowed => Proc.only_ite trivial ?_
  have hprompt : (Prompt.route task allowed).Ordinary := trivial
  refine Proc.only_bind (Proc.only_attempt (callTwice_quiet hprompt _)) fun reply => ?_
  cases reply with
  | none => trivial
  | some reply =>
    dsimp only
    split <;> trivial

theorem answerChain_quiet {prompt : Prompt} (hprompt : prompt.Ordinary) (n : ℕ)
    (chain : List Config) : (answerChain env prompt n chain).run.Only Quiet := by
  induction chain with
  | nil => trivial
  | cons config chain ih =>
    have hcall : ∀ n, (callProvider config prompt n).run.Only Quiet :=
      callProvider_only fun n => .call _ hprompt n
    have hfrom : (answerFrom env config prompt n).run.Only Quiet := by
      refine Proc.only_bind (hcall n) fun reply => ?_
      cases retryTokens env reply n with
      | none => trivial
      | some more =>
        refine Proc.only_bind (Proc.only_attempt (hcall more)) fun retry => ?_
        cases retry <;> trivial
    refine Proc.only_bind (Proc.only_attempt hfrom) fun text => ?_
    cases text with
    | none => exact ih
    | some text => trivial

theorem candidates_quiet {prompt : ℕ → Prompt} (hprompt : ∀ i, (prompt i).Ordinary) (n : ℕ)
    (hints : List ℕ) : (candidates primary prompt n hints).run.Only Quiet := by
  induction hints with
  | nil => trivial
  | cons hint hints ih =>
    have hcall : (callProvider primary (prompt hint) n).run.Only Quiet :=
      callProvider_only (fun n => .call _ (hprompt hint) n) n
    exact Proc.only_bind (Proc.only_attempt hcall) fun _ => Proc.only_bind ih fun _ => trivial

theorem treeOfThought_quiet (query : Str) (chunks : List Chunk) (system : Option Str) (n : ℕ) :
    (treeOfThought env primary query chunks system n).run.Only Quiet := by
  have happroach : ∀ i, (Prompt.approach query chunks system i).Ordinary := fun _ => trivial
  refine Proc.only_bind (candidates_quiet happroach _ _) fun found => Proc.only_ite trivial ?_
  have hpick : (Prompt.pick query chunks found).Ordinary := trivial
  exact Proc.only_bind (Proc.only_attempt (callTwice_quiet hpick _)) fun _ => trivial

theorem generateAnswer_quiet (query : Str) (chunks : List Chunk) (system : Option Str)
    (maxTokens : Option ℕ) (reasoning tot : Bool) :
    (generateAnswer env primary query chunks system maxTokens reasoning tot).run.Only Quiet := by
  have htot : ∀ n, (totAnswer env primary query chunks system n tot).run.Only Quiet :=
    fun n => Proc.only_ite (treeOfThought_quiet _ _ _ _) trivial
  refine Proc.only_bind (htot _) fun chosen => ?_
  cases chosen with
  | some answer => trivial
  | none =>
    refine Proc.only_bind (raising_only (exec_only .fallbackChain)) fun chain => ?_
    have hprompt : (Prompt.answer query chunks system reasoning).Ordinary := trivial
    refine Proc.only_bind (answerChain_quiet hprompt _ _) fun answered => ?_
    cases answered <;> trivial

theorem checkGrounding_quiet (answer : Str) (chunks : List Chunk) (query : Str) :
    (checkGrounding env primary answer chunks query).run.Only Quiet := by
  have hprompt : (Prompt.ground answer chunks query).Ordinary := trivial
  refine Proc.only_bind (Proc.only_attempt (callTwice_quiet hprompt _)) fun text => ?_
  cases text <;> trivial

/-- A procedure of the core that checks no budget and calls no model is quiet. -/
theorem lift_quiet {α : Type} {p : Prog Statements α} {φ : Stmt → Prop} (hp : p.Only φ)
    (hbudget : ∀ role, ¬ φ (.checkBudget role)) (hmodel : ∀ prompt n, ¬ φ (.callModel prompt n)) :
    (lift primary p).Only Quiet := by
  refine Prog.Only.interp ?_ hp
  intro o ho
  cases o with
  | checkBudget role => exact absurd ho (hbudget role)
  | callModel prompt n => exact absurd ho (hmodel prompt n)
  | _ => exact (Prog.Only.op_iff _ _).2 ⟨.other _, fun _ => trivial⟩

theorem planAction_quiet (query answer : Str) :
    (planAction env primary query answer).run.Only Quiet := by
  refine Proc.only_bind (exec_only (.other _)) fun tools => Proc.only_ite trivial ?_
  refine Proc.only_bind (Proc.only_attempt ?_) fun planned => trivial
  have hprompt : (Prompt.act query answer tools).Ordinary := trivial
  refine Proc.only_bind
    (callWithFallback_only .fallbackChain (fun _ n => .call _ hprompt n) _) fun text => ?_
  have hvalid : ∀ plan, (lift primary (Core.validatePlan env.toEnv plan tools).run).Only Quiet :=
    fun plan => lift_quiet (Core.validatePlan_asks _ _ _) (fun _ h => nomatch h)
      fun _ _ h => nomatch h
  split
  · trivial
  · trivial
  · exact hvalid _

theorem maybeAct_quiet (query answer : Str) (role : Option Str) :
    (maybeAct env primary query answer role).run.Only Quiet := by
  refine Proc.only_bind (planAction_quiet _ _) fun plan => ?_
  cases plan with
  | none => trivial
  | some plan => exact Proc.only_bind (raising_only (exec_only (.other _))) fun _ => trivial

theorem isSensitive_quiet (role : Option Str) :
    (isSensitive env primary role).run.Only Quiet := by
  cases role with
  | none => trivial
  | some role =>
    exact lift_quiet (Core.isSensitiveRole_inquires _) (fun _ h => nomatch h)
      fun _ _ h => nomatch h

theorem streamChain_quiet {prompt : Prompt} (hprompt : prompt.Ordinary) (n : ℕ)
    (chain : List Config) : (streamChain prompt n chain).run.Only Quiet := by
  induction chain with
  | nil => trivial
  | cons config chain ih =>
    exact Proc.only_bind (exec_only (.stream config hprompt n)) fun _ => Proc.only_ite trivial ih

end

/-! ## The agent loop checks before every call -/

/-- The agent loop's statements, with the check that governs a call of the model. -/
def loopProtocol : Protocol Statements where
  Phase := Phase
  permits φ
    | .checkBudget role => working role = working (preRole φ.ambient)
    | .callModel _ _ => φ.governing = some (working (preRole φ.ambient))
    | _ => True
  next φ
    | .checkBudget role, _ => some (φ.check role)
    | _, _ => some φ

/-- The loop runs for the role, inside the calls of `ask` with the checks `checks`. -/
structure Loops (role : Option Str) (checks : List (Option (Option Str))) (φ : Phase) : Prop where
  ambient : φ.ambient = working role
  checks : ∃ c, φ.checks = c :: checks

/-- From every phase of the loop on, the program keeps to the protocol and stays in the loop. -/
def Guarded (role : Option Str) (checks : List (Option (Option Str))) {α : Type}
    (p : Prog Statements α) : Prop :=
  ∀ φ, Loops role checks φ → p.Follows loopProtocol (fun φ' _ => Loops role checks φ') φ

section

variable {role : Option Str} {checks : List (Option (Option Str))} {α β : Type} {env : Env}

theorem working_preRole_working (role : Option Str) :
    working (preRole (working role)) = working (preRole role) := by
  by_cases h : role = some []
  · subst h
    rfl
  · have hworking : working role = role := if_neg h
    rw [hworking]

namespace Guarded

theorem ret (a : α) : Guarded role checks (.ret a : Prog Statements α) := fun _ h => h

theorem bind {p : Prog Statements α} {f : α → Prog Statements β} (hp : Guarded role checks p)
    (hf : ∀ a, Guarded role checks (f a)) : Guarded role checks (p >>= f) :=
  fun φ h => (hp φ h).bind fun φ' a h' => hf a φ' h'

/-- A statement that neither checks nor calls. -/
theorem op {o : Stmt} {k : o.Res → Prog Statements α}
    (ho : ∀ φ, loopProtocol.permits φ o ∧ ∀ r, loopProtocol.next φ o r = some φ)
    (hk : ∀ r, Guarded role checks (k r)) : Guarded role checks (.op o k : Prog Statements α) := by
  intro φ h
  refine ⟨(ho φ).1, ?_⟩
  intro r φ' hnext
  rw [(ho φ).2 r] at hnext
  cases hnext
  exact hk r φ h

theorem asks {p : Prog Statements α} (hp : p.Only Core.Asks) : Guarded role checks p := by
  intro φ h
  refine Prog.Follows.mono (hp.follows fun o ho => ?_) ?_
  · cases ho <;> exact ⟨trivial, fun r φ' hnext => (Option.some.inj hnext).symm⟩
  · rintro φ' a rfl
    exact h

end Guarded

/-- The check comes right before the call. -/
theorem llm_guarded (prompt : Str) (n : ℕ) : Guarded role checks (Core.llm prompt role n) := by
  intro φ h
  obtain ⟨c, hchecks⟩ := h.checks
  have hrole : working (preRole role) = working (preRole φ.ambient) := by
    rw [h.ambient, working_preRole_working]
  have hcheck : Loops role checks (φ.check (preRole role)) := by
    refine ⟨h.ambient, some (working (preRole role)), ?_⟩
    rw [Phase.check, hchecks]
  refine ⟨hrole, ?_⟩
  intro blocked φ' hnext
  obtain rfl : φ.check (preRole role) = φ' := Option.some.inj hnext
  rcases blocked with _ | _ | _
  · exact hcheck
  · refine ⟨?_, ?_⟩
    · show (φ.check (preRole role)).governing = some (working (preRole φ.ambient))
      rw [Phase.governing, Phase.check, hchecks, ← hrole]
      rfl
    · intro reply φ' hnext
      obtain rfl := Option.some.inj hnext
      cases reply <;> exact hcheck
  · exact hcheck

theorem save_guarded (run : Core.Run) : Guarded role checks (Core.save run) := by
  unfold Core.save
  cases run.id with
  | none => exact .op (fun _ => ⟨trivial, fun _ => rfl⟩) fun r => by cases r <;> exact .ret _
  | some id => exact .op (fun _ => ⟨trivial, fun _ => rfl⟩) fun r => by cases r <;> exact .ret _

theorem saveThen_guarded (run : Core.Run) (raised saved : Core.Run → α) :
    Guarded role checks (Core.saveThen run raised saved) := by
  refine (save_guarded run).bind fun r => ?_
  cases r <;> exact .ret _

theorem finish_guarded (service : Bool) (run : Core.Run) (status : Core.RunStatus) (note : Str) :
    Guarded role checks (Core.finish service run role status note) := by
  unfold Core.finish
  split
  · exact .ret _
  · refine .bind ?_ fun summary => saveThen_guarded _ _ _
    unfold Core.summarize
    split
    · refine (llm_guarded _ _).bind fun reply => ?_
      cases reply <;> exact .ret _
    · exact .ret _

theorem ending_guarded {p : Prog Statements Core.Driven} (hp : Guarded role checks p) :
    Guarded role checks (Core.ending p) :=
  hp.bind fun _ => .ret _

theorem endStep_guarded (run : Core.Run) (ends : Core.RunStatus) (note : Str) :
    Guarded role checks (Core.endStep role run ends note) := by
  refine (save_guarded run).bind fun r => ?_
  cases r with
  | none => exact .ret _
  | some run => exact ending_guarded (finish_guarded _ _ _ _)

theorem takeStep_guarded (service : Bool) (valid : Core.Plan) (run : Core.Run) :
    Guarded role checks (Core.takeStep env service role valid run) := by
  unfold Core.takeStep
  split
  · exact ending_guarded (finish_guarded _ _ _ _)
  · refine .op (fun _ => ⟨trivial, fun _ => rfl⟩) fun reply => ?_
    cases reply with
    | none => exact .ret _
    | some reply =>
      cases reply with
      | executed result =>
        unfold Core.record
        exact saveThen_guarded _ _ _
      | pendingApproval id sent =>
        unfold Core.record
        exact saveThen_guarded _ _ _
      | skipped obs => exact endStep_guarded _ _ _
      | error obs => exact endStep_guarded _ _ _

theorem turn_guarded (service : Bool) (tools : List (Str × Str)) (remaining : ℕ) (run : Core.Run) :
    Guarded role checks (Core.turn env service role tools remaining run) := by
  refine (llm_guarded _ _).bind fun reply => ?_
  cases reply with
  | blocked => exact ending_guarded (finish_guarded _ _ _ _)
  | raised => exact ending_guarded (finish_guarded _ _ _ _)
  | text text =>
    dsimp only
    split
    · exact ending_guarded (finish_guarded _ _ _ _)
    · refine (Guarded.asks (Core.validatePlan_asks _ _ _)).bind fun valid => ?_
      rcases valid with _ | _ | valid
      · exact .ret _
      · exact ending_guarded (finish_guarded _ _ _ _)
      · exact takeStep_guarded _ _ _

/-- By induction on the turns that are left. -/
theorem loop_guarded (service : Bool) (tools : List (Str × Str)) (left : ℕ) (run : Core.Run) :
    Guarded role checks (Core.loop env service role tools left run) := by
  induction left generalizing run with
  | zero => exact finish_guarded _ _ _ _
  | succ left ih =>
    refine (turn_guarded service tools _ run).bind fun turn => ?_
    cases turn with
    | stop driven => exact .ret _
    | again run => exact ih run

theorem run_guarded (query answer : Str) (service : Bool) :
    Guarded role checks (Core.run env query answer service role) := by
  unfold Core.run
  split
  · exact .ret _
  · refine .op (fun _ => ⟨trivial, fun _ => rfl⟩) fun tools => ?_
    split
    · exact .ret _
    · refine .bind (.op (fun _ => ⟨trivial, fun _ => rfl⟩) fun tools => ?_) fun driven => ?_
      · split
        · exact finish_guarded _ _ _ _
        · exact loop_guarded _ _ _ _
      · cases driven <;> exact .ret _

end

/-! ## Requests -/

section

variable {checks : List (Option (Option Str))} {env : ChatEnv} {args : Args} {primary : Config}

/-- A statement of the loop moves the phase as the program that carries it out. -/
theorem carry_follows {φ : Phase} {o : Stmt} (h : loopProtocol.permits φ o) :
    (carry primary o).Follows attribution (fun φ' r => ∃ φ'', loopProtocol.next φ o r = some φ'' ∧
      φ' = φ'') φ := by
  cases o with
  | checkBudget role =>
    refine ⟨trivial, fun blocked φ' hnext => ?_⟩
    exact ⟨φ', hnext, rfl⟩
  | callModel prompt n =>
    have hcalls : (callWithFallback primary (.loop prompt) n).run.Only fun o =>
        attribution.permits φ o ∧ ∀ r φ', attribution.next φ o r = some φ' → φ' = φ :=
      callWithFallback_only ⟨trivial, fun r φ' hnext => (Option.some.inj hnext).symm⟩
        (fun _ _ => ⟨h, fun r φ' hnext => (Option.some.inj hnext).symm⟩) n
    refine (hcalls.follows fun o ho => ho).mono ?_
    rintro φ' r rfl
    exact ⟨φ', rfl, rfl⟩
  | _ => exact ⟨trivial, fun r φ' hnext => ⟨φ', hnext, rfl⟩⟩

theorem runLoop_follows (query text : Str) (role : Option Str) {φ : Phase}
    (h : Loops role checks φ) :
    (runLoop env primary query text role).run.Follows attribution
      (fun φ' _ => Loops role checks φ') φ := by
  have hloop : (lift primary (Core.run env.toEnv query text true role)).Follows attribution
      (fun φ' _ => Loops role checks φ') φ := by
    have hrun := @run_guarded role checks env.toEnv query text true φ h
    refine (@Prog.Follows.interp _ _ _ loopProtocol attribution id (carry primary)
      (fun φ o ho => carry_follows ho) _ φ _ hrun).mono ?_
    rintro _ _ ⟨φ', h', rfl⟩
    exact h'
  have hlift : (OptionT.lift (lift primary (Core.run env.toEnv query text true role)) :
      Request _).run.Follows attribution (fun φ' _ => Loops role checks φ') φ :=
    hloop.bind fun φ' a h' => h'
  exact Proc.follows_bind hlift (fun φ' a h' => h') fun φ' h' => h'

/-- The role that is set is the one last checked, and `checks` are the checks outside. -/
structure Checked (role : Option Str) (checks : List (Option (Option Str))) (φ : Phase) :
    Prop where
  ambient : φ.ambient = working role
  checks : φ.checks = some (working role) :: checks

namespace Checked

variable {α β : Type} {role : Option Str} {φ : Phase}

theorem loops (h : Checked role checks φ) : Loops role checks φ := ⟨h.ambient, _, h.checks⟩

theorem governing (h : Checked role checks φ) : φ.governing = some φ.ambient := by
  rw [Phase.governing, h.checks, h.ambient]
  rfl

/-- A quiet program stays in the phase. -/
theorem quiet {p : Request α} (hp : p.run.Only Quiet) (h : Checked role checks φ) :
    p.run.Follows attribution (fun φ' _ => Checked role checks φ') φ := by
  refine (hp.follows fun o ho => ho.permits h.governing).mono ?_
  rintro φ' a rfl
  exact h

theorem quiet_bind {p : Request α} {f : α → Request β} {Q : Phase → Prop} (hp : p.run.Only Quiet)
    (h : Checked role checks φ) (hQ : ∀ φ, Checked role checks φ → Q φ)
    (hf : ∀ φ a, Checked role checks φ → (f a).run.Follows attribution (fun φ' _ => Q φ') φ) :
    (p >>= f).run.Follows attribution (fun φ' _ => Q φ') φ :=
  Proc.follows_bind (h.quiet hp) hf fun φ h' => hQ φ h'

end Checked

/-- The body of a call of `ask` ends in that call. -/
def Within (checks : List (Option (Option Str))) (φ : Phase) : Prop := ∃ c, φ.checks = c :: checks

theorem Checked.within {role : Option Str} {φ : Phase} (h : Checked role checks φ) :
    Within checks φ := ⟨_, h.checks⟩

theorem systemFor_quiet (base role : Option Str) (query : Str) :
    (systemFor base role query).run.Only Quiet := by
  unfold systemFor
  split
  · trivial
  · trivial
  · exact raising_only (exec_only (.systemPrompt _ _))

theorem queryFor_quiet (role : Option Str) (query : Str) :
    (queryFor role query).run.Only Quiet := by
  unfold queryFor
  split
  · trivial
  · trivial
  · exact raising_only (exec_only (.augment _ _))

theorem concernFor_quiet (sensitive : Bool) (provider : Option Str) (text : Str)
    (chunks : List Chunk) (query : Str) :
    (concernFor env primary sensitive provider text chunks query).run.Only Quiet :=
  Proc.only_ite (checkGrounding_quiet _ _ _) trivial

theorem actionFor_follows (query text : Str) (role provider : Option Str)
    (trusted allowActions : Bool) {φ : Phase} (h : Checked role checks φ) :
    (actionFor env primary query text role provider trusted allowActions).run.Follows attribution
      (fun φ' _ => Within checks φ') φ := by
  unfold actionFor act
  split
  · split
    · exact h.within
    · split
      · exact (runLoop_follows query text role h.loops).mono fun φ' a h' => h'.checks
      · exact (h.quiet (maybeAct_quiet query text role)).mono fun φ' a h' => h'.within
  · exact h.within

/-- What follows the check keeps to the check. -/
theorem answer_follows (query : Str) (role : Option Str) (routed : Option Routed)
    (tot trusted allowActions : Bool) {φ : Phase} (h : Checked role checks φ) :
    (answer env args primary query role routed tot trusted allowActions).run.Follows attribution
      (fun φ' _ => Within checks φ') φ := by
  have hwithin : ∀ φ, Checked role checks φ → Within checks φ := fun φ h => h.within
  refine h.quiet_bind (raising_only (exec_only (.prepare query))) hwithin fun φ chunks h => ?_
  cases chunks with
  | none => exact h.within
  | some chunks =>
    refine h.quiet_bind (systemFor_quiet _ _ _) hwithin fun φ system h => ?_
    refine h.quiet_bind (queryFor_quiet _ _) hwithin fun φ generationQuery h => ?_
    refine h.quiet_bind (isSensitive_quiet _) hwithin fun φ sensitive h => ?_
    refine h.quiet_bind (generateAnswer_quiet _ _ _ _ _ _) hwithin fun φ answered h => ?_
    obtain ⟨text, provider⟩ := answered
    refine h.quiet_bind (concernFor_quiet _ _ _ _ _) hwithin fun φ concern h => ?_
    exact Proc.follows_bind (actionFor_follows _ _ _ _ _ _ h) (fun φ a h => h) fun φ h => h

/-- A call of `ask` leaves the checks outside as they were. -/
theorem frame_follows {α : Type} {body : Request α} {φ : Phase}
    (hbody : body.run.Follows attribution (fun φ' _ => Within φ.checks φ')
      ⟨φ.ambient, none :: φ.checks⟩) :
    (frame body).run.Follows attribution (fun φ' _ => φ'.checks = φ.checks) φ := by
  refine Proc.follows_call_bind trivial fun _ φ₁ h₁ => ?_
  obtain rfl : ⟨φ.ambient, none :: φ.checks⟩ = φ₁ := Option.some.inj h₁
  refine Proc.follows_bind (Q := fun φ' r => r ≠ none ∧ Within φ.checks φ') ?_ ?_ ?_
  · exact hbody.bind fun φ' a h => ⟨nofun, h⟩
  · rintro φ' result ⟨-, c, h⟩
    refine Proc.follows_call_bind trivial fun _ φ'' h'' => ?_
    obtain rfl := Option.some.inj h''
    have hchecks : φ'.checks.tail = φ.checks := by rw [h, List.tail_cons]
    cases result <;> exact hchecks
  · intro φ' h
    exact absurd rfl h.1

/-- A function that answers a sub-task: it leaves the checks outside as they were. -/
def Answers (askFn : Str → Request Result) : Prop :=
  ∀ query φ, (askFn query).run.Follows attribution (fun φ' _ => φ'.checks = φ.checks) φ

/-- By induction on the sub-tasks; the role that is set is that of the last one. -/
theorem answerParts_follows {askFn : Str → Request Result} (hask : Answers askFn)
    (subtasks : List Str) (φ : Phase) :
    (answerParts askFn subtasks).run.Follows attribution (fun φ' _ => φ'.checks = φ.checks) φ := by
  induction subtasks generalizing φ with
  | nil => exact rfl
  | cons subtask subtasks ih =>
    refine Proc.follows_bind (hask subtask φ) (fun φ₁ r h₁ => ?_) fun φ₁ h₁ => h₁
    cases r.providerUsed with
    | none => exact h₁
    | some provider =>
      refine Proc.follows_bind (ih φ₁) (fun φ₂ parts h₂ => ?_) fun φ₂ h₂ => h₂.trans h₁
      cases parts <;> exact h₂.trans h₁

/-- The merge is made under the check of the team, which was for no role. -/
theorem mergeAnswers_follows (query : Str) (parts : List Part) {φ : Phase}
    (h : φ.checks = some none :: checks) :
    (mergeAnswers env primary query parts).run.Follows attribution
      (fun φ' _ => φ'.checks = some none :: checks) φ := by
  have hgoverning : φ.governing = some none := by
    rw [Phase.governing, h]
    rfl
  have hcalls : (mergeAnswers env primary query parts).run.Only fun o =>
      attribution.permits φ o ∧ ∀ r φ', attribution.next φ o r = some φ' → φ' = φ := by
    refine Proc.only_bind (Proc.only_attempt (callTwice_only (fun n => ?_) _)) fun text => ?_
    · exact ⟨hgoverning, fun r φ' hnext => (Option.some.inj hnext).symm⟩
    · cases text <;> trivial
  refine (hcalls.follows fun o ho => ho).mono ?_
  rintro φ' a rfl
  exact h

theorem splitTask_quiet (query : Str) : (splitTask env primary query).run.Only Quiet := by
  have hprompt : (Prompt.split query).Ordinary := trivial
  refine Proc.only_bind (Proc.only_attempt (callTwice_quiet hprompt _)) fun text => ?_
  cases text <;> trivial

theorem runTeam_follows {askFn : Str → Request Result} (hask : Answers askFn) (query : Str)
    {φ : Phase} (h : Checked none checks φ) :
    (runTeam env primary query askFn).run.Follows attribution (fun φ' _ => Within checks φ') φ := by
  have hwhole : ∀ φ, φ.checks = some none :: checks →
      (askFn query).run.Follows attribution (fun φ' _ => Within checks φ') φ :=
    fun φ h => (hask query φ).mono fun φ' a h' => ⟨_, h'.trans h⟩
  refine h.quiet_bind (splitTask_quiet query) (fun φ h => h.within) fun φ subtasks h => ?_
  dsimp only
  split
  · exact hwhole φ h.checks
  · refine Proc.follows_bind (answerParts_follows hask subtasks φ) (fun φ₁ parts h₁ => ?_)
      fun φ₁ h₁ => ⟨_, h₁.trans h.checks⟩
    cases parts with
    | none => exact hwhole φ₁ (h₁.trans h.checks)
    | some parts =>
      exact Proc.follows_bind (mergeAnswers_follows query parts (h₁.trans h.checks))
        (fun φ₂ merged h₂ => ⟨_, h₂⟩) fun φ₂ h₂ => ⟨_, h₂⟩

/-- Setting a role and checking its cap. -/
theorem check_follows {α : Type} (role : Option Str) {q : Bool → Request α} {φ : Phase}
    (h : Within checks φ) (hq : ∀ blocked φ', Checked role checks φ' →
      (q blocked).run.Follows attribution (fun φ' _ => Within checks φ') φ') :
    (do
      let _ ← exec (.setRole role)
      let blocked ← exec (.checkBudget role)
      q blocked : Request α).run.Follows attribution (fun φ' _ => Within checks φ') φ := by
  refine Proc.follows_call_bind trivial fun _ φ₁ h₁ => ?_
  obtain rfl := Option.some.inj h₁
  refine Proc.follows_call_bind trivial fun blocked φ₂ h₂ => ?_
  obtain rfl := Option.some.inj h₂
  obtain ⟨c, hchecks⟩ := h
  refine hq blocked _ ⟨rfl, ?_⟩
  show (Phase.check ⟨working role, φ.checks⟩ role).checks = _
  rw [Phase.check, hchecks]

theorem askBody_follows {askFn : Str → Request Result} (hask : Answers askFn) (query : Str)
    (role : Option Str) (tot trusted allowActions : Bool) {φ : Phase} (h : Within checks φ) :
    (askBody env args askFn query role tot trusted allowActions).run.Follows attribution
      (fun φ' _ => Within checks φ') φ := by
  refine check_follows (preRole role) h fun blocked φ h => ?_
  cases blocked with
  | true => exact h.within
  | false =>
    refine h.quiet_bind (raising_only (exec_only .generationService)) (fun φ h => h.within)
      fun φ primary h => ?_
    by_cases hteam : role = some TEAM
    · have hnone : preRole role = none := if_pos (.inr hteam)
      rw [hnone] at h
      rw [if_pos hteam]
      exact runTeam_follows hask query h
    · rw [if_neg hteam]
      by_cases hauto : role = some AUTO
      · rw [if_pos hauto]
        refine h.quiet_bind (routeTask_quiet _ _) (fun φ h => h.within) fun φ routed h => ?_
        refine check_follows (some routed.role) h.within fun blocked φ h => ?_
        cases blocked with
        | true => exact h.within
        | false => exact answer_follows _ _ _ _ _ _ h
      · have hsame : preRole role = role := if_neg (by simp [hteam, hauto])
        rw [hsame] at h
        rw [if_neg hauto]
        exact answer_follows _ _ _ _ _ _ h

theorem askAuto_answers (trusted : Bool) : Answers (askAuto env args trusted) := by
  intro query φ
  have hfails : Answers fun _ => Proc.throw := fun _ _ => rfl
  exact frame_follows (askBody_follows hfails _ _ _ _ _ ⟨_, rfl⟩)

/-- Every model call of a request has the check of its kind. -/
theorem ask_follows (query : Str) (role : Option Str) (tot trusted allowActions : Bool)
    (φ : Phase) :
    (ask env args query role tot trusted allowActions).run.Follows attribution
      (fun φ' _ => φ'.checks = φ.checks) φ :=
  frame_follows (askBody_follows (askAuto_answers trusted) _ _ _ _ _ ⟨_, rfl⟩)

theorem streamAnswer_quiet (query : Str) (role : Option Str) :
    (streamAnswer env args query role).run.Only Quiet := by
  refine Proc.only_bind (raising_only (exec_only .generationService)) fun _ => ?_
  refine Proc.only_bind (raising_only (exec_only (.prepare query))) fun chunks => ?_
  cases chunks with
  | none => trivial
  | some chunks =>
    refine Proc.only_bind (systemFor_quiet _ _ _) fun system => ?_
    refine Proc.only_bind (queryFor_quiet _ _) fun generationQuery => ?_
    refine Proc.only_bind (raising_only (exec_only .fallbackChain)) fun chain => ?_
    have hprompt : (Prompt.answer generationQuery chunks system false).Ordinary := trivial
    exact streamChain_quiet hprompt _ _

theorem askStream_follows (query : Str) (role : Option Str) (φ : Phase) :
    (askStream env args query role).run.Follows attribution
      (fun φ' _ => φ'.checks = φ.checks) φ := by
  refine frame_follows (check_follows role ⟨_, rfl⟩ fun blocked φ h => ?_)
  cases blocked with
  | true => exact h.within
  | false => exact (h.quiet (streamAnswer_quiet query role)).mono fun φ' a h' => h'.within

end

/-! ## Rows and checks agree -/

/-- The phase in which a request finds its context, where an earlier one may have left a role. -/
def start (left : Option Str) : Phase := ⟨working left, []⟩

/-- Every row carries the role whose cap was checked for its call. -/
def Attributed (left : Option Str) (es : List (Prog.Event Requests)) : Prop :=
  ∀ e ∈ ledger (start left) es, e.checked = some e.role

/-- The calls for which the role that is set is the one that is checked. -/
def Prompt.Fits (role : Option Str) : Prompt → Prop
  | merge _ _ => role = none
  | loop _ => role ≠ some AUTO ∧ role ≠ some TEAM
  | _ => True

def Phase.fits (φ : Phase) : (o : Op) → o.Res → Prop
  | .callProvider _ prompt _, some _ => prompt.Fits φ.ambient
  | .streamProvider _ prompt _, streamed =>
    streamed.gavePiece ∨ streamed.finished → prompt.Fits φ.ambient
  | _, _ => True

/-- In the run, no merge is answered while a role is set, and no call of the agent loop while the
role that is set is named `auto` or `team`. -/
def Fitting : Phase → List (Prog.Event Requests) → Prop
  | _, [] => True
  | φ, e :: es => φ.fits e.1 e.2 ∧ Fitting (φ.step e.1) es

theorem working_ne_empty (role : Option Str) : working role ≠ some [] := by
  unfold working
  split
  · exact nofun
  · assumption

theorem ambient_step {φ : Phase} (h : φ.ambient ≠ some []) (o : Op) :
    (φ.step o).ambient ≠ some [] := by
  cases o with
  | setRole role => exact working_ne_empty role
  | _ => exact h

/-- A call has the check of the role that is set exactly if that role fits it. -/
theorem Prompt.checkedFor_eq_iff {role : Option Str} (h : role ≠ some []) (prompt : Prompt) :
    prompt.checkedFor role = role ↔ prompt.Fits role := by
  cases prompt with
  | merge query parts => exact eq_comm
  | loop prompt =>
    show working (preRole role) = role ↔ role ≠ some AUTO ∧ role ≠ some TEAM
    rw [← not_or]
    by_cases hname : role = some AUTO ∨ role = some TEAM
    · have hnone : preRole role = none := if_pos hname
      rw [hnone]
      obtain rfl | rfl := hname <;> simp [working]
    · have hsame : preRole role = role := if_neg hname
      have hworking : working role = role := if_neg h
      simp [hsame, hworking, hname]
  | _ => exact ⟨fun _ => trivial, fun _ => rfl⟩

/-- The rows of an event carry the role that is set. -/
theorem Phase.fits_iff (φ : Phase) (o : Op) (r : o.Res) :
    φ.fits o r ↔ ∀ e ∈ φ.rows o r, e.prompt.Fits e.role := by
  cases o with
  | callProvider config prompt n => cases r <;> simp [fits, rows]
  | streamProvider config prompt n =>
    simp only [fits, rows]
    split
    · rename_i h
      simp [h]
    · rename_i h
      simp [h]
  | _ => simp [fits, rows]

theorem fitting_iff {φ : Phase} (es : List (Prog.Event Requests)) :
    Fitting φ es ↔ ∀ e ∈ ledger φ es, e.prompt.Fits e.role := by
  induction es generalizing φ with
  | nil => simp [Fitting, ledger]
  | cons e es ih => simp only [Fitting, ledger, Phase.fits_iff, ih, List.forall_mem_append]

theorem role_of_mem_ledger {φ : Phase} {es : List (Prog.Event Requests)} (h : φ.ambient ≠ some []) :
    ∀ e ∈ ledger φ es, e.role ≠ some [] := by
  induction es generalizing φ with
  | nil =>
    intro e he
    cases he
  | cons e' es ih =>
    intro e he
    rcases List.mem_append.1 he with he | he
    · obtain ⟨o, r⟩ := e'
      cases o with
      | callProvider config prompt n =>
        cases r with
        | none => cases he
        | some reply =>
          rw [List.mem_singleton.1 he]
          exact h
      | streamProvider config prompt n =>
        simp only [Phase.rows] at he
        split at he
        · rw [List.mem_singleton.1 he]
          exact h
        · cases he
      | _ => cases he
    · exact ih (ambient_step h _) e he

/-- In every run of a request, complete or not, every row carries the role whose cap was checked for
its call exactly if no merge is answered while a role is set and the agent loop is not called for a
role named `auto` or `team`. -/
theorem attributed_iff (env : ChatEnv) (args : Args) (query : Str) (role : Option Str)
    (tot trusted allowActions : Bool) (left : Option Str) {es : List (Prog.Event Requests)}
    (h : (∃ q, Prog.Trace (ask env args query role tot trusted allowActions).run es q) ∨
      ∃ q, Prog.Trace (askStream env args query role).run es q) :
    Attributed left es ↔ Fitting (start left) es := by
  have hchecked : ∀ e ∈ ledger (start left) es,
      e.checked = some (e.prompt.checkedFor e.role) := by
    obtain ⟨q, ht⟩ | ⟨q, ht⟩ := h
    · exact checked_of_mem_ledger ht (ask_follows _ _ _ _ _ _)
    · exact checked_of_mem_ledger ht (askStream_follows _ _ _)
  rw [fitting_iff]
  refine forall₂_congr fun e he => ?_
  have hrole : e.role ≠ some [] := role_of_mem_ledger (working_ne_empty left) e he
  rw [hchecked e he, Option.some.injEq, e.prompt.checkedFor_eq_iff hrole]

/-- An environment in which every list is one of two sub-tasks. -/
def pairEnv : ChatEnv where
  toEnv := { Env.plain with loads := fun _ => some (.arr [.str "tax".toList, .str "rent".toList]) }
  isWord _ := false
  sameLetter c d := c == d
  finalAnswer text := text
  firstNumber _ := none
  TEAM_MAX_SUBTASKS := 4
  TEAM_MAX_TOKENS := 500
  SUPERVISOR_MAX_TOKENS := 20
  ACTION_PLAN_MAX_TOKENS := 300
  MAX_OUTPUT_TOKENS := 800
  TRUNCATION_RETRY_MULTIPLIER := 2
  TRUNCATION_MAX_RETRY_TOKENS := 4096
  REASONING_MODE_TOKEN_MULTIPLIER := 2
  TOT_NUM_PATHS := 3
  TOT_JUDGE_MAX_TOKENS := 20
  GROUNDING_CHECK_MAX_TOKENS := 60

/-- A provider that answers everything with a list, no caps, and no roles in the table. -/
def listProvider : (o : Op) → o.Res
  | .enter | .leave | .setRole _ => ()
  | .checkBudget _ => false
  | .callProvider .. => some ⟨"[]".toList, none⟩
  | .streamProvider .. => ⟨true, true⟩
  | .generationService => some ⟨[], []⟩
  | .fallbackChain => some [⟨[], []⟩]
  | .listRoles => some []
  | .prepare _ => some (some [])
  | .systemPrompt .. => some none
  | .augment .. => some []
  | .other o => Core.calmReply .off o

/-- A team request with two parts, up to the reply that merges them. -/
def teamRun : List (Prog.Event Requests) :=
  (ask pairEnv ⟨none, none⟩ "tax, and rent".toList (some TEAM) false false false).run.play
    (List.replicate 32 listProvider)

/-- The merge is written down for the role of the last part, while the cap that was checked is that
of no role. -/
theorem merge_under_last_role :
    ¬ ∀ (env : ChatEnv) (args : Args) (query : Str) (role left : Option Str)
      (tot trusted allowActions : Bool) (es : List (Prog.Event Requests)),
      (∃ q, Prog.Trace (ask env args query role tot trusted allowActions).run es q) →
        Attributed left es := by
  intro h
  have hrun : ∃ q, Prog.Trace (ask pairEnv ⟨none, none⟩ "tax, and rent".toList (some TEAM) false
      false false).run teamRun q := Prog.exists_trace_play _ _
  have hrows : ∃ e ∈ ledger (start none) teamRun, ¬ e.checked = some e.role := by
    decide
  obtain ⟨e, he, hne⟩ := hrows
  exact hne (h _ _ _ _ none _ _ _ _ hrun e he)

/-- The condition is met by the same request for a single role. -/
theorem attributed_iff_support :
    let run := (ask pairEnv ⟨none, none⟩ "tax, and rent".toList (some DEFAULT_ROLE) false false
      false).run.play (List.replicate 20 listProvider)
    ledger (start none) run ≠ [] ∧ (Attributed none run ↔ Fitting (start none) run) := by
  refine ⟨?_, attributed_iff _ _ _ _ _ _ _ _ (.inl (Prog.exists_trace_play _ _))⟩
  intro h
  have hlength := congrArg List.length h
  revert hlength
  decide

end RagLeap.Chat
