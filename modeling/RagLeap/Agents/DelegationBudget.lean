import RagLeap.Agents.Delegate
import RagLeap.Agents.RunLife

/-!
# The delegation budget

What a root run and the children below it may do together, over any number of pauses and resumes of
the root. A `Career` is the life of a root run with the events of its children; `Agent.Tree` says
how the agents of one delegation tree are put together. The counters are charged when a child has
returned, so the invariant (`Accounted`) adds the steps of the children that are still running, one
for each level; `delegation_within_budget` is the result.
-/

namespace RagLeap.Agents

/-! ## Reading a history -/

/-- The tool calls a history leaves open, innermost first, each by whether it leaves the calling
run tainted. -/
def opens (calls : List Bool) : Prog.Event Acts → List Bool
  | ⟨.enterRun ctx l, _⟩ => (ctx.tainted || l.policy.taints) :: calls
  | ⟨.leaveRun, _⟩ => calls.tail
  | _ => calls

def openCalls (es : List (Prog.Event Acts)) : List Bool := es.foldl opens []

/-- A run is started inside a tool call. -/
def startsChild : Prog.Event Acts → Bool
  | ⟨.uuid (.run (_ + 1)), _⟩ => true
  | _ => false

/-- A child enters a tool. -/
def isChildStep : Prog.Event Acts → Bool
  | ⟨.enterRun ctx _, _⟩ => 0 < ctx.depth
  | _ => false

/-- The save that closes a run which an exception has left raised, so that the run raises. -/
def losesRun : Prog.Event Acts → Bool
  | ⟨.save _ _ s, .error _⟩ => s.stopReason = "internal_error".toList
  | _ => false

def childRuns (es : List (Prog.Event Acts)) : ℕ := es.countP startsChild

def childSteps (es : List (Prog.Event Acts)) : ℕ := es.countP isChildStep

/-- No run was left by an exception that its closing save did not end. -/
def runsClose (es : List (Prog.Event Acts)) : Prop := ∀ e ∈ es, losesRun e = false

def savedAt : Prog.Event Acts → List RunState
  | ⟨.save _ _ s, _⟩ | ⟨.saveIfStatus _ _ s _, _⟩ => [s]
  | _ => []

/-- The states the run itself was sent to the store in, outside its tool calls. -/
def ownSaves (es : List (Prog.Event Acts)) : List RunState :=
  (es.foldl (fun (x : List Bool × List RunState) e =>
    (opens x.1 e, if x.1 = [] then x.2 ++ savedAt e else x.2)) ([], [])).2

/-- The flag of the tool call a history has just left. -/
def returning (es : List (Prog.Event Acts)) : Option Bool :=
  match es.getLast? with
  | some ⟨.leaveRun, _⟩ => (openCalls es.dropLast).head?
  | _ => none

@[simp] theorem opens_enterRun (calls : List Bool) (ctx : RunContext) (l : Launch)
    (u : (Act.enterRun ctx l).Res) :
    opens calls ⟨.enterRun ctx l, u⟩ = (ctx.tainted || l.policy.taints) :: calls := rfl

@[simp] theorem opens_leaveRun (calls : List Bool) (u : Act.leaveRun.Res) :
    opens calls ⟨.leaveRun, u⟩ = calls.tail := rfl

@[simp] theorem opens_save (calls : List Bool) (store : Store) (runId : Str) (s : RunState)
    (u : (Act.save store runId s).Res) : opens calls ⟨.save store runId s, u⟩ = calls := rfl

theorem reason_of_losesRun {store : Store} {runId : Str} {s : RunState} {x : Str}
    (h : losesRun ⟨.save store runId s, .error x⟩ = false) :
    s.stopReason ≠ "internal_error".toList := of_decide_eq_false h

section History

variable (es : List (Prog.Event Acts)) (e : Prog.Event Acts)

@[simp] theorem openCalls_nil : openCalls [] = [] := rfl

@[simp] theorem openCalls_concat : openCalls (es ++ [e]) = opens (openCalls es) e := by
  simp [openCalls]

@[simp] theorem childRuns_concat :
    childRuns (es ++ [e]) = childRuns es + if startsChild e then 1 else 0 := by
  simp [childRuns, List.countP_singleton]

@[simp] theorem childSteps_concat :
    childSteps (es ++ [e]) = childSteps es + if isChildStep e then 1 else 0 := by
  simp [childSteps, List.countP_singleton]

@[simp] theorem runsClose_concat :
    runsClose (es ++ [e]) ↔ runsClose es ∧ losesRun e = false := by
  simp [runsClose, or_imp, forall_and]

@[simp] theorem ownSaves_nil : ownSaves [] = [] := rfl

@[simp] theorem ownSaves_concat :
    ownSaves (es ++ [e]) = ownSaves es ++ if openCalls es = [] then savedAt e else [] := by
  have hfst : ∀ (es : List (Prog.Event Acts)) (x : List Bool × List RunState),
      (es.foldl (fun (x : List Bool × List RunState) e =>
        (opens x.1 e, if x.1 = [] then x.2 ++ savedAt e else x.2)) x).1 = es.foldl opens x.1 := by
    intro es
    induction es with
    | nil => exact fun _ => rfl
    | cons e es ih => exact fun x => ih _
  rw [ownSaves, List.foldl_append, List.foldl_cons, List.foldl_nil, hfst]
  change (if openCalls es = [] then _ else _) = _
  split
  · rfl
  · exact (List.append_nil _).symm

theorem returning_concat_of_ne {o : Act} (r : o.Res) (h : o ≠ .leaveRun) :
    returning (es ++ [⟨o, r⟩]) = none := by
  unfold returning
  rw [List.getLast?_concat]
  cases o with
  | leaveRun => exact absurd rfl h
  | _ => rfl

theorem returning_concat_leaveRun (r : Act.leaveRun.Res) :
    returning (es ++ [⟨.leaveRun, r⟩]) = (openCalls es).head? := by
  unfold returning
  rw [List.getLast?_concat, List.dropLast_concat]

end History

/-- Each statement is permitted after the history `J` allows it after. -/
def logging (J : List (Prog.Event Acts) → Act → Prop) : Protocol Acts where
  Phase := List (Prog.Event Acts)
  permits := J
  next past o r := some (past ++ [⟨o, r⟩])

theorem after_logging {J : List (Prog.Event Acts) → Act → Prop} (past es : List (Prog.Event Acts)) :
    (logging J).after past es = some (past ++ es) := by
  induction es generalizing past with
  | nil =>
    rw [List.append_nil]
    rfl
  | cons e es ih =>
    rw [@Protocol.after_cons Acts (logging J) past (past ++ [e]) e es rfl, ih, List.append_assoc]
    rfl

/-! ## The account of a run -/

/-- Bounds on what the delegations of a tree may spend. -/
structure Bounds where
  delegations : ℕ
  childSteps : ℕ
  depth : ℕ

/-- The most steps all children take together. -/
def Bounds.total (B : Bounds) : ℕ := B.childSteps - 1 + HARD_MAX_STEPS * B.depth

/-- The counters of a root run agree with its history: `calls` are the open calls at the level
looked at, and `running` counts the steps of the children on the way that are not charged yet. -/
structure Squared (B : Bounds) (past : List (Prog.Event Acts)) (level running : ℕ)
    (counters : Counters) : Prop where
  runs : childRuns past = counters.delegations
  steps : runsClose past → childSteps past = counters.childSteps + running
  room : 0 < level → counters.childSteps + HARD_MAX_STEPS * level ≤ B.total

/-- The steps of a run that are not charged yet: a root run's never are. -/
def uncharged (calls : List Bool) (r : Running) : ℕ :=
  if calls = [] then 0 else r.state.steps.length

/-- A run in memory, with `calls` open around it, after the events `cur` of this call of the root
and `base` before it; `outer` counts the uncharged steps of the runs around it. -/
structure Accounted (B : Bounds) (base cur : List (Prog.Event Acts)) (calls : List Bool) (outer : ℕ)
    (r : Running) : Prop where
  calls_eq : openCalls cur = calls
  level : Running.depth r.parent = calls.length
  tainted : r.state.tainted = true → ∀ f ∈ calls, f = true
  squared : Squared B (base ++ cur) calls.length (outer + uncharged calls r) r.shared
  below : calls ≠ [] → r.state.steps.length ≤ HARD_MAX_STEPS
  settled : returning cur = none

/-- The run itself was not sent to the store as paused in this call. -/
def Unpaused (cur : List (Prog.Event Acts)) : Prop :=
  ∀ s ∈ ownSaves cur, s.status ≠ .awaitingApproval

/-- What each statement has to satisfy after the events `cur` of this call and `base` before it. -/
def Thrifty (B : Bounds) (base cur : List (Prog.Event Acts)) : Act → Prop
  | .uuid (.run depth) =>
    0 < depth → depth = (openCalls cur).length ∧ depth ≤ B.depth ∧
      childRuns (base ++ cur) < B.delegations
  | .enterRun ctx l =>
    ctx.depth = (openCalls cur).length ∧
    (0 < ctx.depth → (runsClose (base ++ cur) → childSteps (base ++ cur) < B.total) ∧
      l.policy.requiresApproval = false ∧ (ctx.tainted = true → l.policy.outbound = false)) ∧
    (ctx.depth = 0 → Unpaused cur)
  | .leaveRun => openCalls cur ≠ []
  | .save _ _ s =>
    (returning cur = some true → s.tainted = true) ∧
    (s.stopReason ≠ "approval_not_available".toList → s.tainted = true →
      ∀ f ∈ openCalls cur, f = true) ∧
    (openCalls cur = [] → s.status = .awaitingApproval → Accounted B base cur [] 0 ⟨s, none⟩)
  | .saveIfStatus _ _ s _ => s.status ≠ .awaitingApproval
  | _ => True

section Account

variable {B : Bounds} {base cur : List (Prog.Event Acts)} {calls : List Bool} {outer : ℕ}
  {r : Running}

/-- An event that enters or leaves no call, starts no run and is no save. -/
theorem Squared.quiet {past : List (Prog.Event Acts)} {level running : ℕ} {counters : Counters}
    (h : Squared B past level running counters) {e : Prog.Event Acts} (hs : startsChild e = false)
    (hc : isChildStep e = false) : Squared B (past ++ [e]) level running counters := by
  refine ⟨?_, fun hk => ?_, h.room⟩
  · simp [hs, h.runs]
  · simpa [hc] using h.steps ((runsClose_concat _ _).1 hk).1

theorem Accounted.quiet (h : Accounted B base cur calls outer r) (o : Act) (res : o.Res)
    (ho : opens (openCalls cur) ⟨o, res⟩ = openCalls cur) (hs : startsChild ⟨o, res⟩ = false)
    (hc : isChildStep ⟨o, res⟩ = false) (hl : o ≠ .leaveRun) :
    Accounted B base (cur ++ [⟨o, res⟩]) calls outer r := by
  refine ⟨?_, h.level, h.tainted, ?_, h.below, returning_concat_of_ne _ _ hl⟩
  · rw [openCalls_concat, ho, h.calls_eq]
  · rw [← List.append_assoc]
    exact h.squared.quiet hs hc

theorem Accounted.asks (h : Accounted B base cur calls outer r) {o : Act} (ho : Asks o)
    (ans : o.Res) : Accounted B base (cur ++ [⟨o, ans⟩]) calls outer r := by
  cases ho with
  | llm prompt => exact h.quiet (.llm prompt) ans rfl rfl rfl (by simp)
  | now => exact h.quiet .now ans rfl rfl rfl (by simp)

/-- The same run with another status, summary or pending call. -/
theorem Accounted.congr (h : Accounted B base cur calls outer r) {r' : Running}
    (hparent : r'.parent = r.parent) (htaint : r'.state.tainted = r.state.tainted)
    (hsteps : r'.state.steps = r.state.steps) (hdeleg : r'.state.delegation = r.state.delegation) :
    Accounted B base cur calls outer r' := by
  have hshared : r'.shared = r.shared := by
    unfold Running.shared
    rw [hparent, hdeleg]
  have huncharged : uncharged calls r' = uncharged calls r := by
    unfold uncharged
    rw [hsteps]
  refine ⟨h.calls_eq, hparent ▸ h.level, htaint ▸ h.tainted, ?_, hsteps ▸ h.below, h.settled⟩
  rw [hshared, huncharged]
  exact h.squared

/-- Events inside a tool call leave the saves of the run itself alone. -/
theorem Unpaused.inside (h : Unpaused cur) (hopen : openCalls cur ≠ []) (e : Prog.Event Acts) :
    Unpaused (cur ++ [e]) := by
  rwa [Unpaused, ownSaves_concat, if_neg hopen, List.append_nil]

theorem Unpaused.quiet (h : Unpaused cur) {e : Prog.Event Acts} (he : savedAt e = []) :
    Unpaused (cur ++ [e]) := by
  rw [Unpaused, ownSaves_concat, he, ite_self, List.append_nil]
  exact h

theorem Unpaused.asks (h : Unpaused cur) {o : Act} (ho : Asks o) (ans : o.Res) :
    Unpaused (cur ++ [⟨o, ans⟩]) := by
  cases ho <;> exact h.quiet rfl

/-- A stopped run at the level `calls`. -/
def Halted (B : Bounds) (base : List (Prog.Event Acts)) (calls : List Bool) (outer : ℕ)
    (cur : List (Prog.Event Acts)) (r : Running) : Prop :=
  Accounted B base cur calls outer r ∧ (calls ≠ [] → Unpaused cur)

/-- A run whose store has lost a save. -/
def Lost (B : Bounds) (base : List (Prog.Event Acts)) (calls : List Bool) (outer : ℕ)
    (cur : List (Prog.Event Acts)) (r : Running) : Prop :=
  Halted B base calls outer cur r ∧
    (r.state.stopReason = "internal_error".toList → ¬ runsClose cur)

theorem saves_thrifty {store : Store} (h : Halted B base calls outer cur r)
    (houter : outer ≤ HARD_MAX_STEPS * (calls.length - 1)) :
    Saves (logging (Thrifty B base)) cur store r (Halted B base calls outer)
      (Lost B base calls outer) := by
  obtain ⟨h, hunpaused⟩ := h
  refine ⟨⟨?_, fun _ ht => ?_, fun hopen _ => ?_⟩, fun ans φ' hφ' => ?_⟩
  · rw [h.settled]
    nofun
  · rw [h.calls_eq]
    exact h.tainted ht
  · obtain rfl : calls = [] := h.calls_eq ▸ hopen
    obtain rfl : outer = 0 := Nat.le_zero.1 houter
    obtain ⟨s, _ | ctx⟩ := r
    · exact h
    · exact absurd h.level (Nat.succ_ne_zero _)
  · cases hφ'
    have haccounted : Accounted B base (cur ++ [⟨.save store r.state.runId r.state, ans⟩]) calls
        outer r := h.quiet (.save store r.state.runId r.state) ans rfl rfl rfl (by simp)
    have hhalted : Halted B base calls outer
        (cur ++ [⟨.save store r.state.runId r.state, ans⟩]) r :=
      ⟨haccounted, fun hne => (hunpaused hne).inside (by rwa [h.calls_eq]) _⟩
    refine ⟨fun _ => hhalted, fun hans => ⟨hhalted, fun hreason hk => ?_⟩⟩
    rcases ans with x | u
    · exact reason_of_losesRun ((runsClose_concat _ _).1 hk).2 hreason
    · cases hans

/-- The save that closes a run which an exception has left. -/
theorem lastSave_thrifty {store : Store} {s : RunState} {parent : Option RunContext}
    (h : Halted B base calls outer cur ⟨s, parent⟩)
    (houter : outer ≤ HARD_MAX_STEPS * (calls.length - 1))
    (hreason : s.stopReason = "internal_error".toList) :
    Saves (logging (Thrifty B base)) cur store ⟨s, parent⟩ (Halted B base calls outer)
      (fun cur r => Halted B base calls outer cur r ∧ ¬ runsClose cur) := by
  obtain ⟨hpermits, hnext⟩ : Saves (logging (Thrifty B base)) cur store ⟨s, parent⟩
    (Halted B base calls outer) (Lost B base calls outer) := saves_thrifty h houter
  refine ⟨hpermits, fun ans φ' hφ' => ⟨(hnext ans φ' hφ').1, fun hans => ?_⟩⟩
  obtain ⟨hhalted, hlost⟩ := (hnext ans φ' hφ').2 hans
  exact ⟨hhalted, hlost hreason⟩

end Account

/-! ## Tools and runs -/

/-- Where the calling run is at the start of a tool call: `outer` counts the uncharged steps of the
runs around the call, this one included, and `flag` says whether the call leaves the run tainted. -/
structure Entered (B : Bounds) (base cur : List (Prog.Event Acts)) (flag : Bool) (calls : List Bool)
    (outer : ℕ) (ctx : RunContext) (counters : Counters) : Prop where
  calls_eq : openCalls cur = flag :: calls
  depth : ctx.depth = calls.length
  flag_of_tainted : ctx.tainted = true → flag = true
  calls_of_flag : flag = true → ∀ f ∈ calls, f = true
  outer_le : outer ≤ HARD_MAX_STEPS * calls.length
  unpaused : Unpaused cur
  squared : Squared B (base ++ cur) calls.length outer counters

/-- A tool that charges the counters for what its calls start, called under a policy that says
whether it taints. -/
def Charges (B : Bounds) (base : List (Prog.Event Acts)) (p : ToolPolicy) (tool : Tool) : Prop :=
  ∀ cur flag calls outer ctx args, (p.taints = true → flag = true) →
    Entered B base cur flag calls outer ctx ctx.delegation →
    (tool.handler ctx args).Follows (logging (Thrifty B base))
      (fun cur x => Entered B base cur flag calls outer ctx x.2) cur

section Runs

variable {B : Bounds} {base cur : List (Prog.Event Acts)} {calls : List Bool} {outer : ℕ}
  {r : Running} {a : Agent} {env : Env}

theorem limit_le (a : Agent) : a.limit ≤ HARD_MAX_STEPS := by
  unfold Agent.limit HARD_MAX_STEPS
  omega

/-- The run once a tool call is left, its step recorded and the run sent to the store. -/
theorem accounted_afterCall {flag : Bool} {tool : Tool} {args : Json} {sig : Sig} {forced : Bool}
    {out : ToolOutcome} {counters : Counters} {ctx : RunContext}
    (hlevel : Running.depth r.parent = calls.length)
    (hlt : calls ≠ [] → r.state.steps.length < HARD_MAX_STEPS)
    (hflag : (r.state.tainted || (a.policy.forTool tool.name).taints) = flag)
    (h : Entered B base cur flag calls
      (outer + if calls = [] then 0 else r.state.steps.length + 1) ctx counters)
    (u : Act.leaveRun.Res) (store : Store) (runId : Str) (s : RunState)
    (ans : (Act.save store runId s).Res) :
    Accounted B base (cur ++ [⟨.leaveRun, u⟩] ++ [⟨.save store runId s, ans⟩]) calls outer
      (a.afterCall env r tool args sig forced out counters) := by
  refine ⟨?_, ?_, fun ht => h.calls_of_flag ?_, ?_, fun hne => ?_,
    returning_concat_of_ne _ _ (by simp)⟩
  · rw [openCalls_concat, openCalls_concat, h.calls_eq]
    rfl
  · rw [afterCall_depth, hlevel]
  · rwa [afterCall_tainted, hflag] at ht
  · rw [afterCall_shared, ← List.append_assoc, ← List.append_assoc, uncharged,
      afterCall_steps_length]
    exact (h.squared.quiet rfl rfl).quiet rfl rfl
  · rw [afterCall_steps_length]
    exact hlt hne

/-- A tool call at the level `calls`. -/
theorem runTool_thrifty {tool : Tool} {args : Json} {sig : Sig} {forced : Bool}
    {approved : Option Str} (h : Accounted B base cur calls outer r)
    (hlt : calls ≠ [] → r.state.steps.length < HARD_MAX_STEPS)
    (houter : outer ≤ HARD_MAX_STEPS * (calls.length - 1))
    (hfree : calls ≠ [] → Free a r tool)
    (hunpaused : Unpaused cur)
    (hrunning : calls = [] → r.state.status = .running)
    (htaints : (a.policy.forTool tool.name).taints = true → ∀ f ∈ calls, f = true)
    (hcharges : Charges B base (a.policy.forTool tool.name) tool) :
    (a.runTool env r tool args sig forced approved).Follows (logging (Thrifty B base))
      (fun cur e => (Accounted B base cur calls outer e.running ∧ Unpaused cur ∧
        e.running.state.status = r.state.status ∧
        (e.exception ≠ none → e.running.state.stopReason = "internal_error".toList →
          ¬ runsClose cur)) ∧
        e.running.state.steps.length = r.state.steps.length + 1) cur := by
  have hdepth : r.context.depth = (openCalls cur).length := h.level.trans (by rw [h.calls_eq])
  refine ⟨⟨hdepth, fun hpos => ?_, fun _ => hunpaused⟩, fun u φ' hφ' => ?_⟩
  · have hne : calls ≠ [] := by
      rw [hdepth, h.calls_eq] at hpos
      exact List.ne_nil_of_length_pos hpos
    refine ⟨fun hk => ?_, (hfree hne).1, (hfree hne).2⟩
    have hsteps := h.squared.steps hk
    have hlen := List.length_pos_of_ne_nil hne
    have hroom := h.squared.room hlen
    have := hlt hne
    unfold uncharged at hsteps
    rw [if_neg hne] at hsteps
    rw [hsteps]
    unfold HARD_MAX_STEPS at *
    omega
  cases hφ'
  let flag := r.state.tainted || (a.policy.forTool tool.name).taints
  let launch : Launch := ⟨tool.name, a.policy.forTool tool.name, sig, approved⟩
  have hcalls : ∀ f, flag = true → f ∈ calls → f = true := fun f hflag hf => by
    rcases Bool.or_eq_true_iff.1 hflag with ht | ht
    · exact h.tainted ht f hf
    · exact htaints ht f hf
  have hentered : Entered B base (cur ++ [⟨.enterRun r.context launch, u⟩]) flag calls
      (outer + if calls = [] then 0 else r.state.steps.length + 1) r.context r.shared := by
    refine ⟨by rw [openCalls_concat, h.calls_eq]; rfl, h.level,
      fun ht => Bool.or_eq_true_iff.2 (.inl ht), fun hflag f hf => hcalls f hflag hf, ?_, hunpaused.quiet rfl, ?_⟩
    · split
      · rename_i hnil
        subst hnil
        exact houter
      · rename_i hne
        have := hlt hne
        have := List.length_pos_of_ne_nil hne
        unfold HARD_MAX_STEPS at *
        omega
    · rw [← List.append_assoc]
      refine ⟨?_, fun hk => ?_, h.squared.room⟩
      · rw [childRuns_concat]
        exact h.squared.runs
      have hsteps := h.squared.steps ((runsClose_concat _ _).1 hk).1
      have hchild : isChildStep ⟨.enterRun r.context launch, u⟩ = decide (0 < calls.length) := by
        rw [← h.calls_eq, ← hdepth]
        rfl
      rw [childSteps_concat, hsteps, hchild]
      unfold uncharged
      rcases calls with _ | ⟨f, calls⟩
      · simp
      · simp
        omega
  refine (hcharges _ flag calls _ r.context (keywords args)
    (fun ht => Bool.or_eq_true_iff.2 (.inr ht)) hentered).bind ?_
  rintro (cur' : List (Prog.Event Acts)) ⟨out, counters⟩ hleft
  refine ⟨fun hnil => by simp [hleft.calls_eq] at hnil, fun v φ' hφ' => ?_⟩
  cases hφ'
  let r' := a.afterCall env r tool args sig forced out counters
  have hopen : openCalls (cur' ++ [⟨.leaveRun, v⟩]) = calls := by
    rw [openCalls_concat, hleft.calls_eq]
    rfl
  have hstatus : r'.state.status = r.state.status := afterCall_status ..
  have htainted : r'.state.tainted = flag := afterCall_tainted ..
  have hquiet : Unpaused (cur' ++ [⟨.leaveRun, v⟩]) := hleft.unpaused.quiet rfl
  change Thrifty B base (cur' ++ [⟨.leaveRun, v⟩]) (.save a.store r'.state.runId r'.state) ∧ _
  refine ⟨⟨?_, fun _ ht f hf => ?_, fun hnil hwait => ?_⟩,
    fun (ans : Except Str Unit) φ' hφ' => ?_⟩
  · rw [returning_concat_leaveRun, hleft.calls_eq, htainted]
    exact fun he => Option.some.inj he
  · rw [hopen] at hf
    exact hcalls f (htainted ▸ ht) hf
  · rw [hstatus, hrunning (hopen ▸ hnil)] at hwait
    cases hwait
  · cases hφ'
    refine ⟨⟨accounted_afterCall h.level hlt rfl hleft v _ _ _ ans, ?_, hstatus,
      fun hx hreason hk => ?_⟩, afterCall_steps_length ..⟩
    swap
    · rcases ans with x | u
      · exact reason_of_losesRun ((runsClose_concat _ _).1 hk).2 hreason
      · exact hx rfl
    rw [Unpaused, ownSaves_concat, hopen]
    split
    · rename_i hnil
      intro s hs
      rcases List.mem_append.1 hs with hs | hs
      · exact hquiet s hs
      · obtain rfl := List.mem_singleton.1 hs
        exact fun hwait => by cases (hstatus.trans (hrunning hnil)).symm.trans hwait
    · rw [List.append_nil]
      exact hquiet

/-- The loop of an agent at the level `calls`. -/
def thriftyRule (a : Agent) (env : Env) (B : Bounds) (base : List (Prog.Event Acts))
    (calls : List Bool) (outer : ℕ) (houter : outer ≤ HARD_MAX_STEPS * (calls.length - 1))
    (htaints : ∀ t ∈ a.tools, (a.policy.forTool t.name).taints = true → ∀ f ∈ calls, f = true)
    (hcharges : ∀ t ∈ a.tools, Charges B base (a.policy.forTool t.name) t) :
    DriveRule a env (logging (Thrifty B base)) where
  Live cur r := Accounted B base cur calls outer r ∧ Unpaused cur ∧ r.state.status = .running
  Open := Halted B base calls outer
  Left := Lost B base calls outer
  Done := Halted B base calls outer
  open_of_live h := ⟨h.1, fun _ => h.2.1⟩
  open_of_left h := h.1
  asks {cur o} ho := by
    refine ⟨by cases ho <;> trivial, fun ans φ' hφ' => ?_⟩
    cases hφ'
    exact ⟨fun r h => ⟨h.1.asks ho ans, h.2.1.asks ho ans, h.2.2⟩,
      fun r h => ⟨h.1.asks ho ans, fun hne => (h.2 hne).asks ho ans⟩⟩
  closing h status _ reason summary :=
    saves_thrifty ⟨h.1.congr rfl rfl rfl rfl, h.2⟩ houter
  pausing {cur r tool args} h _ forced := by
    refine ⟨trivial, fun callId φ' hφ' => ?_⟩
    cases hφ'
    have hquiet := h.1.quiet (.uuid .call) callId rfl rfl rfl (by simp)
    exact saves_thrifty ⟨hquiet.congr rfl rfl rfl rfl, fun _ => h.2.1.quiet rfl⟩ houter
  calling {cur r tool args} h hfresh hfree := by
    have ht := (Agent.mem_tools_of_tool? hfresh.found).1
    refine (runTool_thrifty h.1 (fun _ => hfresh.below.trans_le (limit_le a)) houter
      (fun _ => hfree) h.2.1 (fun _ => h.2.2) (htaints tool ht) (hcharges tool ht)).mono ?_
    rintro cur' e ⟨⟨haccounted, hunpaused, hstatus, hx⟩, hlen⟩
    exact ⟨⟨fun _ => ⟨haccounted, hunpaused, hstatus.trans h.2.2⟩,
      fun hne => ⟨⟨haccounted, fun _ => hunpaused⟩, hx hne⟩⟩, hlen⟩

end Runs

/-! ## A tree of agents -/

/-- A delegation within the bounds whose tool is declared as tainting where `delegate_policy` says
so. -/
structure Fits (B : Bounds) (p : Policy) (d : Delegation) : Prop where
  delegations : d.budget.maxDelegations ≤ B.delegations
  childSteps : d.budget.maxChildSteps ≤ B.childSteps
  depth : d.maxDepth ≤ B.depth
  declared : ∀ pol, delegatePolicy d.children d.allowOutbound = .ok pol → pol.taints = true →
    (p.forTool d.name).taints = true

theorem Fits.taints_of_child {B : Bounds} {p : Policy} {d : Delegation} (h : Fits B p d) {name : Str}
    {child : Agent} (hchild : d.children.get? name = some child) {t : Tool} (ht : t ∈ child.tools)
    (htaints : (child.policy.forTool t.name).taints = true) : (p.forTool d.name).taints = true := by
  have hok := d.checked
  cases hpol : delegatePolicy d.children d.allowOutbound with
  | error message =>
    rw [hpol] at hok
    cases hok
  | ok pol => exact h.declared pol hpol (delegatePolicy_taints hpol hchild ht htaints)

/-- An agent each of whose tools is a handler from outside the package or delegates to agents of
the same kind; `made` says which tool is which. -/
inductive Agent.Tree (env : Env) (B : Bounds) : Agent → Prop
  | mk {a : Agent} (made : Tool → Option Delegation)
      (external : ∀ t ∈ a.tools, made t = none →
        ∃ name description parameters, t = .external name description parameters)
      (delegate : ∀ t ∈ a.tools, ∀ d, made t = some d → t = d.tool env ∧ Fits B a.policy d)
      (children : ∀ t ∈ a.tools, ∀ d, made t = some d → ∀ name child,
        d.children.get? name = some child → Agent.Tree env B child) : Agent.Tree env B a

section Tree

variable {B : Bounds} {base cur : List (Prog.Event Acts)} {flag : Bool} {calls : List Bool}
  {outer : ℕ} {ctx : RunContext} {counters : Counters} {env : Env}

theorem Entered.quiet (h : Entered B base cur flag calls outer ctx counters) (o : Act) (res : o.Res)
    (ho : opens (openCalls cur) ⟨o, res⟩ = openCalls cur) (hs : startsChild ⟨o, res⟩ = false)
    (hc : isChildStep ⟨o, res⟩ = false) :
    Entered B base (cur ++ [⟨o, res⟩]) flag calls outer ctx counters := by
  refine ⟨?_, h.depth, h.flag_of_tainted, h.calls_of_flag, h.outer_le,
    h.unpaused.inside (by simp [h.calls_eq]) _, ?_⟩
  · rw [openCalls_concat, ho, h.calls_eq]
  · rw [← List.append_assoc]
    exact h.squared.quiet hs hc

theorem charges_external (p : ToolPolicy) (name description : Str) (parameters : Schema) :
    Charges B base p (.external name description parameters) := by
  intro cur flag calls outer ctx args _ h
  refine ⟨trivial, fun out φ' hφ' => ?_⟩
  cases hφ'
  exact h.quiet (.external name ctx args) out rfl rfl rfl

/-- A child's run that has started: the delegation is charged, its steps are not yet. -/
theorem accounted_start {d : Delegation} {p : Policy} {child : Agent}
    (h : Entered B base cur flag calls outer ctx ctx.delegation) (hfits : Fits B p d)
    (hrefusal : d.refusal ctx = none) (runId task : Str) :
    Accounted B base (cur ++ [⟨.uuid (.run (ctx.depth + 1)), runId⟩]) (flag :: calls) outer
      ⟨child.start runId task ctx.tainted, some { ctx with
        delegation := ⟨ctx.delegation.delegations + 1, ctx.delegation.childSteps⟩ }⟩ := by
  obtain ⟨hdepth, -, hsteps⟩ : ¬ d.maxDepth < ctx.depth + 1 ∧
      ¬ d.budget.maxDelegations ≤ ctx.delegation.delegations ∧
      ¬ d.budget.maxChildSteps ≤ ctx.delegation.childSteps := by
    unfold Delegation.refusal at hrefusal
    split_ifs at hrefusal with h₁ h₂ h₃
    exact ⟨h₁, h₂, h₃⟩
  have hcalls : openCalls (cur ++ [⟨.uuid (.run (ctx.depth + 1)), runId⟩]) = flag :: calls := by
    rw [openCalls_concat]
    exact h.calls_eq
  refine ⟨hcalls, congrArg (· + 1) h.depth, fun ht f hf => ?_, ?_, fun _ => Nat.zero_le _,
    returning_concat_of_ne _ _ (by simp)⟩
  · rcases List.mem_cons.1 hf with rfl | hf
    · exact h.flag_of_tainted ht
    · exact h.calls_of_flag (h.flag_of_tainted ht) f hf
  · rw [← List.append_assoc]
    refine ⟨?_, fun hk => ?_, fun _ => ?_⟩
    · rw [childRuns_concat, h.squared.runs]
      rfl
    · rw [childSteps_concat]
      exact h.squared.steps ((runsClose_concat _ _).1 hk).1
    · have hle := hfits.childSteps
      have hdepth' : calls.length + 1 ≤ B.depth := by
        have := hfits.depth
        have := h.depth
        omega
      change ctx.delegation.childSteps + HARD_MAX_STEPS * (calls.length + 1) ≤ B.total
      unfold Bounds.total
      exact Nat.add_le_add (by omega) (Nat.mul_le_mul_left _ hdepth')

/-- The counters a call leaves once its child has returned and its steps are charged. -/
theorem entered_of_halted {r : Running}
    (h : Entered B base cur flag calls outer ctx counters) {cur' : List (Prog.Event Acts)}
    (hr : Halted B base (flag :: calls) outer cur' r) {counters' : Counters}
    (hruns : counters'.delegations = r.shared.delegations)
    (hsteps : runsClose cur' → counters'.childSteps = r.shared.childSteps + r.state.steps.length)
    (hle : counters'.childSteps ≤ r.shared.childSteps + r.state.steps.length) :
    Entered B base cur' flag calls outer ctx counters' := by
  obtain ⟨haccounted, hunpaused⟩ := hr
  refine ⟨haccounted.calls_eq, h.depth, h.flag_of_tainted, h.calls_of_flag, h.outer_le,
    hunpaused (by simp), ?_, fun hk => ?_, fun hpos => ?_⟩
  · rw [haccounted.squared.runs, hruns]
  · have hk' : runsClose cur' := fun e he => hk e (List.mem_append_right _ he)
    rw [haccounted.squared.steps hk, hsteps hk', uncharged, if_neg (by simp)]
    omega
  · have hroom := haccounted.squared.room (by simp)
    have hbelow := haccounted.below (by simp)
    simp only [List.length_cons] at hroom
    unfold HARD_MAX_STEPS at *
    omega

theorem settle_thrifty {child : Agent} {parent : Option RunContext} {res : RunResult} {r : Running}
    (h : Halted B base (flag :: calls) outer cur r) :
    (child.settle env parent res).Follows (logging (Thrifty B base))
      (fun cur _ => Halted B base (flag :: calls) outer cur r) cur := by
  have hne : flag :: calls ≠ [] := by simp
  have hinside {cur : List (Prog.Event Acts)} (h : Halted B base (flag :: calls) outer cur r)
      (o : Act) (ans : o.Res) (ho : opens (openCalls cur) ⟨o, ans⟩ = openCalls cur)
      (hs : startsChild ⟨o, ans⟩ = false) (hc : isChildStep ⟨o, ans⟩ = false)
      (hl : o ≠ .leaveRun) :
      Halted B base (flag :: calls) outer (cur ++ [⟨o, ans⟩]) r :=
    ⟨h.1.quiet o ans ho hs hc hl, fun _ => (h.2 hne).inside (by simp [h.1.calls_eq]) _⟩
  unfold Agent.settle
  split
  · refine ⟨trivial, fun loaded φ' hφ' => ?_⟩
    cases hφ'
    replace h := hinside h (.load child.store res.runId) loaded rfl rfl rfl (by simp)
    rcases (loaded : Loaded res.runId) with _ | _ | _ | ⟨state, hstate⟩
    · exact h
    · exact h
    · exact h
    · refine ⟨⟨?_, fun hreason => absurd rfl hreason, fun hnil => ?_⟩, fun ans φ' hφ' => ?_⟩
      · rw [h.1.settled]
        nofun
      · rw [h.1.calls_eq] at hnil
        cases hnil
      · cases hφ'
        exact hinside h (.save _ _ _) ans rfl rfl rfl (by simp)
  · exact h

/-- Running a child charges the counters for it. -/
theorem runChild_thrifty {d : Delegation} {p : Policy} {name task : Str} {child : Agent}
    (h : Entered B base cur flag calls outer ctx ctx.delegation) (hfits : Fits B p d)
    (hflag : (p.forTool d.name).taints = true → flag = true)
    (hchild : d.children.get? name = some child) (hrefusal : d.refusal ctx = none)
    (hcharges : ∀ t ∈ child.tools, Charges B base (child.policy.forTool t.name) t) :
    (Delegation.runChild env name child task ctx).Follows (logging (Thrifty B base))
      (fun cur x => Entered B base cur flag calls outer ctx x.2) cur := by
  have htaints : ∀ t ∈ child.tools, (child.policy.forTool t.name).taints = true →
      ∀ f ∈ flag :: calls, f = true := fun t ht ht' f hf => by
    have hset := hflag (hfits.taints_of_child hchild ht ht')
    rcases List.mem_cons.1 hf with rfl | hf
    · exact hset
    · exact h.calls_of_flag hset f hf
  have houter : outer ≤ HARD_MAX_STEPS * ((flag :: calls).length - 1) := by simpa using h.outer_le
  let R := thriftyRule child env B base (flag :: calls) outer houter htaints hcharges
  refine (R.run_follows (E := fun cur r => Halted B base (flag :: calls) outer cur r ∧
    ¬ runsClose cur) (fun hr _ => lastSave_thrifty ⟨hr.1.congr rfl rfl rfl rfl, hr.2⟩ houter rfl)
    ?_ ?_).bind ?_
  · intro _
    refine ⟨by rw [h.calls_eq]; exact congrArg (· + 1) h.depth, ?_, ?_⟩
    · unfold Delegation.refusal at hrefusal
      split_ifs at hrefusal with h₁
      have := hfits.depth
      change ctx.depth + 1 ≤ B.depth
      omega
    · unfold Delegation.refusal at hrefusal
      split_ifs at hrefusal with _ h₂
      have := hfits.delegations
      rw [h.squared.runs]
      omega
  · intro runId φ' hφ'
    cases hφ'
    exact ⟨accounted_start h hfits hrefusal runId task, h.unpaused.inside (by simp [h.calls_eq]) _,
      rfl⟩
  · rintro (cur' : List (Prog.Event Acts)) ⟨ran, parent⟩ ⟨e, he, hx⟩
    obtain ⟨rfl, rfl⟩ := Prod.mk.inj hx
    have hparent (hh : Halted B base (flag :: calls) outer cur' e.running) (started : RunContext) :
        (e.running.parent.getD started).delegation = e.running.shared := by
      have hlevel := hh.1.level
      unfold Running.shared
      cases hp : e.running.parent with
      | none =>
        rw [hp] at hlevel
        cases hlevel
      | some ctx => rfl
    unfold Ended.outcome
    cases hexc : e.exception with
    | some x =>
      have hlost := he.2 (by simp [hexc])
      refine entered_of_halted h hlost.1 (by rw [hparent hlost.1]) (fun hk => absurd hk hlost.2) ?_
      rw [hparent hlost.1]
      exact Nat.le_add_right _ _
    | none =>
      have hdone := he.1 hexc
      refine (settle_thrifty hdone).bind fun cur'' settled hhalted => ?_
      refine entered_of_halted h hhalted (by rw [hparent hdone]) (fun _ => ?_) ?_
      · rw [hparent hdone]
        rfl
      · rw [hparent hdone]
        rfl

/-- Every tool of a tree charges the counters, by induction on the tree. -/
theorem charges_of_tree {a : Agent} (h : a.Tree env B) :
    ∀ t ∈ a.tools, Charges B base (a.policy.forTool t.name) t := by
  induction h with
  | @mk a made external delegate children ih =>
    intro t ht
    cases hmade : made t with
    | none =>
      obtain ⟨name, description, parameters, rfl⟩ := external t ht hmade
      exact charges_external _ _ _ _
    | some d =>
      obtain ⟨rfl, hfits⟩ := delegate t ht d hmade
      intro cur flag calls outer ctx args hflag hentered
      refine d.handler_cases env (C := fun q => q.Follows (logging (Thrifty B base))
        (fun cur x => Entered B base cur flag calls outer ctx x.2) cur) ?_ ?_
      · exact fun out => hentered
      · intro name child task hchild hrefusal
        exact runChild_thrifty hentered hfits hflag hchild hrefusal
          (ih _ ht d hmade name child hchild)

end Tree

/-! ## Whole careers -/

/-- `Career a env base cur saved`: a root run of `a` went through the events `base` and then, in the
last call of `run` or `resume`, through `cur`; the store may hold it in one of the states
`saved`. -/
inductive Career (a : Agent) (env : Env) :
    List (Prog.Event Acts) → List (Prog.Event Acts) → List RunState → Prop
  | start (task : Str) (tainted : Bool) {es : List (Prog.Event Acts)}
      {q : Prog Acts (Except Str RunResult × Option RunContext)}
      (ht : Prog.Trace (a.run env none task tainted) es q) : Career a env [] es (ownSaves es)
  | resume {base cur : List (Prog.Event Acts)} {saved : List RunState}
      (h : Career a env base cur saved) {state : RunState} (hs : state ∈ saved)
      (decisions : Dict Str Decision) {es : List (Prog.Event Acts)}
      {q : Prog Acts (Resumed × Option RunContext)}
      (ht : Prog.Trace (a.resume env none state.runId decisions)
        (⟨.load a.store state.runId, Loaded.found ⟨state, rfl⟩⟩ :: es) q) :
      Career a env (base ++ cur) (⟨.load a.store state.runId, Loaded.found ⟨state, rfl⟩⟩ :: es)
        ((if claims es then [] else saved) ++
          ownSaves (⟨.load a.store state.runId, Loaded.found ⟨state, rfl⟩⟩ :: es))

/-- Events that leave every tool call they enter, and no other. -/
inductive Balanced : List (Prog.Event Acts) → Prop
  | nil : Balanced []
  | quiet {e : Prog.Event Acts} {es : List (Prog.Event Acts)} (he : ∀ calls, opens calls e = calls)
      (h : Balanced es) : Balanced (e :: es)
  | call (ctx : RunContext) (l : Launch) {mid es : List (Prog.Event Acts)} (hmid : Balanced mid)
      (h : Balanced es) :
      Balanced (⟨.enterRun ctx l, ()⟩ :: (mid ++ ⟨.leaveRun, ()⟩ :: es))

theorem Balanced.foldl_opens {es : List (Prog.Event Acts)} (h : Balanced es) (calls : List Bool) :
    es.foldl opens calls = calls := by
  induction h generalizing calls with
  | nil => rfl
  | quiet he h ih => rw [List.foldl_cons, he, ih]
  | call ctx l hmid h ihmid ih =>
    rw [List.foldl_cons, List.foldl_append, ihmid, List.foldl_cons, ih]
    rfl

/-- Inside balanced events the calls around them stay open. -/
theorem Balanced.foldl_opens_prefix {es : List (Prog.Event Acts)} (h : Balanced es)
    (calls : List Bool) {es₁ es₂ : List (Prog.Event Acts)} (he : es = es₁ ++ es₂) :
    ∃ inner, es₁.foldl opens calls = inner ++ calls := by
  induction h generalizing calls es₁ es₂ with
  | nil =>
    obtain ⟨rfl, -⟩ := List.append_eq_nil_iff.1 he.symm
    exact ⟨[], rfl⟩
  | quiet hq h ih =>
    rcases es₁ with _ | ⟨e, es₁⟩
    · exact ⟨[], rfl⟩
    · obtain ⟨rfl, he'⟩ := List.cons.inj (he.trans (List.cons_append ..))
      rw [List.foldl_cons, hq]
      exact ih calls he'
  | call ctx l hmid h ihmid ih =>
    rcases es₁ with _ | ⟨e, es₁⟩
    · exact ⟨[], rfl⟩
    · obtain ⟨rfl, he'⟩ := List.cons.inj (he.trans (List.cons_append ..))
      rw [List.foldl_cons]
      rcases List.append_eq_append_iff.1 he' with ⟨as, rfl, has⟩ | ⟨bs, rfl, -⟩
      · rw [List.foldl_append, hmid.foldl_opens]
        rcases as with _ | ⟨e, as⟩
        · exact ⟨[_], rfl⟩
        · obtain ⟨rfl, has'⟩ := List.cons.inj (has.trans (List.cons_append ..))
          exact ih calls has'
      · obtain ⟨inner, hinner⟩ := ihmid (opens calls ⟨.enterRun ctx l, ()⟩) rfl
        exact ⟨inner ++ [_], by rw [hinner, List.append_assoc]; rfl⟩

/-- What the account says of single events: how deep a child runs, and what it may enter. -/
def WithinBounds (B : Bounds) : Prog.Event Acts → Prop
  | ⟨.uuid (.run depth), _⟩ => 0 < depth → depth ≤ B.depth
  | ⟨.enterRun ctx l, _⟩ => 0 < ctx.depth →
    l.policy.requiresApproval = false ∧ (ctx.tainted = true → l.policy.outbound = false)
  | _ => True

theorem Thrifty.withinBounds {B : Bounds} {base cur : List (Prog.Event Acts)} {o : Act}
    (h : Thrifty B base cur o) (r : o.Res) : WithinBounds B ⟨o, r⟩ := by
  cases o with
  | uuid use =>
    cases use with
    | run depth => exact fun hpos => (h hpos).2.1
    | call => trivial
  | enterRun ctx l => exact fun hpos => (h.2.1 hpos).2
  | _ => trivial

/-- What holds after each event of a call. -/
structure Sound (B : Bounds) (base cur : List (Prog.Event Acts)) : Prop where
  runs : childRuns (base ++ cur) ≤ B.delegations
  steps : runsClose (base ++ cur) → childSteps (base ++ cur) ≤ B.total
  paused : ∀ s ∈ ownSaves cur, s.status = .awaitingApproval →
    Accounted B base cur [] 0 ⟨s, none⟩

section Career

variable {B : Bounds} {base cur : List (Prog.Event Acts)} {a : Agent} {env : Env}

/-- An event that starts no child and takes no step of one. -/
theorem Sound.quiet (h : Sound B base cur) {e : Prog.Event Acts} (hs : startsChild e = false)
    (hc : isChildStep e = false) (hpaused : ∀ s ∈ ownSaves (cur ++ [e]),
      s.status = .awaitingApproval → Accounted B base (cur ++ [e]) [] 0 ⟨s, none⟩) :
    Sound B base (cur ++ [e]) := by
  refine ⟨?_, fun hk => ?_, hpaused⟩
  · rw [← List.append_assoc, childRuns_concat, hs]
    exact h.runs
  · rw [← List.append_assoc] at hk ⊢
    rw [childSteps_concat, hc]
    exact h.steps ((runsClose_concat _ _).1 hk).1

theorem sound_concat {o : Act} (h : Sound B base cur) (ho : Thrifty B base cur o) (r : o.Res) :
    Sound B base (cur ++ [⟨o, r⟩]) := by
  -- a state saved as paused stays accounted for: no child event follows it
  have hold (hopens : opens (openCalls cur) ⟨o, r⟩ = openCalls cur)
      (hs : startsChild ⟨o, r⟩ = false) (hc : isChildStep ⟨o, r⟩ = false) (hl : o ≠ .leaveRun)
      (s : RunState) (hmem : s ∈ ownSaves cur) (hwait : s.status = .awaitingApproval) :
      Accounted B base (cur ++ [⟨o, r⟩]) [] 0 ⟨s, none⟩ :=
    (h.paused s hmem hwait).quiet o r hopens hs hc hl
  have hsilent (hopens : opens (openCalls cur) ⟨o, r⟩ = openCalls cur)
      (hs : startsChild ⟨o, r⟩ = false) (hc : isChildStep ⟨o, r⟩ = false) (hl : o ≠ .leaveRun)
      (hsaved : savedAt ⟨o, r⟩ = []) : Sound B base (cur ++ [⟨o, r⟩]) := by
    refine h.quiet hs hc fun s hmem hwait => ?_
    rw [ownSaves_concat, hsaved, ite_self, List.append_nil] at hmem
    exact hold hopens hs hc hl s hmem hwait
  have hbusy (hsaved : savedAt ⟨o, r⟩ = []) (hnot : openCalls cur ≠ [] ∨ Unpaused cur) :
      ∀ s ∈ ownSaves (cur ++ [⟨o, r⟩]), s.status = .awaitingApproval →
        Accounted B base (cur ++ [⟨o, r⟩]) [] 0 ⟨s, none⟩ := by
    intro s hmem hwait
    rw [ownSaves_concat, hsaved, ite_self, List.append_nil] at hmem
    rcases hnot with hnot | hnot
    · exact absurd (h.paused s hmem hwait).calls_eq hnot
    · exact absurd hwait (hnot s hmem)
  cases o with
  | uuid use =>
    rcases use with ⟨_ | depth⟩ | _
    · exact hsilent rfl rfl rfl (by simp) rfl
    · obtain ⟨hdepth, -, hlt⟩ := ho (Nat.succ_pos _)
      refine ⟨?_, fun hk => ?_, hbusy rfl (.inl fun hnil => by rw [hnil] at hdepth; cases hdepth)⟩
      · rw [← List.append_assoc, childRuns_concat]
        exact hlt
      · rw [← List.append_assoc] at hk ⊢
        rw [childSteps_concat]
        exact h.steps ((runsClose_concat _ _).1 hk).1
    · exact hsilent rfl rfl rfl (by simp) rfl
  | enterRun ctx l =>
    obtain ⟨hdepth, hchild, hroot⟩ := ho
    rcases Nat.eq_zero_or_pos ctx.depth with hzero | hpos
    · exact h.quiet rfl (by simp [isChildStep, hzero]) (hbusy rfl (.inr (hroot hzero)))
    · refine ⟨?_, fun hk => ?_, hbusy rfl (.inl fun hnil => ?_)⟩
      · rw [← List.append_assoc, childRuns_concat]
        exact h.runs
      · rw [← List.append_assoc] at hk ⊢
        have hlt := (hchild hpos).1 ((runsClose_concat _ _).1 hk).1
        rw [childSteps_concat]
        split <;> omega
      · rw [hdepth, hnil] at hpos
        cases hpos
  | leaveRun => exact h.quiet rfl rfl (hbusy rfl (.inl ho))
  | save store runId s =>
    refine h.quiet rfl rfl fun s' hmem hwait => ?_
    rw [ownSaves_concat] at hmem
    rcases List.mem_append.1 hmem with hmem | hmem
    · exact hold rfl rfl rfl (by simp) s' hmem hwait
    · split_ifs at hmem with hopen
      · obtain rfl := List.mem_singleton.1 hmem
        exact (ho.2.2 hopen hwait).quiet (.save store runId s') r rfl rfl rfl (by simp)
      · cases hmem
  | saveIfStatus store runId s expected =>
    refine h.quiet rfl rfl fun s' hmem hwait => ?_
    rw [ownSaves_concat] at hmem
    rcases List.mem_append.1 hmem with hmem | hmem
    · exact hold rfl rfl rfl (by simp) s' hmem hwait
    · split_ifs at hmem with hopen
      · obtain rfl := List.mem_singleton.1 hmem
        exact absurd hwait ho
      · cases hmem
  | llm prompt => exact hsilent rfl rfl rfl (by simp) rfl
  | now => exact hsilent rfl rfl rfl (by simp) rfl
  | load store runId => exact hsilent rfl rfl rfl (by simp) rfl
  | external tool ctx args => exact hsilent rfl rfl rfl (by simp) rfl

/-- Every event of a call is thrifty, and the call is sound as far as it went. -/
theorem sound_of_trace {α : Type} {p q : Prog Acts α} {es : List (Prog.Event Acts)}
    (ht : Prog.Trace p es q) {Q : List (Prog.Event Acts) → α → Prop}
    (hp : p.Follows (logging (Thrifty B base)) Q cur) (h : Sound B base cur) :
    Sound B base (cur ++ es) ∧
      ∀ past o r rest, es = past ++ ⟨o, r⟩ :: rest → Thrifty B base (cur ++ past) o := by
  have hafter := after_logging (J := Thrifty B base) cur es
  constructor
  · obtain ⟨φ', hφ', hsound, -⟩ := Prog.Follows.keeps (I := Sound B base)
      (fun cur o r hcur ho => ⟨_, rfl, sound_concat hcur ho r⟩) ht hp h
    rw [hafter] at hφ'
    cases hφ'
    exact hsound
  · intro past o r rest he
    obtain ⟨φ₁, hφ₁, hpermits⟩ := (Prog.Follows.of_trace ht hp hafter).2 past o r rest he
    rw [after_logging] at hφ₁
    cases hφ₁
    exact hpermits

theorem run_thrifty (h : a.Tree env B) (task : Str) (tainted : Bool) :
    (a.run env none task tainted).Follows (logging (Thrifty B [])) (fun _ _ => True) [] := by
  let R := thriftyRule a env B [] [] 0 (Nat.zero_le _) (by simp) (charges_of_tree h)
  refine (R.run_follows R.lastSave ?_ ?_).mono fun _ _ _ => trivial
  · exact fun (hpos : 0 < 0) => absurd hpos (Nat.lt_irrefl 0)
  · intro runId φ' hφ'
    cases hφ'
    have hnone : Unpaused [] := nofun
    exact ⟨⟨rfl, rfl, by simp, ⟨rfl, fun _ => rfl, nofun⟩, by simp, rfl⟩, hnone.quiet rfl, rfl⟩

/-- At the level of the root the steps of a run are not charged, so they do not matter. -/
theorem Accounted.root {s s' : RunState} (h : Accounted B base cur [] 0 ⟨s, none⟩)
    (hdeleg : s'.delegation = s.delegation) : Accounted B base cur [] 0 ⟨s', none⟩ := by
  refine ⟨h.calls_eq, rfl, by simp, ?_, by simp, h.settled⟩
  have hshared : (⟨s', none⟩ : Running).shared = (⟨s, none⟩ : Running).shared := by
    simp [Running.shared, hdeleg]
  rw [hshared]
  exact h.squared

theorem takeUp_thrifty (htree : a.Tree env B) {state : RunState}
    (h : state.status = .awaitingApproval → Accounted B base cur [] 0 ⟨state, none⟩)
    (hunpaused : Unpaused cur) (decisions : Dict Str Decision) :
    (a.takeUp env none state decisions).Follows (logging (Thrifty B base)) (fun _ _ => True)
      cur := by
  unfold Agent.takeUp
  split
  · trivial
  · rename_i pending approved hcheck
    obtain ⟨hstatus, hpending, -⟩ := checkDecision_eq_ok hcheck
    have haccounted : Accounted B base cur [] 0 ⟨Agent.claimed state, none⟩ :=
      (h hstatus).root rfl
    let R := thriftyRule a env B base [] 0 (Nat.zero_le _) (by simp) (charges_of_tree htree)
    have hgo (cur : List (Prog.Event Acts))
        (haccounted : Accounted B base cur [] 0 ⟨Agent.claimed state, none⟩)
        (hunpaused : Unpaused cur) :
        Prog.Follows (logging (Thrifty B base)) (fun _ _ => True) cur
          (a.answer env ⟨Agent.claimed state, none⟩ pending approved >>= fun e =>
            a.lastResort env e >>= fun e =>
              (pure (e.resumed, e.running.parent) : Prog Acts (Resumed × Option RunContext))) := by
      refine Prog.Follows.bind (R.answer_follows ?_ (fun _ => ?_) fun _ tool htool => ?_)
        fun φ e he => (R.lastResort_follows R.lastSave he).bind fun _ _ _ => trivial
      · exact ⟨haccounted, by simp⟩
      · exact ⟨haccounted.root rfl, by simp⟩
      · have ht := (Agent.mem_tools_of_tool? htool).1
        refine (runTool_thrifty haccounted (by simp) (Nat.zero_le _) (by simp) hunpaused
          (fun _ => rfl) (by simp) (charges_of_tree htree tool ht)).mono ?_
        rintro cur' e ⟨⟨hacc, hunp, hst, hx⟩, -⟩
        exact ⟨fun _ => ⟨hacc, hunp, hst⟩, fun hne => ⟨⟨hacc, fun _ => hunp⟩, hx hne⟩⟩
    have hclaimed {o : Act} (ans : o.Res) (ho : opens (openCalls cur) ⟨o, ans⟩ = openCalls cur)
        (hs : startsChild ⟨o, ans⟩ = false) (hc : isChildStep ⟨o, ans⟩ = false)
        (hl : o ≠ .leaveRun) (hsaved : savedAt ⟨o, ans⟩ = [Agent.claimed state]) :
        Accounted B base (cur ++ [⟨o, ans⟩]) [] 0 ⟨Agent.claimed state, none⟩ ∧
          Unpaused (cur ++ [⟨o, ans⟩]) := by
      refine ⟨haccounted.quiet o ans ho hs hc hl, fun s hs => ?_⟩
      rw [ownSaves_concat, hsaved] at hs
      rcases List.mem_append.1 hs with hs | hs
      · exact hunpaused s hs
      · split_ifs at hs
        · rw [List.mem_singleton.1 hs]
          simp [Agent.claimed]
        · cases hs
    unfold Agent.claim
    split
    · have hrunning : (Agent.claimed state).status ≠ .awaitingApproval := by
        simp [Agent.claimed]
      refine ⟨hrunning, fun (ans : Except Str Bool) φ' hφ' => ?_⟩
      cases hφ'
      obtain ⟨hacc, hunp⟩ := hclaimed (o := .saveIfStatus _ _ _ _) ans rfl rfl rfl (by simp) rfl
      rcases ans with _ | (_ | _)
      · trivial
      · trivial
      · exact hgo _ hacc hunp
    · refine ⟨⟨by rw [haccounted.settled]; simp, fun _ _ => by simp [haccounted.calls_eq],
        by simp [Agent.claimed]⟩, fun (ans : Except Str Unit) φ' hφ' => ?_⟩
      cases hφ'
      obtain ⟨hacc, hunp⟩ := hclaimed (o := .save _ _ _) ans rfl rfl rfl (by simp) rfl
      rcases ans with _ | _
      · trivial
      · exact hgo _ hacc hunp

/-- A tainted child taints its parent: if a child was saved as tainted inside a tool call, so is the
run the call belongs to. The closing of a child that paused is left out: what is saved there is
what the store returned. -/
def TaintsParent (es : List (Prog.Event Acts)) : Prop :=
  ∀ past ctx l mid store runId s ans rest,
    es = past ++ ⟨.enterRun ctx l, ()⟩ :: (mid ++ ⟨.leaveRun, ()⟩ ::
      ⟨.save store runId s, ans⟩ :: rest) →
    Balanced mid →
    (∃ store' runId' s' ans', (⟨.save store' runId' s', ans'⟩ : Prog.Event Acts) ∈ mid ∧
      s'.stopReason ≠ "approval_not_available".toList ∧ s'.tainted = true) →
    s.tainted = true

theorem taintsParent_of_thrifty
    (h : ∀ past o r rest, cur = past ++ ⟨o, r⟩ :: rest → Thrifty B base past o) :
    TaintsParent cur := by
  rintro past ctx l mid store runId s ans rest rfl hmid
    ⟨store', runId', s', ans', hmem, hreason, htainted⟩
  obtain ⟨mid₁, mid₂, rfl⟩ := List.append_of_mem hmem
  let flag := ctx.tainted || l.policy.taints
  let entered := past ++ [⟨.enterRun ctx l, ()⟩]
  have hentered : openCalls entered = flag :: openCalls past := openCalls_concat _ _
  -- the child's save is inside the call, so the call's flag is among those it finds set
  have hflag : flag = true := by
    obtain ⟨inner, hinner⟩ := hmid.foldl_opens_prefix (openCalls entered) rfl
    have hopen : openCalls (entered ++ mid₁) = inner ++ flag :: openCalls past := by
      rw [openCalls, List.foldl_append, ← openCalls, hinner, hentered]
    refine (h (entered ++ mid₁) (.save store' runId' s') ans' (mid₂ ++ ⟨.leaveRun, ()⟩ ::
      ⟨.save store runId s, ans⟩ :: rest) (by simp [entered])).2.1 hreason htainted flag ?_
    rw [hopen]
    exact List.mem_append_right _ List.mem_cons_self
  have hleft : openCalls (entered ++ (mid₁ ++ ⟨.save store' runId' s', ans'⟩ :: mid₂)) =
      flag :: openCalls past := by
    rw [openCalls, List.foldl_append, ← openCalls, hmid.foldl_opens, hentered]
  refine (h (entered ++ (mid₁ ++ ⟨.save store' runId' s', ans'⟩ :: mid₂) ++ [⟨.leaveRun, ()⟩])
    (.save store runId s) ans rest (by simp [entered])).1 ?_
  refine (returning_concat_leaveRun _ _).trans ?_
  rw [hleft, hflag]
  rfl

/-- What each call of a career leaves behind. -/
structure Solvent (B : Bounds) (base cur : List (Prog.Event Acts)) (saved : List RunState) :
    Prop where
  runs : childRuns (base ++ cur) ≤ B.delegations
  steps : runsClose (base ++ cur) → childSteps (base ++ cur) ≤ B.total
  within : ∀ e ∈ base ++ cur, WithinBounds B e
  taints : TaintsParent cur
  paused : ∀ s ∈ saved, s.status = .awaitingApproval →
    Squared B (base ++ cur) 0 0 (s.delegation.getD ⟨0, 0⟩)

theorem Squared.append {past es : List (Prog.Event Acts)} {level running : ℕ} {counters : Counters}
    (h : Squared B past level running counters)
    (hes : ∀ e ∈ es, startsChild e = false ∧ isChildStep e = false) :
    Squared B (past ++ es) level running counters := by
  induction es generalizing past with
  | nil => rwa [List.append_nil]
  | cons e es ih =>
    rw [List.append_cons]
    obtain ⟨hs, hc⟩ := hes e List.mem_cons_self
    exact ih (h.quiet hs hc) fun e he => hes e (List.mem_cons_of_mem _ he)

/-- A further call of a career, once its first events are thrifty. -/
theorem solvent_of_call {α : Type} {p q : Prog Acts α} (first : List (Prog.Event Acts))
    {es : List (Prog.Event Acts)}
    (hwithin : ∀ e ∈ base, WithinBounds B e) (hsound : Sound B base first)
    (hfirst : ∀ past o r rest, first = past ++ ⟨o, r⟩ :: rest → Thrifty B base past o)
    (ht : Prog.Trace p es q)
    (hp : p.Follows (logging (Thrifty B base)) (fun _ _ => True) first) :
    Solvent B base (first ++ es) (ownSaves (first ++ es)) := by
  obtain ⟨hsound, hes⟩ := sound_of_trace ht hp hsound
  have hthrifty (past : List (Prog.Event Acts)) (o : Act) (r : o.Res)
      (rest : List (Prog.Event Acts)) (he : first ++ es = past ++ ⟨o, r⟩ :: rest) :
      Thrifty B base past o := by
    rcases List.append_eq_append_iff.1 he with ⟨as, rfl, has⟩ | ⟨_ | ⟨b, bs⟩, hfst, hbs⟩
    · exact hes as o r rest has
    · rw [List.append_nil] at hfst
      subst hfst
      simpa using hes [] o r rest hbs.symm
    · obtain ⟨rfl, -⟩ := List.cons.inj (hbs.trans (List.cons_append ..))
      exact hfirst past o r bs hfst
  refine ⟨hsound.runs, hsound.steps, fun e he => ?_, taintsParent_of_thrifty hthrifty,
    fun s hs hwait => (hsound.paused s hs hwait).squared⟩
  rcases List.mem_append.1 he with he | he
  · exact hwithin e he
  · obtain ⟨past, rest, hsplit⟩ := List.append_of_mem he
    exact (hthrifty past e.1 e.2 rest hsplit).withinBounds e.2

theorem solvent_of_career (htree : a.Tree env B) {saved : List RunState}
    (h : Career a env base cur saved) : Solvent B base cur saved := by
  induction h with
  | start task tainted ht =>
    exact solvent_of_call [] (by simp)
      ⟨Nat.zero_le _, fun _ => Nat.zero_le _, by simp⟩ (by simp) ht (run_thrifty htree task tainted)
  | @resume base cur saved _ state hs decisions es q ht ih =>
    let load : Prog.Event Acts := ⟨.load a.store state.runId, Loaded.found ⟨state, rfl⟩⟩
    cases ht with
    | step _ ht =>
      have hnew : Sound B (base ++ cur) [] :=
        ⟨by simpa using ih.runs, by simpa using ih.steps, by simp⟩
      have hloaded : state.status = .awaitingApproval →
          Accounted B (base ++ cur) [load] [] 0 ⟨state, none⟩ := fun hwait =>
        ⟨rfl, rfl, by simp, (ih.paused state hs hwait).quiet rfl rfl, by simp, rfl⟩
      have hnone : Unpaused [] := nofun
      have hcall : Solvent B (base ++ cur) (load :: es) (ownSaves (load :: es)) := by
        refine solvent_of_call [load] ih.within
          (sound_concat (o := .load a.store state.runId) hnew trivial _) ?_ ht
          (takeUp_thrifty htree hloaded (hnone.quiet rfl) decisions)
        rintro (_ | ⟨e, past⟩) o r rest he
        · have hload : Act.load a.store state.runId = o :=
            congrArg Sigma.fst (List.cons.inj he).1
          subst hload
          trivial
        · simp at he
      refine ⟨hcall.runs, hcall.steps, hcall.within, hcall.taints, fun s hmem hwait => ?_⟩
      rcases List.mem_append.1 hmem with hmem | hmem
      · split_ifs at hmem with hclaims
        · cases hmem
        · refine (ih.paused s hmem hwait).append fun e he => ?_
          rcases List.mem_cons.1 he with rfl | he
          · exact ⟨rfl, rfl⟩
          · rcases trace_of_not_claims ht (by simpa using hclaims) with
              rfl | ⟨s, expected, ans, rfl⟩ | ⟨s, ans, rfl⟩
            · cases he
            · obtain rfl := List.mem_singleton.1 he
              exact ⟨rfl, rfl⟩
            · obtain rfl := List.mem_singleton.1 he
              exact ⟨rfl, rfl⟩
      · exact hcall.paused s hmem hwait

/-- **The delegation budget.** Over a whole career in which no run was left by an exception that its
closing save did not end: the children started stay within the delegations, the steps they take
within `max_child_steps - 1` and eight for each level of depth, no child runs too deep or enters a
tool that needs approval, and a tainted child taints its parent. -/
theorem delegation_within_budget (htree : a.Tree env B) {saved : List RunState}
    (h : Career a env base cur saved) (hcloses : runsClose (base ++ cur)) :
    childRuns (base ++ cur) ≤ B.delegations ∧ childSteps (base ++ cur) ≤ B.total ∧
      (∀ e ∈ base ++ cur, WithinBounds B e) ∧ TaintsParent cur := by
  have hsolvent := solvent_of_career htree h
  exact ⟨hsolvent.runs, hsolvent.steps hcloses, hsolvent.within, hsolvent.taints⟩

end Career

/-! ## A crew of two -/

/-- A reply that asks for a tool, and its value. -/
def asking (tool : String) (args : Json) : String × Json :=
  (String.ofList ("\x7b\"tool\": \"".toList ++ tool.toList ++ "\", \"arguments\": ".toList
      ++ flat args ++ "\x7d".toList),
    .obj [("tool".toList, .str tool.toList), ("arguments".toList, args)])

def handOver (task : String) : String × Json :=
  asking "delegate"
    (.obj [("agent".toList, .str "helper".toList), ("task".toList, .str task.toList)])

def work (n : String) : String × Json := asking "work" (.obj [("n".toList, .str n.toList)])

def stopAsking : String × Json :=
  ("\x7b\"tool\": \"done\"\x7d", .obj [("tool".toList, .str "done".toList)])

def crewEnv : Env :=
  .on [handOver "a", handOver "b", work "1", work "2", work "3", work "4", work "5", stopAsking] [
      ("\x7b\"agent\": \"helper\", \"task\": \"a\"\x7d",
        "714ba7b63461d80867daaebf6a88d88865ae390a6838bc73124f2cffebd8c785"),
      ("\x7b\"agent\": \"helper\", \"task\": \"b\"\x7d",
        "0f3fc43b46a92b260d73b9a2ca03fe9908c994a3dd79733e7da0eb02be067a8f"),
      ("\x7b\"n\": \"1\"\x7d",
        "fbf03fa30e9f1d9d9c00862579f0c8447d1b15cfdc589d8b8889a1dab6a5b6f1"),
      ("\x7b\"n\": \"2\"\x7d",
        "902218ea8f79bc3ff399bd2b62edec6c89736f8a24277bcc2152455d6a81a41b"),
      ("\x7b\"n\": \"3\"\x7d",
        "ac3be7b3bf0d4def5cfcd0a6d9e6d6716e1b5f6187b2450c8d078e658e1c4111"),
      ("\x7b\"n\": \"4\"\x7d",
        "cc364f7f55dcb0f29293ea74943ae7768d90a977678b4285932cabdcf339da7e"),
      ("\x7b\"n\": \"5\"\x7d",
        "5e228a98b8ba52da09e4bd2ac08aa0f547bf5a9ed9ad38f3697a9e136b7f9df5")]

/-- A policy that declares one tool, which may taint. -/
def declaring (tool : String) (maxSteps : ℤ) : Policy where
  maxSteps := maxSteps
  deadlineSeconds := none
  tools := Dict.empty.set tool.toList { outbound := false }

/-- An agent whose tool brings content in. -/
def helper : Agent where
  tools := [.external "work".toList [] ⟨Dict.empty.set "n".toList ⟨none, none⟩, []⟩]
  policy := declaring "work" 8
  store := ⟨1, true⟩
  summarize := false
  native := false
  named := by decide
  distinct := by decide
  declared name h := by
    rw [declaring, Dict.get?_set] at h
    split_ifs at h with hname
    · simp [Tool.external, hname]
    · exact absurd rfl h

def helping : Delegation where
  children := Dict.empty.set "helper".toList helper
  budget := { maxChildSteps := 1 }
  named := by decide
  checked := rfl

/-- An agent that hands its tasks to the helper. -/
def boss : Agent where
  tools := [helping.tool crewEnv]
  policy := declaring "delegate" 4
  store := ⟨0, true⟩
  summarize := false
  native := false
  named := by decide
  distinct := by decide
  declared name h := by
    rw [declaring, Dict.get?_set] at h
    split_ifs at h with hname
    · simp [Delegation.tool, helping, hname]
    · exact absurd rfl h

def crewBounds : Bounds := ⟨4, 1, 1⟩

theorem tree_boss : boss.Tree crewEnv crewBounds := by
  have hhelper : helper.Tree crewEnv crewBounds := by
    refine .mk (fun _ => none) (fun t ht _ => ?_) nofun nofun
    obtain rfl := List.mem_singleton.1 ht
    exact ⟨_, _, _, rfl⟩
  refine .mk (fun _ => some helping) nofun (fun t ht d hd => ?_)
    fun t ht d hd name child hchild => ?_
  · cases hd
    exact ⟨List.mem_singleton.1 ht, ⟨by decide, by decide, by decide, fun _ _ _ => rfl⟩⟩
  · cases hd
    change (Dict.empty.set "helper".toList helper).get? name = some child at hchild
    rw [Dict.get?_set] at hchild
    split_ifs at hchild
    · cases hchild
      exact hhelper
    · cases hchild

/-- The answers while the helper works on `n`, with the answer to the save at the end. -/
def working (n : String) (saves : (o : Act) → o.Res) : List ((o : Act) → o.Res) :=
  [goesThrough (work n).1, goesThrough "", goesThrough "", goesThrough "", saves]

/-- The answers of a world whose stores raise. -/
def storeRaises : (o : Act) → o.Res
  | .save .. => .error "OperationalError".toList
  | o => goesThrough "" o

/-- The answers while the boss hands a task over. -/
def handing (task : String) (child : List ((o : Act) → o.Res)) : List ((o : Act) → o.Res) :=
  [goesThrough (handOver task).1, goesThrough "", goesThrough ""] ++ child ++
    [goesThrough "", goesThrough ""]

/-- A task handed over and done in one step. -/
theorem delegation_within_budget_one_step :
    ∃ cur saved, Career boss crewEnv [] cur saved ∧ childSteps cur = 1 ∧
      childRuns ([] ++ cur) ≤ crewBounds.delegations ∧
      childSteps ([] ++ cur) ≤ crewBounds.total ∧
      (∀ e ∈ [] ++ cur, WithinBounds crewBounds e) ∧ TaintsParent cur := by
  let ws := goesThrough "" :: handing "a" (working "1" (goesThrough "") ++
    [goesThrough stopAsking.1, goesThrough ""])
  obtain ⟨q, ht⟩ := Prog.exists_trace_play (boss.run crewEnv none "go".toList false) ws
  refine ⟨_, _, .start _ _ ht, by decide +kernel,
    delegation_within_budget tree_boss (.start _ _ ht) ?_⟩
  unfold runsClose
  decide +kernel

/-- Where a child's store raises, the steps it took are not charged. -/
theorem uncharged_steps_exceed_budget :
    ¬ ∀ (B : Bounds) (a : Agent) (env : Env) (base cur : List (Prog.Event Acts))
      (saved : List RunState), a.Tree env B → Career a env base cur saved →
        childSteps (base ++ cur) ≤ B.total := by
  intro h
  let five := working "1" (goesThrough "") ++ working "2" (goesThrough "") ++
    working "3" (goesThrough "") ++ working "4" (goesThrough "") ++ working "5" storeRaises ++
    [storeRaises]
  obtain ⟨q, ht⟩ := Prog.exists_trace_play (boss.run crewEnv none "go".toList false)
    (goesThrough "" :: (handing "a" five ++ handing "b" five))
  have hle := h _ _ _ _ _ _ tree_boss (.start _ _ ht)
  revert hle
  decide +kernel

end RagLeap.Agents
