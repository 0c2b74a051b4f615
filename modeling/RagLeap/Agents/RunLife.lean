import RagLeap.Agents.DriveRule

/-!
# Taint, approval and bounds of a run

A `Life` of a run is a call of `run` and any number of calls of `resume` that each take up a state
the run was saved in, with any replies of the model, any outcomes of the tools and a store that may
raise. `lawful_of_life` says what holds at every moment of every life: a tool that needs approval
is entered only right after a decision that is exactly `True` for its call, the taint flag is what
the history says, the recorded steps stay within the limit and no signature comes up twice.
-/

namespace RagLeap.Agents

/-! ## What happens in a run -/

/-- A decision that is exactly `True` was given for a pending call, a tool was entered, a state was
sent to the store, or the caller was told a result. -/
inductive Moment
  | granted (callId tool : Str) (sig : Sig)
  | launched (launch : Launch)
  | saved (state : RunState)
  | told (result : RunResult)

def Act.moment : Act → List Moment
  | .enterRun _ launch => [.launched launch]
  | .save _ _ state | .saveIfStatus _ _ state _ => [.saved state]
  | _ => []

/-- How deep in tool calls a statement leaves a run. -/
def Act.nest (n : ℕ) : Act → ℕ
  | .enterRun .. => n + 1
  | .leaveRun => n - 1
  | _ => n

/-- The moments of a run's own statements; what happens inside its tool calls is no part of them. -/
def moments : ℕ → List (Prog.Event Acts) → List Moment
  | _, [] => []
  | n, e :: es => (if n = 0 then e.1.moment else []) ++ moments (e.1.nest n) es

/-- The states a run was sent to the store in. -/
def savedIn (ms : List Moment) : List RunState :=
  ms.filterMap fun | .saved state => some state | _ => none

/-- The tool calls of a run. -/
def launchesOf (ms : List Moment) : List Launch :=
  ms.filterMap fun | .launched launch => some launch | _ => none

/-- What a call that returned tells its caller. -/
def tells {α : Type} (result? : α → Option RunResult) : Prog Acts α → List Moment
  | .ret a => ((result? a).map Moment.told).toList
  | .op .. => []

def ranResult (x : Except Str RunResult × Option RunContext) : Option RunResult := x.1.toOption

def resumedResult (x : Resumed × Option RunContext) : Option RunResult :=
  match x.1 with
  | .result r => some r
  | _ => none

/-- The decision on the pending call, where it is exactly `True`. -/
def grants (state : RunState) (decisions : Dict Str Decision) : List Moment :=
  match state.pending with
  | some p =>
    if decisions.get? p.callId = some (.bool true) then [.granted p.callId p.tool p.sig] else []
  | none => []

/-- Whether a `resume` claimed its run: the first write after the load went through. -/
def claims : List (Prog.Event Acts) → Bool
  | ⟨.saveIfStatus .., .ok true⟩ :: _ => true
  | ⟨.save .., .ok _⟩ :: _ => true
  | _ => false

/-- `Life a env tainted ms saved`: a run of `a`, started `tainted` or not, went through the moments
`ms`, and the store may hold it in one of the states `saved`. -/
inductive Life (a : Agent) (env : Env) (tainted : Bool) : List Moment → List RunState → Prop
  | start (parent : Option RunContext) (task : Str) {es : List (Prog.Event Acts)}
      {q : Prog Acts (Except Str RunResult × Option RunContext)}
      (ht : Prog.Trace (a.run env parent task tainted) es q) :
      Life a env tainted (moments 0 es ++ tells ranResult q) (savedIn (moments 0 es))
  | resume {ms : List Moment} {saved : List RunState} (h : Life a env tainted ms saved)
      {state : RunState} (hs : state ∈ saved) (parent : Option RunContext)
      (decisions : Dict Str Decision) {es : List (Prog.Event Acts)}
      {q : Prog Acts (Resumed × Option RunContext)}
      (ht : Prog.Trace (a.resume env parent state.runId decisions)
        (⟨.load a.store state.runId, Loaded.found ⟨state, rfl⟩⟩ :: es) q) :
      Life a env tainted (ms ++ grants state decisions ++ moments 0 es ++ tells resumedResult q)
        ((if claims es then [] else saved) ++ savedIn (moments 0 es))

/-! ## The law -/

/-- The run started tainted, or a tool marked as tainting was entered. -/
def taintedBy (tainted : Bool) (past : List Moment) : Bool :=
  tainted || (launchesOf past).any fun launch => launch.policy.taints

/-- What a moment has to satisfy after the moments before it. -/
def Lawful (a : Agent) (tainted : Bool) (past : List Moment) : Moment → Prop
  | .granted .. => True
  | .launched l =>
    l.policy = a.policy.forTool l.tool ∧
    l.sig ∉ (launchesOf past).map Launch.sig ∧
    (l.policy.requiresApproval = true ∨ taintedBy tainted past = true ∧ l.policy.outbound = true →
      ∃ past₀ callId state, l.approved = some callId ∧
        past = past₀ ++ [.granted callId l.tool l.sig, .saved state])
  | .saved s =>
    s.tainted = taintedBy tainted past ∧ s.steps.length ≤ a.limit ∧ (s.steps.map Step.sig).Nodup
  | .told r =>
    r.tainted = taintedBy tainted past ∧ r.steps.length ≤ a.limit ∧ (r.steps.map Step.sig).Nodup

/-- Every moment satisfies `J` after the moments before it. -/
def Judged (J : List Moment → Moment → Prop) (ms : List Moment) : Prop :=
  ∀ past m rest, ms = past ++ m :: rest → J past m

section Judged

variable {J : List Moment → Moment → Prop} {ms ms' : List Moment}

theorem judged_nil : Judged J [] := fun past m rest h => by simp at h

/-- Judging a continuation: each of its moments after everything before it. -/
theorem judged_append :
    Judged J (ms ++ ms') ↔ Judged J ms ∧ Judged (fun past m => J (ms ++ past) m) ms' := by
  constructor
  · refine fun h => ⟨fun past m rest he => h past m (rest ++ ms') (by simp [he]),
      fun past m rest he => h (ms ++ past) m rest (by simp [he])⟩
  · rintro ⟨h, h'⟩ past m rest he
    rcases List.append_eq_append_iff.1 he with ⟨as, rfl, has⟩ | ⟨bs, rfl, hbs⟩
    · exact h' as m rest has
    · rcases bs with _ | ⟨b, bs⟩
      · simp only [List.nil_append] at hbs
        simpa using h' [] m rest hbs.symm
      · simp only [List.cons_append, List.cons.injEq] at hbs
        obtain ⟨rfl, rfl⟩ := hbs
        exact h past m bs rfl

@[simp] theorem judged_singleton {m : Moment} : Judged J [m] ↔ J [] m := by
  constructor
  · exact fun h => h [] m [] rfl
  · rintro h past m' rest he
    rcases past with _ | ⟨p, past⟩
    · simp only [List.nil_append, List.cons.injEq] at he
      exact he.1 ▸ h
    · simp at he

theorem Judged.mono {J' : List Moment → Moment → Prop} (h : Judged J ms)
    (hJ : ∀ past m, J past m → J' past m) : Judged J' ms :=
  fun past m rest he => hJ past m (h past m rest he)

end Judged

/-! ## Recording the moments of a run -/

/-- Each moment of a run satisfies `J` after the moments before it. -/
def recording (J : List Moment → Moment → Prop) : Protocol Acts where
  Phase := List Moment
  permits past o := ∀ m ∈ o.moment, J past m
  next past o _ := some (past ++ o.moment)

section Recording

variable {J : List Moment → Moment → Prop}

/-- No run id is barred. -/
abbrev anyRun : Str → Prop := fun _ => False

theorem next_own_recording (past : List Moment) (n : ℕ) (o : Act) (r : o.Res) :
    (own (recording J) anyRun).next (past, n) o r =
      some (past ++ (if n = 0 then o.moment else []), o.nest n) := by
  cases n with
  | zero => cases o <;> rfl
  | succ n =>
    rw [if_neg (Nat.succ_ne_zero n), List.append_nil]
    cases o with
    | uuid use => cases use <;> rfl
    | _ => rfl

/-- What the typestate means for a trace: the moments were recorded and judged. -/
theorem judged_of_trace {α : Type} {p q : Prog Acts α} {es : List (Prog.Event Acts)}
    (ht : Prog.Trace p es q) {Q : List Moment × ℕ → α → Prop} {past : List Moment} {n : ℕ}
    (hp : p.Follows (own (recording J) anyRun) Q (past, n)) (h : Judged J past) :
    Judged J (past ++ moments n es) ∧
      ∃ n', q.Follows (own (recording J) anyRun) Q (past ++ moments n es, n') := by
  induction ht generalizing past n with
  | refl p => exact ⟨by simpa [moments] using h, n, by simpa [moments] using hp⟩
  | step r ht ih =>
    rename_i o k es q
    have hnext := next_own_recording (J := J) past n o r
    have hjudged : Judged J (past ++ (if n = 0 then o.moment else [])) := by
      cases n with
      | succ n => simpa using h
      | zero =>
        have hpermits : ∀ m ∈ o.moment, J past m := by
          cases o with
          | leaveRun => exact hp.1.elim
          | _ => exact hp.1
        rw [if_pos rfl, judged_append]
        refine ⟨h, ?_⟩
        cases o with
        | enterRun | save | saveIfStatus => simpa [Act.moment] using hpermits
        | _ => exact judged_nil
    have := ih (hp.2 r _ hnext) hjudged
    rwa [List.append_assoc] at this

end Recording

/-! ## The run in memory -/

section Tracked

variable {a : Agent} {env : Env} {tainted : Bool} {past ms : List Moment} {s : RunState}

@[simp] theorem launchesOf_append : launchesOf (past ++ ms) = launchesOf past ++ launchesOf ms :=
  List.filterMap_append

@[simp] theorem launchesOf_nil : launchesOf [] = [] := rfl

@[simp] theorem launchesOf_saved (state : RunState) :
    launchesOf (.saved state :: ms) = launchesOf ms := rfl

@[simp] theorem launchesOf_launched (l : Launch) :
    launchesOf (.launched l :: ms) = l :: launchesOf ms := rfl

@[simp] theorem launchesOf_told (r : RunResult) : launchesOf (.told r :: ms) = launchesOf ms := rfl

@[simp] theorem launchesOf_granted (callId tool : Str) (sig : Sig) :
    launchesOf (.granted callId tool sig :: ms) = launchesOf ms := rfl

@[simp] theorem savedIn_append : savedIn (past ++ ms) = savedIn past ++ savedIn ms :=
  List.filterMap_append

@[simp] theorem savedIn_nil : savedIn [] = [] := rfl

@[simp] theorem savedIn_saved (state : RunState) :
    savedIn (.saved state :: ms) = state :: savedIn ms := rfl

@[simp] theorem savedIn_launched (l : Launch) : savedIn (.launched l :: ms) = savedIn ms := rfl

@[simp] theorem launchesOf_tells {α : Type} (result? : α → Option RunResult) (q : Prog Acts α) :
    launchesOf (tells result? q) = [] := by
  cases q with
  | op o k => rfl
  | ret x =>
    rw [tells]
    cases result? x <;> rfl

/-- The state of a run agrees with its history. -/
structure Tracked (a : Agent) (tainted : Bool) (past : List Moment) (s : RunState) : Prop where
  taint : s.tainted = taintedBy tainted past
  launched : ∀ l ∈ launchesOf past, l.sig ∈ s.steps.map Step.sig
  nodup : (s.steps.map Step.sig).Nodup
  below : s.steps.length ≤ a.limit

theorem Tracked.congr (h : Tracked a tainted past s) {past' : List Moment} {s' : RunState}
    (hpast : launchesOf past' = launchesOf past) (htaint : s'.tainted = s.tainted)
    (hsteps : s'.steps = s.steps) : Tracked a tainted past' s' := by
  refine ⟨?_, ?_, ?_, ?_⟩
  · rw [htaint, h.taint, taintedBy, taintedBy, hpast]
  · rw [hpast, hsteps]
    exact h.launched
  · rw [hsteps]
    exact h.nodup
  · rw [hsteps]
    exact h.below

theorem Tracked.lawful_saved (h : Tracked a tainted past s) : Lawful a tainted past (.saved s) :=
  ⟨h.taint, h.below, h.nodup⟩

theorem Tracked.lawful_told (h : Tracked a tainted past s) :
    Lawful a tainted past (.told s.result) :=
  ⟨h.taint, h.below, h.nodup⟩

/-- The state with one more step, of a tool that was entered or of a call that was rejected. -/
theorem Tracked.step (h : Tracked a tainted past s) {s' : RunState} {step : Step} {taints : Bool}
    {past' : List Moment} (hsteps : s'.steps = s.steps ++ [step])
    (htaint : s'.tainted = (s.tainted || taints))
    (hnew : step.sig ∉ s.steps.map Step.sig) (hlt : s.steps.length < a.limit)
    (hpast : (launchesOf past' = launchesOf past ∧ taints = false) ∨
      ∃ l, launchesOf past' = launchesOf past ++ [l] ∧ l.sig = step.sig ∧
        l.policy.taints = taints) : Tracked a tainted past' s' := by
  refine ⟨?_, fun l hl => ?_, ?_, ?_⟩
  · rcases hpast with ⟨hp, rfl⟩ | ⟨l, hp, -, rfl⟩
    · rw [htaint, h.taint, taintedBy, taintedBy, hp, Bool.or_false]
    · rw [htaint, h.taint, taintedBy, taintedBy, hp, List.any_append, Bool.or_assoc]
      simp
  · rw [hsteps, List.map_append, List.mem_append]
    rcases hpast with ⟨hp, -⟩ | ⟨l', hp, hsig, -⟩
    · exact .inl (h.launched l (hp ▸ hl))
    · rw [hp, List.mem_append] at hl
      rcases hl with hl | hl
      · exact .inl (h.launched l hl)
      · rw [List.mem_singleton.1 hl, hsig]
        exact .inr (by simp)
  · rw [hsteps, List.map_append, List.nodup_append]
    refine ⟨h.nodup, by simp, fun sig hsig sig' hsig' heq => hnew ?_⟩
    rw [List.map_singleton, List.mem_singleton] at hsig'
    rwa [← hsig', ← heq]
  · rw [hsteps, List.length_append]
    exact hlt

/-- A paused run: it agrees with its history, and its pending call is a fresh one. -/
structure Ready (a : Agent) (tainted : Bool) (past : List Moment) (s : RunState) : Prop where
  tracked : Tracked a tainted past s
  below : s.steps.length < a.limit
  new : ∀ p ∈ s.pending, p.sig ∉ s.steps.map Step.sig

theorem Ready.congr (h : Ready a tainted past s) {past' : List Moment}
    (hpast : launchesOf past' = launchesOf past) : Ready a tainted past' s :=
  ⟨h.tracked.congr hpast rfl rfl, h.below, h.new⟩

/-- What is shown of each moment of a call: the law, that a state saved as paused is ready, and that
no tool is entered after one was saved. -/
def Kept (a : Agent) (tainted : Bool) (base cur : List Moment) (m : Moment) : Prop :=
  Lawful a tainted (base ++ cur) m ∧
  match m with
  | .saved s => s.status = .awaitingApproval → Ready a tainted (base ++ cur) s
  | .launched _ => ∀ s ∈ savedIn cur, s.status ≠ .awaitingApproval
  | _ => True

/-- The run between two turns: it agrees with its history and was not saved as paused. -/
structure Between (a : Agent) (tainted : Bool) (base cur : List Moment) (s : RunState) : Prop where
  tracked : Tracked a tainted (base ++ cur) s
  running : s.status = .running
  unpaused : ∀ s' ∈ savedIn cur, s'.status ≠ .awaitingApproval

variable {base cur : List Moment}

/-- Saving a run that agrees with its history. -/
theorem saves_kept {store : Store} {r : Running} {Q E : List Moment → Running → Prop}
    (h : Tracked a tainted (base ++ cur) r.state)
    (hwait : r.state.status = .awaitingApproval → Ready a tainted (base ++ cur) r.state)
    (hq : Tracked a tainted (base ++ (cur ++ [.saved r.state])) r.state →
      Q (cur ++ [.saved r.state]) r ∧ E (cur ++ [.saved r.state]) r) :
    Saves (recording (Kept a tainted base)) cur store r Q E := by
  have htracked : Tracked a tainted (base ++ (cur ++ [.saved r.state])) r.state :=
    h.congr (by simp) rfl rfl
  refine ⟨fun m hm => ?_, fun ans φ' hφ' => ?_⟩
  · rw [List.mem_singleton.1 hm]
    exact ⟨h.lawful_saved, hwait⟩
  · cases hφ'
    exact ⟨fun _ => (hq htracked).1, fun _ => (hq htracked).2⟩

/-- Entering a tool with a fresh signature and, where it needs one, an approval. -/
theorem launches_kept {r : Running} {tool : Tool} {args : Json} {sig : Sig} {forced : Bool}
    {approved : Option Str} (h : Between a tainted base cur r.state)
    (hlt : r.state.steps.length < a.limit) (hnew : sig ∉ r.state.steps.map Step.sig)
    (happroved : (a.policy.forTool tool.name).requiresApproval = true ∨
        taintedBy tainted (base ++ cur) = true ∧ (a.policy.forTool tool.name).outbound = true →
      ∃ past₀ callId state, approved = some callId ∧
        base ++ cur = past₀ ++ [.granted callId tool.name sig, .saved state]) :
    Launches (recording (Kept a tainted base)) cur a env r tool args sig forced approved
      (fun (cur : List Moment) r => Between a tainted base cur r.state)
      (fun (cur : List Moment) r => Tracked a tainted (base ++ cur) r.state) := by
  refine ⟨fun m hm => ?_, fun _ φ' hφ' out counters => ?_⟩
  · rw [List.mem_singleton.1 hm]
    refine ⟨⟨rfl, fun hmem => ?_, happroved⟩, h.unpaused⟩
    obtain ⟨l, hl, hsig⟩ := List.mem_map.1 hmem
    exact hnew ((show l.sig = sig from hsig) ▸ h.tracked.launched l hl)
  · cases hφ'
    let l : Launch := ⟨tool.name, a.policy.forTool tool.name, sig, approved⟩
    have htracked : Tracked a tainted (base ++ (cur ++ [.launched l]))
        (a.afterCall env r tool args sig forced out counters).state :=
      h.tracked.step (afterCall_steps ..) (afterCall_tainted ..) hnew hlt
        (.inr ⟨l, by simp, rfl, rfl⟩)
    have hrunning : (a.afterCall env r tool args sig forced out counters).state.status =
        .running := by
      rw [afterCall_status, h.running]
    refine saves_kept htracked (fun hw => by rw [hrunning] at hw; cases hw) fun ht => ⟨?_, ht⟩
    refine ⟨ht, hrunning, fun s' hs' => ?_⟩
    rw [show savedIn (cur ++ Act.moment (.enterRun r.context l) ++ [.saved (a.afterCall env r tool
      args sig forced out counters).state]) = savedIn cur ++ [(a.afterCall env r tool args sig
      forced out counters).state] by simp [Act.moment], List.mem_append, List.mem_singleton] at hs'
    rcases hs' with hs' | rfl
    · exact h.unpaused s' hs'
    · rw [hrunning]
      nofun

/-- The loop keeps to the law. -/
def keptRule (a : Agent) (env : Env) (tainted : Bool) (base : List Moment) :
    OwnRule a env (recording (Kept a tainted base)) where
  Live cur r := Between a tainted base cur r.state
  Open (cur : List Moment) r := Tracked a tainted (base ++ cur) r.state
  Left (cur : List Moment) r := Tracked a tainted (base ++ cur) r.state
  Done (cur : List Moment) r := Tracked a tainted (base ++ cur) r.state
  open_of_live h := h.tracked
  open_of_left h := h
  asks {φ o} ho := by
    cases ho <;>
    · refine ⟨by simp [recording, Act.moment], fun r φ' hφ' => ?_⟩
      cases hφ'
      exact List.append_nil _
  closing h status hs reason summary := by
    refine saves_kept (h.congr rfl rfl rfl) (fun hw => ?_) fun ht => ⟨ht, ht⟩
    simp only [Agent.close] at hw
    subst hw
    simp at hs
  pausing := @fun (cur : List Moment) r tool args h hfresh forced => by
    refine ⟨by simp [recording, Act.moment], fun callId φ' hφ' => ?_⟩
    cases hφ'
    rw [show (cur ++ Act.moment (.uuid .call)) = cur from List.append_nil cur]
    refine saves_kept (h.tracked.congr rfl rfl rfl) (fun _ => ?_) fun ht => ⟨ht, ht⟩
    refine ⟨h.tracked.congr rfl rfl rfl, hfresh.below, fun p hp => ?_⟩
    cases hp
    simpa [Running.paused] using hfresh.new
  launching h hfresh hfree := by
    refine launches_kept h hfresh.below (by simpa using hfresh.new) ?_
    rintro (hreq | ⟨htaint, hout⟩)
    · rw [hfree.1] at hreq
      cases hreq
    · rw [hfree.2 (h.tracked.taint.trans htaint)] at hout
      cases hout

end Tracked

/-! ## Whole lives -/

theorem checkDecision_eq_ok {state : RunState} {decisions : Dict Str Decision}
    {pending : PendingCall} {approved : Bool}
    (h : checkDecision state decisions = .ok (pending, approved)) :
    state.status = .awaitingApproval ∧ state.pending = some pending ∧
      decisions.get? pending.callId = some (.bool approved) := by
  unfold checkDecision at h
  split at h
  · rename_i p hstatus hpending
    split at h
    · cases h
    · rename_i d hd
      split at h
      · cases h
      · split at h
        · cases h
          exact ⟨hstatus, hpending, hd⟩
        · cases h
  · cases h

/-- A decision is accepted only if it is the only one given. -/
theorem keys_of_checkDecision {state : RunState} {decisions : Dict Str Decision}
    {pending : PendingCall} {approved : Bool}
    (h : checkDecision state decisions = .ok (pending, approved)) :
    decisions.items.map Prod.fst = [pending.callId] := by
  unfold checkDecision at h
  split at h
  · split at h
    · cases h
    · split at h
      · cases h
      · rename_i hkeys
        split at h
        · cases h
          exact not_not.1 hkeys
        · cases h
  · cases h

section Life

variable {a : Agent} {env : Env} {tainted : Bool} {base : List Moment}

/-- The end of a loop that keeps to the law. -/
theorem lawful_told_of_stopped {φ : List Moment × ℕ} {e : Ended}
    (h : ((keptRule a env tainted base).toDriveRule anyRun).Stopped φ e) {r : RunResult}
    (hr : e.outcome = .ok r) : Lawful a tainted (base ++ φ.1) (.told r) := by
  unfold Ended.outcome at hr
  split at hr
  · rename_i hnone
    cases hr
    exact (h.1 hnone).2.lawful_told
  · cases hr

theorem run_kept (parent : Option RunContext) (task : Str) :
    (a.run env parent task tainted).Follows (own (recording (Kept a tainted [])) anyRun)
      (fun φ x => ∀ r, ranResult x = some r → Lawful a tainted φ.1 (.told r)) ([], 0) := by
  let R := (keptRule a env tainted []).toDriveRule anyRun
  refine (R.run_follows R.lastSave ?_ ?_).mono ?_
  · exact fun m hm => by cases hm
  · rintro runId _ hφ'
    cases hφ'
    exact ⟨rfl, ⟨by simp [Agent.start, taintedBy, Act.moment], by simp [Act.moment],
      by simp [Agent.start], by simp [Agent.start]⟩, rfl, by simp [Act.moment]⟩
  · rintro φ _ ⟨e, he, rfl⟩ r hr
    refine lawful_told_of_stopped he ?_
    unfold ranResult at hr
    cases hout : e.outcome with
    | ok r' =>
      rw [hout] at hr
      cases hr
      rfl
    | error x =>
      rw [hout] at hr
      cases hr

theorem claim_kept {state : RunState} (h : Tracked a tainted base state) :
    (a.claim state).Follows (own (recording (Kept a tainted base)) anyRun)
      (fun φ refusal => (refusal = none → φ = ([.saved (Agent.claimed state)], 0)) ∧
        ∀ r, refusal ≠ some (.result r)) ([], 0) := by
  have hkept : Kept a tainted base [] (.saved (Agent.claimed state)) :=
    ⟨(h.congr (by simp) rfl rfl).lawful_saved, by simp [Agent.claimed]⟩
  have hpermits : ∀ m ∈ [Moment.saved (Agent.claimed state)], Kept a tainted base [] m :=
    fun m hm => List.mem_singleton.1 hm ▸ hkept
  unfold Agent.claim
  split
  · refine ⟨hpermits, fun (ans : Except Str Bool) φ' hφ' => ?_⟩
    cases hφ'
    rcases ans with _ | (_ | _)
    · exact ⟨nofun, nofun⟩
    · exact ⟨nofun, nofun⟩
    · exact ⟨fun _ => rfl, nofun⟩
  · refine ⟨hpermits, fun (ans : Except Str Unit) φ' hφ' => ?_⟩
    cases hφ'
    rcases ans with _ | _
    · exact ⟨nofun, nofun⟩
    · exact ⟨fun _ => rfl, nofun⟩

/-- A call of `resume` that finds a state goes on with it. -/
theorem trace_resume {parent : Option RunContext} {state : RunState}
    {decisions : Dict Str Decision} {es : List (Prog.Event Acts)}
    {q : Prog Acts (Resumed × Option RunContext)}
    (ht : Prog.Trace (a.takeUp env parent state decisions) es q) :
    Prog.Trace (a.resume env parent state.runId decisions)
      (⟨.load a.store state.runId, Loaded.found ⟨state, rfl⟩⟩ :: es) q := by
  unfold Agent.resume
  rw [exec_bind]
  exact .step (S := Acts) _ ht

/-- A paused run is taken up according to the law. -/
theorem takeUp_kept {ms : List Moment} {state : RunState} {decisions : Dict Str Decision}
    (h : state.status = .awaitingApproval → Ready a tainted ms state)
    (parent : Option RunContext) :
    (a.takeUp env parent state decisions).Follows
      (own (recording (Kept a tainted (ms ++ grants state decisions))) anyRun)
      (fun (φ : List Moment × ℕ) x => ∀ r, resumedResult x = some r →
        Lawful a tainted (ms ++ grants state decisions ++ φ.1) (.told r)) ([], 0) := by
  unfold Agent.takeUp
  split
  · nofun
  · rename_i pending approved hcheck
    obtain ⟨hstatus, hpending, hdecision⟩ := checkDecision_eq_ok hcheck
    have hready : Ready a tainted (ms ++ grants state decisions) state := by
      refine (h hstatus).congr ?_
      unfold grants
      rw [hpending]
      dsimp only
      split <;> simp
    generalize hbase : ms ++ grants state decisions = base at hready ⊢
    refine (claim_kept hready.tracked).bind ?_
    rintro φ refusal ⟨hclaimed, hresult⟩
    rcases refusal with _ | refusal
    swap
    · intro r hr
      unfold resumedResult at hr
      split at hr
      · rename_i r' hr'
        exact absurd (congrArg some hr') (hresult r')
      · cases hr
    obtain rfl := hclaimed rfl
    let R := (keptRule a env tainted base).toDriveRule anyRun
    let r : Running := ⟨Agent.claimed state, parent⟩
    have hleft : Tracked a tainted (base ++ [.saved (Agent.claimed state)]) r.state :=
      hready.tracked.congr (by simp) rfl rfl
    have hended : (a.answer env r pending approved).Follows
        (own (recording (Kept a tainted base)) anyRun) R.Stopped
        ([.saved (Agent.claimed state)], 0) := by
      refine R.answer_follows ⟨rfl, hleft⟩ (fun _ => ⟨rfl, ?_⟩) fun happroved tool htool => ?_
      · exact hleft.step rfl rfl (hready.new pending hpending) hready.below (.inl ⟨rfl, rfl⟩)
      · refine (runTool_own (launches_kept ⟨hleft, rfl, ?_⟩ hready.below
          (hready.new pending hpending) ?_)).mono fun _ _ h => h.1
        · simp [Agent.claimed]
        · rintro -
          refine ⟨ms, pending.callId, Agent.claimed state, rfl, ?_⟩
          rw [← hbase, grants, hpending]
          simp [hdecision, happroved, (Agent.mem_tools_of_tool? htool).2]
    refine hended.bind fun φ e he => (R.lastResort_follows R.lastSave he).bind fun φ e he r hr => ?_
    refine lawful_told_of_stopped he ?_
    unfold Ended.resumed resumedResult at hr
    cases hout : e.outcome with
    | ok r' =>
      rw [hout] at hr
      cases hr
      rfl
    | error x =>
      rw [hout] at hr
      cases hr

/-- A `resume` that did not claim its run made at most one attempt to. -/
theorem trace_of_not_claims {parent : Option RunContext} {state : RunState}
    {decisions : Dict Str Decision} {es : List (Prog.Event Acts)}
    {q : Prog Acts (Resumed × Option RunContext)}
    (ht : Prog.Trace (a.takeUp env parent state decisions) es q) (h : claims es = false) :
    es = [] ∨ (∃ s expected ans, es = [⟨.saveIfStatus a.store state.runId s expected, ans⟩]) ∨
      ∃ s ans, es = [⟨.save a.store state.runId s, ans⟩] := by
  unfold Agent.takeUp at ht
  split at ht
  · cases ht
    exact .inl rfl
  · unfold Agent.claim at ht
    split at ht
    · cases ht with
      | refl => exact .inl rfl
      | step ans ht =>
        rcases (ans : Except Str Bool) with x | (_ | _)
        · cases ht
          exact .inr (.inl ⟨_, _, .error x, rfl⟩)
        · cases ht
          exact .inr (.inl ⟨_, _, .ok false, rfl⟩)
        · cases h
    · cases ht with
      | refl => exact .inl rfl
      | step ans ht =>
        rcases (ans : Except Str Unit) with x | _
        · cases ht
          exact .inr (.inr ⟨_, .error x, rfl⟩)
        · cases h

/-- A `resume` that did not claim its run enters no tool. -/
theorem launchesOf_moments_of_not_claims {parent : Option RunContext} {state : RunState}
    {decisions : Dict Str Decision} {es : List (Prog.Event Acts)}
    {q : Prog Acts (Resumed × Option RunContext)}
    (ht : Prog.Trace (a.takeUp env parent state decisions) es q) (h : claims es = false) :
    launchesOf (moments 0 es) = [] := by
  rcases trace_of_not_claims ht h with rfl | ⟨s, expected, ans, rfl⟩ | ⟨s, ans, rfl⟩ <;> rfl

/-- What a life leaves behind: lawful moments, and paused states that can be taken up. -/
structure Standing (a : Agent) (tainted : Bool) (ms : List Moment) (saved : List RunState) :
    Prop where
  lawful : Judged (Lawful a tainted) ms
  ready : ∀ s ∈ saved, s.status = .awaitingApproval → Ready a tainted ms s

/-- A state saved as paused is ready at the end of the call, since no tool is entered after it. -/
theorem ready_of_savedIn {cur : List Moment} (h : Judged (Kept a tainted base) cur) {s : RunState}
    (hs : s ∈ savedIn cur) (hwait : s.status = .awaitingApproval) :
    Ready a tainted (base ++ cur) s := by
  obtain ⟨m, hm, hms⟩ := List.mem_filterMap.1 hs
  obtain rfl : m = .saved s := by
    cases m <;> simp_all
  obtain ⟨c₁, c₂, rfl⟩ := List.append_of_mem hm
  refine ((h c₁ _ c₂ rfl).2 hwait).congr ?_
  have hsilent : launchesOf c₂ = [] := by
    rw [List.eq_nil_iff_forall_not_mem]
    intro l hl
    obtain ⟨m, hm, hml⟩ := List.mem_filterMap.1 hl
    obtain rfl : m = .launched l := by
      cases m <;> simp_all
    obtain ⟨d₁, d₂, rfl⟩ := List.append_of_mem hm
    exact (h (c₁ ++ .saved s :: d₁) (.launched l) d₂ (by simp)).2 s (by simp) hwait
  simp [hsilent]

/-- A further stretch of a life. -/
theorem standing_of_stretch {α : Type} {p q : Prog Acts α} {es : List (Prog.Event Acts)}
    (hbase : Judged (Lawful a tainted) base) (result? : α → Option RunResult)
    (ht : Prog.Trace p es q)
    (hp : p.Follows (own (recording (Kept a tainted base)) anyRun)
      (fun (φ : List Moment × ℕ) x =>
        ∀ r, result? x = some r → Lawful a tainted (base ++ φ.1) (.told r)) ([], 0)) :
    Standing a tainted (base ++ moments 0 es ++ tells result? q) (savedIn (moments 0 es)) := by
  obtain ⟨hkept, n', hq⟩ := judged_of_trace ht hp judged_nil
  rw [List.nil_append] at hkept hq
  have htold : ∀ r, (∃ x, q = .ret x ∧ result? x = some r) →
      Lawful a tainted (base ++ moments 0 es) (.told r) := by
    rintro r ⟨x, rfl, hr⟩
    exact hq r hr
  refine ⟨judged_append.2 ⟨judged_append.2 ⟨hbase, hkept.mono fun _ _ h => h.1⟩, ?_⟩,
    fun s hs hwait => (ready_of_savedIn hkept hs hwait).congr (by simp)⟩
  cases q with
  | op o k => exact judged_nil
  | ret x =>
    rw [tells]
    cases hr : result? x with
    | none => exact judged_nil
    | some r => exact judged_singleton.2 (by simpa using htold r ⟨x, rfl, hr⟩)

theorem standing_of_life {ms : List Moment} {saved : List RunState}
    (h : Life a env tainted ms saved) : Standing a tainted ms saved := by
  induction h with
  | start parent task ht =>
    exact standing_of_stretch judged_nil ranResult ht (run_kept parent task)
  | @resume ms saved _ state hs parent decisions es q ht ih =>
    cases ht with
    | step _ ht =>
      have hbase : Judged (Lawful a tainted) (ms ++ grants state decisions) := by
        refine judged_append.2 ⟨ih.lawful, ?_⟩
        unfold grants
        split
        · split
          · rw [judged_singleton]
            trivial
          · exact judged_nil
        · exact judged_nil
      obtain ⟨hlawful, hready⟩ := standing_of_stretch hbase resumedResult ht
        (takeUp_kept (ih.ready state hs) parent)
      refine ⟨hlawful, fun s hs hwait => ?_⟩
      rcases List.mem_append.1 hs with hs | hs
      · split_ifs at hs with hclaims
        · cases hs
        · refine (ih.ready s hs hwait).congr ?_
          rw [List.append_assoc, List.append_assoc, launchesOf_append, launchesOf_append,
            launchesOf_append, launchesOf_moments_of_not_claims ht (by simpa using hclaims)]
          have hgrants : launchesOf (grants state decisions) = [] := by
            unfold grants
            split
            · split <;> rfl
            · rfl
          simp [hgrants]
      · exact hready s hs hwait

/-- **The law of a run.** At every moment of every life of a run: a tool that needs approval is
entered only right after a decision that is exactly `True` for its call; the taint flag says whether
the run started tainted or a tainting tool was entered; at most `max 1 (min max_steps 8)` steps are
recorded; and neither the tools entered nor the steps recorded repeat a signature. -/
theorem lawful_of_life {ms : List Moment} {saved : List RunState}
    (h : Life a env tainted ms saved) : Judged (Lawful a tainted) ms :=
  (standing_of_life h).lawful

end Life

/-! ## Two lives -/

/-- `json.dumps` of an object of plain strings. -/
def flat : Json → Str
  | .str s => '"' :: s ++ ['"']
  | .obj members =>
    let shown := members.map fun
      | (name, .str value) => '"' :: name ++ "\": \"".toList ++ value ++ ['"']
      | (name, _) => '"' :: name ++ "\": null".toList
    '{' :: ", ".toList.intercalate shown ++ ['}']
  | _ => "null".toList

/-- An environment as it is on the texts a run comes across: `texts` are the replies of the model
with their values, `digests` the argument texts with their digests. -/
def Env.on (texts : List (String × Json)) (digests : List (String × String)) : Env where
  loads text := (texts.find? fun e => e.1.toList = text).map Prod.snd
  dumps := flat
  dumpsSorted := flat
  sha256 text := ((digests.find? fun e => e.1.toList = text).map fun e => e.2.toList).getD []
  repr := flat
  equal v w := match v, w with
    | .str s, .str t => s = t
    | _, _ => false
  sameLetter c d := c.toLower == d.toLower
  sameLetter_ascii _ _ _ _ := rfl

/-- The environment of a run that asks for `fetch` and `send`, without arguments. -/
def plainEnv : Env :=
  .on [("\x7b\"tool\": \"fetch\"\x7d", .obj [("tool".toList, .str "fetch".toList)]),
      ("\x7b\"tool\": \"send\"\x7d", .obj [("tool".toList, .str "send".toList)])]
    [("\x7b\x7d", "44136fa355b3678a1146ad16f7e8649e94fb4fc21fe77e8310c060f61caaff8a")]

/-- An agent with a tool that brings content in and one that sends it out. -/
def courier (maxSteps : ℤ) : Agent where
  tools := [.external "fetch".toList [] ⟨.empty, []⟩, .external "send".toList [] ⟨.empty, []⟩]
  policy := { maxSteps, deadlineSeconds := none }
  store := ⟨0, true⟩
  summarize := false
  native := false
  named := by decide
  distinct := by decide
  declared _ h := absurd rfl h

/-- Answers of a world in which the model says `text` and everything goes through. -/
def goesThrough (text : String) : (o : Act) → o.Res
  | .llm _ => .text text.toList
  | .now => (0 : ℚ)
  | .uuid _ => "c1".toList
  | .load .. => .missing
  | .save .. => .ok ()
  | .saveIfStatus .. => .ok true
  | .enterRun .. => ()
  | .leaveRun => ()
  | .external .. => .success (.str "a page".toList)

/-- The answers while a tool is asked for and run. -/
def fetched : List ((o : Act) → o.Res) :=
  [goesThrough "", goesThrough "\x7b\"tool\": \"fetch\"\x7d", goesThrough "", goesThrough "",
    goesThrough "", goesThrough ""]

/-- The answers while the run pauses for the call it asks for. -/
def paused : List ((o : Act) → o.Res) :=
  [goesThrough "\x7b\"tool\": \"send\"\x7d", goesThrough "", goesThrough ""]

/-- A tainted run asks for an outbound tool and runs it once it is approved. -/
theorem lawful_of_life_approved :
    ∃ ms saved, Life (courier 4) plainEnv false ms saved ∧
      (launchesOf ms).map (fun l => (l.tool, l.approved)) =
        [("fetch".toList, none), ("send".toList, some "c1".toList)] ∧
      Judged (Lawful (courier 4) false) ms := by
  obtain ⟨q, ht⟩ := Prog.exists_trace_play ((courier 4).run plainEnv none "go".toList false)
    (fetched ++ paused)
  have hstart := Life.start none "go".toList ht
  generalize hes : Prog.play ((courier 4).run plainEnv none "go".toList false)
    (fetched ++ paused) = es at hstart
  obtain ⟨state, hmem⟩ : ∃ state, (savedIn (moments 0 es))[1]? = some state :=
    ⟨_, by rw [← hes]; rfl⟩
  let decisions : Dict Str Decision := Dict.empty.set "c1".toList (.bool true)
  obtain ⟨q', ht'⟩ := Prog.exists_trace_play
    ((courier 4).takeUp plainEnv none state decisions)
    [goesThrough "", goesThrough "", goesThrough "", goesThrough "", goesThrough ""]
  have hlife := hstart.resume (List.mem_of_getElem? hmem) none decisions (trace_resume ht')
  refine ⟨_, _, hlife, ?_, lawful_of_life hlife⟩
  have hstate : some state = _ := hmem.symm.trans (by rw [← hes])
  cases hstate
  subst hes
  simp only [launchesOf_append, launchesOf_tells, List.append_nil]
  decide

/-- With `max_steps = 0` a step is still taken. -/
theorem zero_maxSteps_takes_a_step :
    ¬ ∀ (a : Agent) (env : Env) (tainted : Bool) (ms : List Moment) (saved : List RunState),
      Life a env tainted ms saved → ∀ s, .saved s ∈ ms →
        (s.steps.length : ℤ) ≤ min a.policy.maxSteps HARD_MAX_STEPS := by
  intro h
  obtain ⟨q, ht⟩ := Prog.exists_trace_play ((courier 0).run plainEnv none "go".toList false) fetched
  have hmem : ∃ s, .saved s ∈ moments 0 (Prog.play ((courier 0).run plainEnv none "go".toList false)
      fetched) ∧ s.steps.length = 1 :=
    ⟨_, by
      simp only [fetched]
      exact List.mem_of_getElem? (i := 1) rfl, rfl⟩
  obtain ⟨s, hs, hlen⟩ := hmem
  have := h _ _ _ _ _ (.start none "go".toList ht) s (List.mem_append_left _ hs)
  rw [hlen] at this
  exact absurd this (by decide)

end RagLeap.Agents
