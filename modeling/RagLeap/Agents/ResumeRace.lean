import Mathlib
import RagLeap.Agents.RunLife

/-!
# Interleaved resumes of one run

Any number of calls of `resume` for one run, over a store whose `save_if_status` is an atomic
compare-and-set on the status. The claim looks at the status only, so a `resume` that loaded the
run before it was resumed and paused again takes it up in the old state.
`resumedOnce_of_stillPending`: an approved call is carried out once at most and no recorded step is
lost, in every schedule in which a claim goes through only while the run awaits the call that the
`resume` has a decision for.
-/

namespace RagLeap.Agents

/-! ## The store of one run -/

/-- What a store holds of one run and what was done in its name: the states it held so far, the ids
of the approved calls that were carried out, and the call ids drawn. -/
structure Shelf where
  state : Option RunState
  history : List RunState
  launched : List Str
  drawn : List Str

namespace Shelf

variable (σ : Shelf)

def put (s : RunState) : Shelf := { σ with state := some s, history := σ.history ++ [s] }

/-- A `load` that answers `ans` unless it goes through. -/
def load (id : Str) (ans : Loaded id) : Loaded id :=
  match ans with
  | .raised exception => .raised exception
  | _ =>
    match σ.state with
    | none => .missing
    | some s => if h : s.runId = id then .found ⟨s, h⟩ else .refused

/-- A `save` that answers `ans` unless it goes through. -/
def save (s : RunState) : Except Str Unit → Except Str Unit × Shelf
  | .error exception => (.error exception, σ)
  | .ok () => (.ok (), σ.put s)

/-- The compare-and-set, which answers `ans` unless it goes through. -/
def saveIfStatus (s : RunState) (expected : RunStatus) : Except Str Bool → Except Str Bool × Shelf
  | .error exception => (.error exception, σ)
  | .ok _ =>
    if σ.state.map RunState.status = some expected then (.ok true, σ.put s) else (.ok false, σ)

end Shelf

/-- The statements over the store of the run `runId`. A choice is what the world would answer; no
call id is drawn twice, and no other run gets the id of this one. -/
def shelves (store : Store) (runId : Str) : Machine Acts Shelf ((o : Act) → o.Res) where
  act
    | .load st id, w, σ =>
      if st = store ∧ id = runId then some (σ.load id (w (.load st id)), σ)
      else some (w (.load st id), σ)
    | .save st id s, w, σ =>
      if st = store ∧ id = runId then some (σ.save s (w (.save st id s)))
      else some (w (.save st id s), σ)
    | .saveIfStatus st id s expected, w, σ =>
      if st = store ∧ id = runId then
        some (σ.saveIfStatus s expected (w (.saveIfStatus st id s expected)))
      else some (w (.saveIfStatus st id s expected), σ)
    | .uuid .call, w, σ =>
      let callId : Str := w (.uuid .call)
      if callId ∈ σ.drawn then none else some (callId, { σ with drawn := callId :: σ.drawn })
    | .uuid (.run depth), w, σ =>
      let drawn : Str := w (.uuid (.run depth))
      if drawn = runId then none else some (drawn, σ)
    | .enterRun ctx l, w, σ =>
      if ctx.runId = runId then
        some (w (.enterRun ctx l), { σ with launched := σ.launched ++ l.approved.toList })
      else some (w (.enterRun ctx l), σ)
    | o, w, σ => some (w o, σ)

theorem Shelf.mem_of_load {σ : Shelf} {id : Str} {ans : Loaded id} {s : {s : RunState // s.runId = id}}
    (h : σ.load id ans = .found s) : s.1 ∈ σ.state := by
  have hstate : (match σ.state with
      | none => Loaded.missing
      | some s => if h : s.runId = id then Loaded.found ⟨s, h⟩ else Loaded.refused) =
        Loaded.found s := by
    cases ans with
    | raised x => cases h
    | _ => exact h
  split at hstate
  · cases hstate
  · rename_i s' hs'
    split_ifs at hstate
    · cases hstate
      exact hs'

section Shelves

variable {store : Store} {runId : Str} {w : (o : Act) → o.Res} {σ σ' : Shelf}

theorem shelves_act_load (st : Store) (id : Str) :
    (shelves store runId).act (.load st id) w σ =
      if st = store ∧ id = runId then some (σ.load id (w (.load st id)), σ)
      else some (w (.load st id), σ) :=
  rfl

theorem shelves_act_save (st : Store) (id : Str) (s : RunState) :
    (shelves store runId).act (.save st id s) w σ =
      if st = store ∧ id = runId then some (σ.save s (w (.save st id s)))
      else some (w (.save st id s), σ) :=
  rfl

theorem shelves_act_saveIfStatus (st : Store) (id : Str) (s : RunState) (expected : RunStatus) :
    (shelves store runId).act (.saveIfStatus st id s expected) w σ =
      if st = store ∧ id = runId then
        some (σ.saveIfStatus s expected (w (.saveIfStatus st id s expected)))
      else some (w (.saveIfStatus st id s expected), σ) :=
  rfl

theorem shelves_act_call {callId : Str} (h : w (.uuid .call) = callId) :
    (shelves store runId).act (.uuid .call) w σ =
      if callId ∈ σ.drawn then none else some (callId, { σ with drawn := callId :: σ.drawn }) := by
  subst h
  rfl

theorem shelves_act_start {depth : ℕ} {drawn : Str} (h : w (.uuid (.run depth)) = drawn) :
    (shelves store runId).act (.uuid (.run depth)) w σ =
      if drawn = runId then none else some (drawn, σ) := by
  subst h
  rfl

theorem shelves_act_enterRun (ctx : RunContext) (l : Launch) :
    (shelves store runId).act (.enterRun ctx l) w σ =
      if ctx.runId = runId then
        some (w (.enterRun ctx l), { σ with launched := σ.launched ++ l.approved.toList })
      else some (w (.enterRun ctx l), σ) :=
  rfl

theorem shelves_draw {callId : Str}
    (h : (shelves store runId).act (.uuid .call) w σ = some (callId, σ')) :
    callId ∉ σ.drawn ∧ σ' = { σ with drawn := callId :: σ.drawn } := by
  rw [shelves_act_call rfl] at h
  split at h
  · cases h
  · rename_i hnew
    cases h
    exact ⟨hnew, rfl⟩

theorem shelves_start {depth : ℕ} {drawn : Str}
    (h : (shelves store runId).act (.uuid (.run depth)) w σ = some (drawn, σ')) :
    drawn ≠ runId ∧ σ' = σ := by
  rw [shelves_act_start rfl] at h
  split at h
  · cases h
  · rename_i hne
    cases h
    exact ⟨hne, rfl⟩

/-- A statement about another run or another store leaves the shelf as it is. -/
theorem shelves_save_of_ne {st : Store} {id : Str} {s : RunState} {r : Except Str Unit}
    (hid : ¬ (st = store ∧ id = runId))
    (h : (shelves store runId).act (.save st id s) w σ = some (r, σ')) : σ' = σ := by
  rw [shelves_act_save, if_neg hid] at h
  cases h
  rfl

theorem shelves_saveIfStatus_of_ne {st : Store} {id : Str} {s : RunState} {expected : RunStatus}
    {r : Except Str Bool} (hid : ¬ (st = store ∧ id = runId))
    (h : (shelves store runId).act (.saveIfStatus st id s expected) w σ = some (r, σ')) :
    σ' = σ := by
  rw [shelves_act_saveIfStatus, if_neg hid] at h
  cases h
  rfl

theorem shelves_enterRun_of_ne {ctx : RunContext} {l : Launch} {r : Unit}
    (hid : ctx.runId ≠ runId)
    (h : (shelves store runId).act (.enterRun ctx l) w σ = some (r, σ')) : σ' = σ := by
  rw [shelves_act_enterRun, if_neg hid] at h
  cases h
  rfl

/-- A `load` changes nothing, and finds in the store of the run what it holds. -/
theorem shelves_load {st : Store} {id : Str} {r : Loaded id}
    (h : (shelves store runId).act (.load st id) w σ = some (r, σ')) :
    σ' = σ ∧ (st = store ∧ id = runId → ∀ s, r = .found s → s.1 ∈ σ.state) := by
  rw [shelves_act_load] at h
  split at h
  · cases h
    refine ⟨rfl, fun _ s hs => ?_⟩
    exact Shelf.mem_of_load hs
  · rename_i hid
    cases h
    exact ⟨rfl, fun he => absurd he hid⟩

/-- A `save` of the run stores the state or raises. -/
theorem shelves_save {s : RunState} {r : Except Str Unit}
    (h : (shelves store runId).act (.save store runId s) w σ = some (r, σ')) :
    r = .ok () ∧ σ' = σ.put s ∨ (∃ x, r = .error x) ∧ σ' = σ := by
  rw [shelves_act_save, if_pos ⟨rfl, rfl⟩] at h
  cases hw : (w (.save store runId s) : Except Str Unit) with
  | ok u =>
    rw [hw] at h
    cases h
    exact .inl ⟨rfl, rfl⟩
  | error x =>
    rw [hw] at h
    cases h
    exact .inr ⟨⟨x, rfl⟩, rfl⟩

/-- The compare-and-set stores the state if the status is as expected, or it does nothing. -/
theorem shelves_saveIfStatus {s : RunState} {expected : RunStatus} {r : Except Str Bool}
    (h : (shelves store runId).act (.saveIfStatus store runId s expected) w σ = some (r, σ')) :
    (r = .ok true ∧ σ' = σ.put s ∧ (∃ b, w (.saveIfStatus store runId s expected) = .ok b) ∧
      ∃ s₀ ∈ σ.state, s₀.status = expected) ∨ r ≠ .ok true ∧ σ' = σ := by
  rw [shelves_act_saveIfStatus, if_pos ⟨rfl, rfl⟩] at h
  cases hw : (w (.saveIfStatus store runId s expected) : Except Str Bool) with
  | error x =>
    rw [hw] at h
    cases h
    exact .inr ⟨nofun, rfl⟩
  | ok b =>
    rw [hw, Shelf.saveIfStatus] at h
    split_ifs at h with hstatus
    · cases h
      obtain ⟨s₀, hs₀, hs₀'⟩ := Option.map_eq_some_iff.1 hstatus
      exact .inl ⟨rfl, rfl, ⟨b, rfl⟩, s₀, hs₀, hs₀'⟩
    · cases h
      exact .inr ⟨nofun, rfl⟩

/-- Entering a tool for the run is recorded with the approved call it is for. -/
theorem shelves_enterRun {ctx : RunContext} {l : Launch} {r : Unit} (hid : ctx.runId = runId)
    (h : (shelves store runId).act (.enterRun ctx l) w σ = some (r, σ')) :
    σ' = { σ with launched := σ.launched ++ l.approved.toList } := by
  rw [shelves_act_enterRun, if_pos hid] at h
  cases h
  rfl

end Shelves

/-- Calls of `resume` for one run, one for each index. -/
def resumers {ι : Type} (a : Agent) (env : Env) (runId : Str) (parent : ι → Option RunContext)
    (decisions : ι → Dict Str Decision) (σ : Shelf) :
    Pool Acts ι Shelf (Resumed × Option RunContext) :=
  ⟨fun i => a.resume env (parent i) runId (decisions i), σ⟩

/-- The call a state awaits. -/
def RunState.awaited (s : RunState) : Option Str :=
  if s.status = .awaitingApproval then s.pending.map PendingCall.callId else none

theorem RunState.awaited_of_ne {s : RunState} (h : s.status ≠ .awaitingApproval) :
    s.awaited = none := if_neg h

/-- The condition on a step: where a claim goes through, the run still awaits a call that this
`resume` has a decision for. -/
def StillPending {ι : Type} (a : Agent) (runId : Str) (decisions : ι → Dict Str Decision) (i : ι)
    (o : Act) (w : (o : Act) → o.Res) (σ : Shelf) : Prop :=
  ∀ s expected b, o = .saveIfStatus a.store runId s expected →
    w (.saveIfStatus a.store runId s expected) = .ok b →
    ∀ s₀ ∈ σ.state, s₀.status = .awaitingApproval →
      ∃ callId ∈ s₀.awaited, (decisions i).get? callId ≠ none

/-- No approved call was carried out twice, and no step recorded in the store was lost. -/
def ResumedOnce (σ : Shelf) : Prop :=
  σ.launched.Nodup ∧ (σ.history.map RunState.steps).Pairwise (· <+: ·)

/-- A store in which the run stands as it was paused. -/
structure Shelf.Paused (σ : Shelf) : Prop where
  history : σ.history = σ.state.toList
  launched : σ.launched = []
  drawn : ∀ s ∈ σ.state, ∀ callId ∈ s.awaited, callId ∈ σ.drawn

/-! ## The typestate of a resume -/

/-- Where a `resume` stands: it has no state, it has loaded one, or it holds the run: with the steps
recorded in the store at least, the approved call that is still to be carried out, and the id last
drawn. -/
inductive Hold
  | idle
  | seen (state : RunState)
  | holding (steps : List Step) (call drawn : Option Str)

/-- Typestate of a `resume`: it writes the run only once it has claimed it, never with fewer steps,
and carries out an approved call only as the one it claimed the run with. -/
def resuming (a : Agent) (runId : Str) (decisions : Dict Str Decision) : Protocol Acts where
  Phase := Hold
  permits
    | _, .llm _ | _, .now => True
    | .idle, .load store id => store = a.store ∧ id = runId
    | .seen s, .saveIfStatus store id s' expected =>
      store = a.store ∧ id = runId ∧ s' = Agent.claimed s ∧ expected = .awaitingApproval ∧
        ∃ callId ∈ s.awaited, decisions.items.map Prod.fst = [callId]
    | .holding steps _ drawn, .save store id s =>
      store = a.store ∧ id = runId ∧ steps <+: s.steps ∧ ∀ callId ∈ s.awaited, drawn = some callId
    | .holding _ call _, .enterRun ctx l =>
      ctx.runId = runId ∧ ∀ callId ∈ l.approved, call = some callId
    | .holding .., .uuid .call => True
    | _, _ => False
  next
    | .idle, .load .., loaded =>
      match loaded with
      | .found ⟨s, _⟩ => some (.seen s)
      | _ => some .idle
    | .seen s, .saveIfStatus .., saved =>
      match saved with
      | .ok true => some (.holding s.steps s.awaited none)
      | _ => some .idle
    | .holding steps call drawn, .save _ _ s, saved =>
      match saved with
      | .ok _ => some (if s.status = .running then .holding s.steps call drawn else .idle)
      | .error _ => some (.holding steps call drawn)
    | .holding steps call drawn, .enterRun _ l, _ =>
      some (.holding steps (if l.approved = none then call else none) drawn)
    | .holding steps call _, .uuid .call, callId => some (.holding steps call (some callId))
    | φ, _, _ => some φ

section Resuming

variable {a : Agent} {env : Env} {runId : Str} {decisions : Dict Str Decision}

/-- The phase of a `resume` that holds the run `r`. -/
def Holds (runId : Str) (φ : Hold) (r : Running) : Prop :=
  r.state.runId = runId ∧ ∃ steps call drawn, φ = .holding steps call drawn ∧ steps <+: r.state.steps

theorem saves_resuming {φ : Hold} {r : Running} {Q : Hold → Running → Prop}
    (h : Holds runId φ r)
    (hawaited : ∀ steps call drawn, φ = .holding steps call drawn →
      ∀ callId ∈ r.state.awaited, drawn = some callId)
    (hq : ∀ steps call drawn, φ = .holding steps call drawn →
      Q (if r.state.status = .running then .holding r.state.steps call drawn else .idle) r) :
    Saves (resuming a runId decisions) φ a.store r Q (Holds runId) := by
  obtain ⟨hid, steps, call, drawn, rfl, hsteps⟩ := h
  refine ⟨⟨rfl, hid, hsteps, hawaited steps call drawn rfl⟩, fun ans φ' hφ' => ?_⟩
  cases ans with
  | ok u =>
    cases hφ'
    exact ⟨fun _ => hq steps call drawn rfl, nofun⟩
  | error x =>
    cases hφ'
    exact ⟨nofun, fun _ => ⟨hid, steps, call, drawn, rfl, hsteps⟩⟩

/-- Entering a tool while holding the run. -/
theorem launches_resuming {φ : Hold} {r : Running} {tool : Tool} {args : Json} {sig : Sig}
    {forced : Bool} {approved : Option Str} (h : Holds runId φ r)
    (hrunning : r.state.status = .running)
    (hcall : ∀ steps call drawn, φ = .holding steps call drawn →
      ∀ callId ∈ approved, call = some callId) :
    Launches (resuming a runId decisions) φ a env r tool args sig forced approved
      (fun φ r => Holds runId φ r ∧ r.state.status = .running) (Holds runId) := by
  obtain ⟨hid, steps, call, drawn, rfl, hsteps⟩ := h
  refine ⟨⟨hid, hcall steps call drawn rfl⟩, fun u φ' hφ' out counters => ?_⟩
  cases hφ'
  have hrunning' : (a.afterCall env r tool args sig forced out counters).state.status =
      .running := (afterCall_status ..).trans hrunning
  refine saves_resuming ⟨(afterCall_runId ..).trans hid, _, _, _, rfl, ?_⟩ ?_ ?_
  · rw [afterCall_steps]
    exact hsteps.trans (List.prefix_append _ _)
  · intro _ _ _ _ callId hmem
    rw [RunState.awaited_of_ne (by rw [hrunning']; nofun)] at hmem
    cases hmem
  · intro steps' call' drawn' _
    rw [if_pos hrunning']
    exact ⟨⟨(afterCall_runId ..).trans hid, _, _, _, rfl, List.prefix_refl _⟩, hrunning'⟩

/-- The loop of a `resume` keeps to the typestate. -/
def resumeRule (a : Agent) (env : Env) (runId : Str) (decisions : Dict Str Decision) :
    OwnRule a env (resuming a runId decisions) where
  Live φ r := Holds runId φ r ∧ r.state.status = .running
  Open := Holds runId
  Left := Holds runId
  Done _ _ := True
  open_of_live h := h.1
  open_of_left h := h
  asks {φ o} ho := by
    cases ho <;>
    · refine ⟨by cases φ <;> trivial, fun r φ' hφ' => ?_⟩
      cases φ <;> exact (Option.some.inj hφ').symm
  closing h status hs _ _ := by
    refine saves_resuming h (fun _ _ _ _ callId hmem => ?_) fun _ _ _ _ => trivial
    have hne : status ≠ .awaitingApproval := fun he => by simp [he] at hs
    rw [RunState.awaited_of_ne (show (a.close _ status _ _).status ≠ _ from hne)] at hmem
    cases hmem
  pausing h _ _ := by
    obtain ⟨⟨hid, steps, call, drawn, rfl, hsteps⟩, -⟩ := h
    refine ⟨trivial, fun callId φ' hφ' => ?_⟩
    cases hφ'
    refine saves_resuming ⟨hid, _, _, _, rfl, hsteps⟩ ?_ fun _ _ _ _ => trivial
    rintro _ _ _ hφ callId' hmem
    cases hφ
    exact congrArg some (Option.some.inj hmem)
  launching h _ _ := launches_resuming h.1 h.2 fun _ _ _ _ _ => nofun

theorem takeUp_resuming (hatomic : a.store.atomic = true) (parent : Option RunContext)
    {state : RunState} (hid : state.runId = runId) :
    (a.takeUp env parent state decisions).Follows
      (own (resuming a runId decisions) (· = runId)) (fun _ _ => True) (.seen state, 0) := by
  unfold Agent.takeUp
  split
  · trivial
  · rename_i pending approved hcheck
    obtain ⟨hstatus, hpending, -⟩ := checkDecision_eq_ok hcheck
    have hkeys : decisions.items.map Prod.fst = [pending.callId] := keys_of_checkDecision hcheck
    have hawaited : state.awaited = some pending.callId := by
      rw [RunState.awaited, if_pos hstatus, hpending]
      rfl
    unfold Agent.claim
    rw [if_pos hatomic]
    refine ⟨⟨rfl, hid, rfl, rfl, pending.callId, hawaited, hkeys⟩,
      fun (ans : Except Str Bool) φ' hφ' => ?_⟩
    rcases ans with _ | (_ | _)
    · trivial
    · trivial
    cases hφ'
    let R := (resumeRule a env runId decisions).toDriveRule (· = runId)
    let r : Running := ⟨Agent.claimed state, parent⟩
    have hopen : Holds runId (.holding state.steps state.awaited none) r :=
      ⟨hid, _, _, _, rfl, List.prefix_refl _⟩
    have hended : (a.answer env r pending approved).Follows
        (own (resuming a runId decisions) (· = runId)) R.Stopped
        (.holding state.steps state.awaited none, 0) := by
      refine R.answer_follows ⟨rfl, hopen⟩ (fun _ => ⟨rfl, ?_⟩) fun _ tool _ => ?_
      · exact ⟨hid, _, _, _, rfl, List.prefix_append _ _⟩
      · refine (runTool_own (launches_resuming hopen rfl ?_)).mono fun _ _ h => h.1
        rintro _ _ _ hφ callId hmem
        cases hφ
        cases hmem
        exact hawaited
    exact hended.bind fun φ e he => (R.lastResort_follows R.lastSave he).bind fun _ _ _ => trivial

theorem resume_resuming (hatomic : a.store.atomic = true) (parent : Option RunContext) :
    (a.resume env parent runId decisions).Follows
      (own (resuming a runId decisions) (· = runId)) (fun _ _ => True) (.idle, 0) := by
  refine ⟨⟨rfl, rfl⟩, fun (loaded : Loaded runId) φ' hφ' => ?_⟩
  rcases loaded with _ | _ | _ | ⟨state, hstate⟩
  · trivial
  · trivial
  · trivial
  · cases hφ'
    exact takeUp_resuming hatomic parent hstate

end Resuming

/-! ## The invariant -/

/-- The calls that were ever awaited. -/
def Shelf.awaited (σ : Shelf) : List Str := σ.history.filterMap RunState.awaited

/-- What holds of a store: the awaited calls are distinct, drawn, and not carried out while they are
awaited; no call is carried out twice, and no step is lost. -/
structure Shelf.Sound (σ : Shelf) : Prop where
  current : ∀ s ∈ σ.state, s ∈ σ.history ∧ ∀ s' ∈ σ.history, s'.steps <+: s.steps
  distinct : ∀ s ∈ σ.history, ∀ s' ∈ σ.history, ∀ callId ∈ s.awaited, callId ∈ s'.awaited → s = s'
  awaited : ∀ callId ∈ σ.awaited, callId ∈ σ.drawn
  waiting : ∀ s ∈ σ.state, ∀ callId ∈ s.awaited, callId ∉ σ.launched
  launched : ∀ callId ∈ σ.launched, callId ∈ σ.drawn
  once : ResumedOnce σ

/-- What holds of a `resume` that stands at a phase: a state it has loaded was stored once; a run it
holds is not awaiting approval, its call is not carried out, and the id last drawn is a new one. -/
def Hold.Agrees (σ : Shelf) : Hold → Prop
  | idle => True
  | seen s => s ∈ σ.history
  | holding steps call drawn =>
    (∃ s ∈ σ.state, s.status ≠ .awaitingApproval ∧ s.steps <+: steps) ∧
    (∀ callId ∈ call, callId ∈ σ.drawn ∧ callId ∉ σ.launched) ∧
    ∀ callId ∈ drawn, callId ∈ σ.drawn ∧ callId ∉ σ.launched ∧ callId ∉ call ∧ callId ∉ σ.awaited

def Hold.IsHolding : Hold → Prop
  | holding .. => True
  | _ => False

/-- The invariant of a pool of resumes: one of them at most holds the run. -/
structure HoldInv {ι : Type} (φ : ι → Hold × ℕ) (σ : Shelf) : Prop where
  sound : σ.Sound
  agrees : ∀ i, (φ i).1.Agrees σ
  single : ∀ i j, (φ i).1.IsHolding → (φ j).1.IsHolding → i = j

section Invariant

variable {σ : Shelf}

/-- A call id that is drawn anew. -/
theorem Shelf.Sound.draw (h : σ.Sound) (callId : Str) :
    Shelf.Sound { σ with drawn := callId :: σ.drawn } :=
  ⟨h.current, h.distinct, fun c hc => List.mem_cons_of_mem _ (h.awaited c hc), h.waiting,
    fun c hc => List.mem_cons_of_mem _ (h.launched c hc), h.once⟩

theorem Hold.Agrees.draw {φ : Hold} (h : φ.Agrees σ) (callId : Str) :
    φ.Agrees { σ with drawn := callId :: σ.drawn } := by
  cases φ with
  | idle => trivial
  | seen s => exact h
  | holding steps call drawn =>
    obtain ⟨hstate, hcall, hdrawn⟩ := h
    refine ⟨hstate, fun c hc => ?_, fun c hc => ?_⟩
    · exact ⟨List.mem_cons_of_mem _ (hcall c hc).1, (hcall c hc).2⟩
    · exact ⟨List.mem_cons_of_mem _ (hdrawn c hc).1, (hdrawn c hc).2⟩

@[simp] theorem Shelf.awaited_put (s : RunState) :
    (σ.put s).awaited = σ.awaited ++ s.awaited.toList := by
  unfold Shelf.awaited Shelf.put
  rw [List.filterMap_append]
  cases h : s.awaited <;> simp [h]

/-- A state that keeps the steps of the one before it, and awaits a new call or none. -/
theorem Shelf.Sound.put (h : σ.Sound) {s₀ s : RunState} (hs₀ : s₀ ∈ σ.state)
    (hsteps : s₀.steps <+: s.steps)
    (hnew : ∀ callId ∈ s.awaited, callId ∈ σ.drawn ∧ callId ∉ σ.launched ∧ callId ∉ σ.awaited) :
    (σ.put s).Sound := by
  have hbehind : ∀ s' ∈ σ.history, s'.steps <+: s.steps := fun s' hs' =>
    ((h.current s₀ hs₀).2 s' hs').trans hsteps
  have hapart : ∀ s' ∈ σ.history, ∀ callId ∈ s.awaited, callId ∉ s'.awaited :=
    fun s' hs' callId hmem hmem' =>
      (hnew callId hmem).2.2 (List.mem_filterMap.2 ⟨s', hs', hmem'⟩)
  have hmem : ∀ {s'}, s' ∈ (σ.put s).history ↔ s' ∈ σ.history ∨ s' = s := by
    simp [Shelf.put]
  refine ⟨fun s' hs' => ?_, fun s₁ h₁ s₂ h₂ c hc₁ hc₂ => ?_, fun c hc => ?_, fun s' hs' c hc => ?_,
    h.launched, h.once.1, ?_⟩
  · cases hs'
    refine ⟨hmem.2 (.inr rfl), fun s' hs' => ?_⟩
    rcases hmem.1 hs' with hs' | rfl
    · exact hbehind s' hs'
    · exact List.prefix_refl _
  · rcases hmem.1 h₁ with hs₁ | hs₁ <;> rcases hmem.1 h₂ with hs₂ | hs₂
    · exact h.distinct s₁ hs₁ s₂ hs₂ c hc₁ hc₂
    · exact absurd hc₁ (hapart s₁ hs₁ c (hs₂ ▸ hc₂))
    · exact absurd hc₂ (hapart s₂ hs₂ c (hs₁ ▸ hc₁))
    · rw [hs₁, hs₂]
  · rw [Shelf.awaited_put, List.mem_append, Option.mem_toList] at hc
    exact hc.elim (h.awaited c) fun hc => (hnew c hc).1
  · cases hs'
    exact (hnew c hc).2.1
  · change ((σ.history ++ [s]).map RunState.steps).Pairwise _
    rw [List.map_append, List.pairwise_append]
    refine ⟨h.once.2, List.pairwise_singleton _ _, ?_⟩
    simpa using hbehind

/-- What has been loaded stays a state that was stored. -/
theorem Hold.Agrees.put {φ : Hold} (h : φ.Agrees σ) (hφ : ¬ φ.IsHolding) (s : RunState) :
    φ.Agrees (σ.put s) := by
  cases φ with
  | idle => trivial
  | seen s' => exact List.mem_append_left _ h
  | holding steps call drawn => exact absurd trivial hφ

variable {ι : Type} [DecidableEq ι] {φ : ι → Hold × ℕ}

/-- A step of one `resume`: the others still agree, and hold the run only where it does not. -/
theorem HoldInv.step (h : HoldInv φ σ) (i : ι) {φ' : Hold} {n : ℕ} {σ' : Shelf} (hsound : σ'.Sound)
    (hagrees : φ'.Agrees σ') (hothers : ∀ j ≠ i, (φ j).1.Agrees σ → (φ j).1.Agrees σ')
    (hsingle : φ'.IsHolding → ∀ j ≠ i, ¬ (φ j).1.IsHolding) :
    HoldInv (Function.update φ i (φ', n)) σ' := by
  refine ⟨hsound, fun j => ?_, fun j k hj hk => ?_⟩
  · rcases eq_or_ne j i with rfl | hj
    · simpa using hagrees
    · rw [Function.update_of_ne hj]
      exact hothers j hj (h.agrees j)
  · rcases eq_or_ne j i with rfl | hji <;> rcases eq_or_ne k j with rfl | hkj
    · rfl
    · rw [Function.update_self] at hj
      rw [Function.update_of_ne hkj] at hk
      exact absurd hk (hsingle hj k hkj)
    · rfl
    · rw [Function.update_of_ne hji] at hj
      rcases eq_or_ne k i with rfl | hki
      · rw [Function.update_self] at hk
        exact absurd hj (hsingle hk j hji)
      · rw [Function.update_of_ne hki] at hk
        exact h.single j k hj hk

/-- A step that leaves the store as it is, and holds the run only if it was held. -/
theorem HoldInv.stay (h : HoldInv φ σ) (i : ι) {φ' : Hold} {n : ℕ} (hagrees : φ'.Agrees σ)
    (hkeeps : φ'.IsHolding → (φ i).1.IsHolding) : HoldInv (Function.update φ i (φ', n)) σ :=
  h.step i h.sound hagrees (fun _ _ hj => hj) fun hφ' j hj hholds =>
    hj (h.single j i hholds (hkeeps hφ'))

/-- Drawing a call id. -/
theorem HoldInv.draw (h : HoldInv φ σ) (i : ι) (callId : Str) {φ' : Hold} {n : ℕ}
    (hagrees : φ'.Agrees { σ with drawn := callId :: σ.drawn })
    (hkeeps : φ'.IsHolding → (φ i).1.IsHolding) :
    HoldInv (Function.update φ i (φ', n)) { σ with drawn := callId :: σ.drawn } :=
  h.step i (h.sound.draw callId) hagrees (fun _ _ hj => hj.draw callId) fun hφ' j hj hholds =>
    hj (h.single j i hholds (hkeeps hφ'))

/-! ## One step -/

variable {a : Agent} {runId : Str} {decisions : ι → Dict Str Decision}

/-- A statement inside a tool call leaves the run alone. -/
theorem holdInv_inside (h : HoldInv φ σ) {i : ι} {hold : Hold} {n : ℕ} (hφ : φ i = (hold, n + 1))
    {o : Act} {w : (o : Act) → o.Res} {r : o.Res} {σ' : Shelf}
    (hp : (own (resuming a runId (decisions i)) (· = runId)).permits (hold, n + 1) o)
    (hact : (shelves a.store runId).act o w σ = some (r, σ')) :
    ∃ φ', (own (resuming a runId (decisions i)) (· = runId)).next (hold, n + 1) o r = some φ' ∧
      HoldInv (Function.update φ i φ') σ' := by
  have hagrees : hold.Agrees σ := by simpa [hφ] using h.agrees i
  have hkeeps : hold.IsHolding → (φ i).1.IsHolding := by simp [hφ]
  have hstay (n' : ℕ) : HoldInv (Function.update φ i (hold, n')) σ := h.stay i hagrees hkeeps
  cases o with
  | llm | now | leaveRun | external =>
    cases hact
    exact ⟨_, rfl, hstay _⟩
  | uuid use =>
    cases use with
    | call =>
      obtain ⟨-, rfl⟩ := shelves_draw hact
      exact ⟨_, rfl, h.draw i _ (hagrees.draw _) hkeeps⟩
    | run depth =>
      obtain ⟨hne, rfl⟩ := shelves_start hact
      exact ⟨(hold, n + 1), if_neg hne, hstay _⟩
  | load st id =>
    obtain ⟨rfl, -⟩ := shelves_load hact
    exact ⟨_, rfl, hstay _⟩
  | save st id s =>
    obtain rfl := shelves_save_of_ne (fun he => hp he.2) hact
    exact ⟨_, rfl, hstay _⟩
  | saveIfStatus st id s expected =>
    obtain rfl := shelves_saveIfStatus_of_ne (fun he => hp he.2) hact
    exact ⟨_, rfl, hstay _⟩
  | enterRun ctx l =>
    obtain rfl := shelves_enterRun_of_ne hp hact
    exact ⟨_, rfl, hstay _⟩

/-- A claim that goes through. -/
theorem holdInv_claim (h : HoldInv φ σ) {i : ι} {s s₀ : RunState} {n : ℕ} (hφ : (φ i).1 = .seen s)
    (hs₀ : s₀ ∈ σ.state) (hwait : s₀.status = .awaitingApproval) {callId : Str}
    (hawaited : callId ∈ s.awaited) (hawaited₀ : callId ∈ s₀.awaited) :
    HoldInv (Function.update φ i (.holding s.steps s.awaited none, n))
      (σ.put (Agent.claimed s)) := by
  have hseen : s ∈ σ.history := by
    have := h.agrees i
    rwa [hφ] at this
  obtain rfl : s = s₀ :=
    h.sound.distinct s hseen s₀ (h.sound.current s₀ hs₀).1 callId hawaited hawaited₀
  have hnobody : ∀ j, ¬ (φ j).1.IsHolding := by
    intro j hj
    have hagrees := h.agrees j
    cases hφj : (φ j).1 with
    | idle | seen => simp [hφj, Hold.IsHolding] at hj
    | holding steps call drawn =>
      rw [hφj] at hagrees
      obtain ⟨s', hs', hne, -⟩ := hagrees.1
      cases hs'.symm.trans hs₀
      exact hne hwait
  have hnone : (Agent.claimed s).awaited = none := RunState.awaited_of_ne nofun
  have hdrawn : ∀ c ∈ s.awaited, c ∈ σ.drawn := fun c hc =>
    h.sound.awaited c (List.mem_filterMap.2 ⟨s, hseen, hc⟩)
  refine h.step i (h.sound.put hs₀ (List.prefix_refl _) (by simp [hnone])) ?_
    (fun j _ hj => hj.put (hnobody j) _) fun _ j _ => hnobody j
  exact ⟨⟨_, rfl, nofun, List.prefix_refl _⟩,
    fun c hc => ⟨hdrawn c hc, h.sound.waiting s hs₀ c hc⟩, nofun⟩

/-- A save of a run that is held. -/
theorem holdInv_save (h : HoldInv φ σ) {i : ι} {steps : List Step} {call drawn : Option Str} {n : ℕ}
    (hφ : (φ i).1 = .holding steps call drawn) {s : RunState} (hsteps : steps <+: s.steps)
    (hawaited : ∀ callId ∈ s.awaited, drawn = some callId) :
    HoldInv (Function.update φ i
      (if s.status = .running then .holding s.steps call drawn else .idle, n)) (σ.put s) := by
  have hagrees := h.agrees i
  rw [hφ] at hagrees
  obtain ⟨⟨s₀, hs₀, -, hbehind⟩, hcall, hdrawn⟩ := hagrees
  have hholds : (φ i).1.IsHolding := by rw [hφ]; trivial
  have hothers : ∀ j ≠ i, ¬ (φ j).1.IsHolding := fun j hj hholds' =>
    hj (h.single j i hholds' hholds)
  refine h.step i (h.sound.put hs₀ (hbehind.trans hsteps) fun c hc => ?_) ?_
    (fun j hj hagrees => hagrees.put (hothers j hj) s) fun _ => hothers
  · obtain ⟨hc₁, hc₂, -, hc₃⟩ := hdrawn c (hawaited c hc)
    exact ⟨hc₁, hc₂, hc₃⟩
  · split_ifs with hrunning
    · have hne : s.status ≠ .awaitingApproval := by rw [hrunning]; nofun
      refine ⟨⟨s, rfl, hne, List.prefix_refl _⟩, hcall, fun c hc => ?_⟩
      obtain ⟨hc₁, hc₂, hc₃, hc₄⟩ := hdrawn c hc
      refine ⟨hc₁, hc₂, hc₃, ?_⟩
      rw [Shelf.awaited_put, RunState.awaited_of_ne hne]
      simpa using hc₄
    · trivial

/-- Entering a tool for a run that is held. -/
theorem holdInv_launch (h : HoldInv φ σ) {i : ι} {steps : List Step} {call drawn : Option Str}
    {n : ℕ} (hφ : (φ i).1 = .holding steps call drawn) {approved : Option Str}
    (happroved : ∀ callId ∈ approved, call = some callId) :
    HoldInv (Function.update φ i
        (.holding steps (if approved = none then call else none) drawn, n))
      { σ with launched := σ.launched ++ approved.toList } := by
  have hagrees := h.agrees i
  rw [hφ] at hagrees
  have hholds : (φ i).1.IsHolding := by rw [hφ]; trivial
  have hothers : ∀ j ≠ i, ¬ (φ j).1.IsHolding := fun j hj hholds' =>
    hj (h.single j i hholds' hholds)
  obtain ⟨hstate, hcall, hdrawn⟩ := hagrees
  cases approved with
  | none =>
    rw [Option.toList_none, List.append_nil]
    exact h.step i h.sound ⟨hstate, hcall, hdrawn⟩ (fun _ _ hj => hj) fun _ => hothers
  | some callId =>
    obtain rfl := happroved callId rfl
    obtain ⟨hcallDrawn, hnew⟩ := hcall callId rfl
    have hsound : Shelf.Sound { σ with launched := σ.launched ++ [callId] } := by
      refine ⟨h.sound.current, h.sound.distinct, h.sound.awaited, fun s hs c hc => ?_,
        fun c hc => ?_, ?_, h.sound.once.2⟩
      · obtain ⟨s', hs', hne, -⟩ := hstate
        cases hs'.symm.trans hs
        rw [RunState.awaited_of_ne hne] at hc
        cases hc
      · rcases List.mem_append.1 hc with hc | hc
        · exact h.sound.launched c hc
        · exact List.mem_singleton.1 hc ▸ hcallDrawn
      · exact List.nodup_append.2 ⟨h.sound.once.1, List.nodup_singleton _, fun c hc d hd he =>
          hnew (List.mem_singleton.1 hd ▸ he ▸ hc)⟩
    refine h.step i hsound ⟨hstate, nofun, fun c hc => ?_⟩ (fun j hj hagrees => ?_) fun _ => hothers
    · obtain ⟨hc₁, hc₂, hc₃, hc₄⟩ := hdrawn c hc
      refine ⟨hc₁, fun hmem => ?_, nofun, hc₄⟩
      rcases List.mem_append.1 hmem with hmem | hmem
      · exact hc₂ hmem
      · exact hc₃ (List.mem_singleton.1 hmem ▸ rfl)
    · cases hφj : (φ j).1 with
      | idle => trivial
      | seen s =>
        rw [hφj] at hagrees
        exact hagrees
      | holding => exact absurd (by rw [hφj]; trivial) (hothers j hj)

/-- One step of a pool of resumes. -/
theorem holdInv_act (h : HoldInv φ σ) {i : ι} {o : Act} {w : (o : Act) → o.Res} {r : o.Res}
    {σ' : Shelf} (hp : (own (resuming a runId (decisions i)) (· = runId)).permits (φ i) o)
    (hG : StillPending a runId decisions i o w σ)
    (hact : (shelves a.store runId).act o w σ = some (r, σ')) :
    ∃ φ', (own (resuming a runId (decisions i)) (· = runId)).next (φ i) o r = some φ' ∧
      HoldInv (Function.update φ i φ') σ' := by
  rcases hφ : φ i with ⟨hold, _ | n⟩
  swap
  · rw [hφ] at hp
    exact holdInv_inside h hφ hp hact
  rw [hφ] at hp
  have hagrees : hold.Agrees σ := by simpa [hφ] using h.agrees i
  have hφ₁ : (φ i).1 = hold := by rw [hφ]
  cases o with
  | llm | now =>
    cases hact
    exact ⟨(hold, 0), by cases hold <;> rfl, h.stay i hagrees (by simp [hφ])⟩
  | leaveRun => exact hp.elim
  | external => cases hold <;> exact hp.elim
  | uuid use =>
    rcases use with depth | _
    · cases hold <;> exact hp.elim
    cases hold with
    | idle | seen => exact hp.elim
    | holding steps call drawn =>
      obtain ⟨hnew, rfl⟩ := shelves_draw hact
      refine ⟨(.holding steps call (some r), 0), rfl, h.draw i r ?_ (by simp [hφ, Hold.IsHolding])⟩
      obtain ⟨hstate, hcall, -⟩ := hagrees.draw r
      refine ⟨hstate, hcall, fun c hc => ?_⟩
      cases hc
      exact ⟨List.mem_cons_self, fun hmem => hnew (h.sound.launched r hmem),
        fun hmem => hnew (hagrees.2.1 r hmem).1, fun hmem => hnew (h.sound.awaited r hmem)⟩
  | load st id =>
    cases hold with
    | seen | holding => exact hp.elim
    | idle =>
      obtain ⟨rfl, hfound⟩ := shelves_load hact
      rcases hr : (r : Loaded id) with _ | _ | _ | ⟨s, hs⟩
      · exact ⟨(.idle, 0), rfl, h.stay i trivial nofun⟩
      · exact ⟨(.idle, 0), rfl, h.stay i trivial nofun⟩
      · exact ⟨(.idle, 0), rfl, h.stay i trivial nofun⟩
      · exact ⟨(.seen s, 0), rfl,
          h.stay i (h.sound.current s (hfound hp ⟨s, hs⟩ hr)).1 nofun⟩
  | save st id s =>
    cases hold with
    | idle | seen => exact hp.elim
    | holding steps call drawn =>
      obtain ⟨rfl, rfl, hsteps, hawaited⟩ := hp
      rcases shelves_save hact with ⟨rfl, rfl⟩ | ⟨⟨x, rfl⟩, rfl⟩
      · exact ⟨_, rfl, holdInv_save h hφ₁ hsteps hawaited⟩
      · exact ⟨_, rfl, h.stay i hagrees (by simp [hφ])⟩
  | saveIfStatus st id s expected =>
    cases hold with
    | idle | holding => exact hp.elim
    | seen s' =>
      obtain ⟨rfl, rfl, rfl, rfl, callId, hawaited, hkeys⟩ := hp
      rcases shelves_saveIfStatus hact with ⟨rfl, rfl, ⟨b, hb⟩, s₀, hs₀, hwait⟩ | ⟨hne, rfl⟩
      · obtain ⟨callId₀, hmem₀, hdecided⟩ := hG _ _ b rfl hb s₀ hs₀ hwait
        obtain rfl : callId₀ = callId := by
          obtain ⟨d, hd⟩ := Option.ne_none_iff_exists'.1 hdecided
          have hmem := List.mem_map_of_mem (f := Prod.fst) (Dict.get?_eq_some_iff.1 hd)
          rw [hkeys] at hmem
          exact List.mem_singleton.1 hmem
        exact ⟨_, rfl, holdInv_claim h hφ₁ hs₀ hwait hawaited hmem₀⟩
      · refine ⟨(.idle, 0), ?_, h.stay i trivial nofun⟩
        rcases (r : Except Str Bool) with x | _ | _
        · rfl
        · rfl
        · exact absurd rfl hne
  | enterRun ctx l =>
    cases hold with
    | idle | seen => exact hp.elim
    | holding steps call drawn =>
      obtain ⟨hid, happroved⟩ := hp
      obtain rfl := shelves_enterRun hid hact
      exact ⟨_, rfl, holdInv_launch h hφ₁ happroved⟩

end Invariant

/-! ## Whole schedules -/

theorem holdInv_start {ι : Type} {σ : Shelf} (h : σ.Paused) :
    HoldInv (fun _ : ι => (Hold.idle, 0)) σ := by
  have hmem : ∀ {s}, s ∈ σ.history ↔ s ∈ σ.state := by simp [h.history]
  refine ⟨⟨fun s hs => ⟨hmem.2 hs, fun s' hs' => ?_⟩, fun s hs s' hs' _ _ _ => ?_, fun c hc => ?_, ?_,
    ?_, ?_, ?_⟩, fun _ => trivial, fun _ _ hi => hi.elim⟩
  · rw [Option.mem_unique (hmem.1 hs') hs]
  · exact Option.mem_unique (hmem.1 hs) (hmem.1 hs')
  · obtain ⟨s, hs, hc⟩ := List.mem_filterMap.1 hc
    exact h.drawn s (hmem.1 hs) c hc
  · simp [h.launched]
  · simp [h.launched]
  · simp [h.launched]
  · rw [h.history]
    cases σ.state <;> simp

/-- **Resume at most once.** Any number of resumes of one run, with any decisions, over a store with
an atomic compare-and-set on the status: in every schedule in which a claim goes through only while
the run awaits a call that the `resume` has a decision for, no approved call is carried out twice
and no recorded step is lost. -/
theorem resumedOnce_of_stillPending {ι : Type} [DecidableEq ι] {a : Agent}
    (hatomic : a.store.atomic = true) (env : Env) {runId : Str} (parent : ι → Option RunContext)
    {decisions : ι → Dict Str Decision} {σ : Shelf} (hσ : σ.Paused)
    {c : Pool Acts ι Shelf (Resumed × Option RunContext)} {es : List (ι × ((o : Act) → o.Res))}
    (h : (resumers a env runId parent decisions σ).run (shelves a.store runId) es = some c)
    (hG : (resumers a env runId parent decisions σ).Along (shelves a.store runId)
      (StillPending a runId decisions) es) : ResumedOnce c.state := by
  obtain ⟨φ, -, hinv⟩ := Pool.run_follows_each
    (P := fun i => own (resuming a runId (decisions i)) (· = runId))
    (Q := fun _ _ _ => True) (I := fun φ σ => HoldInv φ σ)
    (fun φ i o w s r s' hφ hp hG hact => holdInv_act hφ hp hG hact) h hG
    (fun i => resume_resuming hatomic (parent i)) (holdInv_start hσ)
  exact hinv.sound.once

/-! ## Two resumes -/

/-- A tainted run that awaits the approval of an outbound call. -/
def awaitingSend : RunState where
  runId := "r1".toList
  task := "go".toList
  status := .awaitingApproval
  stopReason := "awaiting_approval".toList
  steps := []
  tainted := true
  pending := some
    { callId := "c1".toList, tool := "send".toList, arguments := .obj [],
      sig := sigOf plainEnv "send".toList (.obj []), forced := true }
  summary := []
  delegation := none

def sendShelf : Shelf := ⟨some awaitingSend, [awaitingSend], [], ["c1".toList]⟩

theorem paused_sendShelf : sendShelf.Paused := by
  refine ⟨rfl, rfl, fun s hs callId hc => ?_⟩
  cases hs
  cases hc
  exact List.mem_cons_self

/-- Two resumes that approve the same call. -/
def approvals : Pool Acts Bool Shelf (Resumed × Option RunContext) :=
  resumers (courier 4) plainEnv "r1".toList (fun _ => none)
    (fun _ => Dict.empty.set "c1".toList (.bool true)) sendShelf

/-- The first resume carries out the call, asks for `fetch` and pauses for its approval. -/
def resumedAndPaused : List (Bool × ((o : Act) → o.Res)) :=
  (List.replicate 6 (goesThrough "") ++ [goesThrough "\x7b\"tool\": \"fetch\"\x7d",
    fun | .uuid _ => "c2".toList | o => goesThrough "" o, goesThrough ""]).map fun w => (false, w)

/-- A run that is taken up awaits this call. -/
def awaits (callId : Str) : Act → Shelf → Bool
  | .saveIfStatus .., σ => σ.state.all fun s => s.awaited = some callId
  | _, _ => true

/-- One resume after the other: the second is refused. -/
theorem resumedOnce_of_stillPending_refused :
    ∃ c, approvals.run (shelves (courier 4).store "r1".toList)
        (resumedAndPaused ++ [(true, goesThrough "")]) = some c ∧
      c.state.launched = ["c1".toList] ∧ ResumedOnce c.state := by
  obtain ⟨c, hrun, htest⟩ := Pool.exists_run_of_reaches
    (M := shelves (courier 4).store "r1".toList) approvals
    (resumedAndPaused ++ [(true, goesThrough "")])
    (fun c => decide (c.state.launched = ["c1".toList])) (by decide)
  refine ⟨c, hrun, of_decide_eq_true htest, resumedOnce_of_stillPending rfl plainEnv
    (fun _ => none) paused_sendShelf hrun ?_⟩
  refine Pool.along_of_check (fun _ o _ σ => awaits "c1".toList o σ) (fun i o w σ h => ?_)
    (by decide)
  rintro s expected b rfl - s₀ hs₀ -
  cases hstate : σ.state with
  | none =>
    rw [hstate] at hs₀
    cases hs₀
  | some s₁ =>
    rw [hstate] at hs₀
    cases hs₀
    refine ⟨"c1".toList, ?_, nofun⟩
    simpa [awaits, hstate] using h

/-- A resume that loaded the run before it was resumed and paused again carries out the same call
once more. -/
theorem stale_resume_runs_twice :
    ∃ c, approvals.run (shelves (courier 4).store "r1".toList)
        ((true, goesThrough "") :: (resumedAndPaused ++ List.replicate 2 (true, goesThrough ""))) =
          some c ∧ ¬ ResumedOnce c.state := by
  obtain ⟨c, hrun, htest⟩ := Pool.exists_run_of_reaches
    (M := shelves (courier 4).store "r1".toList) approvals
    ((true, goesThrough "") :: (resumedAndPaused ++ List.replicate 2 (true, goesThrough "")))
    (fun c => decide (¬ c.state.launched.Nodup)) (by decide)
  exact ⟨c, hrun, fun h => of_decide_eq_true htest h.1⟩

end RagLeap.Agents
