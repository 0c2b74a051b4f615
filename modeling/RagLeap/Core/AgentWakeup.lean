import RagLeap.Core.AgentTaint
import RagLeap.Core.ApprovalRace

/-!
# Waking a waiting run

A driver runs the loop; an owner answers the action it stores. The two share one database, each
statement atomic, and the gate the loop hands its steps to and the loop the answer wakes are
carried out statement by statement. `no_lost_wakeup`: in every schedule in which the driver's save
of the waiting run comes before the answer looks for it, and the answer's own statements go
through, the run is not left waiting. `answered_before_saved_waits` is a schedule that leaves it.
-/

namespace RagLeap.Core

/-! ## Carrying out the gate and the wake-up -/

/-- A step handed to the gate. -/
def Stmt.IsGate : Stmt → Prop
  | .executeOrRequest _ => True
  | _ => False

/-- The notification of the loop. -/
def Stmt.IsNotify : Stmt → Prop
  | .notifyAgentLoop .. => True
  | _ => False

/-- The gate, by its own statements. -/
def gated (env : Env) : (o : Stmt) → Prog Statements o.Res
  | .executeOrRequest r => (executeOrRequest env r).run
  | o => .op o .ret

/-- The notification of the loop, which swallows what `on_resolved` raises. -/
def notified (env : Env) : (o : Stmt) → Prog Statements o.Res
  | .notifyAgentLoop actionId approved result _ =>
    (onResolved env actionId approved result).run.interp (gated env) >>= fun _ => .ret ()
  | o => .op o .ret

inductive Party
  | driver | owner
  deriving DecidableEq

/-- The message an answer hands to `process_approval_response`. -/
def Answerer.message (env : Env) : Answerer → Str
  | chat message => message
  | inbox actionId approve =>
    (if approve then "YES ".toList else "NO ".toList) ++ env.unicode.upper (Str.strip actionId)

/-- A driver of a run and an owner's answer, each at its start, over a store. -/
def waking (env : Env) (service : Bool) (role : Option Str) (run : Run) (a : Answerer) (s : Store) :
    Pool Statements Party Store Unit where
  threads
    | .driver => (drive env service role run).interp (gated env) >>= fun _ => .ret ()
    | .owner => (a.program env).interp (notified env) >>= fun _ => .ret ()
  state := s

/-! ## Typestate -/

/-- Where a thread stands: the driver has not saved the run as waiting for the action, or has; the
owner has not deleted its row, has, has found the run with an id, has taken it up. -/
inductive WakePhase
  | driving
  | parked
  | asking
  | answered
  | found (runId : Str)
  | woken
  deriving DecidableEq

namespace WakePhase

/-- The rows a thread saves: only the driver saves one that waits for the action, and that one can
be taken up. -/
def Writes (actionId : Str) : WakePhase → Run → Prop
  | driving, run =>
    run.pendingActionId = some actionId → run.status = .waitingApproval ∧ run.steps ≠ []
  | asking, _ | answered, _ => False
  | _, run => run.pendingActionId ≠ some actionId

def save (actionId : Str) : WakePhase → Run → WakePhase
  | driving, run => if run.pendingActionId = some actionId then parked else driving
  | found _, _ => woken
  | φ, _ => φ

end WakePhase

/-- Typestate of the two threads towards `actionId`. Answers that leave the typestate are those of
a statement that fails while the owner's answer stands between the deletion and the lookup, and
`actionId` drawn again afterwards. -/
def wakeup (actionId : Str) : Protocol Statements where
  Phase := WakePhase
  permits
    | φ, .insertRun run => φ.Writes actionId run ∧ ∀ k, φ ≠ .found k
    | φ, .updateRun id run => φ.Writes actionId run ∧ ∀ k, φ = .found k → id = k
    | φ, .deletePending id _ => φ = .asking ∧ id = actionId
    | φ, .selectRunByPending id => φ = .answered ∧ id = actionId
    | φ, .notifyAgentLoop id .. => φ = .answered ∧ id = actionId
    | φ, .executeOrRequest _ => φ = .driving ∨ φ = .woken
    | _, _ => True
  next
    | φ, .insertRun run, _ => some (φ.save actionId run)
    | φ, .updateRun _ run, _ => some (φ.save actionId run)
    | φ, .deletePending .., ans => some (if ans = .ok () then .answered else φ)
    | φ, .insertLog _, ans => if φ = .answered ∧ ans = .unreachable then none else some φ
    | φ, .learn .., ans => if φ = .answered ∧ ans = none then none else some φ
    | _, .selectRunByPending _, ans =>
      match ans with
      | none => none
      | some none => some .woken
      | some (some row) =>
        if row.status = .waitingApproval ∧ row.steps ≠ [] then row.id.map .found else none
    | _, .notifyAgentLoop .., _ => some .woken
    | φ, .uuid, id => if φ = .woken ∧ id = actionId then none else some φ
    | φ, .executeOrRequest _, ans =>
      match ans with
      | some (.pendingApproval id _) => if φ = .woken ∧ id = actionId then none else some φ
      | _ => some φ
    | φ, _, _ => some φ

/-- The typestate of the loop, which hands steps to the gate. -/
abbrev loopWakeup (actionId : Str) : Protocol Statements :=
  (wakeup actionId).restrict fun o => ¬ o.IsNotify

/-- The typestate of an answer, which notifies the loop. -/
abbrev answerWakeup (actionId : Str) : Protocol Statements :=
  (wakeup actionId).restrict fun o => ¬ o.IsGate

/-- The typestate of a thread of statements. -/
abbrev stmtWakeup (actionId : Str) : Protocol Statements :=
  (wakeup actionId).restrict fun o => ¬ o.IsGate ∧ ¬ o.IsNotify

section

variable {env : Env} {actionId : Str} {φ : WakePhase}

/-! ### The loop -/

theorem saving_wakeup {run : Run} (hw : φ.Writes actionId run)
    (hfound : ∀ k, φ = .found k → run.id = some k) :
    Saving (loopWakeup actionId) φ run fun φ' run' =>
      φ' = φ.save actionId run ∧ ∃ id, run' = { run with id } := by
  refine saving_of (fun hid => ⟨⟨id, hw, fun k hk => ?_⟩, fun ans φ' h => ?_⟩)
    fun id hid => ⟨⟨fun h => h, hw, fun k hk => ?_⟩, fun ans φ' h => ?_⟩
  · rw [hfound k hk] at hid
    cases hid
  · cases h
    exact ⟨rfl, _, rfl⟩
  · rw [hfound k hk] at hid
    exact (Option.some.inj hid).symm
  · cases h
    exact ⟨rfl, _, rfl⟩

/-- The driver saves a run that does not wait for the action. -/
theorem saving_driving {run : Run} (h : run.pendingActionId ≠ some actionId) :
    Saving (loopWakeup actionId) WakePhase.driving run fun φ run' =>
      φ = .driving ∧ run'.pendingActionId ≠ some actionId := by
  have hw : WakePhase.driving.Writes actionId run := fun he => absurd he h
  refine (saving_wakeup hw nofun).mono ?_
  rintro _ _ ⟨rfl, id, rfl⟩
  exact ⟨if_neg h, h⟩

/-- The woken loop saves a run that does not wait for the action. -/
theorem saving_woken {run : Run} (h : run.pendingActionId ≠ some actionId) :
    Saving (loopWakeup actionId) WakePhase.woken run fun φ run' =>
      φ = .woken ∧ run'.pendingActionId ≠ some actionId := by
  have hw : WakePhase.woken.Writes actionId run := h
  refine (saving_wakeup hw nofun).mono ?_
  rintro _ _ ⟨rfl, id, rfl⟩
  exact ⟨rfl, h⟩

/-- The owner's answer saves the run it found. -/
theorem saving_found {run : Run} {k : Str} (h : run.pendingActionId ≠ some actionId)
    (hid : run.id = some k) :
    Saving (loopWakeup actionId) (.found k) run fun φ run' =>
      φ = .woken ∧ run'.pendingActionId ≠ some actionId := by
  have hw : (WakePhase.found k).Writes actionId run := h
  refine (saving_wakeup hw ?_).mono ?_
  · rintro _ ⟨⟩
    exact hid
  · rintro _ _ ⟨rfl, id, rfl⟩
    exact ⟨rfl, h⟩

theorem consults_wakeup {o : Stmt} (ho : Consults o) :
    (loopWakeup actionId).permits φ o ∧
      ∀ r φ', (loopWakeup actionId).next φ o r = some φ' → φ' = φ := by
  cases ho with
  | asks h => cases h <;> exact ⟨⟨id, trivial⟩, fun _ _ hr => (Option.some.inj hr).symm⟩
  | _ => exact ⟨⟨id, trivial⟩, fun _ _ hr => (Option.some.inj hr).symm⟩

/-- What a reply of the gate leaves behind. -/
theorem next_gate {r : Request} {ans : Option GateReply} {φ' : WakePhase}
    (h : (loopWakeup actionId).next φ (.executeOrRequest r) ans = some φ') :
    φ' = φ ∧ ∀ id sent, ans = some (.pendingApproval id sent) → φ = .woken → id ≠ actionId := by
  simp only [loopWakeup, Protocol.restrict, wakeup] at h
  split at h
  · split_ifs at h with hid
    cases h
    refine ⟨rfl, ?_⟩
    rintro id sent ⟨⟩ hφ rfl
    exact hid ⟨hφ, rfl⟩
  · rename_i hne
    cases h
    exact ⟨rfl, fun id sent he => absurd he (hne id sent)⟩

/-- The driver's loop, up to the save of a run that waits for the action. -/
def drivingRule (env : Env) (actionId : Str) : LoopRule env (loopWakeup actionId) where
  Live φ run := φ = WakePhase.driving ∧ run.pendingActionId ≠ some actionId
  Left φ _ := φ = WakePhase.driving ∨ φ = WakePhase.parked
  left_of_live h := .inl h.1
  consults := consults_wakeup
  closing {φ run status} _ summary h := by
    have hw : φ.Writes actionId (run.close status summary) := by
      rcases h with rfl | rfl <;> exact nofun
    refine (saving_wakeup hw (by rcases h with rfl | rfl <;> exact nofun)).mono ?_
    rintro _ _ ⟨rfl, -⟩
    rcases h with rfl | rfl
    · exact .inl rfl
    · exact .inr rfl
  handing {φ run} h valid role := by
    obtain ⟨rfl, hp⟩ := h
    refine ⟨⟨id, .inl rfl⟩, fun ans φ' hφ' => ?_⟩
    obtain ⟨rfl, -⟩ := next_gate hφ'
    have hstep (status : StepStatus) (obs : Str) :
        Saving (loopWakeup actionId) WakePhase.driving (run.add env valid status obs)
          fun φ _ => φ = .driving ∨ φ = .parked := by
      refine Saving.mono (saving_driving ?_) fun _ _ h => .inl h.1
      exact hp
    rcases ans with _ | (result | ⟨id, sent⟩ | _ | _)
    · exact .inl rfl
    · exact saving_driving hp
    · have hw : WakePhase.driving.Writes actionId
          ((run.add env valid .pendingApproval []).await id) := fun _ =>
        ⟨rfl, by simp [Run.await, Run.add]⟩
      refine (saving_wakeup hw nofun).mono ?_
      rintro _ _ ⟨rfl, -⟩
      simp only [WakePhase.save]
      split_ifs
      · exact .inr rfl
      · exact .inl rfl
    · exact hstep _ _
    · exact hstep _ _

/-- The loop the owner's answer goes on with: it never waits for the action again. -/
def wokenRule (env : Env) (actionId : Str) : LoopRule env (loopWakeup actionId) where
  Live φ run := φ = WakePhase.woken ∧ run.pendingActionId ≠ some actionId
  Left φ _ := φ = WakePhase.woken
  left_of_live h := h.1
  consults := consults_wakeup
  closing _ summary h := by
    subst h
    refine Saving.mono (saving_woken ?_) fun _ _ h => h.1
    simp [Run.close]
  handing {φ run} h valid role := by
    obtain ⟨rfl, hp⟩ := h
    refine ⟨⟨id, .inr rfl⟩, fun ans φ' hφ' => ?_⟩
    obtain ⟨rfl, hid⟩ := next_gate hφ'
    have hstep (status : StepStatus) (obs : Str) :
        Saving (loopWakeup actionId) WakePhase.woken (run.add env valid status obs)
          fun φ _ => φ = .woken := by
      refine Saving.mono (saving_woken ?_) fun _ _ h => h.1
      exact hp
    rcases ans with _ | (result | ⟨id, sent⟩ | _ | _)
    · rfl
    · exact saving_woken hp
    · refine Saving.mono (saving_woken ?_) fun _ _ h => h.1
      exact fun h => hid id sent rfl rfl (Option.some.inj h)
    · exact hstep _ _
    · exact hstep _ _

/-- The lookup and what it takes up. -/
theorem onResolved_wakeup (approved : Bool) (result : Str) :
    (onResolved env actionId approved result).run.Follows (loopWakeup actionId)
      (fun φ _ => φ = .woken) .answered := by
  refine Proc.follows_call_bind ⟨id, rfl, rfl⟩ fun ans φ' h => ?_
  rcases ans with _ | (_ | row)
  · cases h
  · cases h
    rfl
  · -- the row found can be taken up, and is saved before anything else is
    simp only [loopWakeup, Protocol.restrict, wakeup] at h
    obtain ⟨⟨hwait, hsteps⟩, h⟩ := Option.ite_none_right_eq_some.1 h
    obtain ⟨k, hk, rfl⟩ := Option.map_eq_some_iff.1 h
    obtain ⟨step, hlast⟩ := Option.isSome_iff_exists.1 (List.getLast?_isSome.2 hsteps)
    cases approved with
    | true =>
      refine ((wokenRule env actionId).takeUp_approved_follows hlast hwait ?_).mono ?_
      · exact saving_found (by simp [Run.approveLast, Run.observe]) hk
      · rintro _ _ ⟨_, rfl⟩
        rfl
    | false =>
      refine (LoopRule.takeUp_rejected_follows hlast hwait (saving_found ?_ hk)).mono ?_
      · simp [Run.rejectLast]
      · rintro _ _ ⟨_, rfl, -⟩
        rfl

/-! ### The gate -/

theorem ofGate_wakeup {a : Action} {o : Stmt} (ho : OfGate a o) :
    (stmtWakeup actionId).permits φ o ∧
      ∀ r φ', (stmtWakeup actionId).next φ o r = some φ' → φ' = φ := by
  cases ho with
  | inquires h =>
    cases h with
    | insertLog e =>
      refine ⟨⟨⟨id, id⟩, trivial⟩, fun r φ' h => ?_⟩
      obtain ⟨-, h⟩ := Option.ite_none_left_eq_some.1 h
      exact (Option.some.inj h).symm
    | _ => exact ⟨⟨⟨id, id⟩, trivial⟩, fun _ _ h => (Option.some.inj h).symm⟩
  | uuid =>
    refine ⟨⟨⟨id, id⟩, trivial⟩, fun r φ' h => ?_⟩
    obtain ⟨-, h⟩ := Option.ite_none_left_eq_some.1 h
    exact (Option.some.inj h).symm
  | _ => exact ⟨⟨⟨id, id⟩, trivial⟩, fun _ _ h => (Option.some.inj h).symm⟩

/-- The gate keeps the phase, and once the run is woken it draws another id. -/
def GateReplies (actionId : Str) (φ φ' : WakePhase) (ans : Option GateReply) : Prop :=
  φ' = φ ∧ ∀ id sent, ans = some (.pendingApproval id sent) → φ = .woken → id ≠ actionId

theorem executeDirectly_wakeup (r : Request) :
    (executeDirectly r).run.Follows (stmtWakeup actionId) (GateReplies actionId φ) φ := by
  refine (Prog.Only.follows_and (executeDirectly_ofGate r) fun _ => ofGate_wakeup).mono ?_
  rintro _ reply ⟨rfl, hreply⟩
  exact ⟨rfl, fun id sent he => absurd he (hreply id sent)⟩

theorem requestApproval_wakeup (a : Action) (id : Str) :
    (requestApproval env a id).run.Follows (stmtWakeup actionId) (fun φ' _ => φ' = φ) φ :=
  (requestApproval_inquires a id).follows fun _ ho => ofGate_wakeup (.inquires (a := a) ho)

theorem storeAndAnnounce_wakeup (r : Request) :
    (storeAndAnnounce env r).run.Follows (stmtWakeup actionId) (GateReplies actionId φ) φ := by
  refine Proc.follows_call_bind ⟨⟨id, id⟩, trivial⟩ fun drawn φ' h => ?_
  obtain ⟨hdrawn, h⟩ := Option.ite_none_left_eq_some.1 h
  cases h
  have hannounce : (requestApproval env r.toAction drawn >>= fun sent =>
      (pure (.pendingApproval drawn sent) : Proc Statements GateReply)).run.Follows
        (stmtWakeup actionId) (GateReplies actionId φ) φ := by
    refine Proc.follows_bind (requestApproval_wakeup _ _) ?_ fun _ h => ⟨h, nofun⟩
    rintro _ sent rfl
    refine ⟨rfl, ?_⟩
    rintro id sent' ⟨⟩ hφ rfl
    exact hdrawn ⟨hφ, rfl⟩
  refine Proc.follows_call_bind ⟨⟨id, id⟩, trivial⟩ fun ans φ' h => ?_
  cases h
  cases ans with
  | ok a => exact hannounce
  | raised => exact hannounce
  | unreachable => exact ⟨rfl, nofun⟩

theorem executeOrRequest_wakeup (r : Request) :
    (executeOrRequest env r).run.Follows (stmtWakeup actionId) (GateReplies actionId φ) φ := by
  have hasks {α : Type} {p : Prog Statements α} (hp : p.Only Inquires) :
      p.Follows (stmtWakeup actionId) (fun φ' _ => φ' = φ) φ :=
    hp.follows fun o ho => ofGate_wakeup (.inquires (a := r.toAction) ho)
  refine Proc.follows_bind (hasks getAutonomySettings_inquires) ?_ fun _ h => ⟨h, nofun⟩
  rintro _ settings rfl
  split_ifs
  · exact ⟨rfl, nofun⟩
  · exact ⟨rfl, nofun⟩
  · exact ⟨rfl, nofun⟩
  · refine Proc.follows_bind (hasks (effectiveMode_inquires r _)) ?_ fun _ h => ⟨h, nofun⟩
    rintro _ mode rfl
    cases mode with
    | full => exact executeDirectly_wakeup r
    | semi => exact storeAndAnnounce_wakeup r
    | off => exact ⟨rfl, nofun⟩
    | other m => exact ⟨rfl, nofun⟩

/-- The loop with the gate carried out. -/
theorem interp_gated_wakeup {α : Type} {p : Prog Statements α} {Q : WakePhase → α → Prop}
    (hp : p.Follows (loopWakeup actionId) Q φ) :
    (p.interp (gated env)).Follows (stmtWakeup actionId) Q φ := by
  refine Prog.Follows.interp_restrict (fun φ o hne ho => ?_) hp
  cases o with
  | executeOrRequest r =>
    refine (executeOrRequest_wakeup r).mono ?_
    rintro _ ans ⟨rfl, hreply⟩
    simp only [wakeup]
    split
    · rename_i id sent
      exact if_neg fun ⟨hφ, hid⟩ => hreply id sent rfl hφ hid
    · rfl
  | notifyAgentLoop => exact (hne trivial).elim
  | _ => exact ⟨⟨⟨id, id⟩, ho⟩, fun r φ' h => h⟩

/-! ### The answer -/

/-- An answer ends before the deletion, or with the run taken up. -/
def AnswerEnds (φ : WakePhase) : Prop := φ = .asking ∨ φ = .woken

theorem carryOut_wakeup (approved : Bool) (row : Action) :
    (carryOut actionId approved row).run.Follows (answerWakeup actionId)
      (fun φ _ => AnswerEnds φ) .answered := by
  have hlog (e : LogEntry) : (logAutonomousAction e).run.Follows (answerWakeup actionId)
      (fun φ ans => φ = .answered ∧ ans ≠ none) .answered := by
    refine Proc.follows_call_bind ⟨id, trivial⟩ fun ans φ h => ?_
    cases ans with
    | ok u =>
      cases h
      exact ⟨rfl, nofun⟩
    | raised =>
      cases h
      exact ⟨rfl, nofun⟩
    | unreachable => cases h
  have hnotify {f : Option Unit → Proc Statements ApprovalReply} {told actionType : Str}
      {reply : ApprovalReply} (hnone : f none = Proc.throw)
      (hsome : f (some ()) = exec (.notifyAgentLoop actionId approved told actionType) >>= fun _ =>
        pure reply) (content learned : Str) :
      (exec (.learn actionType content learned approved) >>= f).run.Follows (answerWakeup actionId)
        (fun φ _ => AnswerEnds φ) .answered := by
    refine Proc.follows_call_bind ⟨id, trivial⟩ fun ans φ h => ?_
    cases ans with
    | none => cases h
    | some u =>
      cases h
      rw [hsome]
      refine Proc.follows_call_bind ⟨id, rfl, rfl⟩ fun _ φ h => ?_
      cases h
      exact .inr rfl
  unfold carryOut
  cases approved with
  | false =>
    rw [if_pos Bool.false_ne_true]
    refine Proc.follows_bind (hlog _) ?_ fun _ h => absurd rfl h.2
    rintro _ u ⟨rfl, -⟩
    exact hnotify rfl rfl _ _
  | true =>
    rw [if_neg (not_not.2 rfl)]
    refine Proc.follows_call_bind ⟨id, trivial⟩ fun result φ h => ?_
    cases h
    refine Proc.follows_bind (hlog _) ?_ fun _ h => absurd rfl h.2
    rintro _ u ⟨rfl, -⟩
    exact hnotify rfl rfl _ _

theorem answerPending_wakeup (approved : Bool) :
    (answerPending actionId approved).run.Follows (answerWakeup actionId)
      (fun φ _ => AnswerEnds φ) .asking := by
  refine Proc.follows_call_bind ⟨id, trivial⟩ fun ans φ h => ?_
  cases h
  rcases ans with (_ | row) | _ | _
  · exact .inl rfl
  · refine Proc.follows_call_bind ⟨id, rfl, rfl⟩ fun ans φ h => ?_
    cases h
    cases ans with
    | ok u => exact carryOut_wakeup approved row
    | raised => exact .inl rfl
    | unreachable => exact .inl rfl
  · exact .inl rfl
  · exact .inl rfl

theorem processApprovalResponse_wakeup {message : Str}
    (h : ∀ b id, approvalOf env message = some (b, id) → id = actionId) :
    (processApprovalResponse env message).run.Follows (answerWakeup actionId)
      (fun φ _ => AnswerEnds φ) .asking := by
  unfold processApprovalResponse
  cases hm : approvalOf env message with
  | none => exact .inl rfl
  | some answer =>
    obtain ⟨b, id⟩ := answer
    obtain rfl := h b id hm
    exact Proc.follows_bind (answerPending_wakeup b) (fun _ _ h => h) fun _ h => h

theorem program_wakeup {a : Answerer}
    (h : ∀ b id, approvalOf env (a.message env) = some (b, id) → id = actionId) :
    (a.program env).Follows (answerWakeup actionId) (fun φ _ => AnswerEnds φ) .asking := by
  cases a with
  | chat message => exact processApprovalResponse_wakeup h
  | inbox id approve =>
    unfold Answerer.program resolvePending
    dsimp only
    split
    · refine Proc.follows_call_bind ⟨fun h => h, trivial⟩ fun rows φ hφ => ?_
      cases hφ
      cases rows with
      | none => exact .inl rfl
      | some rows =>
        dsimp only
        split
        · exact .inl rfl
        · exact processApprovalResponse_wakeup h
    · exact .inl rfl

/-- The answer with the notification and the gate carried out. -/
theorem interp_notified_wakeup {α : Type} {p : Prog Statements α} {Q : WakePhase → α → Prop}
    (hp : p.Follows (answerWakeup actionId) Q φ) :
    (p.interp (notified env)).Follows (stmtWakeup actionId) Q φ := by
  refine Prog.Follows.interp_restrict (fun φ o hne ho => ?_) hp
  cases o with
  | notifyAgentLoop id approved result actionType =>
    obtain ⟨rfl, rfl⟩ := ho
    refine (interp_gated_wakeup (onResolved_wakeup approved result)).bind ?_
    rintro _ _ rfl
    rfl
  | executeOrRequest => exact (hne trivial).elim
  | _ => exact ⟨⟨⟨id, id⟩, ho⟩, fun r φ' h => h⟩

end

/-! ## The invariant -/

/-- The condition on a step: a save that takes effect and leaves the run waiting for the action is
not issued after the answer looked for it, and the answer's own statements go through as far as
the save of the run it found. An id drawn later is another one. -/
def Orderly (actionId : Str) : Party → Stmt → Choice → Store → Prop
  | .driver, .insertRun run, w, s =>
    run.pendingActionId = some actionId → w.fault.Commits → .lookedUp actionId ∉ s.journal
  | .driver, .updateRun _ run, w, s =>
    run.pendingActionId = some actionId → w.fault.Commits → .lookedUp actionId ∉ s.journal
  | .owner, .insertLog e, w, s =>
    .lookedUp actionId ∉ s.journal → w.reply (.insertLog e) ≠ .unreachable
  | .owner, .learn actionType content result approved, w, _ =>
    w.reply (.learn actionType content result approved) ≠ none
  | .owner, .selectRunByPending _, w, _ => w.fault = .none
  | .owner, .updateRun id _, w, s =>
    (∃ row ∈ s.runs.get? id, row.pendingActionId = some actionId) → w.fault.Commits
  | .owner, .uuid, w, _ => w.id ≠ actionId
  | _, _, _, _ => True

instance (actionId : Str) (i : Party) (o : Stmt) (w : Choice) (s : Store) :
    Decidable (Orderly actionId i o w s) := by
  unfold Orderly
  split <;> infer_instance

/-- A stored row that waits for the action. -/
def Waits (actionId : Str) (s : Store) (k : Str) (row : Run) : Prop :=
  s.runs.get? k = some row ∧ row.pendingActionId = some actionId

/-- The stored rows agree with where the driver and the owner stand. -/
structure WakeInv (actionId : Str) (driver owner : WakePhase) (s : Store) : Prop where
  drives : driver = .driving ∨ driver = .parked
  owns : owner ≠ .driving ∧ owner ≠ .parked
  ids : ∀ k row, s.runs.get? k = some row → row.id = some k
  waits : ∀ k row, Waits actionId s k row → driver = .parked ∧ owner ≠ .woken ∧
    row.status = .waitingApproval ∧ row.steps ≠ []
  found : ∀ k row k', Waits actionId s k row → owner = .found k' → k = k'
  one : ∀ k row k' row', Waits actionId s k row → Waits actionId s k' row' → k = k'
  lookedUp : .lookedUp actionId ∈ s.journal ↔ owner = .woken ∨ ∃ k, owner = .found k
  deleted : ∀ b, .deleted actionId b ∈ s.journal → owner ≠ .asking

/-- What a saved row shows of the run. -/
structure RowOf (k : Str) (run row : Run) : Prop where
  id : row.id = some k
  status : row.status = run.status
  steps : row.steps = run.steps
  pending : row.pendingActionId = run.pendingActionId

theorem act_insertRun_runs {run : Run} {w : Choice} {s s' : Store} {r : Option Str}
    (h : act (.insertRun run) w s = some (r, s')) :
    (s'.runs = s.runs ∧ ¬ w.fault.Commits) ∨
      (w.fault.Commits ∧ ∃ row, s'.runs = s.runs.set w.id row ∧ RowOf w.id run row) := by
  simp only [act] at h
  split at h
  · cases h
  · have hs' : _ = s' := congrArg Prod.snd (Option.some.inj h)
    rw [Fault.write_snd] at hs'
    rw [← hs']
    split_ifs with hf
    · exact .inr ⟨hf, _, rfl, rfl, rfl, rfl, rfl⟩
    · exact .inl ⟨rfl, hf⟩

theorem act_updateRun_runs {id : Str} {run : Run} {w : Choice} {s s' : Store} {r : Option Unit}
    (hids : ∀ k row, s.runs.get? k = some row → row.id = some k)
    (h : act (.updateRun id run) w s = some (r, s')) :
    (s'.runs = s.runs ∧ (w.fault.Commits → s.runs.get? id = none)) ∨
      (w.fault.Commits ∧ ∃ row, s'.runs = s.runs.set id row ∧ RowOf id run row) := by
  have hs' : _ = s' := congrArg Prod.snd (Option.some.inj h)
  rw [Fault.write_snd] at hs'
  rw [← hs']
  split_ifs with hf
  · unfold Store.updateRun
    cases hrow : s.runs.get? id with
    | none => exact .inl ⟨rfl, fun _ => rfl⟩
    | some row => exact .inr ⟨hf, _, rfl, hids id row hrow, rfl, rfl, rfl⟩
  · exact .inl ⟨rfl, fun hc => absurd hc hf⟩

theorem act_deletePending_runs {id : Str} {b : Bool} {w : Choice} {s s' : Store} {r : Answer Unit}
    (h : act (.deletePending id b) w s = some (r, s')) : s'.runs = s.runs := by
  have hs' : _ = s' := congrArg Prod.snd (Option.some.inj h)
  rw [Fault.write_snd] at hs'
  rw [← hs']
  split_ifs <;> rfl

/-- The statements that save a run, delete a pending row or look for a run. -/
def Stmt.Touches : Stmt → Prop
  | .insertRun _ | .updateRun .. | .deletePending .. | .selectRunByPending _ => True
  | _ => False

/-- A stretch of the journal that says nothing of an answer. -/
def Mute (extra : List Effect) : Prop := ∀ id, .lookedUp id ∉ extra ∧ ∀ b, .deleted id b ∉ extra

/-- The other statements. -/
theorem act_quiet {o : Stmt} {w : Choice} {s s' : Store} {r : o.Res}
    (h : act o w s = some (r, s')) (ho : ¬ o.Touches) :
    s'.runs = s.runs ∧ ∃ extra, s'.journal = s.journal ++ extra ∧ Mute extra := by
  have hnil : Mute [] := fun id => ⟨List.not_mem_nil, fun b => List.not_mem_nil⟩
  cases o with
  | insertRun | updateRun | deletePending | selectRunByPending => exact absurd trivial ho
  | uuid =>
    obtain ⟨-, h⟩ := Option.ite_none_right_eq_some.1 h
    cases h
    exact ⟨rfl, [], by simp, hnil⟩
  | insertPending id a =>
    simp only [act] at h
    split at h
    · cases h
      exact ⟨rfl, [], by simp, hnil⟩
    · have hs' : _ = s' := congrArg Prod.snd (Option.some.inj h)
      rw [Fault.write_snd] at hs'
      rw [← hs']
      split_ifs <;> exact ⟨rfl, [], by simp, hnil⟩
  | send why channel target content =>
    cases h
    exact ⟨rfl, _, rfl, fun id => by simp⟩
  | _ =>
    cases h
    exact ⟨rfl, [], by simp, hnil⟩

theorem findRun_eq_none {s : Store} {actionId : Str} (h : s.findRun actionId = none) (k : Str)
    (row : Run) : ¬ Waits actionId s k row := by
  rintro ⟨hrow, hp⟩
  have hnone := List.find?_eq_none.1 (Option.map_eq_none_iff.1 h) (k, row)
    (Dict.get?_eq_some_iff.1 hrow)
  simp [hp] at hnone

section

variable {actionId : Str} {driver owner : WakePhase} {s s' : Store}

/-- Only a row that is written anew can wait anew. -/
theorem waits_of_set {k k' : Str} {row row' : Run} (hs : s'.runs = s.runs.set k row)
    (h : Waits actionId s' k' row') :
    (k' = k ∧ row' = row) ∨ (k' ≠ k ∧ Waits actionId s k' row') := by
  obtain ⟨hrow, hp⟩ := h
  rw [hs, Dict.get?_set] at hrow
  split_ifs at hrow with hk
  · exact .inl ⟨hk, (Option.some.inj hrow).symm⟩
  · exact .inr ⟨hk, hrow, hp⟩

theorem ids_of_set {k : Str} {run row : Run} (hs : s'.runs = s.runs.set k row)
    (hrow : RowOf k run row) (h : ∀ k row, s.runs.get? k = some row → row.id = some k) (k' : Str)
    (row' : Run) (hk' : s'.runs.get? k' = some row') : row'.id = some k' := by
  rw [hs, Dict.get?_set] at hk'
  split_ifs at hk' with hk
  · cases hk'
    rw [hk, hrow.id]
  · exact h k' row' hk'

theorem WakeInv.quiet (h : WakeInv actionId driver owner s) (hruns : s'.runs = s.runs)
    (hj : ∃ extra, s'.journal = s.journal ++ extra ∧ Mute extra) :
    WakeInv actionId driver owner s' := by
  obtain ⟨extra, hj, hmute⟩ := hj
  have hwaits (k : Str) (row : Run) : Waits actionId s' k row ↔ Waits actionId s k row := by
    simp only [Waits, hruns]
  refine ⟨h.drives, h.owns, hruns ▸ h.ids, ?_, ?_, ?_, ?_, fun b hb => ?_⟩
  · simpa only [hwaits] using h.waits
  · simpa only [hwaits] using h.found
  · simpa only [hwaits] using h.one
  · rw [hj, List.mem_append, or_iff_left (hmute _).1]
    exact h.lookedUp
  · rw [hj, List.mem_append] at hb
    exact h.deleted b (hb.resolve_right ((hmute _).2 b))

/-- A save of a run that does not wait for the action. -/
theorem WakeInv.rewrite (h : WakeInv actionId driver owner s) {run : Run}
    (hw : s'.runs = s.runs ∨ ∃ k row, s'.runs = s.runs.set k row ∧ RowOf k run row)
    (hp : run.pendingActionId ≠ some actionId) (hj : s'.journal = s.journal) :
    WakeInv actionId driver owner s' := by
  rcases hw with hruns | ⟨k, row, hs, hrow⟩
  · exact h.quiet hruns ⟨[], by simp [hj], fun id => by simp⟩
  · have hwaits (k' : Str) (row' : Run) (hk' : Waits actionId s' k' row') :
        Waits actionId s k' row' := by
      rcases waits_of_set hs hk' with ⟨-, rfl⟩ | ⟨-, hk'⟩
      · exact absurd (hrow.pending.symm.trans hk'.2) hp
      · exact hk'
    refine ⟨h.drives, h.owns, ids_of_set hs hrow h.ids, fun k' row' hk' => ?_,
      fun k' row' k'' hk' => ?_, fun k' row' k'' row'' hk' hk'' => ?_, ?_, ?_⟩
    · exact h.waits k' row' (hwaits _ _ hk')
    · exact h.found k' row' k'' (hwaits _ _ hk')
    · exact h.one k' row' k'' row'' (hwaits _ _ hk') (hwaits _ _ hk'')
    · exact hj ▸ h.lookedUp
    · exact hj ▸ h.deleted

/-- The driver's save of the run as waiting, before the answer looked for it. -/
theorem WakeInv.park (h : WakeInv actionId .driving owner s) {run : Run}
    (hw : s'.runs = s.runs ∨ ∃ k row, s'.runs = s.runs.set k row ∧ RowOf k run row ∧
      .lookedUp actionId ∉ s.journal)
    (hrun : run.status = .waitingApproval ∧ run.steps ≠ []) (hj : s'.journal = s.journal) :
    WakeInv actionId .parked owner s' := by
  have hnone (k : Str) (row : Run) : ¬ Waits actionId s k row := fun hk =>
    WakePhase.noConfusion (h.waits k row hk).1
  rcases hw with hruns | ⟨k, row, hs, hrow, hearly⟩
  · have hnone' (k : Str) (row : Run) : ¬ Waits actionId s' k row := by
      simp only [Waits, hruns]
      exact hnone k row
    exact ⟨.inr rfl, h.owns, hruns ▸ h.ids, fun k row hk => absurd hk (hnone' k row),
      fun k row _ hk => absurd hk (hnone' k row), fun k row _ _ hk => absurd hk (hnone' k row),
      hj ▸ h.lookedUp, hj ▸ h.deleted⟩
  · have hwaits (k' : Str) (row' : Run) (hk' : Waits actionId s' k' row') :
        k' = k ∧ row' = row :=
      (waits_of_set hs hk').resolve_right fun hk' => hnone _ _ hk'.2
    refine ⟨.inr rfl, h.owns, ids_of_set hs hrow h.ids, fun k' row' hk' => ?_,
      fun k' row' k'' hk' ho => ?_, fun k' row' k'' row'' hk' hk'' => ?_, hj ▸ h.lookedUp,
      hj ▸ h.deleted⟩
    · obtain ⟨rfl, rfl⟩ := hwaits k' row' hk'
      refine ⟨rfl, fun ho => hearly (h.lookedUp.2 (.inl ho)), ?_, ?_⟩
      · rw [hrow.status]
        exact hrun.1
      · rw [hrow.steps]
        exact hrun.2
    · exact absurd (h.lookedUp.2 (.inr ⟨k'', ho⟩)) hearly
    · exact (hwaits _ _ hk').1.trans (hwaits _ _ hk'').1.symm

/-- The save of the run the answer found. -/
theorem WakeInv.wake {k : Str} (h : WakeInv actionId driver (.found k) s) {run : Run}
    (hw : (s'.runs = s.runs ∧ ∀ row, ¬ Waits actionId s k row) ∨
      ∃ row, s'.runs = s.runs.set k row ∧ RowOf k run row)
    (hp : run.pendingActionId ≠ some actionId) (hj : s'.journal = s.journal) :
    WakeInv actionId driver .woken s' := by
  have hnone (k' : Str) (row' : Run) : ¬ Waits actionId s' k' row' := by
    intro hk'
    rcases hw with ⟨hruns, hk⟩ | ⟨row, hs, hrow⟩
    · have hk' : Waits actionId s k' row' := ⟨hruns ▸ hk'.1, hk'.2⟩
      obtain rfl := h.found k' row' k hk' rfl
      exact hk row' hk'
    · rcases waits_of_set hs hk' with ⟨-, rfl⟩ | ⟨hne, hk'⟩
      · exact hp (hrow.pending.symm.trans hk'.2)
      · exact hne (h.found k' row' k hk' rfl)
  have hids : ∀ k row, s'.runs.get? k = some row → row.id = some k := by
    rcases hw with ⟨hruns, -⟩ | ⟨row, hs, hrow⟩
    · exact hruns ▸ h.ids
    · exact ids_of_set hs hrow h.ids
  exact ⟨h.drives, by decide, hids, fun k row hk => absurd hk (hnone k row),
    fun k row _ hk => absurd hk (hnone k row), fun k row _ _ hk => absurd hk (hnone k row),
    ⟨fun _ => .inl rfl, fun _ => hj ▸ h.lookedUp.2 (.inr ⟨k, rfl⟩)⟩, fun _ _ => by decide⟩

/-- The answer's lookup: it finds the waiting row, or none waits. -/
theorem WakeInv.lookup (h : WakeInv actionId driver .answered s)
    (hruns : s'.runs = s.runs) (hj : s'.journal = s.journal ++ [.lookedUp actionId]) :
    ∃ owner, (wakeup actionId).next .answered (.selectRunByPending actionId)
      (some (s.findRun actionId)) = some owner ∧ WakeInv actionId driver owner s' := by
  have hmem : Effect.lookedUp actionId ∈ s'.journal := by simp [hj]
  have hwaits (k : Str) (row : Run) : Waits actionId s' k row ↔ Waits actionId s k row := by
    simp only [Waits, hruns]
  cases hfind : s.findRun actionId with
  | none =>
    have hnone (k : Str) (row : Run) : ¬ Waits actionId s' k row :=
      (hwaits k row).not.2 (findRun_eq_none hfind k row)
    exact ⟨.woken, rfl, h.drives, by decide, hruns ▸ h.ids, fun k row hk => absurd hk (hnone k row),
      fun k row _ hk => absurd hk (hnone k row), fun k row _ _ hk => absurd hk (hnone k row),
      ⟨fun _ => .inl rfl, fun _ => hmem⟩, fun _ _ => by decide⟩
  | some row =>
    obtain ⟨k, hk⟩ := Store.findRun_eq_some hfind
    obtain ⟨hparked, -, hstatus, hsteps⟩ := h.waits k row hk
    refine ⟨.found k, ?_, h.drives, by simp, hruns ▸ h.ids, fun k' row' hk' => ?_,
      fun k' row' k'' hk' ho => ?_, ?_, ⟨fun _ => .inr ⟨k, rfl⟩, fun _ => hmem⟩, by simp⟩
    · simp only [wakeup]
      rw [if_pos ⟨hstatus, hsteps⟩, h.ids k row hk.1]
      rfl
    · obtain ⟨-, -, hrow⟩ := h.waits k' row' ((hwaits _ _).1 hk')
      exact ⟨hparked, by simp, hrow⟩
    · cases ho
      exact h.one k' row' k row ((hwaits _ _).1 hk') hk
    · simpa only [hwaits] using h.one

/-- The deletion of the pending row. -/
theorem WakeInv.delete (h : WakeInv actionId driver .asking s)
    (hruns : s'.runs = s.runs) {b : Bool} (hj : s'.journal = s.journal ++ [.deleted actionId b]) :
    WakeInv actionId driver .answered s' := by
  have hwaits (k : Str) (row : Run) : Waits actionId s' k row ↔ Waits actionId s k row := by
    simp only [Waits, hruns]
  refine ⟨h.drives, by decide, hruns ▸ h.ids, fun k row hk => ?_, by simp, ?_, ?_, by simp⟩
  · obtain ⟨hparked, -, hrow⟩ := h.waits k row ((hwaits _ _).1 hk)
    exact ⟨hparked, by decide, hrow⟩
  · simpa only [hwaits] using h.one
  · simpa [hj] using h.lookedUp

/-- A save by the driver. -/
theorem WakeInv.driverSaves (h : WakeInv actionId driver owner s) {run : Run}
    (hwrites : driver.Writes actionId run)
    (hw : s'.runs = s.runs ∨ ∃ k row, s'.runs = s.runs.set k row ∧ RowOf k run row ∧
      (run.pendingActionId = some actionId → .lookedUp actionId ∉ s.journal))
    (hj : s'.journal = s.journal) :
    WakeInv actionId (driver.save actionId run) owner s' := by
  have hrewrite (hp : run.pendingActionId ≠ some actionId) : WakeInv actionId driver owner s' :=
    h.rewrite (hw.imp_right fun ⟨k, row, hs, hrow, _⟩ => ⟨k, row, hs, hrow⟩) hp hj
  rcases h.drives with rfl | rfl
  · by_cases hp : run.pendingActionId = some actionId
    · rw [show WakePhase.driving.save actionId run = .parked from if_pos hp]
      refine h.park (hw.imp_right ?_) (hwrites hp) hj
      rintro ⟨k, row, hs, hrow, hearly⟩
      exact ⟨k, row, hs, hrow, hearly hp⟩
    · rw [show WakePhase.driving.save actionId run = .driving from if_neg hp]
      exact hrewrite hp
  · exact hrewrite hwrites

/-- **One statement of the driver.** -/
theorem WakeInv.driverStep (h : WakeInv actionId driver owner s) {o : Stmt} {w : Choice}
    {r : o.Res} (hp : (stmtWakeup actionId).permits driver o) (hG : Orderly actionId .driver o w s)
    (hact : act o w s = some (r, s')) :
    ∃ driver', (stmtWakeup actionId).next driver o r = some driver' ∧
      WakeInv actionId driver' owner s' := by
  have hne : driver ≠ .asking ∧ driver ≠ .answered ∧ driver ≠ .woken := by
    rcases h.drives with rfl | rfl <;> decide
  have hquiet (ho : ¬ o.Touches) : WakeInv actionId driver owner s' :=
    h.quiet (act_quiet hact ho).1 (act_quiet hact ho).2
  cases o with
  | insertRun run =>
    refine ⟨_, rfl, h.driverSaves hp.2.1 ?_ (act_insertRun hact).2⟩
    rcases act_insertRun_runs hact with ⟨hruns, -⟩ | ⟨hf, row, hs, hrow⟩
    · exact .inl hruns
    · exact .inr ⟨_, row, hs, hrow, fun hp => hG hp hf⟩
  | updateRun id run =>
    refine ⟨_, rfl, h.driverSaves hp.2.1 ?_ (act_updateRun hact).2⟩
    rcases act_updateRun_runs h.ids hact with ⟨hruns, -⟩ | ⟨hf, row, hs, hrow⟩
    · exact .inl hruns
    · exact .inr ⟨_, row, hs, hrow, fun hp => hG hp hf⟩
  | deletePending id b => exact absurd hp.2.1 hne.1
  | selectRunByPending id => exact absurd hp.2.1 hne.2.1
  | executeOrRequest r => exact absurd trivial hp.1.1
  | notifyAgentLoop => exact absurd trivial hp.1.2
  | insertLog e => exact ⟨driver, if_neg fun h => hne.2.1 h.1, hquiet id⟩
  | learn => exact ⟨driver, if_neg fun h => hne.2.1 h.1, hquiet id⟩
  | uuid => exact ⟨driver, if_neg fun h => hne.2.2 h.1, hquiet id⟩
  | _ => exact ⟨driver, rfl, hquiet id⟩

/-- **One statement of the owner's answer**, or of the loop it goes on with. -/
theorem WakeInv.ownerStep (h : WakeInv actionId driver owner s) {o : Stmt} {w : Choice}
    {r : o.Res} (hp : (stmtWakeup actionId).permits owner o) (hG : Orderly actionId .owner o w s)
    (hact : act o w s = some (r, s')) :
    ∃ owner', (stmtWakeup actionId).next owner o r = some owner' ∧
      WakeInv actionId driver owner' s' := by
  have hquiet (ho : ¬ o.Touches) : WakeInv actionId driver owner s' :=
    h.quiet (act_quiet hact ho).1 (act_quiet hact ho).2
  cases o with
  | insertRun run =>
    -- only the woken loop starts a row, and that one does not wait for the action
    obtain ⟨-, hwrites, hfound⟩ := hp
    cases owner with
    | driving => exact absurd rfl h.owns.1
    | parked => exact absurd rfl h.owns.2
    | asking => exact hwrites.elim
    | answered => exact hwrites.elim
    | found k => exact absurd rfl (hfound k)
    | woken =>
      refine ⟨.woken, rfl, h.rewrite ?_ hwrites (act_insertRun hact).2⟩
      exact (act_insertRun_runs hact).imp And.left fun ⟨_, row, hs, hrow⟩ => ⟨_, row, hs, hrow⟩
  | updateRun id run =>
    obtain ⟨-, hwrites, hfound⟩ := hp
    have hruns := act_updateRun_runs h.ids hact
    cases owner with
    | driving => exact absurd rfl h.owns.1
    | parked => exact absurd rfl h.owns.2
    | asking => exact hwrites.elim
    | answered => exact hwrites.elim
    | found k =>
      obtain rfl := hfound k rfl
      refine ⟨.woken, rfl, h.wake (hruns.imp ?_ And.right) hwrites (act_updateRun hact).2⟩
      rintro ⟨hruns, hnone⟩
      refine ⟨hruns, fun row hk => ?_⟩
      have hrow := hnone (hG ⟨row, hk.1, hk.2⟩)
      rw [hk.1] at hrow
      cases hrow
    | woken =>
      refine ⟨.woken, rfl, h.rewrite ?_ hwrites (act_updateRun hact).2⟩
      exact hruns.imp And.left fun ⟨_, row, hs, hrow⟩ => ⟨_, row, hs, hrow⟩
  | deletePending id b =>
    obtain ⟨-, rfl, rfl⟩ := hp
    have hruns := act_deletePending_runs hact
    rcases act_deletePending hact with ⟨-, rfl, -, hj⟩ | ⟨hr, hj, -⟩
    · exact ⟨.answered, rfl, h.delete hruns hj⟩
    · refine ⟨.asking, congrArg some (if_neg hr), h.quiet hruns ⟨[], by simp [hj], ?_⟩⟩
      exact fun id => ⟨List.not_mem_nil, fun b => List.not_mem_nil⟩
  | selectRunByPending id =>
    obtain ⟨-, rfl, rfl⟩ := hp
    simp only [act, show w.fault = .none from hG, Fault.read, Answer.toOption] at hact
    cases hact
    exact h.lookup rfl rfl
  | executeOrRequest r => exact absurd trivial hp.1.1
  | notifyAgentLoop => exact absurd trivial hp.1.2
  | insertLog e =>
    refine ⟨owner, if_neg ?_, hquiet id⟩
    rintro ⟨rfl, hr⟩
    cases hact
    exact hG (fun hm => by simpa using h.lookedUp.1 hm) hr
  | learn actionType content result approved =>
    refine ⟨owner, if_neg ?_, hquiet id⟩
    rintro ⟨-, hr⟩
    cases hact
    exact hG hr
  | uuid =>
    refine ⟨owner, if_neg ?_, hquiet id⟩
    rintro ⟨-, hr⟩
    obtain ⟨-, hact⟩ := Option.ite_none_right_eq_some.1 hact
    cases hact
    exact hG hr
  | _ => exact ⟨owner, rfl, hquiet id⟩

end

/-! ## Every schedule -/

/-- Nothing in a store speaks of the action yet, and the rows of `agent_runs` carry their ids. -/
structure Unheard (actionId : Str) (s : Store) : Prop where
  ids : ∀ k row, s.runs.get? k = some row → row.id = some k
  waits : ∀ k row, ¬ Waits actionId s k row
  lookedUp : .lookedUp actionId ∉ s.journal
  deleted : ∀ b, .deleted actionId b ∉ s.journal

/-- Once the action was resolved and both parties have finished, no stored run waits for it. -/
def WokenUp (actionId : Str) (c : Pool Statements Party Store Unit) : Prop :=
  (∀ i, ∃ u, c.threads i = .ret u) → (∃ b, .deleted actionId b ∈ c.state.journal) →
    ∀ k row, c.state.runs.get? k = some row →
      ¬ (row.status = .waitingApproval ∧ row.pendingActionId = some actionId)

/-- Both threads keep to the typestate from their starts. -/
theorem waking_follows (env : Env) {actionId : Str} (service : Bool) (role : Option Str) {run : Run}
    (hrun : run.pendingActionId ≠ some actionId) {a : Answerer}
    (ha : ∀ b id, approvalOf env (a.message env) = some (b, id) → id = actionId) (s : Store)
    (i : Party) :
    ((waking env service role run a s).threads i).Follows (stmtWakeup actionId)
      (fun φ _ => i = .owner → AnswerEnds φ)
      (match i with
        | .driver => WakePhase.driving
        | .owner => WakePhase.asking) := by
  cases i with
  | driver =>
    have hdrive : (drive env service role run).Follows (loopWakeup actionId)
        (drivingRule env actionId).Stopped WakePhase.driving :=
      (drivingRule env actionId).drive_follows ⟨rfl, hrun⟩
    exact (interp_gated_wakeup hdrive).bind fun _ _ _ => nofun
  | owner =>
    exact (interp_notified_wakeup (program_wakeup ha)).bind fun _ _ h _ => h

/-- **No lost wake-up, where the save comes first.** However the statements of a driver and of an
owner's answer to the action interleave, each with any outcome: if the save that leaves the run
waiting does not take effect after the answer looked for it, and the answer's own statements go
through as far as the save of the run it found, then a resolved action leaves no run waiting once
both have finished. -/
theorem no_lost_wakeup (env : Env) {actionId : Str} (service : Bool) (role : Option Str) {run : Run}
    (hrun : run.pendingActionId ≠ some actionId) {a : Answerer}
    (ha : ∀ b id, approvalOf env (a.message env) = some (b, id) → id = actionId) {s : Store}
    (hs : Unheard actionId s) {es : List (Party × Choice)}
    {c : Pool Statements Party Store Unit}
    (hes : (waking env service role run a s).run store es = some c)
    (horderly : (waking env service role run a s).Along store (Orderly actionId) es) :
    WokenUp actionId c := by
  have hinit : WakeInv actionId .driving .asking s :=
    ⟨.inl rfl, by decide, hs.ids, fun k row hk => absurd hk (hs.waits k row), by simp,
      fun k row _ _ hk => absurd hk (hs.waits k row), by simpa using hs.lookedUp,
      fun b hb => absurd hb (hs.deleted b)⟩
  obtain ⟨φ, hfollows, hinv⟩ := Pool.run_follows (P := stmtWakeup actionId)
    (I := fun (φ : Party → WakePhase) s => WakeInv actionId (φ .driver) (φ .owner) s)
    (fun φ i o w s r s' hI hp hG hact => by
      cases i with
      | driver =>
        obtain ⟨φ', hnext, hI'⟩ := hI.driverStep hp hG hact
        exact ⟨φ', hnext, by simpa using hI'⟩
      | owner =>
        obtain ⟨φ', hnext, hI'⟩ := hI.ownerStep hp hG hact
        exact ⟨φ', hnext, by simpa using hI'⟩)
    hes horderly (waking_follows env service role hrun ha s) hinit
  rintro hdone ⟨b, hdeleted⟩ k row hrow ⟨-, hp⟩
  obtain ⟨u, hu⟩ := hdone .owner
  have hends := hfollows .owner
  rw [hu] at hends
  rcases hends rfl with hasking | hwoken
  · exact hinv.deleted b hdeleted hasking
  · exact (hinv.waits k row ⟨hrow, hp⟩).2.1 hwoken

/-- A run about to take its first step. -/
def freshRun : Run where
  id := none
  role := none
  query := "Tell ops.".toList
  contextAnswer := []
  status := .running
  steps := []
  tainted := false
  pendingActionId := none
  summary := []

/-- The driver's model asks for a webhook message, the woken loop's model for nothing more. -/
def wakeReply : Party → Str
  | .driver => hookReply
  | .owner => "No further action.".toList

/-- A schedule in mode `semi` in which nothing fails. -/
def wakeSchedule (order : List Party) : List (Party × Choice) :=
  order.map fun i => (i, ⟨.none, "0123ABCD".toList, loopWorld .semi "/guide" (wakeReply i)⟩)

/-- The driver of `freshRun`, and the owner's YES to the action it stores. -/
def yesToHook : Pool Statements Party Store Unit :=
  waking (loopEnv "/guide") true none freshRun (.chat "yes 0123abcd".toList) emptyStore

/-- Both parties have finished and the action was resolved. -/
def settled (c : Pool Statements Party Store Unit) : Bool :=
  let finished (i : Party) : Bool := match c.threads i with
    | .ret _ => true
    | _ => false
  finished .driver && finished .owner &&
    decide (.deleted "0123ABCD".toList true ∈ c.state.journal)

theorem of_settled {c : Pool Statements Party Store Unit} (h : settled c = true) :
    (∀ i, ∃ u, c.threads i = .ret u) ∧ .deleted "0123ABCD".toList true ∈ c.state.journal := by
  simp only [settled, Bool.and_eq_true, decide_eq_true_eq] at h
  obtain ⟨⟨hdriver, howner⟩, hdeleted⟩ := h
  refine ⟨fun i => ?_, hdeleted⟩
  cases i with
  | driver =>
    split at hdriver
    · exact ⟨_, ‹_›⟩
    · cases hdriver
  | owner =>
    split at howner
    · exact ⟨_, ‹_›⟩
    · cases howner

/-- The driver saves the run before the owner answers. -/
def savedFirst : List (Party × Choice) :=
  wakeSchedule (List.replicate 10 .driver ++ List.replicate 14 .owner)

/-- The owner answers after the action is announced and before the run is saved. -/
def answeredFirst : List (Party × Choice) :=
  wakeSchedule (List.replicate 9 .driver ++ List.replicate 6 .owner ++ [.driver])

/-- The save comes first: the run is taken up. -/
theorem no_lost_wakeup_savedFirst :
    ∃ c, yesToHook.run store savedFirst = some c ∧ settled c = true ∧
      WokenUp "0123ABCD".toList c := by
  obtain ⟨c, hrun, hsettled⟩ := Pool.exists_run_of_reaches (M := store) yesToHook savedFirst settled
    (by decide)
  have hcheck : yesToHook.check store (fun (i : Party) (o : Stmt) (w : Choice) (s : Store) =>
      decide (Orderly "0123ABCD".toList i o w s)) savedFirst = true := by
    decide
  have horderly : yesToHook.Along store (Orderly "0123ABCD".toList) savedFirst :=
    Pool.along_of_check _ (fun _ _ _ _ h => of_decide_eq_true h) hcheck
  have hof : approvalOf (loopEnv "/guide") "yes 0123abcd".toList =
      some (true, "0123ABCD".toList) := by decide
  have hyes : ∀ b id, approvalOf (loopEnv "/guide")
      ((Answerer.chat "yes 0123abcd".toList).message (loopEnv "/guide")) = some (b, id) →
      id = "0123ABCD".toList := fun b id h => by
    cases hof.symm.trans h
    rfl
  have hempty : Unheard "0123ABCD".toList emptyStore :=
    ⟨fun _ _ h => (by cases h), fun _ _ h => (by cases h.1), (by simp [emptyStore]),
      (by simp [emptyStore])⟩
  exact ⟨c, hrun, hsettled,
    no_lost_wakeup (loopEnv "/guide") true none (by decide) hyes hempty hrun horderly⟩

/-- The answer comes first: the run is left waiting for an action that was carried out. -/
theorem answeredFirst_waits :
    ∃ c, yesToHook.run store answeredFirst = some c ∧ ¬ WokenUp "0123ABCD".toList c := by
  obtain ⟨c, hrun, htest⟩ := Pool.exists_run_of_reaches (M := store) yesToHook answeredFirst
    (fun c => settled c && ((c.state.runs.get? "0123ABCD".toList).any fun row : Run =>
      decide (row.status = .waitingApproval ∧ row.pendingActionId = some "0123ABCD".toList)))
    (by decide)
  rw [Bool.and_eq_true, Option.any_eq_true] at htest
  obtain ⟨hsettled, row, hrow, hwaits⟩ := htest
  obtain ⟨hfinished, hdeleted⟩ := of_settled hsettled
  exact ⟨c, hrun, fun h => h hfinished ⟨true, hdeleted⟩ _ row hrow (of_decide_eq_true hwaits)⟩

end RagLeap.Core
