import RagLeap.Core.Autonomy

/-!
# Stored approvals

What the table `autonomy_pending` says about the actions announced to the owner:
`agreesOn_iff_of_pendingApproval` is the exact condition under which the row a YES will find is the
announced action. On the way, which statements a request (`executeOrRequest_ofGate`) and an answer
(`answerPending_ofAnswer`) may issue, and what an INSERT does to the table (`get?_insertRow`).
-/

namespace RagLeap.Core

/-! ## Which statements a call issues -/

/-- The statements that neither run an action nor write a table. -/
inductive Inquires : Stmt → Prop
  | readSettings : Inquires .readSettings
  | readRole (role : Str) : Inquires (.readRole role)
  | insertLog (e : LogEntry) : Inquires (.insertLog e)
  | announce (actionId channel target content : Str) :
    Inquires (.send (.announce actionId) channel target content)

/-- The statements of `execute_or_request` for an action. -/
inductive OfGate (a : Action) : Stmt → Prop
  | inquires {o : Stmt} (h : Inquires o) : OfGate a o
  | uuid : OfGate a .uuid
  | insertPending (actionId : Str) : OfGate a (.insertPending actionId a)
  | direct : OfGate a (.send .direct a.channel a.target a.content)
  | executeFn : OfGate a .executeFn

section

variable {env : Env}

theorem getAutonomySettings_inquires : getAutonomySettings.run.Only Inquires := by
  refine (Prog.Only.op_iff _ _).2 ⟨.readSettings, fun ans => ?_⟩
  cases ans <;> trivial

theorem logAutonomousAction_only {φ : Stmt → Prop} (h : ∀ e, φ (.insertLog e)) (e : LogEntry) :
    (logAutonomousAction e).run.Only φ := by
  refine (Prog.Only.op_iff _ _).2 ⟨h _, fun ans => ?_⟩
  cases ans <;> trivial

theorem requestApproval_inquires (a : Action) (actionId : Str) :
    (requestApproval env a actionId).run.Only Inquires := by
  refine Proc.only_bind getAutonomySettings_inquires fun settings => ?_
  split_ifs
  · trivial
  · exact (Prog.Only.op_iff _ _).2 ⟨.announce _ _ _ _, fun _ => trivial⟩

theorem isSensitiveRole_inquires (role : Str) : (isSensitiveRole env role).run.Only Inquires := by
  unfold isSensitiveRole
  dsimp only
  split_ifs
  · trivial
  · split
    · trivial
    · refine (Prog.Only.op_iff _ _).2 ⟨.readRole _, fun ans => ?_⟩
      cases ans <;> trivial

theorem effectiveMode_inquires (r : Request) (mode : Mode) :
    (effectiveMode env r mode).run.Only Inquires := by
  unfold effectiveMode
  split_ifs
  · trivial
  · split
    · trivial
    · trivial
    · exact Proc.only_bind (isSensitiveRole_inquires _) fun _ => trivial
  · trivial

/-- A direct run does not ask for approval. -/
theorem executeDirectly_ofGate (r : Request) :
    (executeDirectly r).run.Follows (Protocol.only (OfGate r.toAction))
      (fun _ reply => ∀ id sent, reply ≠ some (.pendingApproval id sent)) () := by
  have hlog := logAutonomousAction_only (φ := OfGate r.toAction) fun e => .inquires (.insertLog e)
  have hrun : (runAction r).run.Only (OfGate r.toAction) := by
    unfold runAction
    split_ifs
    · refine (Prog.Only.op_iff _ _).2 ⟨.executeFn, fun ans => ?_⟩
      cases ans <;> trivial
    · exact (Prog.Only.op_iff _ _).2 ⟨.direct, fun _ => trivial⟩
  refine Proc.follows_bind (Proc.only_attempt (Proc.only_bind hrun fun result =>
    Proc.only_bind (hlog _) fun _ => trivial)) (fun _ ran _ => ?_) fun _ _ => nofun
  cases ran with
  | some result => exact nofun
  | none => exact Proc.follows_bind (hlog _) (fun _ _ _ => nofun) fun _ _ => nofun

theorem storeAndAnnounce_ofGate (r : Request) :
    (storeAndAnnounce env r).run.Only (OfGate r.toAction) := by
  refine (Prog.Only.op_iff _ _).2 ⟨.uuid, fun actionId =>
    (Prog.Only.op_iff _ _).2 ⟨.insertPending _, fun ans => ?_⟩⟩
  have hannounce : (requestApproval env r.toAction actionId >>= fun sent =>
      (pure (.pendingApproval actionId sent) : Proc Statements GateReply)).run.Only
        (OfGate r.toAction) :=
    Proc.only_bind ((requestApproval_inquires _ actionId).mono fun _ => .inquires)
      fun _ => trivial
  cases ans with
  | ok a => exact hannounce
  | raised => exact hannounce
  | unreachable => trivial

theorem executeOrRequest_ofGate (r : Request) :
    (executeOrRequest env r).run.Only (OfGate r.toAction) := by
  refine Proc.only_bind (getAutonomySettings_inquires.mono fun _ => .inquires) fun settings => ?_
  split_ifs
  · trivial
  · trivial
  · trivial
  · refine Proc.only_bind ((effectiveMode_inquires r _).mono fun _ => .inquires) fun mode => ?_
    cases mode with
    | full => exact (executeDirectly_ofGate r).mono fun _ _ _ => trivial
    | semi => exact storeAndAnnounce_ofGate r
    | off => trivial
    | other m => trivial

end

/-! ## Which row a request stores -/

theorem act_inquires {o : Stmt} {w : Choice} {s s' : Store} {r : o.Res} (ho : Inquires o)
    (h : act o w s = some (r, s')) : s'.pending = s.pending := by
  cases ho <;> cases h <;> rfl

/-- The table after an INSERT. -/
def insertRow (pending : Dict Str Action) (actionId : Str) (a : Action) (f : Fault) :
    Dict Str Action :=
  match pending.get? actionId with
  | some _ => pending
  | none => if f.Commits then pending.set actionId a else pending

theorem act_insertPending {actionId : Str} {a : Action} {w : Choice} {s s' : Store}
    {r : Answer Unit} (h : act (.insertPending actionId a) w s = some (r, s')) :
    s'.pending = insertRow s.pending actionId a w.fault := by
  simp only [act] at h
  unfold insertRow
  cases hrow : s.pending.get? actionId with
  | some row =>
    rw [hrow] at h
    cases h
    rfl
  | none =>
    rw [hrow] at h
    cases hf : w.fault <;> rw [hf] at h <;> cases h <;> simp [Fault.Commits]

/-- A row that is there stays as it is; a free id gets the row if the INSERT takes effect. -/
theorem get?_insertRow (pending : Dict Str Action) (actionId : Str) (a : Action) (f : Fault) :
    (insertRow pending actionId a f).get? actionId = some a ↔
      pending.get? actionId = some a ∨ (pending.get? actionId = none ∧ f.Commits) := by
  unfold insertRow
  cases hrow : pending.get? actionId with
  | some row => simp [hrow]
  | none =>
    by_cases hf : f.Commits
    · simp [hf, Dict.get?_set]
    · simp [hf, hrow]

theorem executeDirectly_reply {r : Request} {s s' : Store} {es : List (Stmt × Choice)}
    {reply : GateReply} (h : store.Runs (executeDirectly r).run s es (some reply) s')
    (actionId : Str) (sent : Bool) : reply ≠ .pendingApproval actionId sent := by
  obtain ⟨_, hreply, -⟩ := h.follows (I := fun _ _ => True)
    (fun _ _ _ _ _ _ _ _ _ => ⟨(), rfl, trivial⟩) (executeDirectly_ofGate r) trivial
  exact fun he => hreply actionId sent (congrArg some he)

theorem Inquires.runs {α : Type} {p : Prog Statements α} (hp : p.Only Inquires) {s s' : Store}
    {es : List (Stmt × Choice)} {a : α} (h : store.Runs p s es a s') :
    (∀ e ∈ es, Inquires e.1) ∧ s'.pending = s.pending :=
  h.only (I := fun s₁ => s₁.pending = s.pending)
    (fun _ _ _ _ _ ho hs hact => (act_inquires ho hact).trans hs) hp rfl

theorem storeAndAnnounce_stores {env : Env} {r : Request} {s s' : Store}
    {es : List (Stmt × Choice)} {actionId : Str} {sent : Bool}
    (h : store.Runs (storeAndAnnounce env r).run s es (some (.pendingApproval actionId sent)) s') :
    ∃ w₁ w es₂, es = (.uuid, w₁) :: (.insertPending actionId r.toAction, w) :: es₂ ∧
      (∀ e ∈ es₂, Inquires e.1) ∧
      s'.pending = insertRow s.pending actionId r.toAction w.fault := by
  obtain ⟨w₁, id, s₁, es₁, huuid, h, rfl⟩ := Machine.runs_op_iff.1 h
  obtain ⟨-, huuid⟩ := Option.ite_none_right_eq_some.1 huuid
  cases huuid
  obtain ⟨w, ans, s₂, es₂, hinsert, h, rfl⟩ := Machine.runs_op_iff.1 h
  -- whatever the INSERT answered, what is left is the announcement
  have hannounce : store.Runs (requestApproval env r.toAction w₁.id >>= fun sent =>
      (pure (.pendingApproval w₁.id sent) : Proc Statements GateReply)).run s₂ es₂
        (some (.pendingApproval actionId sent)) s' := by
    cases ans with
    | ok a => exact h
    | raised => exact h
    | unreachable => cases h
  obtain ⟨es₃, es₄, sent', s₃, rfl, hrequest, hpure⟩ := Machine.runs_bind_some_iff.1 hannounce
  cases hpure
  obtain ⟨hes, hpending⟩ := Inquires.runs (requestApproval_inquires _ _) hrequest
  exact ⟨w₁, w, es₃ ++ [], rfl, by simpa using hes, hpending.trans (act_insertPending hinsert)⟩

/-- A call that asks for approval stores the action by one INSERT, and no other statement of it
changes the table. -/
theorem executeOrRequest_stores {env : Env} {r : Request} {s s' : Store}
    {es : List (Stmt × Choice)} {actionId : Str} {sent : Bool}
    (h : store.Runs (executeOrRequest env r).run s es (some (.pendingApproval actionId sent)) s') :
    ∃ w, (∀ w', (.insertPending actionId r.toAction, w') ∈ es ↔ w' = w) ∧
      s'.pending = insertRow s.pending actionId r.toAction w.fault := by
  obtain ⟨es₁, es₂, settings, s₁, rfl, hsettings, h⟩ := Machine.runs_bind_some_iff.1 h
  obtain ⟨hes₁, hp₁⟩ := Inquires.runs getAutonomySettings_inquires hsettings
  split_ifs at h
  · cases h
  · cases h
  · cases h
  · obtain ⟨es₃, es₄, mode, s₂, rfl, hmode, h⟩ := Machine.runs_bind_some_iff.1 h
    obtain ⟨hes₃, hp₂⟩ := Inquires.runs (effectiveMode_inquires r _) hmode
    cases mode with
    | off => cases h
    | other m => cases h
    | full => exact absurd rfl (executeDirectly_reply h actionId sent)
    | semi =>
      obtain ⟨w₁, w, es₅, rfl, hes₅, hp₃⟩ := storeAndAnnounce_stores h
      refine ⟨w, fun w' => ?_, by rw [hp₃, hp₂, hp₁]⟩
      have hnot : ∀ es : List (Stmt × Choice), (∀ e ∈ es, Inquires e.1) →
          (.insertPending actionId r.toAction, w') ∉ es := fun es hes hm => nomatch hes _ hm
      simp [hnot _ hes₁, hnot _ hes₃, hnot _ hes₅]

/-! ## Which statements an answer issues -/

/-- The statements that carry out the answer to `row`, stored under `actionId`. -/
inductive Carries (actionId : Str) (approved : Bool) (row : Action) : Stmt → Prop
  | send (h : approved = true) :
    Carries actionId approved row (.send (.approved actionId) row.channel row.target row.content)
  | insertLog (e : LogEntry) : Carries actionId approved row (.insertLog e)
  | learn (actionType content result : Str) :
    Carries actionId approved row (.learn actionType content result approved)
  | notifyAgentLoop (result actionType : Str) :
    Carries actionId approved row (.notifyAgentLoop actionId approved result actionType)

/-- The statements of an answer to `actionId`. -/
inductive OfAnswer (actionId : Str) (approved : Bool) : Stmt → Prop
  | selectPending : OfAnswer actionId approved (.selectPending actionId)
  | deletePending : OfAnswer actionId approved (.deletePending actionId approved)
  | carries {row : Action} {o : Stmt} (h : Carries actionId approved row o) :
    OfAnswer actionId approved o

theorem carryOut_carries (actionId : Str) (approved : Bool) (row : Action) :
    (carryOut actionId approved row).run.Only (Carries actionId approved row) := by
  have hlog := logAutonomousAction_only (φ := Carries actionId approved row) .insertLog
  unfold carryOut
  split_ifs with happroved
  · subst happroved
    refine (Prog.Only.op_iff _ _).2 ⟨.send rfl, fun result =>
      Proc.only_bind (hlog _) fun _ => (Prog.Only.op_iff _ _).2 ⟨.learn _ _ _, fun ans => ?_⟩⟩
    cases ans with
    | none => trivial
    | some _ => exact (Prog.Only.op_iff _ _).2 ⟨.notifyAgentLoop _ _, fun _ => trivial⟩
  · rw [Bool.not_eq_true] at happroved
    subst happroved
    refine Proc.only_bind (hlog _) fun _ =>
      (Prog.Only.op_iff _ _).2 ⟨.learn _ _ _, fun ans => ?_⟩
    cases ans with
    | none => trivial
    | some _ => exact (Prog.Only.op_iff _ _).2 ⟨.notifyAgentLoop _ _, fun _ => trivial⟩

theorem answerPending_ofAnswer (actionId : Str) (approved : Bool) :
    (answerPending actionId approved).run.Only (OfAnswer actionId approved) := by
  refine (Prog.Only.op_iff _ _).2 ⟨.selectPending, fun ans => ?_⟩
  cases ans with
  | unreachable => trivial
  | raised => trivial
  | ok row =>
    cases row with
    | none => trivial
    | some row =>
      refine (Prog.Only.op_iff _ _).2 ⟨.deletePending, fun ans => ?_⟩
      cases ans with
      | ok _ => exact (carryOut_carries _ _ _).mono fun _ => .carries
      | raised => trivial
      | unreachable => trivial

/-! ## A stored row stays until it is answered -/

/-- The writes on `agent_runs` leave the rest alone. -/
theorem act_insertRun {run : Run} {w : Choice} {s s' : Store} {r : Option Str}
    (h : act (.insertRun run) w s = some (r, s')) :
    s'.pending = s.pending ∧ s'.journal = s.journal := by
  simp only [act] at h
  split at h
  · cases h
  · have hs' : _ = s' := congrArg Prod.snd (Option.some.inj h)
    rw [Fault.write_snd] at hs'
    rw [← hs']
    split_ifs <;> exact ⟨rfl, rfl⟩

theorem act_updateRun {id : Str} {run : Run} {w : Choice} {s s' : Store} {r : Option Unit}
    (h : act (.updateRun id run) w s = some (r, s')) :
    s'.pending = s.pending ∧ s'.journal = s.journal := by
  have hs' : _ = s' := congrArg Prod.snd (Option.some.inj h)
  rw [Fault.write_snd] at hs'
  rw [← hs']
  split_ifs <;> exact ⟨rfl, rfl⟩

/-- Only an answer to the id removes its row; an INSERT does not replace it. -/
theorem act_keeps_row {o : Stmt} {w : Choice} {s s' : Store} {r : o.Res} {actionId : Str}
    {a : Action} (ho : ∀ b, o ≠ .deletePending actionId b) (hs : s.pending.get? actionId = some a)
    (h : act o w s = some (r, s')) : s'.pending.get? actionId = some a := by
  cases o with
  | insertPending id a' =>
    rw [act_insertPending h]
    unfold insertRow
    cases hrow : s.pending.get? id with
    | some row => exact hs
    | none =>
      have hne : actionId ≠ id := fun he => by
        rw [he, hrow] at hs
        cases hs
      by_cases hf : w.fault.Commits
      · simpa [hf, Dict.get?_set, hne] using hs
      · simpa [hf] using hs
  | deletePending id b =>
    have hne : actionId ≠ id := fun he => ho b (he ▸ rfl)
    have hs' : _ = s' := congrArg Prod.snd (Option.some.inj h)
    rw [Fault.write_snd] at hs'
    rw [← hs']
    by_cases hf : w.fault.Commits
    · simpa only [if_pos hf, Dict.get?_erase, if_neg hne] using hs
    · simpa only [if_neg hf] using hs
  | insertRun run => exact (act_insertRun h).1 ▸ hs
  | updateRun id run => exact (act_updateRun h).1 ▸ hs
  | uuid =>
    obtain ⟨-, h⟩ := Option.ite_none_right_eq_some.1 h
    cases h
    exact hs
  | _ =>
    cases h
    exact hs

/-- A message that is no answer to `actionId`. -/
def NotAbout (env : Env) (actionId message : Str) : Prop :=
  ∀ b, approvalOf env message ≠ some (b, actionId)

theorem processApprovalResponse_only {env : Env} {message : Str} {φ : Stmt → Prop}
    (h : ∀ b id, approvalOf env message = some (b, id) → ∀ o, OfAnswer id b o → φ o) :
    (processApprovalResponse env message).run.Only φ := by
  unfold processApprovalResponse
  cases hm : approvalOf env message with
  | none => trivial
  | some answer =>
    obtain ⟨b, id⟩ := answer
    exact Proc.only_bind ((answerPending_ofAnswer id b).mono (h b id hm)) fun _ => trivial

/-- The stores that any number of further requests, and of answers to other ids, lead to. -/
inductive Later (env : Env) (actionId : Str) : Store → Store → Prop
  | refl (s : Store) : Later env actionId s s
  | request {s s₁ s₂ : Store} {r : Request} {es : List (Stmt × Choice)}
      {reply : Option GateReply} (h : Later env actionId s s₁)
      (hr : store.Runs (executeOrRequest env r).run s₁ es reply s₂) : Later env actionId s s₂
  | answer {s s₁ s₂ : Store} {message : Str} {es : List (Stmt × Choice)}
      {reply : Option (Option ApprovalReply)} (h : Later env actionId s s₁)
      (hm : NotAbout env actionId message)
      (hr : store.Runs (processApprovalResponse env message).run s₁ es reply s₂) :
      Later env actionId s s₂

theorem Later.keeps_row {env : Env} {actionId : Str} {a : Action} {s s' : Store}
    (h : Later env actionId s s') (hs : s.pending.get? actionId = some a) :
    s'.pending.get? actionId = some a := by
  have hstep : ∀ (o : Stmt) (w : Choice) (s : Store) (r : o.Res) (s' : Store),
      (∀ b, o ≠ .deletePending actionId b) → s.pending.get? actionId = some a →
        act o w s = some (r, s') → s'.pending.get? actionId = some a :=
    fun _ _ _ _ _ => act_keeps_row
  induction h with
  | refl => exact hs
  | request _ hr ih =>
    refine (hr.only hstep ((executeOrRequest_ofGate _).mono fun o ho b he => ?_) ih).2
    subst he
    exact nomatch ho
  | answer _ hm hr ih =>
    refine (hr.only hstep (processApprovalResponse_only fun b id hid o ho b' he => ?_) ih).2
    subst he
    cases ho with
    | deletePending => exact hm _ hid
    | carries h => exact nomatch h

/-! ## What a YES runs -/

/-- Carrying out a YES sends the row, first thing. -/
theorem carryOut_yes_sends {actionId : Str} {row : Action} {s s' : Store}
    {es : List (Stmt × Choice)} {reply : Option ApprovalReply}
    (h : store.Runs (carryOut actionId true row).run s es reply s') :
    ∃ w, (.send (.approved actionId) row.channel row.target row.content, w) ∈ es := by
  obtain ⟨w, _, _, es₁, -, -, rfl⟩ := Machine.runs_op_iff.1 h
  exact ⟨w, List.mem_cons_self⟩

/-- The statements of an answer send `a` and nothing else, and do send it unless one fails. -/
def RunsAction (actionId : Str) (a : Action) (es : List (Stmt × Choice)) : Prop :=
  (∀ why channel target content w, (.send why channel target content, w) ∈ es →
      channel = a.channel ∧ target = a.target ∧ content = a.content) ∧
    ((∀ e ∈ es, e.2.fault = .none) →
      ∃ w, (.send (.approved actionId) a.channel a.target a.content, w) ∈ es)

/-- An answer cut short by a fault has sent nothing. -/
theorem RunsAction.of_fault {actionId : Str} {a : Action} {es : List (Stmt × Choice)}
    (hsend : ∀ why channel target content w, (.send why channel target content, w) ∉ es)
    {e : Stmt × Choice} (he : e ∈ es) (hf : e.2.fault ≠ .none) : RunsAction actionId a es :=
  ⟨fun why channel target content w h => absurd h (hsend why channel target content w),
    fun hall => absurd (hall e he) hf⟩

theorem answerPending_yes {actionId : Str} {a : Action} {s s' : Store} {es : List (Stmt × Choice)}
    {reply : Option ApprovalReply} (hs : s.pending.get? actionId = some a)
    (h : store.Runs (answerPending actionId true).run s es reply s') :
    RunsAction actionId a es := by
  obtain ⟨w, ans, s₁, es₁, hselect, h, rfl⟩ := Machine.runs_op_iff.1 h
  have hans : ans = w.fault.read (some a) := by
    have := congrArg Prod.fst (Option.some.inj hselect)
    rw [hs] at this
    exact this.symm
  -- an answer other than the row ends the program, and comes from a fault
  have hfault : ans ≠ .ok (some a) → w.fault ≠ .none := fun hne hf => by
    rw [hans, hf] at hne
    exact hne rfl
  cases ans with
  | raised =>
    cases h
    exact .of_fault (by simp) List.mem_cons_self (hfault fun h => nomatch h)
  | unreachable =>
    cases h
    exact .of_fault (by simp) List.mem_cons_self (hfault fun h => nomatch h)
  | ok row =>
    obtain rfl : row = some a := by
      cases hf : w.fault <;> rw [hf] at hans <;> cases hans
      rfl
    obtain ⟨w', ans', s₂, es₂, hdelete, h, rfl⟩ := Machine.runs_op_iff.1 h
    have hans' : ans' = (w'.fault.write () s₁ _).1 :=
      (congrArg Prod.fst (Option.some.inj hdelete)).symm
    have hfault' : ans' ≠ .ok () → w'.fault ≠ .none := fun hne hf => by
      rw [hans', hf] at hne
      exact hne rfl
    cases ans' with
    | raised =>
      cases h
      exact .of_fault (by simp) (List.mem_cons_of_mem _ List.mem_cons_self)
        (hfault' fun h => nomatch h)
    | unreachable =>
      cases h
      exact .of_fault (by simp) (List.mem_cons_of_mem _ List.mem_cons_self)
        (hfault' fun h => nomatch h)
    | ok _ =>
      obtain ⟨hcarries, -⟩ := h.only (I := fun _ => True) (fun _ _ _ _ _ _ _ _ => trivial)
        (carryOut_carries actionId true a) trivial
      refine ⟨fun why channel target content w₂ hmem => ?_, fun _ => ?_⟩
      · have hmem : (.send why channel target content, w₂) ∈ es₂ := by simpa using hmem
        cases hcarries _ hmem
        exact ⟨rfl, rfl, rfl⟩
      · obtain ⟨w₂, hw₂⟩ := carryOut_yes_sends h
        exact ⟨w₂, List.mem_cons_of_mem _ (List.mem_cons_of_mem _ hw₂)⟩

theorem yes_runs_row {env : Env} {actionId message : Str} {a : Action} {s s' : Store}
    {es : List (Stmt × Choice)} {reply : Option (Option ApprovalReply)}
    (hs : s.pending.get? actionId = some a) (hm : approvalOf env message = some (true, actionId))
    (h : store.Runs (processApprovalResponse env message).run s es reply s') :
    RunsAction actionId a es := by
  unfold processApprovalResponse at h
  rw [hm] at h
  obtain ⟨es₁, es₂, text, s₁, rfl, h₁, h₂⟩ := Machine.runs_bind_iff.1 h
  have hes₂ : es₂ = [] := by
    cases text <;> cases h₂ <;> rfl
  simpa [hes₂] using answerPending_yes hs h₁

/-! ## The announced action and the stored one -/

/-- The table holds `a` under `actionId`, and a YES to that id, after any number of other calls,
runs `a` and no other action. -/
def AgreesOn (env : Env) (s : Store) (actionId : Str) (a : Action) : Prop :=
  s.pending.get? actionId = some a ∧
    ∀ s₁ message es reply s₂, Later env actionId s s₁ →
      approvalOf env message = some (true, actionId) →
      store.Runs (processApprovalResponse env message).run s₁ es reply s₂ →
      RunsAction actionId a es

/-- **When the stored action is the announced one.** A call that answers `pending_approval` leaves
its action in the table, for a YES to run, exactly if its INSERT took effect on a free id, or the
id already stood for the same action. -/
theorem agreesOn_iff_of_pendingApproval (env : Env) {r : Request} {s s' : Store}
    {es : List (Stmt × Choice)} {actionId : Str} {sent : Bool}
    (h : store.Runs (executeOrRequest env r).run s es (some (.pendingApproval actionId sent)) s') :
    AgreesOn env s' actionId r.toAction ↔
      s.pending.get? actionId = some r.toAction ∨
        (s.pending.get? actionId = none ∧
          ∀ w, (.insertPending actionId r.toAction, w) ∈ es → w.fault.Commits) := by
  obtain ⟨w, hw, hpending⟩ := executeOrRequest_stores h
  have hcommits : (∀ w, (.insertPending actionId r.toAction, w) ∈ es → w.fault.Commits) ↔
      w.fault.Commits :=
    ⟨fun hall => hall w ((hw w).2 rfl), fun hf w' hw' => (hw w').1 hw' ▸ hf⟩
  rw [hcommits, ← get?_insertRow, ← hpending]
  refine ⟨fun hagrees => hagrees.1, fun hrow => ⟨hrow, ?_⟩⟩
  exact fun s₁ message es reply s₂ hlater hm hrun =>
    yes_runs_row (hlater.keeps_row hrow) hm hrun

/-- A statement in mode `semi`, with a fault and the id it may draw. -/
def semiChoice (f : Fault) : Choice := ⟨f, "0123ABCD".toList, calmReply .semi⟩

def emptyStore : Store := ⟨Dict.empty, Dict.empty, []⟩

/-- A message is stored for approval under a fresh id. -/
theorem agreesOn_iff_of_pendingApproval_fresh :
    ∃ s', AgreesOn Env.plain s' "0123ABCD".toList advisorMessage.toAction := by
  obtain ⟨es, reply, s', hrun, htest⟩ := Machine.exists_runs_of_plays (M := store)
    (executeOrRequest Env.plain advisorMessage).run
    (List.replicate 5 (semiChoice .none)) emptyStore
    (fun es reply _ => decide (reply = some (.pendingApproval "0123ABCD".toList true) ∧
      ∀ e ∈ es, e.2.fault.Commits)) (by decide)
  obtain ⟨rfl, hes⟩ := of_decide_eq_true htest
  exact ⟨s', (agreesOn_iff_of_pendingApproval Env.plain hrun).2
    (.inr ⟨rfl, fun w hw => hes _ hw⟩)⟩

/-- The INSERT of the same call is refused: the owner is asked all the same, and the table holds
nothing under the id. -/
theorem refused_insert_announced :
    ∃ es s', store.Runs (executeOrRequest Env.plain advisorMessage).run emptyStore es
        (some (.pendingApproval "0123ABCD".toList true)) s' ∧
      ¬ AgreesOn Env.plain s' "0123ABCD".toList advisorMessage.toAction := by
  obtain ⟨es, reply, s', hrun, htest⟩ := Machine.exists_runs_of_plays (M := store)
    (executeOrRequest Env.plain advisorMessage).run
    [semiChoice .none, semiChoice .none, semiChoice .refused, semiChoice .none,
      semiChoice .none] emptyStore
    (fun _ reply s' => decide (reply = some (.pendingApproval "0123ABCD".toList true) ∧
      s'.pending.get? "0123ABCD".toList = none)) (by decide)
  obtain ⟨rfl, hrow⟩ := of_decide_eq_true htest
  exact ⟨es, s', hrun, fun h => by rw [h.1] at hrow; cases hrow⟩

end RagLeap.Core
