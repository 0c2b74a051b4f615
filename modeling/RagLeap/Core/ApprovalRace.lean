import RagLeap.Core.Approval

/-!
# Interleaved answers to one approval request

Any number of answers, by chat and from the inbox, run over one database, each statement atomic.
An answer reads the pending row and deletes it in two statements, and does not look at how many
rows the DELETE removed. `answeredOnce_of_guarded`: the stored action is sent once at most, and
never sent and reported rejected, in every schedule in which no DELETE goes through after the row
was deleted for another answer, unless all of them are NOs.
-/

namespace RagLeap.Core

/-! ## Answers and their typestate -/

/-- An answer by chat message or from the inbox. -/
inductive Answerer
  | chat (message : Str)
  | inbox (actionId : Str) (approve : Bool)

def Answerer.program (env : Env) : Answerer → Prog Statements (Option (Option ApprovalReply))
  | chat message => (processApprovalResponse env message).run
  | inbox actionId approve => (resolvePending env actionId approve).run

/-- Where an answer to one id stands: it has not found the row, it has read it, it has deleted it,
it has sent the action. -/
inductive AnswerPhase
  | idle
  | read
  | holding (approved : Bool)
  | sent
  deriving DecidableEq

/-- Typestate of an answer towards `actionId`: the row is deleted only after it was read, and the
action sent, once, only after the row was deleted for a YES. -/
def answering (actionId : Str) : Protocol Statements where
  Phase := AnswerPhase
  permits
    | φ, .selectPending id => id = actionId → φ = .idle
    | φ, .deletePending id _ => id = actionId → φ = .read
    | φ, .send (.approved id) .. => id = actionId → φ = .holding true
    | _, .insertPending .. => False
    | _, _ => True
  next
    | φ, .selectPending id, ans =>
      match ans with
      | .ok (some _) => some (if id = actionId then .read else φ)
      | _ => some φ
    | φ, .deletePending id b, ans =>
      match ans with
      | .ok () => some (if id = actionId then .holding b else φ)
      | _ => some φ
    | φ, .send (.approved id) .., _ => some (if id = actionId then .sent else φ)
    | φ, _, _ => some φ

/-- A NO is reported only by an answer that deleted the row for a NO. -/
def ReportsDeleted (actionId : Str) (φ : AnswerPhase) (reply : Option (Option ApprovalReply)) :
    Prop :=
  reply = some (some (.rejected actionId)) → φ = .holding false

theorem logAutonomousAction_follows {P : Protocol Statements} {φ : P.Phase} (e : LogEntry)
    (hpermits : ∀ e, P.permits φ (.insertLog e))
    (hnext : ∀ e ans φ', P.next φ (.insertLog e) ans = some φ' → φ' = φ) :
    (logAutonomousAction e).run.Follows P (fun φ' _ => φ' = φ) φ := by
  refine ⟨hpermits _, fun ans φ' h => ?_⟩
  cases ans <;> exact hnext _ _ _ h

theorem carryOut_answering (actionId id : Str) (approved : Bool) (row : Action) (φ : AnswerPhase)
    (hφ : id = actionId → φ = .holding approved) :
    (carryOut id approved row).run.Follows (answering actionId)
      (fun φ' reply => reply = some (.rejected actionId) → φ' = .holding false) φ := by
  have hlog (e : LogEntry) (φ : AnswerPhase) := logAutonomousAction_follows
    (P := answering actionId) (φ := φ) e (fun _ => trivial) fun _ _ _ h => (Option.some.inj h).symm
  unfold carryOut
  split_ifs with happroved
  · subst happroved
    refine ⟨hφ, fun result φ₁ h₁ => ?_⟩
    refine Proc.follows_bind (hlog _ _) (fun φ₂ _ h₂ => ⟨trivial, fun ans φ₃ h₃ => ?_⟩) fun _ _ h =>
      nomatch h
    cases ans with
    | none => exact fun h => nomatch h
    | some _ => exact ⟨trivial, fun _ _ _ h => nomatch h⟩
  · rw [Bool.not_eq_true] at happroved
    subst happroved
    refine Proc.follows_bind (hlog _ _) (fun φ₂ _ h₂ => ⟨trivial, fun ans φ₃ h₃ => ?_⟩) fun _ _ h =>
      nomatch h
    subst h₂
    cases h₃
    cases ans with
    | none => exact fun h => nomatch h
    | some _ =>
      refine ⟨trivial, fun _ φ₄ h₄ h => ?_⟩
      cases h₄
      cases h
      exact hφ rfl

theorem answerPending_answering (actionId id : Str) (approved : Bool) :
    (answerPending id approved).run.Follows (answering actionId)
      (fun φ reply => reply = some (.rejected actionId) → φ = .holding false) .idle := by
  refine ⟨fun _ => rfl, fun ans φ h => ?_⟩
  cases ans with
  | unreachable => exact fun h => nomatch h
  | raised => exact fun h => nomatch h
  | ok row =>
    cases row with
    | none => exact fun h => nomatch h
    | some row =>
      cases h
      refine ⟨fun he => if_pos he, fun ans φ h => ?_⟩
      cases ans with
      | raised => exact fun h => nomatch h
      | unreachable => exact fun h => nomatch h
      | ok _ =>
        cases h
        exact carryOut_answering _ _ _ _ _ fun he => if_pos he

theorem processApprovalResponse_answering (env : Env) (actionId message : Str) :
    (processApprovalResponse env message).run.Follows (answering actionId)
      (ReportsDeleted actionId) .idle := by
  unfold processApprovalResponse
  cases approvalOf env message with
  | none => exact fun h => nomatch h
  | some answer =>
    refine Proc.follows_bind (answerPending_answering actionId _ _) (fun φ reply h he => ?_)
      fun _ _ he => nomatch he
    cases he
    exact h rfl

/-- Every answerer keeps to the typestate. -/
theorem Answerer.program_answering (env : Env) (actionId : Str) (a : Answerer) :
    (a.program env).Follows (answering actionId) (ReportsDeleted actionId) .idle := by
  cases a with
  | chat message => exact processApprovalResponse_answering env actionId message
  | inbox id approve =>
    unfold Answerer.program resolvePending
    dsimp only
    by_cases hid : (env.unicode.upper (Str.strip id)).length = 8 ∧
        (env.unicode.upper (Str.strip id)).all IsIdChar
    · rw [if_pos hid]
      refine Proc.follows_call_bind trivial fun rows φ h => ?_
      cases h
      cases rows with
      | none => exact fun h => nomatch h
      | some rows =>
        dsimp only
        by_cases hany : rows.any (·.1 = env.unicode.upper (Str.strip id)) = true
        · rw [if_neg (not_not.2 hany)]
          exact processApprovalResponse_answering env actionId _
        · rw [if_pos hany]
          exact fun h => nomatch h
    · rw [if_neg hid]
      exact fun h => nomatch h

/-! ## The invariant -/

/-- The answer a phase has deleted the row for. -/
def AnswerPhase.claim : AnswerPhase → Option Bool
  | idle | read => none
  | holding b => some b
  | sent => some true

/-- The journal entry of sending the action stored under `actionId`. -/
def Effect.isSent (actionId : Str) : Effect → Bool
  | .sent (.approved id) .. => id = actionId
  | _ => false

/-- A journal entry of an answer to `actionId`. -/
def Effect.IsAbout (actionId : Str) : Effect → Prop
  | .sent (.approved id) .. => id = actionId
  | .deleted id _ => id = actionId
  | _ => False

theorem Effect.isAbout_of_isSent {actionId : Str} {e : Effect} (h : e.isSent actionId = true) :
    e.IsAbout actionId := by
  unfold Effect.isSent at h
  split at h
  · have hid := of_decide_eq_true h
    exact hid
  · cases h

/-- The deletions journalled for `actionId` agree with where the answers stand: one answer at most
has deleted the row for a YES, and then none for a NO. -/
structure RaceInv {ι : Type} (actionId : Str) (φ : ι → AnswerPhase) (s : Store) : Prop where
  row : (s.pending.get? actionId).isSome → ∀ b, .deleted actionId b ∉ s.journal
  claim : ∀ i b, (φ i).claim = some b → .deleted actionId b ∈ s.journal
  unique : ∀ i j, (φ i).claim = some true → (φ j).claim = some true → i = j
  exclusive : .deleted actionId true ∈ s.journal → .deleted actionId false ∉ s.journal
  count : s.journal.countP (Effect.isSent actionId) ≤ 1
  sender : (∃ e ∈ s.journal, e.isSent actionId) → ∃ i, φ i = .sent

/-- The condition on a step: when an answer's DELETE goes through, the row is still there, or
every answer whose DELETE went through, this one included, is a NO. -/
def DeletesFirst (actionId : Str) (o : Stmt) (w : Choice) (s : Store) : Prop :=
  ∀ b, o = .deletePending actionId b → w.fault = .none →
    (s.pending.get? actionId).isSome ∨
      ∀ b', .deleted actionId b' ∈ s.journal → b = false ∧ b' = false

/-- One execution at most, and none beside a reported rejection. -/
structure AnsweredOnce {ι : Type} (actionId : Str)
    (c : Pool Statements ι Store (Option (Option ApprovalReply))) : Prop where
  sent_le_one : c.state.journal.countP (Effect.isSent actionId) ≤ 1
  not_both : (∃ e ∈ c.state.journal, e.isSent actionId) →
    ∀ i, c.threads i ≠ .ret (some (some (.rejected actionId)))

/-! ## One statement of one answer -/

/-- What a DELETE does: it goes through, or the answer is told it failed. -/
theorem act_deletePending {id : Str} {b : Bool} {w : Choice} {s s' : Store} {r : Answer Unit}
    (h : act (.deletePending id b) w s = some (r, s')) :
    (w.fault = .none ∧ r = .ok () ∧ s'.pending = s.pending.erase id ∧
        s'.journal = s.journal ++ [.deleted id b]) ∨
      (r ≠ .ok () ∧ s'.journal = s.journal ∧
        (s'.pending = s.pending ∨ s'.pending = s.pending.erase id)) := by
  simp only [act, Option.some.injEq] at h
  cases hf : w.fault <;> rw [hf] at h <;> cases h
  · exact .inl ⟨rfl, rfl, rfl, rfl⟩
  · exact .inr ⟨by simp, rfl, .inl rfl⟩
  · exact .inr ⟨by simp, rfl, .inl rfl⟩
  · exact .inr ⟨by simp, by simp, .inr rfl⟩

section

variable {ι : Type} [DecidableEq ι] {actionId : Str} {φ : ι → AnswerPhase} {s s' : Store}

/-- A statement that neither stores nor deletes the row of `actionId`, nor journals anything about
it, by an answer that has not come further. -/
theorem RaceInv.quiet (h : RaceInv actionId φ s) {i : ι} {φ' : AnswerPhase} (extra : List Effect)
    (hrow : (s'.pending.get? actionId).isSome → (s.pending.get? actionId).isSome)
    (hj : s'.journal = s.journal ++ extra)
    (hextra : ∀ e ∈ extra, ¬ e.IsAbout actionId) (hclaim : φ'.claim = (φ i).claim)
    (hsent : φ' = .sent ↔ φ i = .sent) : RaceInv actionId (Function.update φ i φ') s' := by
  have hdeleted : ∀ b, .deleted actionId b ∈ s'.journal ↔ .deleted actionId b ∈ s.journal :=
    fun b => by
      rw [hj, List.mem_append, or_iff_left]
      exact fun hm => hextra _ hm rfl
  have hnot : ∀ e ∈ extra, ¬ e.isSent actionId = true := fun e he hs =>
    hextra e he (Effect.isAbout_of_isSent hs)
  have hclaims : ∀ j, (Function.update φ i φ' j).claim = (φ j).claim := fun j => by
    rcases eq_or_ne j i with rfl | hji
    · rw [Function.update_self, hclaim]
    · rw [Function.update_of_ne hji]
  have hsents : ∀ j, φ j = .sent → Function.update φ i φ' j = .sent := fun j hsj => by
    rcases eq_or_ne j i with rfl | hji
    · rw [Function.update_self, hsent, hsj]
    · rw [Function.update_of_ne hji, hsj]
  refine ⟨fun hr b => ?_, fun j b hb => ?_, fun j k hjt hkt => ?_, fun ht => ?_, ?_, ?_⟩
  · rw [hdeleted]
    exact h.row (hrow hr) b
  · rw [hdeleted]
    exact h.claim j b (hclaims j ▸ hb)
  · exact h.unique j k (hclaims j ▸ hjt) (hclaims k ▸ hkt)
  · rw [hdeleted] at ht ⊢
    exact h.exclusive ht
  · rw [hj, List.countP_append, List.countP_eq_zero.2 hnot]
    exact h.count
  · rintro ⟨e, he, hs⟩
    rw [hj, List.mem_append] at he
    obtain ⟨j, hsj⟩ := h.sender ⟨e, he.resolve_right fun hm => hnot e hm hs, hs⟩
    exact ⟨j, hsents j hsj⟩

/-- A DELETE of the row that the answer is told went through. -/
theorem RaceInv.delete (h : RaceInv actionId φ s) {i : ι} {b : Bool} (hi : φ i = .read)
    (hj : s'.journal = s.journal ++ [.deleted actionId b]) (hrow : s'.pending.get? actionId = none)
    (hfirst : (s.pending.get? actionId).isSome ∨
      ∀ b', .deleted actionId b' ∈ s.journal → b = false ∧ b' = false) :
    RaceInv actionId (Function.update φ i (.holding b)) s' := by
  -- no YES has deleted the row yet, and for a YES nobody has
  have hno : ∀ b', .deleted actionId b' ∈ s.journal → b = false ∧ b' = false := by
    rcases hfirst with hr | hfirst
    · exact fun b' hb' => absurd hb' (h.row hr b')
    · exact hfirst
  have hdeleted : ∀ b', .deleted actionId b' ∈ s'.journal ↔
      .deleted actionId b' ∈ s.journal ∨ b' = b := fun b' => by
    rw [hj, List.mem_append, List.mem_singleton, Effect.deleted.injEq]
    simp
  have hclaim : ∀ j b', (Function.update φ i (.holding b) j).claim = some b' →
      (j = i ∧ b' = b) ∨ .deleted actionId b' ∈ s.journal := fun j b' hb' => by
    rcases eq_or_ne j i with rfl | hji
    · rw [Function.update_self] at hb'
      exact .inl ⟨rfl, (Option.some.inj hb').symm⟩
    · rw [Function.update_of_ne hji] at hb'
      exact .inr (h.claim j b' hb')
  refine ⟨fun hr => ?_, fun j b' hb' => ?_, fun j k hjt hkt => ?_, fun ht hf => ?_, ?_, ?_⟩
  · rw [hrow] at hr
    cases hr
  · rw [hdeleted]
    exact (hclaim j b' hb').symm.imp_right And.right
  · have hnotrue : .deleted actionId true ∉ s.journal := fun hm => nomatch (hno true hm).2
    have hji := ((hclaim j true hjt).resolve_right hnotrue).1
    have hki := ((hclaim k true hkt).resolve_right hnotrue).1
    exact hji.trans hki.symm
  · rcases (hdeleted true).1 ht with ht | rfl
    · exact nomatch (hno true ht).2
    · rcases (hdeleted false).1 hf with hf | hf
      · exact nomatch (hno false hf).1
      · cases hf
  · rw [hj, List.countP_append]
    exact h.count
  · rintro ⟨e, he, hs⟩
    rw [hj, List.mem_append, List.mem_singleton] at he
    rcases he with he | rfl
    · obtain ⟨j, hsj⟩ := h.sender ⟨e, he, hs⟩
      refine ⟨j, ?_⟩
      rw [Function.update_of_ne, hsj]
      rintro rfl
      rw [hi] at hsj
      cases hsj
    · cases hs

/-- The answer that holds a YES sends the action. -/
theorem RaceInv.send (h : RaceInv actionId φ s) {i : ι} (hi : φ i = .holding true) {e : Effect}
    (hj : s'.journal = s.journal ++ [e]) (he : e.isSent actionId = true)
    (hrow : s'.pending = s.pending) : RaceInv actionId (Function.update φ i .sent) s' := by
  have hdeleted : ∀ b, .deleted actionId b ∈ s'.journal ↔ .deleted actionId b ∈ s.journal :=
    fun b => by
      rw [hj, List.mem_append, List.mem_singleton, or_iff_left]
      rintro rfl
      cases he
  have hclaims : ∀ j, (Function.update φ i AnswerPhase.sent j).claim = (φ j).claim := fun j => by
    rcases eq_or_ne j i with rfl | hji
    · rw [Function.update_self, hi]
      rfl
    · rw [Function.update_of_ne hji]
  -- only this answer holds a YES, so no other has sent the action before
  have hnone : s.journal.countP (Effect.isSent actionId) = 0 := by
    rw [List.countP_eq_zero]
    intro e' he' hs'
    obtain ⟨j, hsj⟩ := h.sender ⟨e', he', hs'⟩
    have hji := h.unique j i (by rw [hsj]; rfl) (by rw [hi]; rfl)
    rw [hji, hi] at hsj
    cases hsj
  refine ⟨fun hr b => ?_, fun j b hb => ?_, fun j k hjt hkt => ?_, fun ht => ?_, ?_, fun _ => ?_⟩
  · rw [hdeleted]
    exact h.row (hrow ▸ hr) b
  · rw [hdeleted]
    exact h.claim j b (hclaims j ▸ hb)
  · exact h.unique j k (hclaims j ▸ hjt) (hclaims k ▸ hkt)
  · rw [hdeleted] at ht ⊢
    exact h.exclusive ht
  · rw [hj, List.countP_append, hnone, List.countP_singleton, he]
    exact le_rfl
  · exact ⟨i, Function.update_self ..⟩

/-- **Every permitted statement keeps the invariant**, a DELETE if it meets the condition. -/
theorem RaceInv.step (h : RaceInv actionId φ s) {i : ι} {o : Stmt} {w : Choice} {r : o.Res}
    (hpermits : (answering actionId).permits (φ i) o) (hfirst : DeletesFirst actionId o w s)
    (hact : act o w s = some (r, s')) :
    ∃ φ', (answering actionId).next (φ i) o r = some φ' ∧
      RaceInv actionId (Function.update φ i φ') s' := by
  cases o with
  | insertPending id a => exact hpermits.elim
  | insertRun run =>
    obtain ⟨hrow, hj⟩ := act_insertRun hact
    exact ⟨φ i, rfl, h.quiet (i := i) [] (by simp [hrow]) (by simp [hj]) (by simp) rfl
      Iff.rfl⟩
  | updateRun id run =>
    obtain ⟨hrow, hj⟩ := act_updateRun hact
    exact ⟨φ i, rfl, h.quiet (i := i) [] (by simp [hrow]) (by simp [hj]) (by simp) rfl
      Iff.rfl⟩
  | uuid =>
    obtain ⟨-, hact⟩ := Option.ite_none_right_eq_some.1 hact
    cases hact
    exact ⟨φ i, rfl, h.quiet (i := i) [] (fun hr => hr) (by simp) (by simp) rfl Iff.rfl⟩
  | selectPending id =>
    obtain rfl : s = s' := congrArg Prod.snd (Option.some.inj hact)
    have hquiet : ∀ φ' : AnswerPhase, φ' = φ i ∨ (φ i = .idle ∧ φ' = .read) →
        RaceInv actionId (Function.update φ i φ') s := fun φ' hφ' => by
      refine h.quiet [] (fun hr => hr) (by simp) (by simp) ?_ ?_
      · rcases hφ' with rfl | ⟨hi, rfl⟩
        · rfl
        · rw [hi]
          rfl
      · rcases hφ' with rfl | ⟨hi, rfl⟩
        · rfl
        · simp [hi]
    cases r with
    | raised => exact ⟨φ i, rfl, hquiet _ (.inl rfl)⟩
    | unreachable => exact ⟨φ i, rfl, hquiet _ (.inl rfl)⟩
    | ok row =>
      cases row with
      | none => exact ⟨φ i, rfl, hquiet _ (.inl rfl)⟩
      | some row =>
        refine ⟨_, rfl, hquiet _ ?_⟩
        split_ifs with hid
        · exact .inr ⟨hpermits hid, rfl⟩
        · exact .inl rfl
  | deletePending id b =>
    have herase : ∀ id', ((s.pending.erase id').get? actionId).isSome →
        (s.pending.get? actionId).isSome := fun id' hr => by
      rw [Dict.get?_erase] at hr
      split_ifs at hr
      · cases hr
      · exact hr
    rcases act_deletePending hact with ⟨hf, rfl, hrow, hj⟩ | ⟨hr, hj, hrow⟩
    · by_cases hid : id = actionId
      · subst hid
        refine ⟨_, rfl, ?_⟩
        rw [if_pos rfl]
        exact h.delete (hpermits rfl) hj (by simp [hrow, Dict.get?_erase]) (hfirst b rfl hf)
      · refine ⟨_, rfl, ?_⟩
        rw [if_neg hid]
        exact h.quiet _ (fun hr => herase id (hrow ▸ hr)) hj (by simpa [Effect.IsAbout] using hid)
          rfl Iff.rfl
    · refine ⟨φ i, ?_, h.quiet (i := i) [] (fun hr => ?_) (by simp [hj]) (by simp) rfl
        Iff.rfl⟩
      · cases r with
        | ok u => exact absurd rfl hr
        | raised => rfl
        | unreachable => rfl
      · rcases hrow with hrow | hrow
        · exact hrow ▸ hr
        · exact herase id (hrow ▸ hr)
  | send why channel target content =>
    cases hact
    cases why with
    | direct =>
      exact ⟨φ i, rfl, h.quiet (i := i) _ (fun hr => hr) rfl (by simp [Effect.IsAbout]) rfl Iff.rfl⟩
    | announce id =>
      exact ⟨φ i, rfl, h.quiet (i := i) _ (fun hr => hr) rfl (by simp [Effect.IsAbout]) rfl Iff.rfl⟩
    | approved id =>
      refine ⟨_, rfl, ?_⟩
      by_cases hid : id = actionId
      · rw [if_pos hid]
        exact h.send (hpermits hid) rfl (decide_eq_true hid) rfl
      · rw [if_neg hid]
        exact h.quiet _ (fun hr => hr) rfl (by simpa [Effect.IsAbout] using hid) rfl Iff.rfl
  | selectRunByPending id =>
    cases hact
    exact ⟨φ i, rfl, h.quiet (i := i) _ (fun hr => hr) rfl (by simp [Effect.IsAbout]) rfl Iff.rfl⟩
  | _ =>
    cases hact
    exact ⟨φ i, rfl, h.quiet (i := i) [] (fun hr => hr) (by simp) (by simp) rfl Iff.rfl⟩

end

/-! ## Every schedule -/

/-- The pool of the answers, each at its start, over a store. -/
def answerers {ι : Type} (env : Env) (parties : ι → Answerer) (s : Store) :
    Pool Statements ι Store (Option (Option ApprovalReply)) :=
  ⟨fun i => (parties i).program env, s⟩

/-- **Exactly-once approval, where deletions come first.** However many answers to an action id
interleave, by chat and from the inbox: if no answer's DELETE goes through after the row was
deleted for another answer, unless all of these are NOs, then in every pool reached the stored
action was sent once at most, and not both sent and reported rejected. -/
theorem answeredOnce_of_deletesFirst (env : Env) {ι : Type} [DecidableEq ι]
    (parties : ι → Answerer) (actionId : Str) {s : Store}
    (hj : ∀ e ∈ s.journal, ¬ e.IsAbout actionId) {es : List (ι × Choice)}
    {c : Pool Statements ι Store (Option (Option ApprovalReply))}
    (hrun : (answerers env parties s).run store es = some c)
    (hfirst : (answerers env parties s).Along store (fun _ => DeletesFirst actionId) es) :
    AnsweredOnce actionId c := by
  have hinit : RaceInv actionId (fun _ : ι => AnswerPhase.idle) s := by
    have hnot : ∀ e ∈ s.journal, ¬ e.isSent actionId = true := fun e he hs =>
      hj e he (Effect.isAbout_of_isSent hs)
    refine ⟨fun _ b hm => hj _ hm rfl, nofun, nofun, fun hm => absurd rfl (hj _ hm), ?_, ?_⟩
    · rw [List.countP_eq_zero.2 hnot]
      exact Nat.zero_le 1
    · exact fun ⟨e, he, hs⟩ => absurd hs (hnot e he)
  obtain ⟨φ, hfollows, hinv⟩ := Pool.run_follows (P := answering actionId)
    (Q := fun _ => ReportsDeleted actionId) (I := RaceInv actionId)
    (fun φ i o w s r s' hI hp hG hact => hI.step hp hG hact) hrun hfirst
    (fun i => (parties i).program_answering env actionId) hinit
  refine ⟨hinv.count, fun hsent i hi => ?_⟩
  obtain ⟨j, hj⟩ := hinv.sender hsent
  have hreport : ReportsDeleted actionId (φ i) (some (some (.rejected actionId))) := by
    have := hfollows i
    rwa [hi] at this
  exact hinv.exclusive (hinv.claim j true (by rw [hj]; rfl))
    (hinv.claim i false (by rw [hreport rfl]; rfl))

/-- The advisor's message, waiting for approval. -/
def waitingStore : Store :=
  { emptyStore with pending := Dict.empty.set "0123ABCD".toList advisorMessage.toAction }

/-- The owner answers YES by chat and in the inbox. -/
def yesTwice : Bool → Answerer
  | false => .chat "yes 0123abcd".toList
  | true => .inbox "0123ABCD".toList true

/-- A schedule in which nothing fails. -/
def schedule (order : List Bool) : List (Bool × Choice) :=
  order.map fun i => (i, semiChoice .none)

/-- One answer after the other: the action is sent once. -/
theorem answeredOnce_of_deletesFirst_sequential :
    ∃ c, (answerers Env.plain yesTwice waitingStore).run store
        (schedule [false, false, false, false, false, false, true]) = some c ∧
      AnsweredOnce "0123ABCD".toList c := by
  obtain ⟨c, hrun, -⟩ := Pool.exists_run_of_reaches (M := store)
    (answerers Env.plain yesTwice waitingStore)
    (schedule [false, false, false, false, false, false, true]) (fun _ => true)
    (by decide)
  refine ⟨c, hrun, answeredOnce_of_deletesFirst Env.plain yesTwice _
    (by simp [waitingStore, emptyStore]) hrun (Pool.along_of_check
      (fun _ (o : Stmt) _ (s : Store) => match o with
        | .deletePending .. => (s.pending.get? "0123ABCD".toList).isSome
        | _ => true)
      (fun _ o w s h b ho _ => .inl (by subst ho; exact h)) (by decide))⟩

/-- Both answers read the row before either deletes it: the action is sent twice. -/
theorem interleaved_yes_sent_twice :
    ∃ c, (answerers Env.plain yesTwice waitingStore).run store
        (schedule [true, false, true, false, true, false, true]) = some c ∧
      ¬ AnsweredOnce "0123ABCD".toList c := by
  obtain ⟨c, hrun, hcount⟩ := Pool.exists_run_of_reaches (M := store)
    (answerers Env.plain yesTwice waitingStore)
    (schedule [true, false, true, false, true, false, true])
    (fun c => c.state.journal.countP (Effect.isSent "0123ABCD".toList) = 2)
    (by decide)
  refine ⟨c, hrun, fun h => ?_⟩
  have := h.sent_le_one
  rw [of_decide_eq_true hcount] at this
  omega

end RagLeap.Core
