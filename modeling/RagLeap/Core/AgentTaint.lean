import RagLeap.Core.LoopRule

/-!
# The taint rule of the agent loop

Once the content of a page or of an MCP tool has entered a run, outbound steps need the owner.
A `Life` of a run is its start and any number of approvals and rejections of its pending actions,
with any answers of the model, the gate and the tools. `taintRule_of_shows` is the rule for the
lives in which no line heading external content reads like a failure; `failed_in_path_untainted`
is a life that breaks it.
-/

namespace RagLeap.Core

/-! ## What happens in a run -/

/-- A step handed to the gate, or the result a step came back with. -/
inductive Moment
  | handed (tool : Str) (forced : Bool)
  | observed (tool : Str) (result : SendResult)
  deriving DecidableEq

/-- The line that heads the content of a page or of a tool's answer, where the text that starts
with it is cut. -/
def SendResult.headLine : SendResult → Option Str
  | page (.fetched host path _) => some ((PageFetch.head host path).take PageFetch.MAX_RESULT_CHARS)
  | mcp (.answered target isError _) =>
    some ((McpClient.head target isError).take McpClient.MAX_RESULT_CHARS)
  | _ => none

/-- A page was fetched or an MCP tool returned output. -/
def carriesContent (tool : Str) (result : SendResult) : Bool :=
  tool ∈ ["fetch_page".toList, "mcp_call".toList] && result.headLine.isSome

/-- The heading line does not read like a failure. -/
def SendResult.Shows (env : Env) (result : SendResult) : Prop :=
  ∀ line ∈ result.headLine, externalContent env line = true

instance (env : Env) (result : SendResult) : Decidable (result.Shows env) :=
  match h : result.headLine with
  | none => .isTrue (by simp [SendResult.Shows, h])
  | some line => decidable_of_iff (externalContent env line = true) (by simp [SendResult.Shows, h])

namespace Moment

def carries : Moment → Bool
  | handed .. => false
  | observed tool result => carriesContent tool result

/-- An outbound step is handed over with approval forced. -/
def Guarded : Moment → Prop
  | handed tool forced => tool ∈ OUTBOUND_TOOLS → forced = true
  | observed .. => True

instance : DecidablePred Guarded
  | handed .. => inferInstanceAs (Decidable (_ → _))
  | observed .. => .isTrue trivial

@[simp] theorem guarded_handed (tool : Str) (forced : Bool) :
    (handed tool forced).Guarded ↔ (tool ∈ OUTBOUND_TOOLS → forced = true) := Iff.rfl

@[simp] theorem guarded_observed (tool : Str) (result : SendResult) :
    (observed tool result).Guarded ↔ True := Iff.rfl

/-- External content that comes back does not read like a failure. -/
def Shows (env : Env) : Moment → Prop
  | handed .. => True
  | observed tool result => carriesContent tool result = true → result.Shows env

instance (env : Env) : DecidablePred (Shows env)
  | handed .. => .isTrue trivial
  | observed .. => inferInstanceAs (Decidable (_ → _))

end Moment

/-- The taint rule: after external content, outbound steps are forced into approval. -/
def TaintRule (ms : List Moment) : Prop := ms.Pairwise fun m m' => m.carries = true → m'.Guarded

instance (ms : List Moment) : Decidable (TaintRule ms) :=
  inferInstanceAs (Decidable (List.Pairwise _ _))

/-- What an answered statement shows of the run. -/
def momentsAt : Prog.Event Statements → List Moment
  | ⟨.executeOrRequest r, some (.executed result)⟩ =>
    [.handed r.actionType r.forceSemi, .observed r.actionType result]
  | ⟨.executeOrRequest r, _⟩ => [.handed r.actionType r.forceSemi]
  | _ => []

def momentsOf (es : List (Prog.Event Statements)) : List Moment := es.flatMap momentsAt

/-- The row a statement tries to write. -/
def savedAt : Prog.Event Statements → List Run
  | ⟨.insertRun run, _⟩ => [run]
  | ⟨.updateRun _ run, _⟩ => [run]
  | _ => []

def savedBy (es : List (Prog.Event Statements)) : List Run := es.flatMap savedAt

/-- `Life env ms saved`: a run went through the moments `ms`, and since it was last taken up it
tried to save the rows `saved`. It is taken up again from a row saved as waiting. -/
inductive Life (env : Env) : List Moment → List Run → Prop
  | start (query answer : Str) (service : Bool) (role : Option Str)
      {es : List (Prog.Event Statements)} {q : Prog Statements (Option Outcome)}
      (ht : Prog.Trace (run env query answer service role) es q) :
      Life env (momentsOf es) (savedBy es)
  | approve {ms : List Moment} {saved : List Run} (h : Life env ms saved) {row : Run} {step : Step}
      (hrow : ∃ run ∈ saved, row = { run with id := row.id })
      (hwait : row.status = .waitingApproval) (hlast : row.steps.getLast? = some step)
      (actionId : Str) (result : SendResult) {es : List (Prog.Event Statements)}
      {q : Prog Statements (Option Unit)}
      (ht : Prog.Trace (onResolved env actionId true result.render).run
        (⟨.selectRunByPending actionId, some (some row)⟩ :: es) q) :
      Life env (ms ++ .observed step.tool result :: momentsOf es) (savedBy es)
  | reject {ms : List Moment} {saved : List Run} (h : Life env ms saved) {row : Run} {step : Step}
      (hrow : ∃ run ∈ saved, row = { run with id := row.id })
      (hwait : row.status = .waitingApproval) (hlast : row.steps.getLast? = some step)
      (actionId : Str) {es : List (Prog.Event Statements)} {q : Prog Statements (Option Unit)}
      (ht : Prog.Trace (onResolved env actionId false []).run
        (⟨.selectRunByPending actionId, some (some row)⟩ :: es) q) :
      Life env (ms ++ momentsOf es) (savedBy es)

/-! ## The typestate of a run -/

/-- Whether external content has come back, and whether the run was saved as waiting. -/
structure TaintPhase where
  carried : Bool
  waiting : Bool

/-- The flag of the run in memory knows of the content that came back. -/
def Knows (φ : TaintPhase) (run : Run) : Prop := φ.carried = true → run.tainted = true

def TaintPhase.save (φ : TaintPhase) (run : Run) : TaintPhase :=
  ⟨φ.carried, φ.waiting || decide (run.status = .waitingApproval)⟩

/-- Typestate of a run whose content shows: outbound steps are guarded, saved rows know of the
content, and nothing is handed over after the run was saved as waiting. -/
def tainting (env : Env) : Protocol Statements where
  Phase := TaintPhase
  permits
    | φ, .executeOrRequest r =>
      φ.waiting = false ∧ (φ.carried = true → r.actionType ∈ OUTBOUND_TOOLS → r.forceSemi = true)
    | φ, .insertRun run => Knows φ run
    | φ, .updateRun _ run => Knows φ run
    | _, _ => True
  next
    | φ, .executeOrRequest r, ans =>
      match ans with
      | some (.executed result) =>
        if carriesContent r.actionType result then
          if result.Shows env then some ⟨true, φ.waiting⟩ else none
        else some φ
      | _ => some φ
    | φ, .insertRun run, _ => some (φ.save run)
    | φ, .updateRun _ run, _ => some (φ.save run)
    | φ, _, _ => some φ

/-- The flag an observation leaves behind. -/
theorem externalContent_render {env : Env} {result : SendResult} {line : Str}
    (h : result.headLine = some line) :
    externalContent env result.render = externalContent env line := by
  have hfirst : Str.firstLine result.render = Str.firstLine line := by
    unfold SendResult.headLine at h
    split at h
    · cases h
      exact PageFetch.Result.firstLine_render_fetched _ _ _
    · cases h
      exact McpClient.Result.firstLine_render_answered _ _ _
    · cases h
  simp only [externalContent, hfirst]

/-- Content that shows sets the flag. -/
theorem sets_flag_of_shows {env : Env} {tool : Str} {result : SendResult}
    (hc : carriesContent tool result = true) (hs : result.Shows env) :
    (decide (tool ∈ TAINTING_TOOLS) && externalContent env result.render) = true := by
  rw [carriesContent, Bool.and_eq_true, decide_eq_true_iff] at hc
  obtain ⟨htool, hline⟩ := hc
  obtain ⟨line, hline⟩ := Option.isSome_iff_exists.1 hline
  rw [externalContent_render hline, hs line hline, Bool.and_true, decide_eq_true_iff]
  simp only [List.mem_cons, List.not_mem_nil, or_false] at htool
  rcases htool with rfl | rfl <;> decide

section

variable {env : Env} {φ : TaintPhase}

theorem saving_tainting {run : Run} (h : Knows φ run) :
    Saving (tainting env) φ run fun φ' run' => φ' = φ.save run ∧ ∃ id, run' = { run with id } := by
  refine saving_of (fun _ => ⟨h, fun ans φ' hφ' => ?_⟩) fun id _ => ⟨h, fun ans φ' hφ' => ?_⟩
  · cases hφ'
    exact ⟨rfl, _, rfl⟩
  · cases hφ'
    exact ⟨rfl, _, rfl⟩

/-- A run that knows does so after it was saved. -/
theorem saving_knows {run : Run} (h : Knows φ run) : Saving (tainting env) φ run Knows := by
  refine (saving_tainting h).mono ?_
  rintro _ _ ⟨rfl, id, rfl⟩
  exact h

/-- The run between two turns: it knows, and is not saved as waiting. -/
def Running (φ : TaintPhase) (run : Run) : Prop :=
  Knows φ run ∧ φ.waiting = false ∧ run.status ≠ .waitingApproval

theorem saving_running {run : Run} (h : Running φ run) : Saving (tainting env) φ run Running := by
  refine (saving_tainting h.1).mono ?_
  rintro _ _ ⟨rfl, id, rfl⟩
  exact ⟨h.1, by simp [TaintPhase.save, h.2.1, h.2.2], h.2.2⟩

/-- The flag after an observation knows of the content it brought. -/
theorem knows_observe {φ' : TaintPhase} {run : Run} {tool : Str} {result : SendResult}
    (h : Knows φ run) (hφ' : φ'.carried = true → φ.carried = true ∨
      carriesContent tool result = true ∧ result.Shows env) :
    Knows φ' (run.observe env tool result.render) := by
  intro hc
  unfold Run.observe
  rcases hφ' hc with hcarried | ⟨hcontent, hshows⟩
  · rw [h hcarried, Bool.true_or]
  · rw [sets_flag_of_shows hcontent hshows, Bool.or_true]

/-- The phase after the gate's reply. -/
theorem next_executeOrRequest {φ' : TaintPhase} {r : Request} {ans : Option GateReply}
    (h : (tainting env).next φ (.executeOrRequest r) ans = some φ') :
    φ'.waiting = φ.waiting ∧
      ((∀ result, ans ≠ some (.executed result)) → φ'.carried = φ.carried) ∧
      ∀ result, ans = some (.executed result) → φ'.carried = true → φ.carried = true ∨
        carriesContent r.actionType result = true ∧ result.Shows env := by
  simp only [tainting] at h
  split at h
  · rename_i result
    have hans : ¬ ∀ result', some (GateReply.executed result) ≠ some (.executed result') :=
      fun hne => hne result rfl
    split_ifs at h with hc hs
    · cases h
      refine ⟨rfl, fun hne => absurd hne hans, fun result' he _ => .inr ?_⟩
      cases he
      exact ⟨hc, hs⟩
    · cases h
      exact ⟨rfl, fun hne => absurd hne hans, fun _ _ hc => .inl hc⟩
  · cases h
    exact ⟨rfl, fun _ => rfl, fun _ _ hc => .inl hc⟩

/-- The loop keeps to the typestate. -/
def taintRule (env : Env) : LoopRule env (tainting env) where
  Live := Running
  Left := Knows
  left_of_live h := h.1
  consults ho := by
    cases ho with
    | asks h => cases h <;> exact ⟨trivial, fun _ _ hr => (Option.some.inj hr).symm⟩
    | _ => exact ⟨trivial, fun _ _ hr => (Option.some.inj hr).symm⟩
  closing _ _ h := saving_knows h
  handing {φ run} h valid role := by
    refine ⟨⟨h.2.1, fun hc ho => ?_⟩, fun ans φ' hφ' => ?_⟩
    · simpa [Plan.request, Plan.force, h.1 hc] using ho
    · obtain ⟨hw, hsame, hexecuted⟩ := next_executeOrRequest hφ'
      have hknows (hne : ∀ result, ans ≠ some (.executed result)) : Knows φ' run := fun hc =>
        h.1 (hsame hne ▸ hc)
      rcases ans with _ | (result | _ | _ | _)
      · exact hknows nofun
      · exact saving_running
          ⟨knows_observe h.1 (hexecuted result rfl), hw.trans h.2.1, h.2.2⟩
      · exact saving_knows (hknows nofun)
      · exact saving_knows (hknows nofun)
      · exact saving_knows (hknows nofun)

theorem run_tainting (query answer : Str) (service : Bool) (role : Option Str)
    (hc : φ.carried = false) (hwait : φ.waiting = false) :
    (run env query answer service role).Follows (tainting env) (fun _ _ => True) φ := by
  have hknows (run : Run) : Knows φ run := fun h => by
    rw [hc] at h
    cases h
  unfold run
  split
  · trivial
  · refine ⟨trivial, fun tools φ' hφ' => ?_⟩
    cases hφ'
    dsimp only
    split
    · trivial
    · refine ((taintRule env).drive_follows ⟨hknows _, hwait, by simp⟩).bind fun _ d _ => ?_
      cases d <;> trivial

/-- A waiting run is taken up knowing of the content of the approved step. -/
theorem takeUp_approved_tainting {row : Run} {step : Step} {result : SendResult}
    (hlast : row.steps.getLast? = some step) (hwait : row.status = .waitingApproval)
    (h : Knows φ row) (hs : carriesContent step.tool result = true → result.Shows env) :
    (takeUp env true result.render row).run.Follows (tainting env) (fun _ _ => True)
      ⟨φ.carried || carriesContent step.tool result, false⟩ := by
  refine ((taintRule env).takeUp_approved_follows hlast hwait ?_).mono fun _ _ _ => trivial
  refine saving_running ⟨knows_observe (φ := φ) h fun hc => ?_, rfl, by simp [Run.approveLast,
    Run.observe]⟩
  rcases Bool.or_eq_true_iff.1 hc with hc | hc
  · exact .inl hc
  · exact .inr ⟨hc, hs hc⟩

theorem takeUp_rejected_tainting {row : Run} {step : Step}
    (hlast : row.steps.getLast? = some step) (hwait : row.status = .waitingApproval)
    (h : Knows φ row) :
    (takeUp env false [] row).run.Follows (tainting env) (fun _ _ => True) φ :=
  (LoopRule.takeUp_rejected_follows hlast hwait (saving_knows h)).mono fun _ _ _ => trivial

end

/-! ## Whole lives -/

/-- One answered statement of a run in phase `φ`, and the phase after it. -/
structure TaintStep (φ φ' : TaintPhase) (e : Prog.Event Statements) : Prop where
  guarded : φ.carried = true → ∀ m ∈ momentsAt e, m.Guarded
  silent : φ.waiting = true → momentsAt e = [] ∧ φ'.waiting = true
  rule : TaintRule (momentsAt e)
  carried : φ'.carried = true ↔ φ.carried = true ∨ ∃ m ∈ momentsAt e, m.carries = true
  saved : ∀ run ∈ savedAt e, Knows φ' run ∧ (run.status = .waitingApproval → φ'.waiting = true)

theorem taintStep_of_permits {env : Env} {φ : TaintPhase} {o : Stmt} {r : o.Res}
    (hp : (tainting env).permits φ o) (hs : ∀ m ∈ momentsAt ⟨o, r⟩, m.Shows env) :
    ∃ φ', (tainting env).next φ o r = some φ' ∧ TaintStep φ φ' ⟨o, r⟩ := by
  have hsilent {e : Prog.Event Statements} (hm : momentsAt e = []) (hr : savedAt e = []) :
      TaintStep φ φ e :=
    ⟨by simp [hm], fun h => ⟨hm, h⟩, by simp [hm, TaintRule], by simp [hm], by simp [hr]⟩
  have hsave {e : Prog.Event Statements} {run : Run} (hm : momentsAt e = [])
      (hr : savedAt e = [run]) (hk : Knows φ run) : TaintStep φ (φ.save run) e :=
    ⟨by simp [hm], fun h => ⟨hm, by simp [TaintPhase.save, h]⟩, by simp [hm, TaintRule],
      by simp [hm, TaintPhase.save], by
        simp only [hr, List.mem_singleton]
        rintro _ rfl
        exact ⟨hk, fun hw => by simp [TaintPhase.save, hw]⟩⟩
  cases o with
  | insertRun run => exact ⟨_, rfl, hsave rfl rfl hp⟩
  | updateRun id run => exact ⟨_, rfl, hsave rfl rfl hp⟩
  | executeOrRequest r' =>
    obtain ⟨hw, hguard⟩ := hp
    have hquiet {ans : Option GateReply} (hans : ∀ result, ans ≠ some (.executed result)) :
        ∃ φ', (tainting env).next φ (.executeOrRequest r') ans = some φ' ∧
          TaintStep φ φ' ⟨.executeOrRequest r', ans⟩ := by
      have hm : momentsAt ⟨.executeOrRequest r', ans⟩ = [.handed r'.actionType r'.forceSemi] := by
        unfold momentsAt
        split <;> simp_all
      refine ⟨φ, ?_, ?_⟩
      · simp only [tainting]
      · exact ⟨fun hc => by simpa [hm] using hguard hc, by simp [hw], by simp [hm, TaintRule],
          by simp [hm, Moment.carries], by simp [savedAt]⟩
    rcases r with _ | (result | _ | _ | _)
    · exact hquiet nofun
    · have hm : momentsAt ⟨.executeOrRequest r', some (.executed result)⟩ =
          [.handed r'.actionType r'.forceSemi, .observed r'.actionType result] := rfl
      rw [hm] at hs
      have hshows : carriesContent r'.actionType result = true → result.Shows env :=
        hs (.observed r'.actionType result) (by simp)
      refine ⟨⟨φ.carried || carriesContent r'.actionType result, φ.waiting⟩, ?_, ?_⟩
      · simp only [tainting]
        cases hc : carriesContent r'.actionType result with
        | false => simp
        | true => simp [hshows hc]
      · exact ⟨fun hc => by simpa [hm] using hguard hc, by simp [hw],
          by simp [hm, TaintRule, Moment.carries], by simp [hm, Moment.carries],
          by simp [savedAt]⟩
    · exact hquiet nofun
    · exact hquiet nofun
    · exact hquiet nofun
  | _ => exact ⟨φ, rfl, hsilent rfl rfl⟩

/-- What the typestate means for a stretch of a run whose content shows. -/
theorem rule_of_trace {env : Env} {α : Type} {p q : Prog Statements α}
    {es : List (Prog.Event Statements)} (ht : Prog.Trace p es q) {Q : TaintPhase → α → Prop}
    {φ : TaintPhase} (hp : p.Follows (tainting env) Q φ)
    (hs : ∀ m ∈ momentsOf es, m.Shows env) :
    TaintRule (momentsOf es) ∧ (φ.carried = true → ∀ m ∈ momentsOf es, m.Guarded) ∧
      (φ.waiting = true → momentsOf es = []) ∧
      ∀ run ∈ savedBy es, run.status = .waitingApproval →
        (φ.carried = true ∨ ∃ m ∈ momentsOf es, m.carries = true) → run.tainted = true := by
  induction ht generalizing φ with
  | refl p => exact ⟨.nil, fun _ => by simp [momentsOf], fun _ => rfl, by simp [savedBy]⟩
  | step r ht ih =>
    rename_i o k es q
    have hcons : momentsOf (⟨o, r⟩ :: es) = momentsAt ⟨o, r⟩ ++ momentsOf es := rfl
    rw [hcons] at hs ⊢
    obtain ⟨φ', hφ', hstep⟩ := taintStep_of_permits (r := r) hp.1 fun m hm =>
      hs m (List.mem_append_left _ hm)
    obtain ⟨hrule, hguarded, hsilent, hsaved⟩ := ih (hp.2 r φ' hφ') fun m hm =>
      hs m (List.mem_append_right _ hm)
    refine ⟨List.pairwise_append.2 ⟨hstep.rule, hrule, fun m hm m' hm' hc => ?_⟩, fun hc m hm => ?_,
      fun hw => ?_, fun run hrun hwait hc => ?_⟩
    · exact hguarded (hstep.carried.2 (.inr ⟨m, hm, hc⟩)) m' hm'
    · rcases List.mem_append.1 hm with hm | hm
      · exact hstep.guarded hc m hm
      · exact hguarded (hstep.carried.2 (.inl hc)) m hm
    · obtain ⟨hnil, hw'⟩ := hstep.silent hw
      rw [hnil, hsilent hw', List.nil_append]
    · -- content that comes back after a waiting row was saved would be a later moment
      rcases List.mem_append.1 hrun with hrun | hrun
      · obtain ⟨hknows, hw'⟩ := hstep.saved run hrun
        rw [hsilent (hw' hwait), List.append_nil] at hc
        exact hknows (hstep.carried.2 hc)
      · refine hsaved run hrun hwait ?_
        rcases hc with hc | ⟨m, hm, hc⟩
        · exact .inl (hstep.carried.2 (.inl hc))
        · rcases List.mem_append.1 hm with hm | hm
          · exact .inl (hstep.carried.2 (.inr ⟨m, hm, hc⟩))
          · exact .inr ⟨m, hm, hc⟩

/-- What a life leaves behind: the rule so far, and a waiting row that knows of the content. -/
structure Kept (ms : List Moment) (saved : List Run) : Prop where
  rule : TaintRule ms
  waiting : ∀ run ∈ saved, run.status = .waitingApproval →
    ms.any Moment.carries = true → run.tainted = true

/-- A further stretch of a life, from a phase that knows what the life carried so far. -/
theorem Kept.append {env : Env} {ms : List Moment} (hrule : TaintRule ms) {α : Type}
    {p q : Prog Statements α} {es : List (Prog.Event Statements)} (ht : Prog.Trace p es q)
    {Q : TaintPhase → α → Prop} {waiting : Bool}
    (hp : p.Follows (tainting env) Q ⟨ms.any Moment.carries, waiting⟩)
    (hs : ∀ m ∈ momentsOf es, m.Shows env) : Kept (ms ++ momentsOf es) (savedBy es) := by
  obtain ⟨hrule', hguarded, -, hsaved⟩ := rule_of_trace ht hp hs
  refine ⟨List.pairwise_append.2 ⟨hrule, hrule', fun m hm m' hm' hc => ?_⟩,
    fun run hrun hwait hc => hsaved run hrun hwait ?_⟩
  · exact hguarded (List.any_eq_true.2 ⟨m, hm, hc⟩) m' hm'
  · rw [List.any_append, Bool.or_eq_true] at hc
    exact hc.imp_right List.any_eq_true.1

/-- A waiting row of a life knows of the content the life carried. -/
theorem Kept.knows {ms : List Moment} {saved : List Run} (h : Kept ms saved) {row : Run}
    (hrow : ∃ run ∈ saved, row = { run with id := row.id })
    (hwait : row.status = .waitingApproval) : Knows ⟨ms.any Moment.carries, false⟩ row := by
  obtain ⟨run, hrun, hrow⟩ := hrow
  intro hc
  rw [hrow] at hwait ⊢
  exact h.waiting run hrun hwait hc

theorem Life.kept {env : Env} {ms : List Moment} {saved : List Run} (h : Life env ms saved)
    (hs : ∀ m ∈ ms, m.Shows env) : Kept ms saved := by
  induction h with
  | start query answer service role ht =>
    exact Kept.append (show TaintRule [] from .nil) ht
      (run_tainting query answer service role rfl rfl) hs
  | @approve ms saved _ row step hrow hwait hlast actionId result es q ht ih =>
    have hkept := ih fun m hm => hs m (List.mem_append_left _ hm)
    have hp := takeUp_approved_tainting hlast hwait (hkept.knows hrow hwait)
      (hs (.observed step.tool result) (by simp))
    have hms : (ms ++ [Moment.observed step.tool result]).any Moment.carries =
        (ms.any Moment.carries || carriesContent step.tool result) := by
      simp [Moment.carries]
    rw [← hms] at hp
    have hrule : TaintRule (ms ++ [Moment.observed step.tool result]) :=
      List.pairwise_append.2 ⟨hkept.rule, List.pairwise_singleton _ _, by simp⟩
    cases ht with
    | step _ ht =>
      have := Kept.append hrule ht hp fun m hm => hs m (by simp [hm])
      simpa using this
  | @reject ms saved _ row step hrow hwait hlast actionId es q ht ih =>
    have hkept := ih fun m hm => hs m (List.mem_append_left _ hm)
    cases ht with
    | step _ ht =>
      have hknows := hkept.knows hrow hwait
      exact Kept.append hkept.rule ht (takeUp_rejected_tainting hlast hwait hknows) fun m hm =>
        hs m (List.mem_append_right _ hm)

/-- **The taint rule, where content shows.** In every life of a run in which no line heading
external content contains a word `_external_content` takes for a failure, every outbound step
after external content is handed to the gate with approval forced. -/
theorem taintRule_of_shows {env : Env} {ms : List Moment} {saved : List Run}
    (h : Life env ms saved) (hs : ∀ m ∈ ms, m.Shows env) : TaintRule ms :=
  (h.kept hs).rule

/-- The page and the webhook message the model asks for. -/
def pageReply (path : String) : Str :=
  "\x7b\"tool\": \"fetch_page\", \"target\": \"https://docs.example.com".toList ++ path.toList
    ++ "\", \"content\": \"read the build log\"\x7d".toList

def hookReply : Str :=
  "\x7b\"tool\": \"send_webhook\", \"target\": \"ops\", \"content\": \"docs are up\"\x7d".toList

/-- The loop switched on, with the values and digests of the texts of a run that fetches `path`. -/
def loopEnv (path : String) : Env :=
  { Env.plain with
    AGENT_LOOP_ENABLED := "true".toList
    loads := fun text =>
      if text = pageReply path then
        some (.obj [("tool".toList, .str "fetch_page".toList),
          ("target".toList, .str ("https://docs.example.com".toList ++ path.toList)),
          ("content".toList, .str "read the build log".toList)])
      else if text = hookReply then
        some (.obj [("tool".toList, .str "send_webhook".toList),
          ("target".toList, .str "ops".toList), ("content".toList, .str "docs are up".toList)])
      else none
    sha256 := fun text =>
      if text = "read the build log".toList then
        "1260fac814ffa96b4a46e4d851d352e7b5daad7494896981ec413da64f9ffdd0".toList
      else "f208b26fde3e1246e8ba7d8e44557c9fbff60bff4a2315e2e351bbe0263d0182".toList }

/-- The page, as it is fetched from `path`. -/
def fetchedPage (path : String) : SendResult :=
  .page (.fetched "docs.example.com".toList path.toList "All green.".toList)

/-- A world in which the model gives one reply, the gate runs what is not forced and nothing
fails. -/
def loopWorld (mode : Mode) (path : String) (reply : Str) : (o : Stmt) → o.Res
  | .availableTools => [("send_webhook".toList, "ops".toList), ("fetch_page".toList, [])]
  | .callModel .. => some reply
  | .validateUrl _ => true
  | .webhookTargets => ["ops".toList]
  | .executeOrRequest r => some <|
      if r.forceSemi then .pendingApproval "0123ABCD".toList true
      else if r.actionType = "fetch_page".toList then .executed (fetchedPage path)
      else .executed (.text "Webhook to ops: sent".toList)
  | o => calmReply mode o

/-- A run that fetches the page at `path` and then posts to the webhook. -/
def pageThenHook (path : String) : List (Prog.Event Statements) :=
  Prog.play (run (loopEnv path) "Is the build green? Tell ops.".toList [] true none)
    (List.replicate 7 (loopWorld .full path (pageReply path)) ++
      List.replicate 4 (loopWorld .full path hookReply))

/-- After a page whose heading line shows, the webhook needs approval. -/
theorem taintRule_of_shows_guide :
    TaintRule [.handed "fetch_page".toList false,
      .observed "fetch_page".toList (fetchedPage "/guide"),
      .handed "send_webhook".toList true] := by
  have hms : momentsOf (pageThenHook "/guide") =
      [.handed "fetch_page".toList false,
        .observed "fetch_page".toList (fetchedPage "/guide"),
        .handed "send_webhook".toList true] := by
    decide
  obtain ⟨q, ht⟩ := Prog.exists_trace_play
    (run (loopEnv "/guide") "Is the build green? Tell ops.".toList [] true none)
    (List.replicate 7 (loopWorld .full "/guide" (pageReply "/guide")) ++
      List.replicate 4 (loopWorld .full "/guide" hookReply))
  rw [← hms]
  exact taintRule_of_shows (.start _ _ _ _ ht) (by decide)

/-- The word `failed` in the path of a fetched page hides its content from the taint rule: the
webhook is run without asking. -/
theorem failed_in_path_untainted :
    ∃ ms saved, Life (loopEnv "/failed-builds") ms saved ∧ ¬ TaintRule ms := by
  obtain ⟨q, ht⟩ := Prog.exists_trace_play
    (run (loopEnv "/failed-builds") "Is the build green? Tell ops.".toList [] true none)
    (List.replicate 7 (loopWorld .full "/failed-builds" (pageReply "/failed-builds")) ++
      List.replicate 4 (loopWorld .full "/failed-builds" hookReply))
  exact ⟨_, _, .start _ _ _ _ ht, by decide +kernel⟩

end RagLeap.Core
