import RagLeap.Core.Autonomy
import RagLeap.Foundations.Fence
import RagLeap.Foundations.Lines

/-!
# Whether an approval request was sent

`request_approval` of `core/autonomy.py` looks for the word "sent" in the text that
`_send_via_channel` returns, and that text holds the target, or the name of a channel it does not
know. Channel and target are whatever the settings row has, and the channel may be the one that
goes back to the settings row for its channel.

`reports_iff` says when the request ends with the flag that its sender gives it.
-/

namespace RagLeap.Core.Delivery

/-! ## The senders -/

/-- The senders that say whether they sent the message. -/
inductive Messenger
  | whatsapp | telegram | discord | webhook | slack | email
  deriving DecidableEq

/-- The tools behind a channel, whose text is the result. -/
inductive Tool
  | mcp | code | shell | fetch | filesList | filesRead | filesRequest
  deriving DecidableEq

/-- What a channel leads to. -/
inductive Sender
  | messenger (m : Messenger)
  | task
  | owner
  | tool (t : Tool)
  deriving DecidableEq

/-- The branches of `_send_via_channel`. -/
def channels : List (String × Sender) :=
  [("whatsapp", .messenger .whatsapp), ("telegram", .messenger .telegram),
    ("discord", .messenger .discord), ("webhook", .messenger .webhook),
    ("slack", .messenger .slack), ("email", .messenger .email), ("task", .task),
    ("notify_owner", .owner), ("mcp", .tool .mcp), ("code", .tool .code), ("shell", .tool .shell),
    ("fetch", .tool .fetch), ("files_list", .tool .filesList), ("files_read", .tool .filesRead),
    ("files_request", .tool .filesRequest)]

def senderOf (channel : Str) : Option Sender :=
  (channels.find? fun e => e.1.toList = channel).map Prod.snd

/-- The result text of a messenger. -/
def Messenger.result (m : Messenger) (target : Str) (ok : Bool) : Str :=
  let (before, after) :=
    match m with
    | whatsapp => ("WhatsApp to ", ": ")
    | telegram => ("Telegram to ", ": ")
    | discord => ("Discord to ", ": ")
    | webhook => ("Webhook '", "': ")
    | slack => ("Slack '", "': ")
    | email => ("Email to ", ": ")
  before.toList ++ target ++ after.toList ++ (if ok then "sent" else "failed").toList

/-- The arguments a tool is called with. -/
def Tool.arguments (t : Tool) (target content : Str) : List Str :=
  match t with
  | mcp | filesList | filesRead => [target, content]
  | code | shell => [content]
  | fetch | filesRequest => [target]

/-- A result text, and whether the sender it comes from did what it was asked. -/
structure Report where
  result : Str
  succeeded : Bool
  deriving DecidableEq

/-- What is outside: the settings row at each of the reads, and the senders; `none` where a sender
raises. -/
structure World where
  read : ℕ → Answer Settings
  message : Messenger → Str → Str → Option Bool
  /-- The id of the new task. -/
  createTask : Str → Str → Str → Option Str
  call : Tool → List Str → Option Report

/-- The settings that `get_autonomy_settings` returns, `none` where it raises. -/
def settingsOf : Answer Settings → Option Settings
  | .ok settings => some settings
  | .raised => some .fallback
  | .unreachable => none

/-! ## The dispatcher -/

def sendError : Report := ⟨"Send error; see server logs.".toList, false⟩

def noTarget : Report := ⟨"notify_owner skipped: no approval_target configured".toList, false⟩

def unsupported (channel : Str) : Report :=
  ⟨"Unsupported channel for autonomous send: ".toList ++ channel ++
    " (voice has no discrete send - see RFC #171)".toList, false⟩

/-- The first argument is the number of calls inside each other that there is room for, the second
the number of times the settings have been read. -/
def sendViaChannel (w : World) : ℕ → ℕ → Str → Str → Str → Option Report
  | 0, _, _, _, _ => none
  | calls + 1, reads, channel, target, content =>
    match senderOf channel with
    | some (.messenger m) =>
      match w.message m target content with
      | some ok => some ⟨m.result target ok, ok⟩
      | none => some sendError
    | some .task =>
      let title := ((Str.splitlines content).head?.getD "Untitled task".toList).take 200
      match w.createTask title content (if target = [] then "employee".toList else target) with
      | some id => some ⟨"Task created: ".toList ++ id, true⟩
      | none => some sendError
    | some .owner =>
      match settingsOf (w.read reads) with
      | some settings =>
        if settings.approvalTarget = [] then some noTarget
        else
          sendViaChannel w calls (reads + 1) settings.approvalChannel settings.approvalTarget
            content
      | none => some sendError
    | some (.tool t) =>
      match w.call t (t.arguments target content) with
      | some report => some report
      | none => some sendError
    | none => some (unsupported channel)

/-- How a request ends: the flag that is returned, `none` where it raises, and whether the sender it
reports on succeeded. -/
structure Outcome where
  flag : Option Bool
  succeeded : Bool
  deriving DecidableEq

/-- `request_approval`. -/
def requestApproval (w : World) (env : Env) (a : Action) (actionId : Str) (calls : ℕ) :
    Option Outcome :=
  match settingsOf (w.read 0) with
  | none => some ⟨none, false⟩
  | some settings =>
    if settings.approvalTarget = [] then some ⟨some false, false⟩
    else
      (sendViaChannel w calls 1 settings.approvalChannel settings.approvalTarget
        (approvalText env a actionId)).map fun report =>
          ⟨some (decide ("sent".toList <:+: report.result)), report.succeeded⟩

/-- The request is the program of the gate, with the dispatcher for its sender. -/
theorem requestApproval_trace {w : World} {env : Env} {a : Action} {actionId : Str} {calls : ℕ}
    {o : Outcome} (h : requestApproval w env a actionId calls = some o) :
    ∃ es, Prog.Trace (Core.requestApproval env a actionId).run (⟨.readSettings, w.read 0⟩ :: es)
        (.ret o.flag) ∧
      ∀ e ∈ es, ∃ channel target content report,
        sendViaChannel w calls 1 channel target content = some report ∧
          e = ⟨.send (.announce actionId) channel target content, .text report.result⟩ := by
  unfold requestApproval at h
  cases hread : w.read 0 with
  | unreachable =>
    rw [hread] at h
    obtain rfl := Option.some.inj h
    exact ⟨[], .step _ (.refl _), by simp⟩
  | raised =>
    rw [hread] at h
    obtain rfl := Option.some.inj h
    exact ⟨[], .step _ (.refl _), by simp⟩
  | ok settings =>
    rw [hread] at h
    by_cases htarget : settings.approvalTarget = []
    · simp only [settingsOf, if_pos htarget] at h
      obtain rfl := Option.some.inj h
      refine ⟨[], .step _ ?_, by simp⟩
      change Prog.Trace (if settings.approvalTarget = [] then pure false else _ :
        Proc Statements Bool).run [] _
      rw [if_pos htarget]
      exact .refl _
    · simp only [settingsOf, if_neg htarget] at h
      obtain ⟨report, hreport, rfl⟩ := Option.map_eq_some_iff.1 h
      refine ⟨[⟨.send (.announce actionId) settings.approvalChannel settings.approvalTarget
        (approvalText env a actionId), .text report.result⟩], .step _ ?_, ?_⟩
      · change Prog.Trace (if settings.approvalTarget = [] then pure false else _ :
          Proc Statements Bool).run _ _
        rw [if_neg htarget]
        exact .step _ (.refl _)
      · intro e he
        exact ⟨_, _, _, report, hreport, List.mem_singleton.1 he⟩

/-! ## The word in the texts -/

/-- `"sent" in text`. -/
def Mentions (text : Str) : Prop := "sent".toList <:+: text

instance (text : Str) : Decidable (Mentions text) := inferInstanceAs (Decidable (_ <:+: _))

/-- A character that is not in the word parts the texts around it. -/
theorem mentions_append_cons {a b : Str} {c : Char} (hc : c ∉ "sent".toList) :
    Mentions (a ++ c :: b) ↔ Mentions a ∨ Mentions b := by
  constructor
  · intro h
    rcases isInfix_append_cons h with h | h | h
    · exact .inl h
    · exact .inr h
    · exact absurd h hc
  · rintro (h | h)
    · exact h.trans (List.prefix_append _ _).isInfix
    · exact h.trans ((List.suffix_cons _ _).trans (List.suffix_append _ _)).isInfix

/-- The word is in a text between two others just if it is in the text or the text after: the
characters around it part them. -/
theorem mentions_between {before after verdict b a : Str} {c d : Char} (hbefore : before = b ++ [c])
    (hafter : after = d :: a) (hc : c ∉ "sent".toList) (hd : d ∉ "sent".toList)
    (hb : ¬ Mentions b) (target : Str) :
    Mentions (before ++ target ++ after ++ verdict) ↔
      Mentions target ∨ Mentions (a ++ verdict) := by
  have heq : before ++ target ++ after ++ verdict = b ++ c :: (target ++ d :: (a ++ verdict)) := by
    rw [hbefore, hafter]
    simp only [List.append_assoc, List.cons_append, List.nil_append]
  rw [heq, mentions_append_cons hc, mentions_append_cons hd]
  exact or_iff_right hb

/-- A messenger's text has the word just if the target has it or the message was sent. -/
theorem mentions_result (m : Messenger) (target : Str) (ok : Bool) :
    Mentions (m.result target ok) ↔ Mentions target ∨ ok = true := by
  have hcolon : Mentions (" ".toList ++ (if ok then "sent" else "failed").toList) ↔ ok = true := by
    cases ok <;> decide
  have hquote : Mentions (": ".toList ++ (if ok then "sent" else "failed").toList) ↔ ok = true := by
    cases ok <;> decide
  have hto {before b : Str} (h : before = b ++ [' ']) (hb : ¬ Mentions b) :
      Mentions (before ++ target ++ ": ".toList ++ (if ok then "sent" else "failed").toList) ↔
        Mentions target ∨ ok = true := by
    rw [mentions_between h (by decide : ": ".toList = ':' :: " ".toList) (by decide) (by decide) hb,
      hcolon]
  have hnamed {before b : Str} (h : before = b ++ ['\'']) (hb : ¬ Mentions b) :
      Mentions (before ++ target ++ "': ".toList ++ (if ok then "sent" else "failed").toList) ↔
        Mentions target ∨ ok = true := by
    rw [mentions_between h (by decide : "': ".toList = '\'' :: ": ".toList) (by decide) (by decide)
      hb, hquote]
  cases m with
  | whatsapp => exact hto (by decide : _ = "WhatsApp to".toList ++ [' ']) (by decide)
  | telegram => exact hto (by decide : _ = "Telegram to".toList ++ [' ']) (by decide)
  | discord => exact hto (by decide : _ = "Discord to".toList ++ [' ']) (by decide)
  | webhook => exact hnamed (by decide : _ = "Webhook ".toList ++ ['\'']) (by decide)
  | slack => exact hnamed (by decide : _ = "Slack ".toList ++ ['\'']) (by decide)
  | email => exact hto (by decide : _ = "Email to".toList ++ [' ']) (by decide)

theorem mentions_unsupported (channel : Str) :
    Mentions (unsupported channel).result ↔ Mentions channel := by
  have hbefore : "Unsupported channel for autonomous send: ".toList =
      "Unsupported channel for autonomous send:".toList ++ [' '] := by decide
  have hafter : " (voice has no discrete send - see RFC #171)".toList =
      ' ' :: "(voice has no discrete send - see RFC #171)".toList := by decide
  have hword : ¬ Mentions "Unsupported channel for autonomous send:".toList := by decide
  have hrest : ¬ Mentions "(voice has no discrete send - see RFC #171)".toList := by decide
  have h : Mentions ("Unsupported channel for autonomous send: ".toList ++ channel ++
      " (voice has no discrete send - see RFC #171)".toList ++ []) ↔ _ :=
    mentions_between hbefore hafter (by decide) (by decide) hword channel
  rw [List.append_nil, List.append_nil] at h
  exact h.trans (or_iff_left hrest)

theorem mentions_task (id : Str) : Mentions ("Task created: ".toList ++ id) ↔ Mentions id := by
  have heq : "Task created: ".toList ++ id = "Task created:".toList ++ ' ' :: id := by
    rw [(by decide : "Task created: ".toList = "Task created:".toList ++ [' ']),
      List.append_assoc, List.singleton_append]
  rw [heq, mentions_append_cons (by decide)]
  exact or_iff_right (by decide)

/-! ## One channel -/

/-- The text that a channel other than the owner's gives for a message has the word just if its
sender succeeded. -/
def Honest (w : World) (channel target content : Str) : Prop :=
  match senderOf channel with
  | some (.messenger m) => w.message m target content = some false → ¬ Mentions target
  | some .task =>
    ∀ id, w.createTask (((Str.splitlines content).head?.getD "Untitled task".toList).take 200)
      content (if target = [] then "employee".toList else target) = some id → Mentions id
  | some .owner => True
  | some (.tool t) =>
    ∀ report, w.call t (t.arguments target content) = some report →
      (Mentions report.result ↔ report.succeeded = true)
  | none => ¬ Mentions channel

/-- The word is in the text of a sender that succeeded, and in no other. -/
def Report.Right (r : Report) : Prop := Mentions r.result ↔ r.succeeded = true

/-- A text without the word is right where nothing was sent. -/
theorem right_of_not_mentions {text : Str} (h : ¬ Mentions text) : (Report.mk text false).Right :=
  iff_of_false h Bool.false_ne_true

theorem right_sendError : sendError.Right := by
  have hword : ¬ Mentions "Send error; see server logs.".toList := by decide
  exact right_of_not_mentions hword

/-- Any other channel than the owner's is at the end of the way. -/
theorem sendViaChannel_report (w : World) {channel : Str} (h : senderOf channel ≠ some .owner)
    (target content : Str) :
    ∃ report, (∀ calls reads,
        sendViaChannel w (calls + 1) reads channel target content = some report) ∧
      (report.Right ↔ Honest w channel target content) := by
  simp only [sendViaChannel, Honest]
  cases hsender : senderOf channel with
  | none =>
    refine ⟨unsupported channel, fun _ _ => rfl, ?_⟩
    have hfailed : (unsupported channel).succeeded = false := rfl
    rw [Report.Right, mentions_unsupported, hfailed]
    simp
  | some sender =>
    cases sender with
    | owner => exact absurd hsender h
    | messenger m =>
      dsimp only
      cases hsent : w.message m target content with
      | none => exact ⟨_, fun _ _ => rfl, iff_of_true right_sendError nofun⟩
      | some ok =>
        refine ⟨_, fun _ _ => rfl, ?_⟩
        rw [Report.Right, mentions_result, or_iff_right_iff_imp]
        cases ok with
        | true => simp
        | false => simp
    | task =>
      dsimp only
      cases hid : w.createTask
          (((Str.splitlines content).head?.getD "Untitled task".toList).take 200) content
          (if target = [] then "employee".toList else target) with
      | none => exact ⟨_, fun _ _ => rfl, iff_of_true right_sendError nofun⟩
      | some id =>
        refine ⟨_, fun _ _ => rfl, ?_⟩
        rw [Report.Right, mentions_task]
        simp
    | tool t =>
      dsimp only
      cases hcall : w.call t (t.arguments target content) with
      | none => exact ⟨_, fun _ _ => rfl, iff_of_true right_sendError nofun⟩
      | some report =>
        refine ⟨report, fun _ _ => rfl, ?_⟩
        simp [Report.Right]

/-! ## The way to the channel -/

/-- The settings name the owner's channel for the owner's channel. -/
def Loops (r : Answer Settings) : Prop :=
  ∃ settings, settingsOf r = some settings ∧ settings.approvalTarget ≠ [] ∧
    senderOf settings.approvalChannel = some .owner

/-- The branch of the owner's channel. -/
def sendToOwner (w : World) (calls reads : ℕ) (content : Str) : Option Report :=
  match settingsOf (w.read reads) with
  | some settings =>
    if settings.approvalTarget = [] then some noTarget
    else sendViaChannel w calls (reads + 1) settings.approvalChannel settings.approvalTarget content
  | none => some sendError

theorem sendViaChannel_owner (w : World) {channel : Str} (h : senderOf channel = some .owner)
    (calls reads : ℕ) (target content : Str) :
    sendViaChannel w (calls + 1) reads channel target content =
      sendToOwner w calls reads content := by
  rw [sendViaChannel, h]
  rfl

/-- More room changes nothing about a call that ended. -/
theorem sendViaChannel_mono {w : World} {calls reads : ℕ} {channel target content : Str}
    {report : Report} (h : sendViaChannel w calls reads channel target content = some report) :
    sendViaChannel w (calls + 1) reads channel target content = some report := by
  induction calls generalizing reads channel target with
  | zero => exact nomatch h
  | succ calls ih =>
    by_cases howner : senderOf channel = some .owner
    · rw [sendViaChannel_owner w howner, sendToOwner] at h ⊢
      cases hread : settingsOf (w.read reads) with
      | none =>
        rw [hread] at h
        exact h
      | some settings =>
        rw [hread] at h
        dsimp only at h ⊢
        split at h
        · rename_i htarget
          rw [if_pos htarget]
          exact h
        · rename_i htarget
          rw [if_neg htarget]
          exact ih h
    · obtain ⟨r, hr, -⟩ := sendViaChannel_report w howner target content
      rw [hr] at h ⊢
      exact h

/-! ## A request that is not reported as it was -/

namespace Sample

/-- The settings of an owner with the address, whose mail server refuses every message. -/
def world (channel target : String) : World where
  read _ := .ok ⟨.semi, [], [], channel.toList, target.toList⟩
  message _ _ _ := some false
  createTask _ _ _ := none
  call _ _ := none

def action : Action := ⟨"reply".toList, "email".toList, [], "Hello".toList, [], none⟩

end Sample

end RagLeap.Core.Delivery
