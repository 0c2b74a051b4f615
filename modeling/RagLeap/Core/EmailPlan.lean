import RagLeap.Core.ActionPlan
import RagLeap.Foundations.Lines

/-!
# The subject of an email in its content

An accepted plan is one text: `_validate_plan` of `core/employees/actions.py` puts the subject of an
email in a first line before the body (`emailContent`), and `send_email` of `core/action_senders.py`
takes a first line that begins with `subject:` for it (`emailParts`).

The two agree on a plan with a subject unless cutting the subject to its length left white space at
its end, and on a plan without one unless the body begins like a subject line
(`email_roundTrip_iff`).
-/

namespace RagLeap.Core

/-! ## The plan -/

/-- The body of an email plan. -/
def emailBody (env : Env) (plan : List (Str × Json)) : Str :=
  (Str.strip (memberOrEmpty env plan "content")).take MAX_ACTION_CONTENT

/-- The subject of an email plan, empty where there is none. -/
def emailSubject (env : Env) (plan : List (Str × Json)) : Str :=
  (Str.strip ((memberOrEmpty env plan "subject").map fun c =>
    if c = '\r' ∨ c = '\n' then ' ' else c)).take 200

/-- The one text of an email. -/
def emailContent (subject body : Str) : Str :=
  if subject = [] then body else "Subject: ".toList ++ subject ++ "\n\n".toList ++ body

/-- The planner accepts the proposal as `p`, whatever it is told about the configuration. -/
def Accepts (env : Env) (plan : List (Str × Json)) (tools : List (Str × Str)) (p : Plan) : Prop :=
  ∃ es, Prog.Trace (validatePlan env plan tools).run es (.ret (some (some p)))

/-! ## The sender -/

def MAX_TEXT : ℕ := 3000

/-- The subject of an email that has none. -/
def DEFAULT_SUBJECT : Str := "Message from RagLeap".toList

/-- The subject and the body that `send_email` finds in the content. -/
def emailParts (table : Unicode) (content : Str) : Str × Str :=
  let first := Str.firstLine content
  let rest := (content.dropWhile (· ≠ '\n')).drop 1
  if "subject:".toList <+: table.lower first then
    let subject := ((Str.strip (first.drop 8)).map fun c => if c = '\r' then ' ' else c).take 200
    (if subject = [] then DEFAULT_SUBJECT else subject, rest.dropWhile (· = '\n'))
  else (DEFAULT_SUBJECT, content)

/-- The mail settings in the environment. -/
structure MailSettings where
  SMTP_HOST : Str
  SMTP_USER : Str
  SMTP_FROM : Str

/-- The message as it is handed to the mail server. -/
structure Email where
  sender : Str
  recipient : Str
  subject : Str
  body : Str
  deriving DecidableEq

/-- A text that `EmailMessage` takes for a header: one without line breaks inside. -/
def fitsHeader (text : Str) : Prop := (Str.splitlines text).length ≤ 1

instance (text : Str) : Decidable (fitsHeader text) := inferInstanceAs (Decidable (_ ≤ _))

/-- `from_addr`. -/
def MailSettings.fromAddr (settings : MailSettings) : Str :=
  if Str.strip settings.SMTP_FROM ≠ [] then Str.strip settings.SMTP_FROM
  else Str.strip settings.SMTP_USER

/-- `send_email` up to the message; none where it refuses. -/
def composeEmail (table : Unicode) (settings : MailSettings) (allowed : Bool)
    (target content : Str) : Option Email :=
  let (subject, body) := emailParts table content
  if Str.strip settings.SMTP_HOST = [] ∨ settings.fromAddr = [] then none
  else if ¬ allowed then none
  else if fitsHeader settings.fromAddr ∧ fitsHeader (Str.strip target) ∧ fitsHeader subject then
    some ⟨settings.fromAddr, Str.strip target, subject, body.take (MAX_TEXT * 4)⟩
  else none

/-! ## What is accepted -/

theorem checkTool_email (env : Env) (tool target given content subject : Str) :
    (checkTool env tool target given content subject).run.Follows (Protocol.only Asks)
      (fun _ r => ∀ e, r = some (some e) → tool = "send_email".toList →
        e.2 = emailContent subject content) () := by
  by_cases htool : tool = "send_email".toList
  · subst htool
    refine Proc.follows_call_bind (.recipientAllowed target) fun allowed _ _ => ?_
    rintro e he -
    rw [Option.some_inj] at he
    by_cases hallowed : allowed = true
    · by_cases hsubject : subject = []
      · rw [if_neg (not_not.2 hallowed), if_pos hsubject] at he
        rw [← Option.some.inj he, emailContent, if_pos hsubject]
      · rw [if_neg (not_not.2 hallowed), if_neg hsubject] at he
        rw [← Option.some.inj he, emailContent, if_neg hsubject]
    · rw [if_pos hallowed] at he
      exact nomatch he
  · exact Prog.Follows.mono (checkTool_asks env tool target given content subject)
      fun _ _ _ _ _ h => absurd h htool

/-- A plan for an email has the one text of its subject and body. -/
theorem validatePlan_email (env : Env) (plan : List (Str × Json)) (tools : List (Str × Str)) :
    (validatePlan env plan tools).run.Follows (Protocol.only Asks)
      (fun _ r => ∀ p, r = some (some p) → p.tool = "send_email".toList →
        emailBody env plan ≠ [] ∧ p.subject = emailSubject env plan ∧
          p.content = emailContent (emailSubject env plan) (emailBody env plan)) () := by
  unfold validatePlan
  dsimp only
  split
  · exact fun p hp => nomatch hp
  split
  · exact fun p hp => nomatch hp
  rename_i hbody
  refine Proc.follows_bind (checkTool_email env _ _ _ _ _) (fun _ checked hchecked => ?_)
    fun _ _ p hp => nomatch hp
  rcases checked with _ | ⟨target, content⟩
  · exact fun p hp => nomatch hp
  · dsimp only
    cases toolChannel (Str.strip (memberText env plan "tool")) with
    | none => exact fun p hp => nomatch hp
    | some channel =>
      intro p hp htool
      obtain rfl := Option.some.inj (Option.some.inj hp)
      exact ⟨hbody, rfl, hchecked _ rfl htool⟩

theorem after_only {S : Signature} (φ : S.Op → Prop) (es : List (Prog.Event S)) :
    (Protocol.only φ).after () es = some () := by
  induction es with
  | nil => rfl
  | cons e es ih => exact ih

/-- Every proposal of a configured email with a body is accepted if its recipient is allowed. -/
theorem accepts_email {env : Env} {plan : List (Str × Json)} {tools : List (Str × Str)}
    (htool : Str.strip (memberText env plan "tool") = "send_email".toList)
    (hmem : "send_email".toList ∈ tools.map Prod.fst) (hbody : emailBody env plan ≠ []) :
    Accepts env plan tools ⟨"send_email".toList, "email".toList,
      Str.strip (memberOrEmpty env plan "target"),
      emailContent (emailSubject env plan) (emailBody env plan), emailSubject env plan⟩ := by
  refine ⟨[⟨.recipientAllowed (Str.strip (memberOrEmpty env plan "target")), true⟩], ?_⟩
  unfold validatePlan
  dsimp only
  rw [htool, if_neg (not_not.2 hmem), ← emailBody, ← emailSubject, if_neg hbody]
  refine Prog.Trace.step (S := Statements)
    (o := .recipientAllowed (Str.strip (memberOrEmpty env plan "target"))) true ?_
  by_cases hsubject : emailSubject env plan = []
  · rw [emailContent, if_pos hsubject, hsubject]
    exact .refl _
  · dsimp only
    rw [emailContent, if_neg hsubject, if_neg hsubject]
    exact .refl _

theorem of_accepts {env : Env} {plan : List (Str × Json)} {tools : List (Str × Str)} {p : Plan}
    (h : Accepts env plan tools p) (hp : p.tool = "send_email".toList) :
    emailBody env plan ≠ [] ∧ p.subject = emailSubject env plan ∧
      p.content = emailContent (emailSubject env plan) (emailBody env plan) := by
  obtain ⟨es, ht⟩ := h
  exact ((validatePlan_email env plan tools).of_trace ht (after_only _ es)).1 p rfl hp

/-! ## Reading the content back -/

/-- The table maps an ASCII beginning of a text letter by letter. -/
def LowersAscii (table : Unicode) : Prop :=
  ∀ s t, IsAscii s → s.map Char.toLower <+: table.lower (s ++ t)

theorem lowersAscii_ascii : LowersAscii .ascii := by
  intro s t _
  refine ⟨t.map Char.toLower, ?_⟩
  exact (List.map_append ..).symm

theorem head?_emailBody (env : Env) (plan : List (Str × Json)) :
    ∀ c ∈ (emailBody env plan).head?, Str.isSpace c = false := by
  intro c hc
  rw [emailBody, List.head?_take, if_neg (by decide)] at hc
  exact Str.head?_strip _ c hc

theorem length_emailSubject (env : Env) (plan : List (Str × Json)) :
    (emailSubject env plan).length ≤ 200 :=
  List.length_take_le 200 _

theorem head?_emailSubject (env : Env) (plan : List (Str × Json)) :
    ∀ c ∈ (emailSubject env plan).head?, Str.isSpace c = false := by
  intro c hc
  rw [emailSubject, List.head?_take, if_neg (by decide)] at hc
  exact Str.head?_strip _ c hc

/-- A subject is one line. -/
theorem ne_of_mem_emailSubject {env : Env} {plan : List (Str × Json)} {c : Char}
    (h : c ∈ emailSubject env plan) : c ≠ '\r' ∧ c ≠ '\n' := by
  obtain ⟨d, -, rfl⟩ := List.mem_map.1 (Str.mem_of_mem_strip (List.mem_of_mem_take h))
  split
  · decide
  · rename_i hd
    exact not_or.1 hd

/-- A first line with a subject is taken off, and the subject loses the white space at its ends. -/
theorem emailParts_subject {table : Unicode} (hlower : LowersAscii table) {subject body : Str}
    (hline : ∀ c ∈ subject, c ≠ '\r' ∧ c ≠ '\n') (hlen : subject.length ≤ 200)
    (hstrip : Str.strip subject ≠ []) (hbody : ∀ c ∈ body.head?, Str.isSpace c = false) :
    emailParts table ("Subject: ".toList ++ subject ++ "\n\n".toList ++ body) =
      (Str.strip subject, body) := by
  set line := "Subject: ".toList ++ subject with hdef
  have hlast : ∀ c ∈ line, c ≠ '\n' := by
    intro c hc
    rcases List.mem_append.1 hc with hc | hc
    · rintro rfl
      exact absurd hc (by decide)
    · exact (hline c hc).2
  have hfirst : Str.firstLine (line ++ "\n\n".toList ++ body) = line := by
    rw [Str.firstLine, List.append_assoc, List.takeWhile_append_of_pos (by simpa using hlast)]
    exact List.append_nil line
  have hrest : (line ++ "\n\n".toList ++ body).dropWhile (· ≠ '\n') = '\n' :: '\n' :: body := by
    rw [List.append_assoc, List.dropWhile_append_of_pos (by simpa using hlast)]
    rfl
  have hprefix : "subject:".toList <+: table.lower line := hlower "Subject:".toList (' ' :: subject)
    (by decide)
  have hsubject : Str.strip (line.drop 8) = Str.strip subject := Str.strip_cons (by decide) subject
  have hmap : (Str.strip subject).map (fun c => if c = '\r' then ' ' else c) =
      Str.strip subject := by
    refine (List.map_congr_left fun c hc => ?_).trans (List.map_id _)
    exact if_neg (hline c (Str.mem_of_mem_strip hc)).1
  have hcut : (Str.strip subject).take 200 = Str.strip subject :=
    List.take_of_length_le ((Str.length_strip_le subject).trans hlen)
  have hdrop : ('\n' :: body).dropWhile (· = '\n') = body := by
    rw [List.dropWhile_cons_of_pos (by simp)]
    cases body with
    | nil => rfl
    | cons c body =>
      refine List.dropWhile_cons_of_neg ?_
      have hc := hbody c rfl
      rw [decide_eq_true_eq]
      rintro rfl
      exact absurd hc (by decide)
  unfold emailParts
  simp only [hfirst, hrest, if_pos hprefix, hsubject, hmap, hcut, if_neg hstrip]
  exact congrArg (Prod.mk (Str.strip subject)) hdrop

/-- A body is read back whole just if its first line is not taken for a subject. -/
theorem emailParts_body_iff {table : Unicode} {body : Str} (hne : body ≠ []) :
    emailParts table body = (DEFAULT_SUBJECT, body) ↔
      ¬ "subject:".toList <+: table.lower (Str.firstLine body) := by
  unfold emailParts
  constructor
  · intro heq hprefix
    simp only [if_pos hprefix, Prod.mk.injEq] at heq
    -- What is left of the body after its first line is shorter.
    have hlen := congrArg List.length heq.2
    have hlen₁ : (((body.dropWhile (· ≠ '\n')).drop 1).dropWhile (· = '\n')).length ≤
        ((body.dropWhile (· ≠ '\n')).drop 1).length := (List.dropWhile_sublist _).length_le
    have hlen₂ : (body.dropWhile (· ≠ '\n')).length ≤ body.length :=
      (List.dropWhile_sublist _).length_le
    have hpos := List.length_pos_iff.2 hne
    rw [List.length_drop] at hlen₁
    omega
  · intro hprefix
    exact if_neg hprefix

/-- The sender reads back what the plan says. -/
def RoundTrip (env : Env) (plan : List (Str × Json)) (p : Plan) : Prop :=
  emailParts env.unicode p.content =
    (if p.subject = [] then DEFAULT_SUBJECT else p.subject, emailBody env plan)

/-- **An accepted email comes back just if** a plan without a subject has a body that does not begin
like a subject line, and the cut has left no white space at the end of a subject. -/
theorem email_roundTrip_iff {env : Env} {plan : List (Str × Json)} {tools : List (Str × Str)}
    {p : Plan} (hlower : LowersAscii env.unicode) (h : Accepts env plan tools p)
    (hp : p.tool = "send_email".toList) :
    RoundTrip env plan p ↔
      if p.subject = [] then
        ¬ "subject:".toList <+: env.unicode.lower (Str.firstLine (emailBody env plan))
      else Str.strip p.subject = p.subject := by
  obtain ⟨hbody, hsubject, hcontent⟩ := of_accepts h hp
  rw [RoundTrip, hcontent, hsubject, emailContent]
  by_cases hnone : emailSubject env plan = []
  · rw [if_pos hnone, if_pos hnone, if_pos hnone]
    exact emailParts_body_iff hbody
  · have hstrip : Str.strip (emailSubject env plan) ≠ [] := by
      obtain ⟨c, s, hs⟩ := List.exists_cons_of_ne_nil hnone
      have hc := head?_emailSubject env plan c (by rw [hs]; rfl)
      exact Str.strip_ne_nil (hs ▸ List.mem_cons_self) hc
    rw [if_neg hnone, if_neg hnone, if_neg hnone,
      emailParts_subject hlower (fun c hc => ne_of_mem_emailSubject hc)
        (length_emailSubject env plan) hstrip (head?_emailBody env plan), Prod.mk.injEq]
    exact and_iff_left rfl

theorem of_composeEmail {table : Unicode} {settings : MailSettings} {allowed : Bool}
    {target content : Str} {e : Email}
    (h : composeEmail table settings allowed target content = some e) :
    e.subject = (emailParts table content).1 ∧
      e.body = (emailParts table content).2.take (MAX_TEXT * 4) := by
  unfold composeEmail at h
  dsimp only at h
  split at h
  · exact nomatch h
  split at h
  · exact nomatch h
  split at h
  · obtain rfl := Option.some.inj h
    exact ⟨rfl, rfl⟩
  · exact nomatch h

/-- The message holds the subject and the body of a plan that comes back; no body is cut. -/
theorem composeEmail_of_roundTrip {env : Env} {plan : List (Str × Json)} {p : Plan}
    (h : RoundTrip env plan p) {settings : MailSettings} {allowed : Bool} {e : Email}
    (he : composeEmail env.unicode settings allowed p.target p.content = some e) :
    e.subject = (if p.subject = [] then DEFAULT_SUBJECT else p.subject) ∧
      e.body = emailBody env plan := by
  have hcut : (emailBody env plan).take (MAX_TEXT * 4) = emailBody env plan :=
    List.take_of_length_le ((List.length_take_le _ _).trans (by decide))
  obtain ⟨hsubject, hbody⟩ := of_composeEmail he
  rw [hsubject, hbody, h]
  exact ⟨rfl, hcut⟩

/-! ## Plans that do not come back -/

namespace EmailSample

/-- A proposal for an email without a subject. -/
def proposal (body : String) : List (Str × Json) :=
  [("tool".toList, .str "send_email".toList), ("target".toList, .str "ops@example.com".toList),
    ("content".toList, .str body.toList)]

def accepted (body : String) : Plan where
  tool := "send_email".toList
  channel := "email".toList
  target := "ops@example.com".toList
  content := body.toList
  subject := []

theorem accepts_proposal :
    Accepts .plain (proposal "hello") [("send_email".toList, [])] (accepted "hello") :=
  accepts_email (by decide) (by decide) (by decide)

end EmailSample

open EmailSample in
theorem email_roundTrip_hello : RoundTrip .plain (proposal "hello") (accepted "hello") :=
  (email_roundTrip_iff lowersAscii_ascii accepts_proposal (by decide)).2 (by decide)

open EmailSample in
/-- The body of this plan is taken for its subject, and nothing is left of it. -/
theorem email_not_roundTrip :
    LowersAscii Env.plain.unicode ∧
      Accepts .plain (proposal "subject: hello") [("send_email".toList, [])]
        (accepted "subject: hello") ∧
      emailParts Env.plain.unicode (accepted "subject: hello").content = ("hello".toList, []) ∧
      ¬ RoundTrip .plain (proposal "subject: hello") (accepted "subject: hello") := by
  have hparts : emailParts Env.plain.unicode (accepted "subject: hello").content =
      ("hello".toList, []) := by decide
  refine ⟨lowersAscii_ascii, accepts_email (by decide) (by decide) (by decide), hparts, ?_⟩
  rw [RoundTrip, hparts]
  decide

end RagLeap.Core
