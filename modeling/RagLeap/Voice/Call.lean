import Mathlib
import RagLeap.Foundations.Segments
import RagLeap.Foundations.Text

/-!
# A voice call

`handle_call` of `channels/voice/router.py`: the caller's audio is collected, and when an utterance
is over it is transcribed and answered, inside the handler of the frame that ended it. A mark, which
the telephone service sends when a reply has been played, drops what is collected and the next
`ECHO_TAIL_FRAMES` frames.

The loop keeps counters and two flags. `run_eq_feed` says what they come to: over a whole call the
flags change nothing, and the frames after the echo are cut into segments, each of which is over
(`Over`) at its last frame and not before, or was dropped at a mark.
-/

namespace RagLeap.Voice.Call

open Segments

/-! ## The code -/

def MIN_SPEECH_FRAMES : ℕ := 20
def SILENCE_END_FRAMES : ℕ := 20
def MAX_SPEECH_FRAMES : ℕ := 240
def MIN_RMS_FOR_SPEECH : ℤ := 150
def ECHO_TAIL_FRAMES : ℕ := 50

/-- The bytes of a frame of 20 ms. -/
def FRAME_BYTES : ℕ := 160

def POSITIVE_COMMANDS : List Str :=
  ["👍", "helpful", "that helped", "good answer", "thanks that worked"].map String.toList

def NEGATIVE_COMMANDS : List Str :=
  ["👎", "not helpful", "that didn't help", "wrong answer", "bad answer"].map String.toList

/-- `rms` is `audioop.rms(audioop.ulaw2lin(chunk, 2), 2)`, or `none` where one of them raises. -/
structure Env where
  botName : Str
  customGreeting : Str
  lower : Str → Str
  rms : List UInt8 → Option ℤ

variable (env : Env)

def detectFeedbackCommand (message : Str) : Option Bool :=
  if message = [] then none
  else
    let normalized := env.lower message.strip
    if normalized ∈ POSITIVE_COMMANDS then some true
    else if normalized ∈ NEGATIVE_COMMANDS then some false
    else none

/-- A text spoken: the audio of `text_to_speech`, and whether the two messages could be sent. -/
structure Speech where
  audio : List UInt8
  audioSent : Bool
  markSent : Bool

/-- What the services and the database answer while an utterance is dealt with. `none`: the call
raises, and for `transcript`, that fifteen seconds are over; `false`: the call raises. -/
structure Turn where
  transcript : Option Str
  lastReply : Option (List Str)
  outcomeRecorded : Bool
  escalation : Option (Option Str)
  asked : Option (Option Str)
  replyRecorded : Bool
  speech : Speech

inductive Event
  | connected
  | start (streamSid : Option Str) (start : Option Str) (speech : Speech)
  | media (chunk : List UInt8) (turn : Turn)
  | mark
  | stop
  | other
  /-- A message that cannot be read. -/
  | broken

inductive Act
  | transcribes (audio : List UInt8)
  | speaks (streamSid text : Str)
  | sendsAudio (streamSid : Str) (audio : List UInt8)
  | sendsMark (streamSid : Str)

structure State where
  streamSid : Str
  collectingBuffer : List UInt8
  processing : Bool
  frameCount : ℕ
  aiSpeaking : Bool
  echoSuppressFrames : ℕ
  consecutiveSilence : ℕ
  totalSpeechFrames : ℕ
  hasSpeechInBuffer : Bool

def State.initial : State where
  streamSid := []
  collectingBuffer := []
  processing := false
  frameCount := 0
  aiSpeaking := false
  echoSuppressFrames := 0
  consecutiveSilence := 0
  totalSpeechFrames := 0
  hasSpeechInBuffer := false

/-- What was done, and whether nothing was raised. -/
def speakReply (sid text : Str) (speech : Speech) : List Act × Bool :=
  if speech.audio = [] then ([.speaks sid text], true)
  else if speech.audioSent then
    ([.speaks sid text, .sendsAudio sid speech.audio, .sendsMark sid], speech.markSent)
  else ([.speaks sid text, .sendsAudio sid speech.audio], false)

/-- The answer to a transcript, or that something raised. -/
def answer (transcript : Str) (turn : Turn) : Option Str :=
  match detectFeedbackCommand env transcript with
  | some feedback =>
    match turn.lastReply with
    | none => none
    | some lastIds =>
      if lastIds ≠ [] ∧ turn.outcomeRecorded = false then none
      else some (if feedback then "Thanks for the feedback!".toList
        else "Thanks, I'll do better next time.".toList)
  | none =>
    match turn.escalation with
    | none => none
    | some status =>
      if status = some "executed".toList ∨ status = some "pending_approval".toList then
        some "I've flagged this for a team member -- they'll follow up with you soon.".toList
      else
        match turn.asked, turn.replyRecorded with
        | some result, true => some (result.getD "Sorry, I couldn't generate an answer.".toList)
        | _, _ => some "Sorry, something went wrong. Please try again.".toList

/-- From the transcription to the end of the answer. -/
def converse (sid : Str) (audio : List UInt8) (turn : Turn) : List Act × Bool :=
  let transcript := turn.transcript.getD []
  if 2 < transcript.length then
    match answer env transcript turn with
    | none => ([.transcribes audio], false)
    | some text =>
      let (acts, returns) := speakReply sid text turn.speech
      (.transcribes audio :: acts, returns)
  else ([.transcribes audio], true)

def isSpeech (chunk : List UInt8) : Bool := MIN_RMS_FOR_SPEECH ≤ (env.rms chunk).getD 0

/-- A frame that is not suppressed. -/
def State.collect (s : State) (chunk : List UInt8) : State :=
  if isSpeech env chunk then
    { s with
      collectingBuffer := s.collectingBuffer ++ chunk
      totalSpeechFrames := s.totalSpeechFrames + 1
      consecutiveSilence := 0
      hasSpeechInBuffer := true }
  else
    { s with
      collectingBuffer := s.collectingBuffer ++ chunk
      consecutiveSilence := s.consecutiveSilence + 1 }

def State.endOfSpeech (s : State) : Bool :=
  s.hasSpeechInBuffer && decide (MIN_SPEECH_FRAMES ≤ s.totalSpeechFrames) &&
    decide (SILENCE_END_FRAMES ≤ s.consecutiveSilence) && !s.processing

def State.hardCap (s : State) : Bool :=
  s.hasSpeechInBuffer && decide (MAX_SPEECH_FRAMES ≤ s.collectingBuffer.length / FRAME_BYTES) &&
    !s.processing

/-- Nothing is collected. -/
def State.cleared (s : State) : State :=
  { s with
    collectingBuffer := []
    totalSpeechFrames := 0
    consecutiveSilence := 0
    hasSpeechInBuffer := false }

/-- An utterance that is over. The flags stand while it is dealt with. -/
def State.utter (s : State) (turn : Turn) : List Act × Option State :=
  let busy := { s.cleared with processing := true, aiSpeaking := true }
  let (acts, returns) := converse env s.streamSid s.collectingBuffer turn
  (acts, if returns then some { busy with aiSpeaking := false, processing := false } else none)

def State.media (s : State) (chunk : List UInt8) (turn : Turn) : List Act × Option State :=
  let s := { s with frameCount := s.frameCount + 1 }
  if s.aiSpeaking then ([], some s)
  else if 0 < s.echoSuppressFrames then
    ([], some { s with echoSuppressFrames := s.echoSuppressFrames - 1 })
  else
    let s := s.collect env chunk
    if s.endOfSpeech || s.hardCap then s.utter env turn else ([], some s)

/-- `a or b`, with `""` where the start has no id either. -/
def streamSidOf (streamSid start : Option Str) : Str :=
  match streamSid with
  | some (c :: sid) => c :: sid
  | _ => start.getD []

def greeting : Str :=
  if env.customGreeting.strip ≠ [] then env.customGreeting.strip
  else "Hello! Welcome to ".toList ++ env.botName ++ ". How can I help you today?".toList

/-- One message of the telephone service: what is done, and the state, or `none` when the call is
over. -/
def step (s : State) : Event → List Act × Option State
  | .connected => ([], some s)
  | .start streamSid start speech =>
    let sid := streamSidOf streamSid start
    let (acts, returns) := speakReply sid (greeting env) speech
    (acts, if returns then some { s with streamSid := sid, aiSpeaking := false } else none)
  | .media chunk turn => s.media env chunk turn
  | .mark =>
    ([], some { s.cleared with aiSpeaking := false, echoSuppressFrames := ECHO_TAIL_FRAMES })
  | .stop => ([], none)
  | .other => ([], some s)
  | .broken => ([], none)

/-- What is done at some messages, and the state after them, or `none` when the call was over. -/
def run (s : State) : List Event → List Act × Option State
  | [] => ([], some s)
  | e :: events =>
    match step env s e with
    | (acts, none) => (acts, none)
    | (acts, some s') => (acts ++ (run s' events).1, (run s' events).2)

/-! ## What the counters stand for -/

/-- The silent frames at the end. -/
def silenceAtEnd (frames : List (List UInt8)) : ℕ :=
  (frames.reverse.takeWhile fun f => !isSpeech env f).length

/-- An utterance is over: it has speech, and enough of it before a pause, or it is too long. -/
def Over (frames : List (List UInt8)) : Bool :=
  frames.any (isSpeech env) &&
    (decide (MIN_SPEECH_FRAMES ≤ frames.countP (isSpeech env)) &&
        decide (SILENCE_END_FRAMES ≤ silenceAtEnd env frames) ||
      decide (MAX_SPEECH_FRAMES * FRAME_BYTES ≤ frames.flatten.length))

/-- What a message brings while so many frames are still suppressed: a frame or a mark. -/
def inputOf (echo : ℕ) : Event → List (Input (List UInt8))
  | .media chunk _ => if echo = 0 then [.item chunk] else []
  | .mark => [.reset]
  | _ => []

/-- How many frames are suppressed after a message. -/
def echoAfter (echo : ℕ) : Event → ℕ
  | .media _ _ => echo - 1
  | .mark => ECHO_TAIL_FRAMES
  | _ => echo

/-- The frames that are not suppressed, and the marks between them. -/
def inputs : ℕ → List Event → List (Input (List UInt8))
  | _, [] => []
  | echo, e :: events => inputOf echo e ++ inputs (echoAfter echo e) events

/-- The state between two messages, with these frames collected. -/
structure Represents (s : State) (frames : List (List UInt8)) : Prop where
  collectingBuffer : s.collectingBuffer = frames.flatten
  totalSpeechFrames : s.totalSpeechFrames = frames.countP (isSpeech env)
  consecutiveSilence : s.consecutiveSilence = silenceAtEnd env frames
  hasSpeechInBuffer : s.hasSpeechInBuffer = frames.any (isSpeech env)
  processing : s.processing = false
  aiSpeaking : s.aiSpeaking = false

/-- The audio that was transcribed. -/
def heard (acts : List Act) : List (List UInt8) :=
  acts.filterMap fun act => match act with
    | .transcribes audio => some audio
    | _ => none

variable {env} {s s' : State} {frames : List (List UInt8)} {chunk : List UInt8} {turn : Turn}

theorem represents_initial : Represents env .initial [] := ⟨rfl, rfl, rfl, rfl, rfl, rfl⟩

theorem silenceAtEnd_concat (frames : List (List UInt8)) (chunk : List UInt8) :
    silenceAtEnd env (frames ++ [chunk]) =
      if isSpeech env chunk then 0 else silenceAtEnd env frames + 1 := by
  rw [silenceAtEnd, silenceAtEnd, List.reverse_concat, List.takeWhile_cons]
  by_cases h : isSpeech env chunk = true
  · simp [h]
  · simp [h]

namespace Represents

theorem collect (h : Represents env s frames) (chunk : List UInt8) :
    Represents env (s.collect env chunk) (frames ++ [chunk]) := by
  obtain ⟨hbuffer, hspeech, hsilence, hhas, hprocessing, hspeaking⟩ := h
  unfold State.collect
  by_cases hchunk : isSpeech env chunk = true
  · rw [if_pos hchunk]
    constructor
    · simp [hbuffer]
    · simp [hspeech, hchunk, List.countP_append]
    · rw [silenceAtEnd_concat, if_pos hchunk]
    · simp [hchunk]
    · exact hprocessing
    · exact hspeaking
  · rw [if_neg hchunk]
    constructor
    · simp [hbuffer]
    · simp [hspeech, hchunk, List.countP_append]
    · rw [silenceAtEnd_concat, if_neg hchunk, hsilence]
    · simp [hhas, hchunk]
    · exact hprocessing
    · exact hspeaking

theorem isOver (h : Represents env s frames) : (s.endOfSpeech || s.hardCap) = Over env frames := by
  have hframes : MAX_SPEECH_FRAMES ≤ frames.flatten.length / FRAME_BYTES ↔
      MAX_SPEECH_FRAMES * FRAME_BYTES ≤ frames.flatten.length :=
    Nat.le_div_iff_mul_le (by decide)
  rw [State.endOfSpeech, State.hardCap, Over, h.hasSpeechInBuffer, h.totalSpeechFrames,
    h.consecutiveSilence, h.processing, h.collectingBuffer]
  simp only [hframes, Bool.not_false, Bool.and_true, Bool.and_assoc, Bool.and_or_distrib_left]

end Represents

/-! ## Runs -/

theorem heard_append (acts acts' : List Act) : heard (acts ++ acts') = heard acts ++ heard acts' :=
  List.filterMap_append

theorem heard_speakReply (sid text : Str) (speech : Speech) :
    heard (speakReply sid text speech).1 = [] := by
  unfold speakReply
  split_ifs <;> rfl

theorem heard_converse (sid : Str) (audio : List UInt8) (turn : Turn) :
    heard (converse env sid audio turn).1 = [audio] := by
  unfold converse
  dsimp only
  split_ifs
  · cases answer env (turn.transcript.getD []) turn with
    | none => rfl
    | some text =>
      show heard ([.transcribes audio] ++ (speakReply sid text turn.speech).1) = [audio]
      rw [heard_append, heard_speakReply]
      rfl
  · rfl

/-- What a call hears: the segments of its frames that are whole. -/
def segmentsHeard (segments : List (Segment (List UInt8))) : List (List UInt8) :=
  (segments.filter Segment.whole).map fun segment => segment.items.flatten

theorem segmentsHeard_append (segments segments' : List (Segment (List UInt8))) :
    segmentsHeard (segments ++ segments') = segmentsHeard segments ++ segmentsHeard segments' := by
  rw [segmentsHeard, List.filter_append, List.map_append]
  rfl

/-- A step has done what the cutting into segments says, from these frames and this echo on. -/
structure Fits (env : Env) (frames : List (List UInt8)) (echo : ℕ) (e : Event)
    (done : List Act × Option State) : Prop where
  heard : heard done.1 = segmentsHeard (feed (Over env) frames (inputOf echo e)).1
  after : ∀ s', done.2 = some s' →
    Represents env s' (feed (Over env) frames (inputOf echo e)).2 ∧
      s'.echoSuppressFrames = echoAfter echo e

theorem fits_of_quiet {echo : ℕ} {e : Event} {done : List Act × Option State}
    (hinput : inputOf echo e = []) (hheard : Call.heard done.1 = [])
    (hafter : ∀ s', done.2 = some s' →
      Represents env s' frames ∧ s'.echoSuppressFrames = echoAfter echo e) :
    Fits env frames echo e done := by
  constructor
  · rw [hinput, hheard]
    rfl
  · rw [hinput]
    exact hafter

theorem echoSuppressFrames_collect (s : State) (chunk : List UInt8) :
    (s.collect env chunk).echoSuppressFrames = s.echoSuppressFrames := by
  unfold State.collect
  split_ifs <;> rfl

theorem collect_fits (h : Represents env s frames) (hecho : s.echoSuppressFrames = 0)
    (chunk : List UInt8) (turn : Turn) :
    Fits env frames 0 (.media chunk turn)
      (if (s.collect env chunk).endOfSpeech || (s.collect env chunk).hardCap then
        (s.collect env chunk).utter env turn else ([], some (s.collect env chunk))) := by
  have hcollect := h.collect chunk
  have hstill := @echoSuppressFrames_collect env s chunk
  rw [hcollect.isOver]
  by_cases hover : Over env (frames ++ [chunk]) = true
  · rw [if_pos hover]
    have hfeed : feed (Over env) frames (inputOf 0 (.media chunk turn)) =
        ([⟨frames ++ [chunk], true⟩], []) := feed_item_of_done hover []
    constructor
    · rw [hfeed, State.utter, heard_converse, hcollect.collectingBuffer]
      rfl
    · intro s' hs'
      rw [hfeed]
      unfold State.utter at hs'
      dsimp only at hs'
      split_ifs at hs'
      obtain rfl := Option.some.inj hs'
      exact ⟨⟨rfl, rfl, rfl, rfl, rfl, rfl⟩, hstill.trans hecho⟩
  · rw [if_neg hover]
    have hfeed : feed (Over env) frames (inputOf 0 (.media chunk turn)) =
        ([], frames ++ [chunk]) := feed_item_of_not_done hover []
    constructor
    · rw [hfeed]
      rfl
    · intro s' hs'
      obtain rfl := Option.some.inj hs'
      rw [hfeed]
      exact ⟨hcollect, hstill.trans hecho⟩

theorem media_fits (h : Represents env s frames) (chunk : List UInt8) (turn : Turn) :
    Fits env frames s.echoSuppressFrames (.media chunk turn) (s.media env chunk turn) := by
  have hcount : Represents env { s with frameCount := s.frameCount + 1 } frames :=
    ⟨h.collectingBuffer, h.totalSpeechFrames, h.consecutiveSilence, h.hasSpeechInBuffer,
      h.processing, h.aiSpeaking⟩
  have hspeaking : ¬ s.aiSpeaking = true := by
    simp [h.aiSpeaking]
  unfold State.media
  dsimp only
  rw [if_neg hspeaking]
  rcases Nat.eq_zero_or_pos s.echoSuppressFrames with hecho | hecho
  · rw [if_neg (by omega)]
    have hfits := collect_fits hcount hecho chunk turn
    rwa [← hecho] at hfits
  · rw [if_pos hecho]
    have hinput : inputOf s.echoSuppressFrames (.media chunk turn) = [] := if_neg (by omega)
    refine fits_of_quiet hinput rfl fun s' hs' => ?_
    obtain rfl := Option.some.inj hs'
    exact ⟨⟨h.collectingBuffer, h.totalSpeechFrames, h.consecutiveSilence, h.hasSpeechInBuffer,
      h.processing, h.aiSpeaking⟩, rfl⟩

/-- One message. -/
theorem step_fits (h : Represents env s frames) (e : Event) :
    Fits env frames s.echoSuppressFrames e (step env s e) := by
  cases e with
  | media chunk turn => exact media_fits h chunk turn
  | mark =>
    constructor
    · rfl
    · intro s' hs'
      obtain rfl := Option.some.inj hs'
      exact ⟨⟨rfl, rfl, rfl, rfl, h.processing, rfl⟩, rfl⟩
  | start streamSid start speech =>
    refine fits_of_quiet rfl (heard_speakReply _ _ _) fun s' hs' => ?_
    unfold step at hs'
    dsimp only at hs'
    split_ifs at hs'
    obtain rfl := Option.some.inj hs'
    exact ⟨⟨h.collectingBuffer, h.totalSpeechFrames, h.consecutiveSilence, h.hasSpeechInBuffer,
      h.processing, rfl⟩, rfl⟩
  | connected =>
    refine fits_of_quiet rfl rfl fun s' hs' => ?_
    obtain rfl := Option.some.inj hs'
    exact ⟨h, rfl⟩
  | other =>
    refine fits_of_quiet rfl rfl fun s' hs' => ?_
    obtain rfl := Option.some.inj hs'
    exact ⟨h, rfl⟩
  | stop => exact fits_of_quiet rfl rfl fun s' hs' => by cases hs'
  | broken => exact fits_of_quiet rfl rfl fun s' hs' => by cases hs'

/-- A run hears the segments of the messages that it handles. -/
theorem exists_handled (h : Represents env s frames) (events : List Event) :
    ∃ handled, handled <+: events ∧
      heard (run env s events).1 =
        segmentsHeard (feed (Over env) frames (inputs s.echoSuppressFrames handled)).1 ∧
      ∀ s', (run env s events).2 = some s' → handled = events ∧
        Represents env s' (feed (Over env) frames (inputs s.echoSuppressFrames handled)).2 := by
  induction events generalizing s frames with
  | nil =>
    refine ⟨[], List.prefix_rfl, rfl, fun s' hs' => ⟨rfl, ?_⟩⟩
    obtain rfl := Option.some.inj hs'
    exact h
  | cons e events ih =>
    have hfits := step_fits h e
    rw [run]
    rcases hstep : step env s e with ⟨acts, _ | s₁⟩
    · rw [hstep] at hfits
      refine ⟨[e], List.prefix_cons_iff.2 (.inr ⟨[], rfl, List.nil_prefix⟩), ?_, fun s' hs' => ?_⟩
      · rw [inputs, inputs, List.append_nil]
        exact hfits.heard
      · cases hs'
    · rw [hstep] at hfits
      obtain ⟨hrep, hecho⟩ := hfits.after s₁ rfl
      obtain ⟨handled, hpre, hheard, hafter⟩ := ih hrep
      rw [hecho] at hheard hafter
      refine ⟨e :: handled, List.prefix_cons_inj e |>.2 hpre, ?_, fun s' hs' => ?_⟩
      · rw [inputs, feed_append, segmentsHeard_append, heard_append, hheard, hfits.heard]
      · rw [inputs, feed_append]
        obtain ⟨rfl, hrep'⟩ := hafter s' hs'
        exact ⟨rfl, hrep'⟩

/-- **A call hears each frame at most once and in order.** The frames that are not suppressed are cut
into segments, which are those transcribed and those dropped at a mark; the flags of the loop change
nothing. A segment is over at its last frame and not before, and what is collected at the end has not
been over at any point. -/
theorem run_eq_feed (env : Env) (events : List Event) :
    ∃ handled segments left, handled <+: events ∧
      segments.flatMap Segment.items ++ left = items (inputs 0 handled) ∧
      heard (run env .initial events).1 = segmentsHeard segments ∧
      (∀ segment ∈ segments, segment.Minimal (Over env)) ∧ Open (Over env) left ∧
      ∀ s', (run env .initial events).2 = some s' → handled = events ∧ Represents env s' left := by
  obtain ⟨handled, hpre, hheard, hafter⟩ := exists_handled (@represents_initial env) events
  obtain ⟨hminimal, hopen⟩ := feed_minimal (@open_nil _ (Over env)) (inputs 0 handled)
  exact ⟨handled, _, _, hpre, feed_items _, hheard, hminimal, hopen, hafter⟩

/-! ## What an utterance looks like -/

/-- Where an utterance was cut: at a pause, at the longest length, or at its first frame, because
what was collected before it was long enough. -/
inductive Cut (env : Env) (init : List (List UInt8)) (last : List UInt8) : Prop
  | pause (hspeech : MIN_SPEECH_FRAMES ≤ init.countP (isSpeech env))
      (hsilence : silenceAtEnd env (init ++ [last]) = SILENCE_END_FRAMES)
      (hshort : init.flatten.length < MAX_SPEECH_FRAMES * FRAME_BYTES)
  | cap (hspeech : init.any (isSpeech env) = true)
      (hshort : init.flatten.length < MAX_SPEECH_FRAMES * FRAME_BYTES)
      (hlong : MAX_SPEECH_FRAMES * FRAME_BYTES ≤ (init ++ [last]).flatten.length)
  | first (hsilence : init.any (isSpeech env) = false) (hspeech : isSpeech env last = true)
      (hlong : MAX_SPEECH_FRAMES * FRAME_BYTES ≤ (init ++ [last]).flatten.length)

theorem over_iff {frames : List (List UInt8)} : Over env frames = true ↔
    frames.any (isSpeech env) = true ∧
      (MIN_SPEECH_FRAMES ≤ frames.countP (isSpeech env) ∧
          SILENCE_END_FRAMES ≤ silenceAtEnd env frames ∨
        MAX_SPEECH_FRAMES * FRAME_BYTES ≤ frames.flatten.length) := by
  rw [Over, Bool.and_eq_true, Bool.or_eq_true, Bool.and_eq_true, decide_eq_true_eq,
    decide_eq_true_eq, decide_eq_true_eq]

theorem cut_of_over {init : List (List UInt8)} {last : List UInt8} (hopen : Open (Over env) init)
    (hover : Over env (init ++ [last]) = true) : Cut env init last := by
  obtain ⟨hany, hend⟩ := over_iff.1 hover
  by_cases hinit : init.any (isSpeech env) = true
  · have hne : init ≠ [] := by
      rintro rfl
      cases hinit
    have hbefore : ¬ Over env init = true := by
      rw [hopen init List.prefix_rfl hne]
      exact Bool.false_ne_true
    rw [over_iff, not_and, not_or] at hbefore
    obtain ⟨hnot, hshort⟩ := hbefore hinit
    rcases hend with ⟨hspeech, hsilence⟩ | hlong
    · rw [silenceAtEnd_concat] at hsilence
      split_ifs at hsilence with hlast
      · exact absurd hsilence (by decide)
      · rw [List.countP_append, List.countP_singleton, if_neg hlast, Nat.add_zero] at hspeech
        have hfew : silenceAtEnd env init < SILENCE_END_FRAMES :=
          Nat.lt_of_not_le fun hle => hnot ⟨hspeech, hle⟩
        refine .pause hspeech ?_ (Nat.lt_of_not_le hshort)
        rw [silenceAtEnd_concat, if_neg hlast]
        omega
    · exact .cap hinit (Nat.lt_of_not_le hshort) hlong
  · have hlast : isSpeech env last = true := by
      rw [List.any_append, Bool.or_eq_true, or_iff_right hinit] at hany
      simpa using hany
    refine .first (Bool.eq_false_iff.2 hinit) hlast (hend.resolve_left ?_)
    rintro ⟨-, hsilence⟩
    rw [silenceAtEnd_concat, if_pos hlast] at hsilence
    exact absurd hsilence (by decide)

/-- **Every utterance that is transcribed** ends with a pause of `SILENCE_END_FRAMES` frames, or was
cut at the longest length, or is silence of about that length and the first frame of speech after it:
a caller who was silent so long is cut off after one frame. -/
theorem cut_of_mem_heard (env : Env) (events : List Event) {audio : List UInt8}
    (h : audio ∈ heard (run env .initial events).1) :
    ∃ init last, audio = (init ++ [last]).flatten ∧ Cut env init last := by
  obtain ⟨handled, -, hheard, -⟩ := exists_handled (@represents_initial env) events
  obtain ⟨hminimal, -⟩ := feed_minimal (@open_nil _ (Over env)) (inputs 0 handled)
  rw [hheard] at h
  obtain ⟨segment, hsegment, rfl⟩ := List.mem_map.1 h
  obtain ⟨hmem, hwhole⟩ := List.mem_filter.1 hsegment
  obtain ⟨init, last, hitems, hopen, hover⟩ := (hminimal segment hmem).whole_iff.1 hwhole
  rw [hitems] at hover
  exact ⟨init, last, by rw [hitems], cut_of_over hopen hover⟩

namespace Sample

/-- Frames of one byte, which is loud or not. -/
def oneByte : Env where
  botName := "bot".toList
  customGreeting := []
  lower := id
  rms chunk := some (if chunk = [1] then 200 else 0)

/-- A service that does not answer. -/
def silent : Turn where
  transcript := none
  lastReply := none
  outcomeRecorded := true
  escalation := none
  asked := none
  replyRecorded := true
  speech := ⟨[], true, true⟩

/-- Twenty frames of speech and a pause. -/
def sentence : List Event :=
  List.replicate 20 (.media [1] silent) ++ List.replicate 20 (.media [0] silent)

theorem sentence_cut : ∃ init last,
    List.replicate 20 1 ++ List.replicate 20 0 = (init ++ [last]).flatten ∧
      Cut oneByte init last :=
  cut_of_mem_heard oneByte sentence (by decide +kernel)

end Sample

end RagLeap.Voice.Call
