import Mathlib.Data.List.Dedup
import Mathlib.Data.Rat.Defs
import RagLeap.Foundations.Decimal
import RagLeap.Foundations.Split

/-!
# Answers and their fallback chain

`GenerationService.generate_answer` (`ragleap.generation`) asks the providers of `_chain` one after
the other and returns the first answer, or an apology that names the last error. A provider comes
with its client, which completes a request or raises.

`_chain` leaves out the fallbacks of the primary's provider, whatever their model, key or address.
So the first configuration that succeeds answers exactly if it is not one of those
(`generateAnswer_exhausts_iff`).
-/

namespace RagLeap.Rag.Generation

open Str

/-! ## Data -/

structure ProviderConfig where
  provider : Str
  api_key : Option Str
  model : Option Str
  base_url : Option Str
  deriving DecidableEq

structure Usage where
  prompt_tokens : ℕ
  completion_tokens : ℕ
  total_tokens : ℕ
  deriving DecidableEq

/-- What a client is asked. -/
structure Request where
  prompt : Str
  temperature : ℚ
  max_tokens : ℤ
  response_format : Option Str

/-- What a client returns. There may be no content at all, or content without a text. In the
structured mode the content is the object as JSON, and `enforcement` is the mode that was used. -/
structure Completion where
  content : Option (Option Str)
  usage : Option Usage
  enforcement : Option Str

/-- A configuration with its client, which returns or raises. -/
structure Provider where
  config : ProviderConfig
  client : Request → Except Str Completion

/-- A retrieved chunk, with the keys that its dictionary has. -/
structure Chunk where
  text : Option Str
  document_name : Option Str
  document_id : Option Str
  chunk_id : Option Str
  chunk_index : Option ℤ

structure Citation where
  source_number : ℕ
  document_name : Str
  document_id : Option Str
  chunk_id : Option Str
  chunk_index : Option ℤ
  text_preview : Str
  deriving DecidableEq

/-- The four keys of a structured answer. -/
structure Structured where
  structured : Option Str
  structured_valid : Bool
  structured_enforcement : Option Str
  structured_validation_method : Option Str
  deriving DecidableEq

structure Answer where
  answer : Str
  sources : List Str
  citations : List Citation
  provider_used : Option Str
  model_used : Option Str
  usage : Option Usage
  chunks_sent : ℕ
  structured : Option Structured
  deriving DecidableEq

/-- `parse_and_validate`: the object, whether it is valid, and the method. -/
abbrev Validator : Type := Str → Str → Except Str (Option Str × Bool × Str)

structure GenerationService where
  primary : Provider
  fallbacks : List Provider
  default_temperature : ℚ
  default_max_tokens : ℤ
  max_context_chars : ℤ
  system_prompt : Str

/-- The arguments of `generate_answer`. -/
structure Arguments where
  query : Str
  chunks : List Chunk
  temperature : Option ℚ
  system_prompt : Option Str
  max_tokens : Option ℤ
  history_prefix : Str
  override_provider : Option Provider
  response_format : Option Str

/-! ## The request -/

/-- The loop of `_trim_chunks_to_budget`. -/
def keepChunks (budget : ℤ) (kept : List Chunk) (running_total : ℤ) : List Chunk → List Chunk
  | [] => kept
  | chunk :: chunks =>
    let chunk_len : ℤ := (chunk.text.getD []).length
    if budget < running_total + chunk_len ∧ kept ≠ [] then kept
    else keepChunks budget (kept ++ [chunk]) (running_total + chunk_len) chunks

/-- `_trim_chunks_to_budget`. -/
def trimChunksToBudget (service : GenerationService) (chunks : List Chunk) : List Chunk :=
  if service.max_context_chars ≤ 0 then chunks else keepChunks service.max_context_chars [] 0 chunks

/-- `_build_context`. -/
def buildContext (chunks : List Chunk) : Str :=
  if chunks = [] then "No relevant context was found.".toList
  else joinSep "\n\n".toList ((chunks.zipIdx 1).map fun (chunk, i) =>
    "[Source ".toList ++ ofNat i ++ ": ".toList ++
      chunk.document_name.getD "unknown document".toList ++ ", chunk ".toList ++
      (chunk.chunk_index.map ofInt).getD "?".toList ++ "]\n".toList ++ chunk.text.getD [])

/-- `_build_citations`. -/
def buildCitations (chunks : List Chunk) : List Citation :=
  (chunks.zipIdx 1).map fun (chunk, i) =>
    let text := chunk.text.getD []
    { source_number := i
      document_name := chunk.document_name.getD "unknown document".toList
      document_id := chunk.document_id
      chunk_id := chunk.chunk_id
      chunk_index := chunk.chunk_index
      text_preview := text.take 150 ++ if 150 < text.length then "...".toList else [] }

/-- `_build_prompt`. -/
def buildPrompt (service : GenerationService) (query : Str) (chunks : List Chunk)
    (system_prompt : Option Str) ( history_prefix : Str) : Str :=
  (system_prompt.filter (· ≠ [])).getD service.system_prompt ++ "\n\n".toList ++ history_prefix ++
    "Context:\n".toList ++ buildContext chunks ++ "\n\nQuestion: ".toList ++ query ++
    "\nAnswer:".toList

/-- What the providers are asked. -/
def requestOf (service : GenerationService) (args : Arguments) : Request where
  prompt := buildPrompt service args.query (trimChunksToBudget service args.chunks)
    args.system_prompt args.history_prefix
  temperature := args.temperature.getD service.default_temperature
  max_tokens := args.max_tokens.getD service.default_max_tokens
  response_format := args.response_format

/-! ## The chain -/

/-- `_chain`. -/
def chain (service : GenerationService) : Option Provider → List Provider
  | some override_provider => [override_provider]
  | none => service.primary ::
      service.fallbacks.filter fun f => f.config.provider ≠ service.primary.config.provider

def gemini : Str := "gemini".toList

def NO_ANSWER : Str := "No answer generated.".toList

/-- The text of a completion, if it has content. `response.text` of Gemini is `None` or empty if
there is none; elsewhere content without a text raises. -/
def contentText (provider : Str) (content : Option (Option Str)) : Except Str (Option Str) :=
  if provider = gemini then .ok (content.join.filter (· ≠ []))
  else
    match content with
    | none => .ok none
    | some none => .error "'NoneType' object has no attribute 'strip'".toList
    | some (some text) => .ok (some text)

/-- The text that a provider's client gives for a request. -/
def heard (p : Provider) (r : Request) : Except Str (Option Str × Completion) :=
  match p.client r with
  | .error e => .error e
  | .ok c =>
    match contentText p.config.provider c.content with
    | .error e => .error e
    | .ok text => .ok (text, c)

/-- `_call_provider`. -/
def callProvider (p : Provider) (r : Request) : Except Str (Str × Option Usage × Option Str) :=
  match heard p r with
  | .error e => .error e
  | .ok (text, c) => .ok ((text.map strip).getD NO_ANSWER, c.usage, c.enforcement)

/-- The result that a provider's answer makes: the body of the `try`. -/
def attempt (validate : Validator) (service : GenerationService) (args : Arguments)
    (p : Provider) : Except Str Answer :=
  let trimmed := trimChunksToBudget service args.chunks
  match callProvider p (requestOf service args) with
  | .error e => .error e
  | .ok (answer_text, usage, enforcement) =>
    let result (structured : Option Structured) : Answer :=
      { answer := answer_text
        sources := (trimmed.map fun c => c.document_name.getD "unknown".toList).dedup
        citations := buildCitations trimmed
        provider_used := some p.config.provider
        model_used := p.config.model
        usage := usage
        chunks_sent := trimmed.length
        structured := structured }
    match args.response_format with
    | none => .ok (result none)
    | some format =>
      match validate answer_text format with
      | .error e => .error e
      | .ok (value, is_valid, method) =>
        .ok (result (some ⟨value, is_valid, enforcement, some method⟩))

/-- The apology for a chain that failed. -/
def apology (last_error : Option Str) : Str :=
  "Sorry, all configured providers failed. Last error: ".toList ++ last_error.getD "None".toList

/-- The result for a chain that failed. -/
def failure (response_format : Option Str) (last_error : Option Str) : Answer where
  answer := apology last_error
  sources := []
  citations := []
  provider_used := none
  model_used := none
  usage := none
  chunks_sent := 0
  structured := response_format.map fun _ => ⟨none, false, none, none⟩

/-- The loop over the chain. -/
def walk (validate : Validator) (service : GenerationService) (args : Arguments) :
    Option Str → List Provider → Answer
  | last_error, [] => failure args.response_format last_error
  | _, p :: ps =>
    match attempt validate service args p with
    | .ok answer => answer
    | .error e => walk validate service args (some e) ps

/-- `generate_answer`. -/
def generateAnswer (validate : Validator) (service : GenerationService) (args : Arguments) :
    Answer :=
  walk validate service args none (chain service args.override_provider)

/-! ## The first answer -/

section

variable {validate : Validator} {service : GenerationService} {args : Arguments}

/-- The answer of a provider, if its call succeeds. -/
def answerOf (validate : Validator) (service : GenerationService) (args : Arguments)
    (p : Provider) : Option Answer :=
  (attempt validate service args p).toOption

theorem provider_used_of_answerOf {p : Provider} {a : Answer}
    (h : answerOf validate service args p = some a) : a.provider_used = some p.config.provider := by
  rw [answerOf, attempt] at h
  cases hcall : callProvider p (requestOf service args) with
  | error e =>
    rw [hcall] at h
    exact nomatch h
  | ok r =>
    rw [hcall] at h
    dsimp only at h
    split at h
    · obtain rfl := Option.some.inj h
      rfl
    · split at h
      · exact nomatch h
      · obtain rfl := Option.some.inj h
        rfl

/-- The walk returns the first answer of its providers, and fails if there is none. -/
theorem walk_spec (validate : Validator) (service : GenerationService) (args : Arguments)
    (last_error : Option Str) (ps : List Provider) :
    (∀ a, ps.findSome? (answerOf validate service args) = some a →
      walk validate service args last_error ps = a) ∧
      (ps.findSome? (answerOf validate service args) = none →
        (walk validate service args last_error ps).provider_used = none) := by
  induction ps generalizing last_error with
  | nil => exact ⟨nofun, fun _ => rfl⟩
  | cons p ps ih =>
    rw [walk, List.findSome?_cons]
    cases h : attempt validate service args p with
    | ok a =>
      have hanswer : answerOf validate service args p = some a := by rw [answerOf, h]; rfl
      rw [hanswer]
      exact ⟨fun a' ha => Option.some.inj ha, nofun⟩
    | error e =>
      have hanswer : answerOf validate service args p = none := by rw [answerOf, h]; rfl
      rw [hanswer]
      exact ih (some e)

/-- The chain is exhausted: the first configuration that succeeds, primary first, answers, and a
failure is reported only if none does. -/
def Exhausts (validate : Validator) (service : GenerationService) (args : Arguments) : Prop :=
  (∀ a, (service.primary :: service.fallbacks).findSome? (answerOf validate service args) = some a →
    generateAnswer validate service args = a) ∧
    ((generateAnswer validate service args).provider_used = none →
      ∀ p ∈ service.primary :: service.fallbacks, answerOf validate service args p = none)

/-- Fallbacks of another provider are tried in their order. -/
theorem findSome?_filter_of_first {l : List Provider} {keep : Provider → Bool}
    (h : ∀ p, l.find? (fun p => (answerOf validate service args p).isSome) = some p →
      keep p = true) :
    (l.filter keep).findSome? (answerOf validate service args) =
      l.findSome? (answerOf validate service args) := by
  induction l with
  | nil => rfl
  | cons p l ih =>
    cases hp : answerOf validate service args p with
    | some a =>
      have hkeep : keep p = true := h p (by rw [List.find?_cons_of_pos (by rw [hp]; rfl)])
      rw [List.filter_cons_of_pos hkeep, List.findSome?_cons, List.findSome?_cons, hp]
    | none =>
      have hrest := ih fun q hq => h q (by rw [List.find?_cons_of_neg (by simp [hp]), hq])
      rw [List.findSome?_cons, hp, ← hrest]
      by_cases hkeep : keep p = true
      · rw [List.filter_cons_of_pos hkeep, List.findSome?_cons, hp]
      · rw [List.filter_cons_of_neg hkeep]

theorem findSome?_of_find? {l : List Provider} {p : Provider}
    (h : l.find? (fun p => (answerOf validate service args p).isSome) = some p) :
    ∃ a, answerOf validate service args p = some a ∧
      l.findSome? (answerOf validate service args) = some a := by
  obtain ⟨hp, as, bs, rfl, has⟩ := List.find?_eq_some_iff_append.1 h
  obtain ⟨a, ha⟩ := Option.isSome_iff_exists.1 hp
  refine ⟨a, ha, List.findSome?_eq_some_iff.2 ⟨as, p, bs, rfl, ha, fun q hq => ?_⟩⟩
  simpa using has q hq

/-- The primary fails: the walk goes on with the fallbacks that are left. -/
theorem generateAnswer_of_primary_none (h : args.override_provider = none)
    (hprimary : answerOf validate service args service.primary = none) :
    (∀ a, (service.fallbacks.filter fun f =>
        f.config.provider ≠ service.primary.config.provider).findSome?
          (answerOf validate service args) = some a →
      generateAnswer validate service args = a) ∧
      ((service.fallbacks.filter fun f =>
        f.config.provider ≠ service.primary.config.provider).findSome?
          (answerOf validate service args) = none →
        (generateAnswer validate service args).provider_used = none) := by
  have hwalk := walk_spec validate service args none (chain service none)
  rw [chain, List.findSome?_cons, hprimary] at hwalk
  rw [generateAnswer, h]
  exact hwalk

/-- **The chain is exhausted** exactly if the primary succeeds or the first fallback that does is
not of the primary's provider. -/
theorem generateAnswer_exhausts_iff (validate : Validator) (service : GenerationService)
    (args : Arguments) (h : args.override_provider = none) :
    Exhausts validate service args ↔
      (answerOf validate service args service.primary = none →
        ∀ p, service.fallbacks.find? (fun p => (answerOf validate service args p).isSome) = some p →
          p.config.provider ≠ service.primary.config.provider) := by
  constructor
  · intro hex hprimary p hp hsame
    obtain ⟨a, ha, hfirst⟩ := findSome?_of_find? hp
    have hanswer : generateAnswer validate service args = a := by
      refine hex.1 a ?_
      rw [List.findSome?_cons, hprimary]
      exact hfirst
    have hused := provider_used_of_answerOf ha
    obtain ⟨hsome, hnone⟩ := generateAnswer_of_primary_none h hprimary
    cases hleft : (service.fallbacks.filter fun f =>
        f.config.provider ≠ service.primary.config.provider).findSome?
          (answerOf validate service args) with
    | none =>
      have hfailed := hnone hleft
      rw [hanswer, hused] at hfailed
      exact nomatch hfailed
    | some a' =>
      obtain ⟨q, hq, ha'⟩ := List.exists_of_findSome?_eq_some hleft
      have hother := of_decide_eq_true (List.mem_filter.1 hq).2
      have hsame' := provider_used_of_answerOf ha'
      rw [← hsome a' hleft, hanswer, hused] at hsame'
      exact hother ((Option.some.inj hsame').symm.trans hsame)
  · intro hcond
    cases hprimary : answerOf validate service args service.primary with
    | some a =>
      have hwalk : generateAnswer validate service args = a := by
        rw [generateAnswer, h]
        refine (walk_spec validate service args none (chain service none)).1 a ?_
        rw [chain, List.findSome?_cons, hprimary]
      refine ⟨fun a' ha' => ?_, fun hfailed => ?_⟩
      · rw [List.findSome?_cons, hprimary] at ha'
        exact hwalk.trans (Option.some.inj ha')
      · rw [hwalk, provider_used_of_answerOf hprimary] at hfailed
        exact nomatch hfailed
    | none =>
      have hfilter : (service.fallbacks.filter fun f =>
          f.config.provider ≠ service.primary.config.provider).findSome?
            (answerOf validate service args) =
          service.fallbacks.findSome? (answerOf validate service args) :=
        findSome?_filter_of_first fun p hp => decide_eq_true (hcond hprimary p hp)
      obtain ⟨hsome, hnone⟩ := generateAnswer_of_primary_none h hprimary
      rw [hfilter] at hsome hnone
      refine ⟨fun a ha => ?_, fun hfailed => ?_⟩
      · rw [List.findSome?_cons, hprimary] at ha
        exact hsome a ha
      · cases hfirst : service.fallbacks.findSome? (answerOf validate service args) with
        | some a =>
          obtain ⟨q, -, ha⟩ := List.exists_of_findSome?_eq_some hfirst
          rw [hsome a hfirst, provider_used_of_answerOf ha] at hfailed
          exact nomatch hfailed
        | none =>
          intro p hp
          rcases List.mem_cons.1 hp with rfl | hp
          · exact hprimary
          · exact List.findSome?_eq_none_iff.1 hfirst p hp

end

namespace Sample

def groq : Str := "groq".toList

/-- A configuration of Groq with a key. -/
def keyed (key : Str) : ProviderConfig :=
  ⟨groq, some key, some "m".toList, some "https://api.groq.com/openai/v1".toList⟩

def down : Request → Except Str Completion := fun _ => .error "401".toList

def up : Request → Except Str Completion := fun _ => .ok ⟨some (some "Hi.".toList), none, none⟩

def serviceOf (primary : Provider) (fallbacks : List Provider) : GenerationService :=
  ⟨primary, fallbacks, 0, 1024, 12000, []⟩

def question : Arguments := ⟨"Hello?".toList, [], none, none, none, [], none, none⟩

def noValidation : Validator := fun _ _ => .ok (none, false, [])

/-- The answer of a client that is up. -/
def hello : Answer := ⟨"Hi.".toList, [], [], some groq, some "m".toList, none, 0, none⟩

/-- A second key of the primary's provider is not tried. -/
theorem second_key_unused : ¬ Exhausts noValidation
    (serviceOf ⟨keyed ['a'], down⟩ [⟨keyed ['b'], up⟩]) question := by
  intro hex
  have hanswer := hex.1 hello (by decide)
  revert hanswer
  decide

theorem generateAnswer_exhausts_iff_up :
    Exhausts noValidation (serviceOf ⟨keyed ['a'], up⟩ [⟨keyed ['b'], down⟩]) question :=
  (generateAnswer_exhausts_iff noValidation _ question rfl).2 fun h =>
    absurd h (by decide)

end Sample

end RagLeap.Rag.Generation
