import RagLeap.Foundations.Lines
import RagLeap.Rag.Generation

/-!
# Query rewriting

`contextual_rewrite`, `hyde_document` and `multi_query_variants` (`ragleap.query_rewrite`) ask the
generation service for a better query, and go on with the user's own one if the answer is blank or
the call raises.

The service does not raise: a chain that fails, and a provider without content, are told of in the
text of a normal answer (`notice`), which the strategies take for a rewritten query. So they fail
open exactly if no call ends in such a notice, or the notice does no harm (`rewrites_failOpen_iff`).
-/

namespace RagLeap.Rag.QueryRewrite

open Str Generation

/-! ## Prompts -/

def instruction : Str :=
  ("Follow the instructions in the question below exactly. Do not add commentary, explanation, " ++
    "or a preamble - respond with only what was asked for.").toList

/-- `CONTEXTUAL_REWRITE_PROMPT.format`. -/
def contextualPrompt (history query : Str) : Str :=
  ("Given the conversation history and a follow-up question, rewrite the follow-up question to " ++
    "be a standalone question that includes all necessary context from the history. Do not " ++
    "answer the question - only rewrite it. If the question is already standalone, return it " ++
    "unchanged. Respond with ONLY the rewritten question, nothing else.\n\n").toList ++ history ++
    "\nFollow-up question: ".toList ++ query ++ "\n\nStandalone question:".toList

/-- `HYDE_PROMPT.format`. -/
def hydePrompt (query : Str) : Str :=
  ("Write a short, plausible passage that would answer the following question, as if it were an " ++
    "excerpt from a real document. Write confidently and specifically, even if you're not " ++
    "certain of the real answer - this passage is used only to improve document retrieval " ++
    "matching, it is never shown to the user.\n\nQuestion: ").toList ++ query ++
    "\n\nPassage:".toList

/-- `MULTI_QUERY_PROMPT.format`. -/
def multiQueryPrompt (n : ℤ) (query : Str) : Str :=
  "Generate ".toList ++ ofInt n ++
    (" different phrasings of the following question, capturing different angles or wordings a " ++
    "user might use to ask about the same underlying information need. Respond with ONLY the " ++
    "alternative questions, one per line, no numbering or extra text.\n\n" ++
    "Original question: ").toList ++ query ++ "\n\nAlternative phrasings:".toList

/-- The arguments of the call for a prompt. -/
def rewriteArgs (override_provider : Option Provider) (prompt : Str) : Arguments where
  query := prompt
  chunks := []
  temperature := none
  system_prompt := some instruction
  max_tokens := none
  history_prefix := []
  override_provider := override_provider
  response_format := none

/-! ## Strategies -/

/-- `generate_answer` of a generator, which may raise. -/
abbrev Generator : Type := Arguments → Except Str Answer

section

variable (generate : Generator) (override_provider : Option Provider)

/-- The stripped answer to a prompt, or the query if it is empty or the call raises. -/
def rewritten (prompt query : Str) : Str × Option Answer :=
  match generate (rewriteArgs override_provider prompt) with
  | .ok result => (if strip result.answer ≠ [] then strip result.answer else query, some result)
  | .error _ => (query, none)

/-- `contextual_rewrite`. -/
def contextualRewrite (query history_prefix : Str) : Str × Option Answer :=
  if history_prefix = [] then (query, none)
  else rewritten generate override_provider (contextualPrompt history_prefix query) query

/-- `hyde_document`. -/
def hydeDocument (query : Str) : Str × Option Answer :=
  rewritten generate override_provider (hydePrompt query) query

/-- `line.strip(" -*\t")`. -/
def stripMarks (line : Str) : Str :=
  ((line.dropWhile (· ∈ [' ', '-', '*', '\t'])).reverse.dropWhile
    (· ∈ [' ', '-', '*', '\t'])).reverse

/-- The lines of an answer that are not the query again. -/
def others (table : Unicode) (query answer : Str) : List Str :=
  (((splitlines answer).map stripMarks).filter (· ≠ [])).filter fun line =>
    table.lower line ≠ table.lower query

/-- `variants[:n]`. -/
def sliceTo (variants : List Str) (n : ℤ) : List Str :=
  if 0 ≤ n then variants.take n.toNat else variants.take (variants.length - n.natAbs)

/-- `multi_query_variants`. -/
def multiQueryVariants (table : Unicode) (query : Str) (n : ℤ) : List Str × Option Answer :=
  match generate (rewriteArgs override_provider (multiQueryPrompt n query)) with
  | .ok result =>
    let variants := query :: others table query result.answer
    (if n < variants.length then sliceTo variants n else variants, some result)
  | .error _ => ([query], none)

end

/-! ## What the service says -/

/-- No provider of a chain answers: each raises, until one returns without content or with a blank
text. -/
def NoAnswer (r : Request) : List Provider → Prop
  | [] => True
  | p :: ps =>
    match heard p r with
    | .error _ => NoAnswer r ps
    | .ok (none, _) => True
    | .ok (some text, _) => strip text = []

/-- The text of an answer. -/
def said (r : Request) : Option Str → List Provider → Str
  | last_error, [] => apology last_error
  | _, p :: ps =>
    match heard p r with
    | .error e => said r (some e) ps
    | .ok (none, _) => NO_ANSWER
    | .ok (some text, _) => strip text

/-- The text of an answer that no provider gave. -/
def notice (r : Request) : Option Str → List Provider → Option Str
  | last_error, [] => some (apology last_error)
  | _, p :: ps =>
    match heard p r with
    | .error e => notice r (some e) ps
    | .ok (none, _) => some NO_ANSWER
    | .ok (some _, _) => none

variable {validate : Validator} {service : GenerationService} {args : Arguments}

theorem walk_answer (hformat : args.response_format = none) (last_error : Option Str)
    (ps : List Provider) : (walk validate service args last_error ps).answer =
      said (requestOf service args) last_error ps := by
  induction ps generalizing last_error with
  | nil => rfl
  | cons p ps ih =>
    rw [walk, said, attempt, callProvider]
    rcases heard p (requestOf service args) with e | ⟨text, c⟩
    · exact ih (some e)
    · dsimp only
      rw [hformat]
      cases text <;> rfl

theorem said_of_notice {r : Request} {last_error : Option Str} {ps : List Provider} {m : Str}
    (h : notice r last_error ps = some m) : said r last_error ps = m ∧ NoAnswer r ps := by
  induction ps generalizing last_error with
  | nil => exact ⟨Option.some.inj h, trivial⟩
  | cons p ps ih =>
    rw [notice] at h
    rw [said, NoAnswer]
    rcases hp : heard p r with e | ⟨_ | text, c⟩
    · rw [hp] at h
      exact ih h
    · rw [hp] at h
      exact ⟨Option.some.inj h, trivial⟩
    · rw [hp] at h
      exact nomatch h

theorem said_of_noAnswer {r : Request} {last_error : Option Str} {ps : List Provider}
    (h : notice r last_error ps = none) (hno : NoAnswer r ps) : said r last_error ps = [] := by
  induction ps generalizing last_error with
  | nil => exact nomatch h
  | cons p ps ih =>
    rw [notice] at h
    rw [NoAnswer] at hno
    rw [said]
    rcases hp : heard p r with e | ⟨_ | text, c⟩
    · rw [hp] at h hno
      exact ih h hno
    · rw [hp] at h
      exact nomatch h
    · rw [hp] at hno
      exact hno

theorem strip_ne_nil {s : Str} {c : Char} (hc : c ∈ s) (h : isSpace c = false) : strip s ≠ [] := by
  intro hnil
  obtain ⟨a, b, heq, ha, hb⟩ := exists_eq_strip s
  rw [hnil, List.append_nil] at heq
  rw [heq] at hc
  rcases List.mem_append.1 hc with hc | hc
  · rw [ha c hc] at h
    exact nomatch h
  · rw [hb c hc] at h
    exact nomatch h

/-- A notice is not blank. -/
theorem strip_notice {r : Request} {last_error : Option Str} {ps : List Provider} {m : Str}
    (h : notice r last_error ps = some m) : strip m ≠ [] := by
  have hS : 'S' ∈ "Sorry, all configured providers failed. Last error: ".toList := by decide
  have hN : 'N' ∈ NO_ANSWER := by decide
  induction ps generalizing last_error with
  | nil =>
    obtain rfl := Option.some.inj h
    exact strip_ne_nil (List.mem_append_left _ hS) (by decide)
  | cons p ps ih =>
    rw [notice] at h
    rcases hp : heard p r with e | ⟨_ | text, c⟩
    · rw [hp] at h
      exact ih h
    · rw [hp] at h
      obtain rfl := Option.some.inj h
      exact strip_ne_nil hN (by decide)
    · rw [hp] at h
      exact nomatch h

/-! ## Failing open -/

section

variable (validate : Validator) (service : GenerationService) (override_provider : Option Provider)

/-- `generate_answer` of the service, which raises nothing. -/
def ofService : Generator := fun args => .ok (generateAnswer validate service args)

/-- What the providers are asked for a prompt. -/
def asked (prompt : Str) : Request := requestOf service (rewriteArgs override_provider prompt)

/-- The notice that the call for a prompt ends in, if it does. -/
def noticeFor (prompt : Str) : Option Str :=
  notice (asked service override_provider prompt) none (chain service override_provider)

/-- The text that the call for a prompt brings. -/
def saidFor (prompt : Str) : Str :=
  said (asked service override_provider prompt) none (chain service override_provider)

/-- The call for a prompt gets no answer from any provider. -/
def GotNoAnswer (prompt : Str) : Prop :=
  NoAnswer (asked service override_provider prompt) (chain service override_provider)

theorem ofService_answer (prompt : Str) : ∃ result : Answer,
    ofService validate service (rewriteArgs override_provider prompt) = .ok result ∧
      result.answer = saidFor service override_provider prompt :=
  ⟨_, rfl, walk_answer rfl none _⟩

theorem rewritten_failsOpen_iff (prompt query : Str) :
    (GotNoAnswer service override_provider prompt →
      (rewritten (ofService validate service) override_provider prompt query).1 = query) ↔
      ∀ m ∈ noticeFor service override_provider prompt, strip m = query := by
  obtain ⟨result, hresult, hsaid⟩ := ofService_answer validate service override_provider prompt
  rw [rewritten, hresult]
  dsimp only
  rw [hsaid]
  cases hm : noticeFor service override_provider prompt with
  | some m =>
    obtain ⟨htext, hno⟩ := said_of_notice hm
    have htext' : saidFor service override_provider prompt = m := htext
    rw [htext', if_pos (strip_notice hm)]
    exact ⟨fun h m' hm' => Option.some.inj hm' ▸ h hno, fun h _ => h m rfl⟩
  | none =>
    refine iff_of_true (fun hno => ?_) nofun
    have htext : saidFor service override_provider prompt = [] := said_of_noAnswer hm hno
    rw [htext, if_neg (by simp)]

variable (table : Unicode)

/-- What is asked of the variants of a query. -/
def GoodVariants (query : Str) (n : ℤ) (variants : List Str) : Prop :=
  variants.head? = some query ∧ (variants.length : ℤ) ≤ max n 1 ∧ query ∉ variants.tail

theorem query_not_mem_others (query answer : Str) : query ∉ others table query answer := by
  intro hmem
  have hne := (List.mem_filter.1 hmem).2
  simp at hne

/-- The query and the first `k` of the other lines. -/
theorem goodVariants_cons_iff {query answer : Str} {k : ℕ} {n : ℤ} :
    GoodVariants query n (query :: (others table query answer).take k) ↔
      ((min k (others table query answer).length : ℕ) : ℤ) + 1 ≤ max n 1 := by
  have hmem : query ∉ (others table query answer).take k := fun h =>
    query_not_mem_others table query answer (List.mem_of_mem_take h)
  simp [GoodVariants, hmem]

/-- The variants are the query and the beginning of the other lines, unless they are empty. -/
theorem sliced_variants (query : Str) (lines : List Str) (n : ℤ) :
    (if n < ((query :: lines).length : ℤ) then sliceTo (query :: lines) n else query :: lines) =
      if 1 ≤ n then query :: lines.take (n.toNat - 1)
      else if n < 0 ∧ n.natAbs ≤ lines.length then query :: lines.take (lines.length - n.natAbs)
      else [] := by
  rw [List.length_cons, sliceTo, List.length_cons]
  by_cases hn : 1 ≤ n
  · obtain ⟨k, rfl⟩ : ∃ k : ℕ, n = k + 1 := ⟨(n - 1).toNat, by omega⟩
    have hnonneg : (0 : ℤ) ≤ k + 1 := by omega
    have hk : ((k : ℤ) + 1).toNat = k + 1 := by omega
    rw [if_pos hn, if_pos hnonneg, hk, List.take_succ_cons, Nat.add_sub_cancel]
    split_ifs with hlt
    · rfl
    · rw [List.take_of_length_le (by omega)]
  · have hlt : n < ((lines.length + 1 : ℕ) : ℤ) := by omega
    rw [if_neg hn, if_pos hlt]
    by_cases hzero : 0 ≤ n
    · have hn0 : n = 0 := by omega
      rw [if_pos hzero, if_neg (by omega), hn0]
      rfl
    · rw [if_neg hzero]
      split_ifs with hlen
      · rw [Nat.succ_sub hlen.2, List.take_succ_cons]
      · rw [Nat.sub_eq_zero_of_le (by omega), List.take_zero]

theorem multiQueryVariants_iff (query : Str) (n : ℤ) :
    (GotNoAnswer service override_provider (multiQueryPrompt n query) →
        (multiQueryVariants (ofService validate service) override_provider table query n).1 =
          [query]) ∧
      GoodVariants query n
        (multiQueryVariants (ofService validate service) override_provider table query n).1 ↔
      1 ≤ n ∧ (n = 1 ∨ ∀ m ∈ noticeFor service override_provider (multiQueryPrompt n query),
        others table query m = []) ∨
        n < 0 ∧ ((others table query
          (saidFor service override_provider (multiQueryPrompt n query))).length : ℤ) = -n := by
  obtain ⟨result, hresult, hsaid⟩ :=
    ofService_answer validate service override_provider (multiQueryPrompt n query)
  rw [multiQueryVariants, hresult]
  dsimp only
  rw [hsaid, sliced_variants]
  generalize hlines : others table query
    (saidFor service override_provider (multiQueryPrompt n query)) = lines
  by_cases hn : 1 ≤ n
  · have hgood : GoodVariants query n (query :: lines.take (n.toNat - 1)) := by
      rw [← hlines, goodVariants_cons_iff]
      omega
    have hnil : query :: lines.take (n.toNat - 1) = [query] ↔ n = 1 ∨ lines = [] := by
      rw [List.cons_eq_cons, List.take_eq_nil_iff]
      refine ⟨fun h => h.2.imp_left fun h => by omega, fun h => ⟨rfl, h.imp_left fun h => ?_⟩⟩
      omega
    have hneg : ¬ n < 0 := by omega
    rw [if_pos hn, hnil]
    simp only [hgood, hn, hneg, and_true, true_and, false_and, or_false]
    cases hm : noticeFor service override_provider (multiQueryPrompt n query) with
    | some m =>
      obtain ⟨htext, hno⟩ := said_of_notice hm
      have hlines' : others table query m = lines := by
        rw [← hlines]
        exact congrArg _ htext.symm
      refine ⟨fun h => (h hno).imp_right fun hnil m' hm' => ?_, fun h _ => h.imp_right fun h => ?_⟩
      · obtain rfl := Option.some.inj hm'
        rw [hlines', hnil]
      · rw [← hlines', h m rfl]
    | none =>
      refine iff_of_true (fun hno => .inr ?_) (.inr nofun)
      have htext : saidFor service override_provider (multiQueryPrompt n query) = [] :=
        said_of_noAnswer hm hno
      rw [← hlines, htext]
      rfl
  · rw [if_neg hn]
    have hfalse : ¬ (1 ≤ n ∧ (n = 1 ∨ ∀ m ∈ noticeFor service override_provider
        (multiQueryPrompt n query), others table query m = [])) := fun h => hn h.1
    rw [or_iff_right hfalse]
    split_ifs with hlen
    · rw [← hlines, goodVariants_cons_iff, hlines]
      refine ⟨fun h => ⟨hlen.1, by have := h.2; omega⟩, fun h => ⟨fun _ => ?_, by omega⟩⟩
      have hzero : lines.length - n.natAbs = 0 := by omega
      rw [hzero, List.take_zero]
    · refine iff_of_false (fun h => ?_) fun h => hlen ⟨h.1, by omega⟩
      exact nomatch h.2.1

/-- Rewriting fails open: a call without an answer leaves the query as it is, and the variants are
the query with few others. -/
def FailsOpen (query history : Str) (n : ℤ) : Prop :=
  let generate := ofService validate service
  let variants := (multiQueryVariants generate override_provider table query n).1
  (GotNoAnswer service override_provider (contextualPrompt history query) →
    (contextualRewrite generate override_provider query history).1 = query) ∧
  (GotNoAnswer service override_provider (hydePrompt query) →
    (hydeDocument generate override_provider query).1 = query) ∧
  (GotNoAnswer service override_provider (multiQueryPrompt n query) → variants = [query]) ∧
  GoodVariants query n variants

/-- **Rewriting fails open** exactly if the notices that calls end in do no harm, and `n` is
positive or cuts off just the lines that the call brought. -/
theorem rewrites_failOpen_iff (query history : Str) (n : ℤ) :
    FailsOpen validate service override_provider table query history n ↔
      (history = [] ∨ ∀ m ∈ noticeFor service override_provider (contextualPrompt history query),
        strip m = query) ∧
      (∀ m ∈ noticeFor service override_provider (hydePrompt query), strip m = query) ∧
      (1 ≤ n ∧ (n = 1 ∨ ∀ m ∈ noticeFor service override_provider (multiQueryPrompt n query),
        others table query m = []) ∨
        n < 0 ∧ ((others table query
          (saidFor service override_provider (multiQueryPrompt n query))).length : ℤ) = -n) := by
  rw [FailsOpen]
  refine and_congr ?_ (and_congr ?_ (multiQueryVariants_iff ..))
  · rw [contextualRewrite]
    split_ifs with h
    · exact iff_of_true (fun _ => rfl) (.inl h)
    · rw [or_iff_right h]
      exact rewritten_failsOpen_iff ..
  · exact rewritten_failsOpen_iff ..

end

namespace Sample

open Generation.Sample

/-- A service whose only provider is down. -/
def outage : GenerationService := serviceOf ⟨keyed ['a'], down⟩ []

/-- The apology for the outage is searched for instead of the question. -/
theorem apology_searched : ¬ FailsOpen noValidation outage none .ascii "pricing?".toList [] 3 := by
  rintro ⟨-, hhyde, -, -⟩
  have hsame := hhyde trivial
  revert hsame
  decide

end Sample

end RagLeap.Rag.QueryRewrite
