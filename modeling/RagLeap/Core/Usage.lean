import RagLeap.Foundations.Text

/-!
# The usage ledger

`record_usage` (`core.budget`) writes one row for a model call: the tokens its provider reports,
or an estimate from the texts. The row carries the role the current call chain works for.
-/

namespace RagLeap.Budget

/-- What `_resolve_provider_config` returns, as far as a call and its ledger row name it. -/
structure Config where
  provider : Str
  model : Str
  deriving DecidableEq

/-- The tokens a provider reports. -/
structure Reported where
  promptTokens : Option ℤ
  completionTokens : Option ℤ

/-- A row of `llm_usage`. -/
structure UsageRow where
  role : Option Str
  provider : Str
  model : Str
  promptTokens : ℤ
  completionTokens : ℤ
  totalTokens : ℤ
  estimated : Bool
  deriving DecidableEq

/-- `estimate_tokens`: four characters to a token. -/
def estimateTokens (text : Str) : ℤ := if text = [] then 0 else ((text.length + 3) / 4 : ℕ)

/-- The row of `record_usage`. -/
def recordUsage (role : Option Str) (config : Config) (prompt text : Str)
    (usage : Option Reported) : UsageRow :=
  let promptTokens := usage.bind Reported.promptTokens
  let completionTokens := usage.bind Reported.completionTokens
  { role
    provider := config.provider
    model := config.model
    promptTokens := promptTokens.getD (estimateTokens prompt)
    completionTokens := completionTokens.getD (estimateTokens text)
    totalTokens := promptTokens.getD (estimateTokens prompt) +
      completionTokens.getD (estimateTokens text)
    estimated := promptTokens.isNone || completionTokens.isNone }

end RagLeap.Budget
