import RagLeap.Foundations.Text
import RagLeap.Foundations.Prog

/-!
# Fetching a page

`fetch_page` of `core/page_fetch.py`: every redirect hop is validated, resolved and requested
again. Each way it returns is a constructor of `Result`, with the text handed to the caller as
`Result.render`. The URL checks, name resolution and the request itself are statements.
-/

namespace RagLeap.PageFetch

def MAX_REDIRECTS : ℕ := 3
def MAX_RESULT_CHARS : ℕ := 4000

def ALLOWED_TYPES : List Str := ["text/html", "text/plain", "application/json"].map String.toList

/-- The codes of `_Refused`. -/
inductive Refusal
  | length | chars | scheme | creds | port | host | ip | allowlist | nonPublic | noResolve
  | redirect | tooLarge | tooSlow
  deriving DecidableEq

/-- `_REASONS`. -/
def Refusal.reason : Refusal → Str
  | length => "bad url length".toList
  | chars => "invalid characters in url".toList
  | scheme => "https only".toList
  | creds => "credentials not allowed".toList
  | port => "port not allowed".toList
  | host => "bad host".toList
  | ip => "ip addresses not allowed".toList
  | allowlist => "host not on the allowlist".toList
  | nonPublic => "host resolves to a non-public address".toList
  | noResolve => "host did not resolve".toList
  | redirect => "redirect without a location".toList
  | tooLarge => "response too large".toList
  | tooSlow => "response too slow".toList

/-- What `fetch_page` came to. -/
inductive Result
  | disabled
  | refused (why : Refusal)
  | tooManyRedirects
  | badStatus (status : ℕ) (host : Str)
  | badType (ctype : Str)
  | fetched (host path text : Str)
  | failed
  deriving DecidableEq

/-- The line that heads a fetched page. -/
def head (host path : Str) : Str :=
  "Page fetch: https://".toList ++ host ++ path.take 120 ++ " (HTTP 200)".toList

/-- The text `fetch_page` returns. -/
def Result.render : Result → Str
  | disabled => "Page fetch: refused (not enabled)".toList
  | refused why => "Page fetch: refused (".toList ++ why.reason ++ ")".toList
  | tooManyRedirects => "Page fetch: refused (too many redirects)".toList
  | badStatus status host =>
    "Page fetch: HTTP ".toList ++ Str.ofNat status ++ " from ".toList ++ host
  | badType ctype =>
    "Page fetch: refused (content type ".toList ++ (if ctype = [] then "unknown".toList else ctype)
      ++ " not allowed)".toList
  | fetched host path text =>
    (head host path ++ '\n' :: Str.strip text).take MAX_RESULT_CHARS
  | failed => "Page fetch: failed; see server logs.".toList

/-- The answer of a step that may refuse or raise anything else. -/
inductive Reply (α : Type)
  | ok (a : α)
  | refused (why : Refusal)
  | raised

/-- `(status, location, ctype, text)`: what `_request` returns, the body decoded. -/
structure Response where
  status : ℕ
  location : Str
  ctype : Str
  text : Str

inductive Op
  | enabled
  | validateUrl (url : Str)
  | resolvePublic (host : Str)
  | request (host ip path : Str)

abbrev Statements : Signature where
  Op := Op
  Res
    | .enabled => Bool
    | .validateUrl _ => Reply (Str × Str)
    | .resolvePublic _ => Reply Str
    | .request .. => Reply Response

variable (urljoin : Str → Str → Str) (htmlToText : Str → Str)

/-- What follows a checked `_Refused` or any other exception. -/
def Reply.andThen {α : Type} (r : Reply α) (f : α → Prog Statements Result) :
    Prog Statements Result :=
  match r with
  | .ok a => f a
  | .refused why => .ret (.refused why)
  | .raised => .ret .failed

/-- The redirect loop, with the hops left. -/
def follow : ℕ → Str → Prog Statements Result
  | 0, _ => .ret .tooManyRedirects
  | hops + 1, current =>
    .op (.validateUrl current) fun r => Reply.andThen r fun (host, path) =>
      .op (.resolvePublic host) fun r => Reply.andThen r fun ip =>
        .op (.request host ip path) fun r => Reply.andThen r fun resp =>
          if 300 ≤ resp.status ∧ resp.status < 400 then
            if resp.location = [] then .ret (.refused .redirect)
            else follow hops (urljoin current resp.location)
          else if resp.status ≠ 200 then .ret (.badStatus resp.status host)
          else if resp.ctype ∉ ALLOWED_TYPES then .ret (.badType resp.ctype)
          else
            let text := if resp.ctype = "text/html".toList then htmlToText resp.text else resp.text
            .ret (.fetched host path text)

def fetchPage (url : Str) : Prog Statements Result :=
  .op .enabled fun on =>
    if ¬ on then .ret .disabled else follow urljoin htmlToText (MAX_REDIRECTS + 1) (Str.strip url)

/-! ## What a fetched page shows -/

/-- Typestate of a fetch: the URL that was validated last. -/
def validated : Protocol Statements where
  Phase := Option (Str × Str)
  permits
    | v, .request host _ path => v = some (host, path)
    | _, _ => True
  next
    | _, .validateUrl _, .ok v => some (some v)
    | v, _, _ => some v

/-- Every request goes to the host and path that passed the checks last, and a fetched page is
reported under them. -/
theorem follow_validated (hops : ℕ) (url : Str) (v : Option (Str × Str)) :
    (follow urljoin htmlToText hops url).Follows validated
      (fun v r => ∀ host path text, r = .fetched host path text → v = some (host, path)) v := by
  induction hops generalizing url v with
  | zero => exact fun _ _ _ h => by cases h
  | succ hops ih =>
    refine ⟨trivial, fun r v₁ h₁ => ?_⟩
    cases r with
    | refused why => exact fun _ _ _ h => by cases h
    | raised => exact fun _ _ _ h => by cases h
    | ok target =>
      obtain ⟨host, path⟩ := target
      cases h₁
      refine ⟨trivial, fun r v₂ h₂ => ?_⟩
      cases h₂
      cases r with
      | refused why => exact fun _ _ _ h => by cases h
      | raised => exact fun _ _ _ h => by cases h
      | ok ip =>
        refine ⟨rfl, fun r v₃ h₃ => ?_⟩
        cases h₃
        cases r with
        | refused why => exact fun _ _ _ h => by cases h
        | raised => exact fun _ _ _ h => by cases h
        | ok resp =>
          simp only [Reply.andThen]
          split_ifs
          · exact fun _ _ _ h => by cases h
          · exact ih _ _
          · exact fun _ _ _ h => by cases h
          · rintro _ _ _ ⟨⟩
            rfl
          · rintro _ _ _ ⟨⟩
            rfl
          · exact fun _ _ _ h => by cases h

/-- A fetched page starts with the line naming its host and path, cut where the whole text is. -/
theorem Result.firstLine_render_fetched (host path text : Str) :
    Str.firstLine (Result.fetched host path text).render =
      Str.firstLine ((head host path).take MAX_RESULT_CHARS) :=
  Str.firstLine_take_append _ _ _

end RagLeap.PageFetch
